import LibPM.Arena.Basic
import LibPM.Session.Checkpoint

/-!
# The objects of a session

Every operation leaves the objects that were handed out before in their places and in use, and only a store of the
application changes their bytes (`Carries`). An object is a slot of the data page of its entry if the slots fit.
-/

namespace LibPM

open Recorded Recorded.Prog Arena

/-! ## Objects -/

/-- All slots of an entry for objects of `n` bytes lie in its page. -/
def SlotsFit (n : ℕ) : Prop := slabEntryDataoffset n + slabEntryCapacity n * n ≤ pageSize

instance : DecidablePred SlotsFit := fun _ => inferInstanceAs (Decidable (_ ≤ pageSize))

/-- The objects of four sizes do not fit. -/
theorem slotsFit_iff : ∀ k < 513, k ≠ 0 → (SlotsFit (8 * k) ↔ 8 * k ∉ [8, 16, 24, 56]) := by
  decide +kernel

theorem slabEntryCapacity_pos {n : ℕ} (h0 : n ≠ 0) (hn : n ≤ pageSize) : 0 < slabEntryCapacity n := by
  unfold slabEntryCapacity
  split_ifs with hlarge
  · refine Nat.div_pos ?_ (Nat.pos_of_ne_zero h0)
    unfold slabLargeAlloc at hlarge
    unfold bitstrSize pageSize
    omega
  · exact Nat.div_pos hn (Nat.pos_of_ne_zero h0)

/-- The slot `k` of entry `i`. -/
def View.object (v : View) (i k : ℕ) : Span :=
  ⟨(v.entry i).dataCurrent.maddr + slabEntryDataoffset (v.entry i).seSize + k * (v.entry i).seSize, (v.entry i).seSize⟩

namespace Pm

/-- The object `k` of entry `i` was handed out. -/
structure Given (s : Pm) (v : View) (i k : ℕ) : Prop where
  used : i < v.used
  index : k < slabEntryCapacity (v.entry i).seSize
  fits : SlotsFit (v.entry i).seSize
  inUse : s.inUse v i k = true

/-- The objects stay where they are and in use, and only bytes at the addresses `A` change in them. -/
structure Carries (s : Pm) (v : View) (A : Set ℕ) (s' : Pm) (v' : View) : Prop where
  base : v'.base = v.base
  used : v.used ≤ v'.used
  maddr : ∀ i < v.used, (v'.entry i).dataCurrent.maddr = (v.entry i).dataCurrent.maddr
  seSize : ∀ i < v.used, (v'.entry i).seSize = (v.entry i).seSize
  inUse : ∀ i < v.used, ∀ k < slabEntryCapacity (v.entry i).seSize, s.inUse v i k = true → s'.inUse v' i k = true
  bytes : ∀ i < v.used, ∀ p, (v.entry i).dataCurrent.maddr = v.addr p → ∀ x, slabEntryDataoffset (v.entry i).seSize ≤ x →
    v.addr p + x ∉ A → s'.restBytes v'.n p x = s.restBytes v.n p x

variable {s s' s'' t : Pm} {v v' v'' : View} {lost lost' : Multiset ℕ} {A W : Set ℕ} {a i j k l n p q x : ℕ} {b : UInt8}
  {u : Unit}

theorem object_eq_slot (hp : (v.entry i).dataCurrent.maddr = v.addr p) :
    v.object i k = slot v.base pageSize p (slabEntryDataoffset (v.entry i).seSize) (v.entry i).seSize k := by
  unfold View.object slot
  rw [hp]
  rfl

/-- An address of an object is an offset in the data page of its entry, past the bitmap. -/
theorem Given.offset (hg : s.Given v i k) (hp : (v.entry i).dataCurrent.maddr = v.addr p) (ha : (v.object i k).Has a) :
    ∃ x, a = v.addr p + x ∧ slabEntryDataoffset (v.entry i).seSize ≤ x ∧ x < pageSize := by
  rw [object_eq_slot hp] at ha
  obtain ⟨hle, hlt⟩ := ha.block hg.index hg.fits
  unfold Places.addr
  refine ⟨a - (v.base + p * pageSize), ?_, ?_, ?_⟩ <;> omega

theorem Shows.byteAt (h : s.Shows v) (hp : p < v.n) (hx : x < pageSize) :
    s.byteAt (v.addr p + x) = some (s.restBytes v.n p x) := by
  obtain ⟨hround, hoff⟩ := h.addr_add p hx
  unfold Pm.byteAt
  rw [hround, hoff, h.pageAt hp]
  unfold Pm.restBytes Pm.filePage
  rw [if_pos hp]
  rfl

/-- Two objects that were handed out are apart. -/
theorem Holds.apart (h : s.Holds v lost) (hi : s.Given v i k) (hj : j < v.used) (hl : l < slabEntryCapacity (v.entry j).seSize)
    (hfit : SlotsFit (v.entry j).seSize) (hne : i = j → k ≠ l) : (v.object i k).Apart (v.object j l) := by
  obtain ⟨p, hp, -⟩ := h.data hi.used
  obtain ⟨q, hq, -⟩ := h.data hj
  rw [object_eq_slot hp, object_eq_slot hq]
  by_cases hij : i = j
  · subst hij
    obtain rfl : p = q := v.addr_injective (hp.symm.trans hq)
    exact slot_apart_of_index (hne rfl)
  · have hpq : p ≠ q := by
      rintro rfl
      exact hij (h.ok.data_inj h.linked h.balanced hi.used hj (hp.trans hq.symm))
    exact slot_apart_of_block hpq hi.index hi.fits hl hfit

namespace Carries

theorem object (h : s.Carries v A s' v') (hi : i < v.used) : v'.object i k = v.object i k := by
  unfold View.object
  rw [h.maddr i hi, h.seSize i hi]

theorem given (h : s.Carries v A s' v') (hg : s.Given v i k) : s'.Given v' i k := by
  have hs := h.seSize i hg.used
  refine ⟨hg.used.trans_le h.used, ?_, ?_, h.inUse i hg.used k hg.index hg.inUse⟩
  · rw [hs]
    exact hg.index
  · rw [hs]
    exact hg.fits

theorem addr (h : s.Carries v A s' v') (p : ℕ) : v'.addr p = v.addr p := by
  unfold Places.addr
  rw [h.base]

theorem trans (h : s.Carries v A s' v') (h' : s'.Carries v' A s'' v'') : s.Carries v A s'' v'' := by
  refine ⟨h'.base.trans h.base, h.used.trans h'.used, fun i hi => ?_, fun i hi => ?_, fun i hi k hk hin => ?_,
    fun i hi p hp x hx hA => ?_⟩
  · rw [h'.maddr i (hi.trans_le h.used), h.maddr i hi]
  · rw [h'.seSize i (hi.trans_le h.used), h.seSize i hi]
  · refine h'.inUse i (hi.trans_le h.used) k ?_ (h.inUse i hi k hk hin)
    rwa [h.seSize i hi]
  · rw [h'.bytes i (hi.trans_le h.used) p ?_ x ?_ ?_, h.bytes i hi p hp x hx hA]
    · rw [h.maddr i hi, hp, h.addr]
    · rwa [h.seSize i hi]
    · rwa [h.addr]

/-- A byte of an object that is not stored to. -/
theorem byteAt (h : s.Carries v A s' v') (hh : s.Holds v lost) (hh' : s'.Holds v' lost') (hg : s.Given v i k)
    (ha : (v.object i k).Has a) (hA : a ∉ A) : s'.byteAt a = s.byteAt a := by
  obtain ⟨p, hp, -, hlt, -⟩ := hh.data hg.used
  obtain ⟨x, rfl, hle, hx⟩ := hg.offset hp ha
  have hp' : (v'.entry i).dataCurrent.maddr = v'.addr p := by rw [h.maddr i hg.used, hp, h.addr]
  have hlt' : p < v'.n := (hh'.ok.isData_facts hh'.linked hh'.balanced ⟨i, hg.used.trans_le h.used, hp'⟩).1
  rw [hh.shows.byteAt hlt hx, ← h.addr, hh'.shows.byteAt hlt' hx, h.bytes i hg.used p hp x hle hA]

end Carries

/-! ## What an operation carries over -/

/-- A step that stores to no page at rest. -/
theorem Evolves.carries (h : s.Evolves v ∅ s' v') (hh : s.Holds v lost) : s.Carries v ∅ s' v' := by
  refine ⟨h.base, h.used, h.maddr, h.seSize, fun i hi k _ hk => ?_, fun i hi p hp x _ _ => ?_⟩
  · obtain ⟨p, hp, -⟩ := hh.data hi
    rw [h.inUse hi hp (Set.notMem_empty p)]
    exact hk
  · rw [h.bytes p (.inr (.inr (h.isData ⟨i, hi, hp⟩))) (Set.notMem_empty p)]

/-- **An allocation.** -/
theorem Allocated.carries (h : s.Allocated v n a i p s' v' lost') (hh : s.Holds v lost) : s.Carries v ∅ s' v' := by
  have hv := h.evolves
  -- only the entry of the new object has the page that is stored to
  have hpage : ∀ j < v.used, ∀ q, (v.entry j).dataCurrent.maddr = v.addr q → (q = p ↔ j = i) := by
    intro j hj q hq
    have hq' : (v'.entry j).dataCurrent.maddr = v'.addr q := by rw [hv.maddr j hj, hq, hv.addr]
    constructor
    · rintro rfl
      have hh' := h.ready.holds
      exact hh'.ok.data_inj hh'.linked hh'.balanced (hj.trans_le hv.used) h.lt (hq'.trans h.maddr.symm)
    · rintro rfl
      exact v'.addr_injective (hq'.symm.trans h.maddr)
  refine ⟨hv.base, hv.used, hv.maddr, hv.seSize, fun j hj k hk hin => ?_, fun j hj q hq x hx _ => ?_⟩
  · obtain ⟨q, hq, -⟩ := hh.data hj
    by_cases hqp : q = p
    · obtain rfl := (hpage j hj q hq).mp hqp
      have hsize : (v.entry j).seSize = n := by rw [← hv.seSize j hj, h.seSize]
      rcases h.object with ⟨-, hnew, -⟩ | ⟨l, -, -, -, hbits⟩
      · omega
      · rw [hbits k (hsize ▸ hk)]
        unfold bitBefore
        rw [if_pos hj, hin, Bool.or_true]
    · rw [hv.inUse hj hq hqp]
      exact hin
  · by_cases hqp : q = p
    · obtain rfl := (hpage j hj q hq).mp hqp
      rw [hqp]
      refine h.bytes x ?_
      rwa [← h.seSize, hv.seSize j hj]
    · rw [hv.bytes q (.inr (.inr (hv.isData ⟨j, hj, hq⟩))) hqp]

/-- The new object, if its size fits. -/
theorem Allocated.given (h : s.Allocated v n a i p s' v' lost') (ha : a ≠ 0) (hfit : SlotsFit n) :
    ∃ k, s'.Given v' i k ∧ v'.object i k = ⟨a, n⟩ ∧ s.bitBefore v i n p k = false := by
  rcases h.object with ⟨h0, -⟩ | ⟨k, hk, hclear, hav, hbits⟩
  · exact absurd h0 ha
  · refine ⟨k, ⟨h.lt, ?_, ?_, ?_⟩, ?_, hclear⟩
    · rw [h.seSize]
      exact hk
    · rw [h.seSize]
      exact hfit
    · rw [hbits k hk, decide_eq_true rfl, Bool.true_or]
    · unfold View.object
      rw [h.maddr, h.seSize, hav]

/-- The new object is apart from those handed out before. -/
theorem Allocated.apart (h : s.Allocated v n a i p s' v' lost') (hh : s.Holds v lost) (ha : a ≠ 0) (hfit : SlotsFit n)
    (hg : s.Given v j l) : (Span.mk a n).Apart (v.object j l) := by
  obtain ⟨k, hk, hobj, hclear⟩ := h.given ha hfit
  have hc := h.carries hh
  have hg' := hc.given hg
  rw [← hobj, ← hc.object hg.used]
  refine h.ready.holds.apart hk hg'.used hg'.index hg'.fits fun hij hkl => ?_
  subst hij hkl
  unfold bitBefore at hclear
  rw [if_pos hg.used, hg.inUse] at hclear
  cases hclear

/-- A checkpoint moves no object and changes none. -/
theorem SameContents.carries (h : s.SameContents v.toPlaces s') (hc : v.Checkpoint v') (hh : s.Holds v lost) :
    s.Carries v ∅ s' v' := by
  obtain ⟨pa, prot, file, sizes, hs'⟩ := h.same
  have hbytes : ∀ i < v.used, ∀ p, (v.entry i).dataCurrent.maddr = v.addr p → s'.restBytes v'.n p = s.restBytes v.n p := by
    intro i hi p hp
    obtain ⟨hlt, -, hmeta, -⟩ := hh.ok.isData_facts hh.linked hh.balanced ⟨i, hi, hp⟩
    have hpage := h.page p hlt hmeta
    have hraw : s'.bytesOf = s.bytesOf := by
      rw [hs']
      rfl
    unfold Pm.restBytes Pm.filePage
    rw [hc.placed.n, if_pos hlt, if_pos hlt, hraw]
    exact congrArg s.bytesOf hpage
  refine ⟨hc.placed.base, hc.used.ge, fun i _ => by rw [(hc.current i).1], fun i _ => (hc.current i).2.2.1,
    fun i hi k _ hin => ?_, fun i hi p hp x _ _ => by rw [hbytes i hi p hp]⟩
  obtain ⟨p, hp, -⟩ := hh.data hi
  have hmap : s'.mapByte v' i (k / 8) = s.mapByte v i (k / 8) := by
    unfold Pm.mapByte
    rw [(hc.current i).1, (hc.current i).2.2.1, hc.placed.base, hp, show pageNo v.base (v.addr p) = p from pageNo_add v.base p,
      hbytes i hi p hp]
  unfold Pm.inUse at hin ⊢
  rw [hmap]
  exact hin

/-! ## Pages that change -/

/-- A page that has other bytes could be written before, or its entry is dirty. -/
structure Follows (s : Pm) (v : View) (s' : Pm) (v' : View) : Prop where
  evolves : s.Evolves v Set.univ s' v'
  cap : v.cap ≤ v'.cap
  dirty : ∀ p, v.IsData p → s'.restBytes v'.n p ≠ s.restBytes v.n p → s.Open v.n p ∨ v'.Dirty p

theorem Follows.refl (s : Pm) (v : View) : s.Follows v s v :=
  ⟨.refl s v _, Nat.le_refl _, fun _ _ hne => absurd rfl hne⟩

theorem Evolves.follows (h : s.Evolves v W s' v') (hcap : v.cap ≤ v'.cap)
    (ho : ∀ p ∈ W, v'.IsData p → s'.restBytes v'.n p ≠ s.restBytes v.n p → s'.Open v'.n p) : s.Follows v s' v' := by
  refine ⟨h.mono (Set.subset_univ W), hcap, fun p hp hne => ?_⟩
  have hdata := h.isData hp
  refine h.closed p (.inr (.inr hdata)) (ho p ?_ hdata hne)
  by_contra hW
  exact hne (h.bytes p (.inr (.inr hdata)) hW)

theorem Follows.trans (h : s.Follows v s' v') (h' : s'.Follows v' s'' v'') (hh' : s'.Holds v' lost') :
    s.Follows v s'' v'' := by
  refine ⟨hh'.trans h.evolves h'.evolves h.cap, h.cap.trans h'.cap, fun p hp hne => ?_⟩
  have hdata := h.evolves.isData hp
  have hkeep : v'.Dirty p → v''.Dirty p := h'.evolves.dirty (hh'.ok.used.trans hh'.ok.taken)
  by_cases heq : s'.restBytes v'.n p = s.restBytes v.n p
  · rw [← heq] at hne
    rcases h'.dirty p hdata hne with hopen | hdirty
    · exact (h.evolves.closed p (.inr (.inr hdata)) hopen).imp_right hkeep
    · exact .inr hdirty
  · exact (h.dirty p hp heq).imp_right hkeep

/-! ## A store to an object -/

theorem MadeWritable.bitmap (hw : s.MadeWritable v lost p t v' lost') (i : ℕ) :
    (v'.entry i).dataCurrent.bitmap = (v.entry i).dataCurrent.bitmap := by
  cases hw with
  | «open» _ => rfl
  | @fault t j n q free torn e _ _ _ hf =>
    exact View.setEntry_cases (v := v) (i := j) (e := e)
      (P := fun i x => x.dataCurrent.bitmap = (v.entry i).dataCurrent.bitmap) hf.snapped.bitmap (fun _ _ => rfl) i

/-- **A store to an object** changes the byte at its address only. -/
theorem Holds.storeObject (h : s.Holds v lost) (hg : s.Given v i k) (ha : (v.object i k).Has a)
    (hr : Returns (LibPM.storeByte a b) s u s') : ∃ p v' lost', v.IsData p ∧ s'.Open v'.n p ∧ s'.Holds v' lost' ∧
      v.Kept v' ∧ s.Evolves v {p} s' v' ∧ s.Carries v {a} s' v' ∧ s'.byteAt a = some b := by
  obtain ⟨q, hq, -, hltq, -⟩ := h.data hg.used
  obtain ⟨y, rfl, hle, hy⟩ := hg.offset hq ha
  obtain ⟨hround, hoff⟩ := h.shows.addr_add q hy
  obtain ⟨p, t, v', lost', old, hp, -, -, hw, hopen, hold, rfl, hh, hv⟩ := h.storeByte hr
  obtain rfl : q = p := v.addr_injective (hround.symm.trans hp)
  rw [hoff] at hh hv ⊢
  have hdata : v.IsData q := ⟨i, hg.used, hq⟩
  have ht := hw.holds h
  have hbefore : s.restBytes v.n q = old := by
    rw [← hw.bytes hdata]
    unfold Pm.restBytes Pm.filePage
    rw [if_pos hopen.1]
    show t.bytesOf (t.page q) = old
    rw [hold]
    rfl
  have hafter := ht.shows.restBytes_setPage hopen.1 (Function.update old y b)
  refine ⟨q, v', lost', hdata, hopen, hh, hw.kept, hv, ?_, ?_⟩
  · refine ⟨hv.base, hv.used, hv.maddr, hv.seSize, fun j hj l hl hin => ?_, fun j hj r hr x _ hx => ?_⟩
    · obtain ⟨r, hr, -⟩ := h.data hj
      by_cases hrq : r = q
      · -- the bitmap lies before the byte
        have hmap : Pm.mapByte (t.setPage (t.vmap q) (.data (Function.update old y b))) v' j (l / 8) =
            s.mapByte v j (l / 8) := by
          unfold Pm.mapByte
          rw [hv.seSize j hj, hw.bitmap]
          by_cases hlarge : (v.entry j).seSize ≥ slabLargeAlloc
          · rw [if_pos hlarge, if_pos hlarge]
          · have hij : j = i := h.ok.data_inj h.linked h.balanced hj hg.used (by rw [hr, hq, hrq])
            have hlt := div_eight_lt_dataoffset hl (Nat.not_le.mp hlarge)
            rw [if_neg hlarge, if_neg hlarge, hv.maddr j hj, hv.base, hr, hrq,
              show pageNo v.base (v.addr q) = q from pageNo_add v.base q, hafter, hbefore]
            refine Function.update_of_ne (fun heq => ?_) ..
            rw [hij] at hlt
            omega
        unfold Pm.inUse at hin ⊢
        rw [hmap]
        exact hin
      · rw [hv.inUse hj hr hrq]
        exact hin
    · by_cases hrq : r = q
      · rw [hrq] at hx ⊢
        rw [hafter, hbefore]
        exact Function.update_of_ne (fun hxy => hx (by rw [hxy]; rfl)) ..
      · rw [hv.bytes r (.inr (.inr (hv.isData ⟨j, hj, hr⟩))) hrq]
  · rw [← hv.addr, hh.shows.byteAt hopen.1 hy, hafter, Function.update_self]

end Pm

end LibPM

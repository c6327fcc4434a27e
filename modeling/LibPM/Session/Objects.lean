import LibPM.Session.Bitmap
import LibPM.Session.Slots

/-!
# Marking an object

What `slab_entry_alloc_mem` does to the entry it is given, and what a fault on the data page of an entry
leaves as it is.
-/

namespace LibPM

open Recorded Recorded.Prog

namespace View

/-! ## The tree and the free list stay -/

/-- `v'` has the tree and the free list of `v`. -/
structure Steady (v v' : View) : Prop where
  base : v'.base = v.base
  inners : v'.inners = v.inners
  buckets : v'.buckets = v.buckets
  bucketPage : v'.bucketPage = v.bucketPage
  linked : v'.linked = v.linked
  taken : v'.taken = v.taken
  soIndex : v'.outer.soIndex = v.outer.soIndex
  freeList : v'.dir.sdFreeList = v.dir.sdFreeList
  link : ∀ i, v.taken ≤ i → i < v.cap → (v'.entry i).seList = (v.entry i).seList

/-- `v'` has the queues and the sizes of the entries as well. -/
structure Touched (v v' : View) : Prop extends v.Steady v' where
  used : v'.used = v.used
  sizes : v'.sizes = v.sizes
  seSize : ∀ i < v.used, (v'.entry i).seSize = (v.entry i).seSize

variable {v v' v'' : View} {i : ℕ} {e : SlabEntry}

theorem Steady.refl (v : View) : v.Steady v :=
  ⟨rfl, rfl, rfl, rfl, rfl, rfl, rfl, rfl, fun _ _ _ => rfl⟩

theorem Steady.cap (h : v.Steady v') : v'.cap = v.cap := by
  unfold Places.cap
  rw [h.buckets]

theorem Steady.ref (h : v.Steady v') (i : ℕ) : v'.ref i = v.ref i := by
  unfold Places.ref Places.addr
  rw [h.bucketPage, h.base]

theorem Steady.trans (h : v.Steady v') (h' : v'.Steady v'') : v.Steady v'' := by
  refine ⟨h'.base.trans h.base, h'.inners.trans h.inners, h'.buckets.trans h.buckets,
    h'.bucketPage.trans h.bucketPage, h'.linked.trans h.linked, h'.taken.trans h.taken,
    h'.soIndex.trans h.soIndex, h'.freeList.trans h.freeList, fun i hi hc => ?_⟩
  rw [h'.link i (h.taken.symm ▸ hi) (h.cap.symm ▸ hc), h.link i hi hc]

theorem Steady.complete (h : v.Steady v') (hc : v.Complete) : v'.Complete := by
  refine ⟨?_, ?_, ?_, ?_⟩
  · rw [h.soIndex, h.inners]
    exact hc.soIndex
  · rw [h.linked, h.buckets]
    exact hc.linked
  · rw [h.buckets]
    exact hc.pos
  · rw [h.inners, h.buckets]
    exact hc.span

theorem Steady.freeRange (h : v.Steady v') (hf : v.FreeRange v.taken v.cap) :
    v'.FreeRange v'.taken v'.cap := by
  have hqueue : v'.queue .free = v.queue .free := h.freeList
  rw [h.taken, h.cap]
  refine ⟨?_, ?_, fun i hi hc => ?_⟩
  · rw [hqueue, hf.first, h.ref]
  · rw [hqueue, hf.last, h.ref]
  · rw [h.link i hi hc, hf.next i hi hc, h.ref]

theorem steady_sized (v : View) (n : ℕ) (free : List ℕ) : v.Steady (v.sized n free) :=
  ⟨rfl, rfl, rfl, rfl, rfl, rfl, rfl, rfl, fun _ _ _ => rfl⟩

theorem steady_setSlot (v : View) (b : ℕ) (cur snap : Slot) : v.Steady (v.setSlot b cur snap) :=
  ⟨rfl, rfl, rfl, rfl, rfl, rfl, rfl, rfl, fun _ _ _ => rfl⟩

theorem steady_setEntry (he : e.seList = (v.entry i).seList) : v.Steady (v.setEntry i e) :=
  ⟨rfl, rfl, rfl, rfl, rfl, rfl, rfl, rfl, fun j _ _ =>
    setEntry_cases (P := fun j x => x.seList = (v.entry j).seList) he (fun _ _ => rfl) j⟩

theorem Touched.refl (v : View) : v.Touched v := ⟨.refl v, rfl, rfl, fun _ _ => rfl⟩

theorem Touched.trans (h : v.Touched v') (h' : v'.Touched v'') : v.Touched v'' :=
  ⟨h.toSteady.trans h'.toSteady, h'.used.trans h.used, h'.sizes.trans h.sizes, fun i hi => by
    rw [h'.seSize i (h.used.symm ▸ hi), h.seSize i hi]⟩

theorem Touched.queue (h : v.Touched v') (q : Queue) : v'.queue q = v.queue q := by
  cases q with
  | free => exact h.freeList
  | size n =>
    unfold View.queue
    dsimp only
    rw [h.sizes]

theorem Touched.hasQueue (h : v.Touched v') (q : Queue) : v'.HasQueue q ↔ v.HasQueue q := by
  cases q with
  | free => exact Iff.rfl
  | size n =>
    unfold HasQueue
    rw [h.sizes]

theorem touched_setEntry (he : e.seList = (v.entry i).seList) (hs : e.seSize = (v.entry i).seSize) :
    v.Touched (v.setEntry i e) :=
  ⟨steady_setEntry he, rfl, rfl, fun j _ =>
    setEntry_cases (P := fun j x => x.seSize = (v.entry j).seSize) hs (fun _ _ => rfl) j⟩

end View

namespace Pm

variable {s s' t : Pm} {v v' : View} {lost lost' : Multiset ℕ} {i j k n p : ℕ} {b : UInt8} {u : Unit}

theorem MadeWritable.touched (hw : s.MadeWritable v lost p t v' lost') : v.Touched v' := by
  cases hw with
  | «open» _ => exact .refl v
  | @fault t i n q free torn e _ _ _ hf =>
    exact ⟨⟨rfl, rfl, rfl, rfl, rfl, rfl, rfl, rfl, (View.steady_setEntry hf.snapped.link).link⟩,
      rfl, rfl, (@View.touched_setEntry v i e hf.snapped.link hf.snapped.size).seSize⟩

theorem MadeWritable.inner (hw : s.MadeWritable v lost p t v' lost') : v'.inner = v.inner := by cases hw <;> rfl

theorem MadeWritable.flag (hw : s.MadeWritable v lost p t v' lost') (b : ℕ) :
    (v'.bucket b).sbHasSnapshot = (v.bucket b).sbHasSnapshot := by
  cases hw with
  | «open» _ => rfl
  | @fault t i n q free torn e _ _ _ _ => exact View.setEntry_sbHasSnapshot _ i e b

/-! ## The bitmap after a store -/

/-- The bit of an object of a small entry is before its objects. -/
theorem div_eight_lt_dataoffset (hk : k < slabEntryCapacity n) (hn : n < slabLargeAlloc) :
    k / 8 < slabEntryDataoffset n := by
  have hcap : slabEntryCapacity n ≤ pageSize / n := by
    unfold slabEntryCapacity
    rw [if_pos hn]
    exact Nat.div_le_div_right (Nat.sub_le _ _)
  unfold slabEntryDataoffset
  rw [if_neg (Nat.not_le.mpr hn)]
  unfold bitstrSize
  omega

theorem Shows.restBytes_setPage (h : s.Shows v) (hp : p < v.n) (y : ℕ → UInt8) :
    (s.setPage (s.vmap p) (.data y)).restBytes v.n p = y := by
  have hpage : (s.setPage (s.vmap p) (.data y)).file (s.vmap p) = .data y := Function.update_self ..
  unfold Pm.restBytes Pm.filePage
  rw [if_pos hp]
  show (s.setPage (s.vmap p) (.data y)).bytesOf
    ((s.setPage (s.vmap p) (.data y)).file (s.vmap p)) = y
  rw [hpage]
  rfl

/-- A step that leaves the data page alone leaves the bitmap alone. -/
theorem Evolves.mapByte {W : Set ℕ} (h : s.Evolves v W s' v') (hi : i < v.used)
    (hp : (v.entry i).dataCurrent.maddr = v.addr p) (hW : p ∉ W) (k : ℕ) :
    s'.mapByte v' i k = s.mapByte v i k := by
  have hdata : v'.IsData p := h.isData ⟨i, hi, hp⟩
  unfold Pm.mapByte
  rw [h.seSize i hi, h.bitmap i hi p hp hW, h.maddr i hi, h.base, hp,
    show pageNo v.base (v.addr p) = p from pageNo_add v.base p,
    h.bytes p (.inr (.inr hdata)) hW]

theorem Evolves.inUse {W : Set ℕ} (h : s.Evolves v W s' v') (hi : i < v.used)
    (hp : (v.entry i).dataCurrent.maddr = v.addr p) (hW : p ∉ W) (k : ℕ) :
    s'.inUse v' i k = s.inUse v i k := by
  unfold Pm.inUse
  rw [h.mapByte hi hp hW]

/-- An object of entry `i`, whose data page is `p`, was marked. A large entry has its bitmap in the
bucket. -/
structure Marked (s : Pm) (v : View) (i p : ℕ) (s' : Pm) (v' : View) (lost' : Multiset ℕ) : Prop where
  holds : s'.Holds v' lost'
  evolves : s.Evolves v {p} s' v'
  touched : v.Touched v'
  opened : ∀ q, v'.Rests q → s'.restBytes v'.n q ≠ s.restBytes v.n q → s'.Open v'.n q
  torn : slabLargeAlloc ≤ (v.entry i).seSize → v'.torn = v.torn
  inner : v'.inner = v.inner
  flag : ∀ c, (v'.bucket c).sbHasSnapshot = (v.bucket c).sbHasSnapshot

theorem Holds.storeBitmap (h : s.Holds v lost) (hi : i < v.used) (hk : k < pageSize)
    (hp : (v.entry i).dataCurrent.maddr = v.addr p)
    (hr : Returns (storeBitmap (v.ref i) k b) s u s') :
    ∃ v' lost', s.Marked v i p s' v' lost' ∧ s'.mapByte v' i k = b ∧
      (∀ l, l ≠ k → (v.entry i).seSize < slabLargeAlloc → s'.mapByte v' i l = s.mapByte v i l) ∧
      ∀ x, ((v.entry i).seSize < slabLargeAlloc → x ≠ k) → s'.restBytes v'.n p x = s.restBytes v.n p x := by
  unfold LibPM.storeBitmap at hr
  rw [returns_bind] at hr
  obtain ⟨e, s₁, h₁, hr⟩ := hr
  obtain ⟨rfl, rfl⟩ := h.shows.loadEntry (h.lt_cap hi) h₁
  by_cases hlarge : (v.entry i).seSize ≥ slabLargeAlloc
  · -- the byte is in the entry
    rw [if_pos hlarge] at hr
    simp only [returns_bind, returns_require] at hr
    obtain ⟨_, _, ⟨-, rfl⟩, hr⟩ := hr
    obtain ⟨hs, hm⟩ := h.shows.updateEntry h.quiet (h.lt_cap hi) hr
    have he := h.ok.entry i hi
    have h0 : s.Holds v (lost + 0) := by rwa [add_zero]
    obtain ⟨hh, hv⟩ := h0.setEntry hs hm hi ⟨he.cur, he.snap, he.laddr, he.size, he.ptr, he.clean⟩
      rfl rfl rfl (W := {p}) (fun q hq hqp => absurd (v.addr_injective (hq.symm.trans hp)) hqp) rfl
      (fun _ hpair => ⟨hpair.dataCurrent, hpair.dataSnapshot, hpair.ptrCurrent, hpair.ptrSnapshot⟩) rfl
    have hbytes : ∀ q, v.Rests q → s'.restBytes v.n q = s.restBytes v.n q := fun q hq =>
      (hm.restBytes (h.rests_notMeta hq)).2
    refine ⟨_, _, ⟨hh, hv, View.touched_setEntry rfl rfl,
      fun q hq hne => absurd (hbytes q (hv.rests q hq)) hne, fun _ => rfl, rfl,
      v.setEntry_sbHasSnapshot i _⟩, ?_, fun l _ hsmall => absurd hlarge (Nat.not_le.mpr hsmall),
      fun x _ => congrFun (hbytes p (.inr (.inr ⟨i, hi, hp⟩))) x⟩
    unfold Pm.mapByte
    rw [View.setEntry_entry, if_pos hlarge]
  · -- the byte is in the data page
    rw [if_neg hlarge, hp] at hr
    obtain ⟨hround, hoff⟩ := h.shows.addr_add p hk
    obtain ⟨q, t, v', lost', y, hq, -, -, hw, hopen, hy, rfl, hh, hv⟩ := h.storeByte hr
    obtain rfl : q = p := v.addr_injective (hq.symm.trans hround)
    rw [hoff] at hh hv ⊢
    have hdata : v.IsData q := ⟨i, hi, hp⟩
    have ht := hw.holds h
    have hlt : q < v'.n := (h.ok.isData_facts h.linked h.balanced hdata).1.trans_le hw.evolves.n
    have hbytes : s.restBytes v.n q = y := by
      rw [← hw.bytes hdata]
      unfold Pm.restBytes Pm.filePage
      rw [if_pos hlt]
      show t.bytesOf (t.page q) = y
      rw [hy]
      rfl
    have hbyte : ∀ l, Pm.mapByte (t.setPage (t.vmap q) (.data (Function.update y k b))) v' i l =
        Function.update y k b l := by
      intro l
      unfold Pm.mapByte
      rw [hv.seSize i hi, if_neg hlarge, hv.maddr i hi, hv.base, hp,
        show pageNo v.base (v.addr q) = q from pageNo_add v.base q, ht.shows.restBytes_setPage hlt]
    have hchanged : ∀ r, v'.Rests r →
        (t.setPage (t.vmap q) (.data (Function.update y k b))).restBytes v'.n r ≠ s.restBytes v.n r →
        Pm.Open (t.setPage (t.vmap q) (.data (Function.update y k b))) v'.n r := by
      intro r hr hne
      obtain rfl : r = q := by
        by_contra hrq
        exact hne (hv.bytes r hr hrq)
      exact hopen
    refine ⟨v', lost', ⟨hh, hv, hw.touched, hchanged, fun hl => absurd hl hlarge, hw.inner, hw.flag⟩,
      by rw [hbyte, Function.update_self], fun l hl _ => ?_, fun x hx => ?_⟩
    · rw [hbyte, Function.update_of_ne hl]
      unfold Pm.mapByte
      rw [if_neg hlarge, hp, show pageNo v.base (v.addr q) = q from pageNo_add v.base q, hbytes]
    · rw [ht.shows.restBytes_setPage hlt, hbytes, Function.update_of_ne (hx (Nat.not_le.mp hlarge))]

/-- **`slab_entry_alloc_mem`** marks the first object that is not in use. -/
theorem Holds.slabEntryAllocMem (h : s.Holds v lost) (hi : i < v.used)
    (hp : (v.entry i).dataCurrent.maddr = v.addr p) {a : ℕ}
    (hr : Returns (slabEntryAllocMem (v.ref i)) s a s') :
    (v.entry i).seSize ≠ 0 ∧ (a = 0 ∧ s = s' ∧ s.Full v i ∨ ∃ k v' lost', s.Marked v i p s' v' lost' ∧
      k < slabEntryCapacity (v.entry i).seSize ∧ s.inUse v i k = false ∧
      (∀ l < k, s.inUse v i l = true) ∧
      a = (v.entry i).dataCurrent.maddr + slabEntryDataoffset (v.entry i).seSize +
        k * (v.entry i).seSize ∧
      (∀ l < slabEntryCapacity (v.entry i).seSize, s'.inUse v' i l = (decide (l = k) || s.inUse v i l)) ∧
      ∀ x, slabEntryDataoffset (v.entry i).seSize ≤ x → s'.restBytes v'.n p x = s.restBytes v.n p x) := by
  unfold LibPM.slabEntryAllocMem at hr
  simp only [returns_bind, returns_require] at hr
  obtain ⟨n, s₁, h₁, e, s₂, h₂, _, _, ⟨-, rfl⟩, x, s₃, h₃, hr⟩ := hr
  obtain ⟨rfl, rfl, hne⟩ := h.entryCapacity hi h₁
  obtain ⟨rfl, rfl⟩ := h.shows.loadEntry (h.lt_cap hi) h₂
  have hcap := slabEntryCapacity_le (v.entry i).seSize
  refine ⟨hne, ?_⟩
  obtain ⟨rfl, ⟨rfl, hall⟩ | ⟨k, rfl, hk, hclear, hmin⟩⟩ := h.bitFfc hi hcap h₃
  · obtain ⟨rfl, rfl⟩ := returns_pure.mp hr
    exact .inl ⟨rfl, rfl, hall⟩
  · simp only [returns_bind, returns_pure] at hr
    obtain ⟨b, s₄, h₄, _, s₅, h₅, rfl, rfl⟩ := hr
    have hk8 : k / 8 < pageSize := (Nat.div_le_self k 8).trans_lt (hk.trans_le hcap)
    obtain ⟨rfl, rfl⟩ := h.loadBitmap hi hk8 h₄
    obtain ⟨v', lost', hmark, hbyte, hother, hdata⟩ := h.storeBitmap hi hk8 hp h₅
    refine .inr ⟨k, v', lost', hmark, hk, hclear, hmin, rfl, fun l hl => ?_, fun x hx => hdata x fun hsmall => ?_⟩
    · unfold Pm.inUse
      by_cases hb : l / 8 = k / 8
      · rw [hb, hbyte, bitTest_bitSet _ (Nat.mod_lt _ (by decide))]
        congr 1
        exact decide_eq_decide.mpr ⟨fun hm => by omega, fun hlk => by rw [hlk]⟩
      · have hlk : l ≠ k := fun hlk => hb (by rw [hlk])
        have hsmall : (v.entry i).seSize < slabLargeAlloc := by
          by_contra hlarge
          have := slabEntryCapacity_large (Nat.not_lt.mp hlarge)
          omega
        rw [hother _ hb hsmall, decide_eq_false hlk, Bool.false_or]
    · -- the byte of the bitmap lies before the objects
      have := div_eight_lt_dataoffset hk hsmall
      omega

end Pm

end LibPM

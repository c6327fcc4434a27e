import LibPM.Session.Palloc

/-!
# What an allocation leaves

`slab_palloc` marks one object of the entry it takes, and leaves the objects of all other entries alone. Between two
allocations the state is `Idle` for the next.
-/

namespace LibPM

open Recorded Recorded.Prog

/-- `slab_palloc` after the entry `se` was found for objects of `size8` bytes. -/
def pallocObject (size8 sd : ℕ) (se : EntryRef) : PmProg ℕ := do
  let sb := se.sb
  let taken ← funcSlabBucketSnapshot sb
  updatePage sb (Page.onBucket fun b => { b with sbHasSnapshot := taken })
  let e ← loadEntry se
  when (e.isInit = false) do
    slabEntryInit se size8
    usedInsert sd se
  let maddr ← slabEntryAllocMem se
  let full ← slabEntryFull se
  when (full = true) (stailqInsertTail (esListAt size8) se)
  return maddr

theorem slabPalloc_eq (size : ℕ) : slabPalloc size = (do
    require (size ≤ pageSize) (.assertion "allocations bigger than 4KB are not implemented yet.")
    let sd ← currentSlabMaddr
    let se ← pallocEntry (round8 size)
    pallocObject (round8 size) sd se) := rfl

/-- No bucket is made after the entry was found. -/
theorem Framed.pallocObject {R : Pm → Pm → Prop} [Framed R] (size8 sd : ℕ) (se : EntryRef) :
    Keeps R (pallocObject size8 sd se) :=
  (funcSlabBucketSnapshot _).bind fun _ => (updatePage _ _).bind fun _ => load.bind fun _ =>
    (Keeps.when ((slabEntryInit _ _).bind fun _ => usedInsert _ _)).bind fun _ =>
    (slabEntryAllocMem _).bind fun _ => (slabEntryFull _).bind fun _ =>
    (Keeps.when (insertTail (esListAt _) _)).bind fun _ => keeps_pure

/-! ## The bucket -/

namespace View

variable {v v' : View}

theorem Steady.addr (h : v.Steady v') (p : ℕ) : v'.addr p = v.addr p := by
  unfold Places.addr
  rw [h.base]

theorem Touched.headed (h : v.Touched v') (hh : v.Headed) : v'.Headed := by
  intro k hk
  rw [h.queue]
  exact hh k ((h.hasQueue _).mp hk)

end View

namespace Pm

variable {s s' t : Pm} {v v' : View} {lost lost' : Multiset ℕ} {a b f i k l n p : ℕ} {u : Unit}

/-- The flag of a bucket is set when its slot gets a copy. -/
theorem BucketCopied.flagged (hb : s.BucketCopied v lost b f s' v' lost') (h : s.Holds v lost) (hlt : b < v.linked)
    (hslot : copySlot b = b) (hf : v.Flagged) : (v'.setFlag b f).Flagged := by
  have hlt' := hlt.trans_le h.linked.linked
  intro c hc hne
  rw [View.setFlag_sbHasSnapshot] at hne
  by_cases hcb : c = b
  · rw [if_pos hcb] at hne
    subst hcb
    cases hb with
    | skip _ => exact absurd rfl hne
    | @copy s' n p free cur snap hsame htakes hcur hsnap hh _ =>
      show (((v.sized n free).setSlot (copySlot c) cur snap).siSnapshot c).maddr ≠
        (((v.sized n free).setSlot (copySlot c) cur snap).siCurrent c).maddr
      rw [hslot] at hcur ⊢
      rw [View.setSlot_siSnapshot, View.setSlot_siCurrent, if_pos rfl, if_pos rfl, hsnap, hcur,
        h.linked.siCurrent c hlt]
      intro heq
      have hfree : v.bucketPage c ∉ v.free := fun hmem => h.balanced.free_notMeta hmem ⟨.bucket c, hlt', rfl⟩
      exact htakes.ne (h.shows.wf.lt (.bucket c) hlt') hfree (v.addr_injective heq).symm
  · rw [if_neg hcb] at hne
    cases hb with
    | skip _ => exact hf c hc hne
    | @copy s' n p free cur snap hsame htakes hcur hsnap hh _ =>
      show (((v.sized n free).setSlot (copySlot b) cur snap).siSnapshot c).maddr ≠
        (((v.sized n free).setSlot (copySlot b) cur snap).siCurrent c).maddr
      rw [View.setSlot_siSnapshot, View.setSlot_siCurrent, hslot, if_neg hcb, if_neg hcb]
      exact hf c hc hne

/-! ## The entry with its page -/

/-- The object `l` is in use in entry `i` before a request that takes this entry. A new entry has its bitmap from
the page it takes, or from the cleared bucket. -/
def bitBefore (s : Pm) (v : View) (i n p l : ℕ) : Bool :=
  if i < v.used then s.inUse v i l else decide (n < slabLargeAlloc) && bitTest (s.restBytes v.n p (l / 8)) (l % 8)

/-- The entry `i` on page `p` is initialised for objects of `n` bytes: it was in use, or it is the next one. -/
structure Prepared (s : Pm) (v : View) (n i p : ℕ) (s' : Pm) (v' : View) (lost' : Multiset ℕ) : Prop where
  ready : s'.Idle v' lost'
  evolves : s.Evolves v ∅ s' v'
  cap : v.cap ≤ v'.cap
  has : v'.HasQueue (.size n)
  maddr : (v'.entry i).dataCurrent.maddr = v'.addr p
  seSize : (v'.entry i).seSize = n
  entry : i < v.used ∧ v'.used = v.used ∧ ¬ s.Full v i ∨ i = v.used ∧ v'.used = v.used + 1
  bit : ∀ l, s'.inUse v' i l = s.bitBefore v i n p l
  flagged : copySlot (i / slabBucketEntries) = i / slabBucketEntries → v.Flagged → v'.Flagged

theorem Prepared.lt (h : s.Prepared v n i p s' v' lost') : i < v'.used := by
  rcases h.entry with ⟨hi, hu, -⟩ | ⟨hi, hu⟩ <;> omega

/-- The pages and lists that the snapshot of the bucket and its flag leave. -/
theorem Picked.lt_taken {s₁ : Pm} {v₁ : View} (h : s.Picked v lost n i s₁ v₁) : i < v₁.taken := by
  rcases h.entry with ⟨hi, -, rfl, -⟩ | ⟨rfl, ht, -⟩
  · exact hi.trans_le h.holds.ok.used
  · omega

/-- **The second part of `slab_palloc`**: the bucket is copied and a new entry gets its page. -/
theorem Picked.prepare {s₁ : Pm} {v₁ : View} (h : s.Picked v lost n i s₁ v₁)
    (hslot : ¬ s₁.IsFixed → copySlot (i / slabBucketEntries) = i / slabBucketEntries) (hn : n ≤ pageSize)
    {s₂ s₃ : Pm} {e : SlabEntry}
    (h₁ : Returns (funcSlabBucketSnapshot (v₁.ref i).sb) s₁ f s₂)
    (h₂ : Returns (updatePage (v₁.ref i).sb (Page.onBucket fun b => { b with sbHasSnapshot := f })) s₂ u s₃)
    (h₃ : Returns (loadEntry (v₁.ref i)) s₃ e t)
    (h₄ : Returns (when (e.isInit = false) do
      slabEntryInit (v₁.ref i) n
      usedInsert (v₁.addr 1) (v₁.ref i)) t u s') :
    ∃ p v' lost', s.Prepared v n i p s' v' lost' ∧ v'.buckets = v₁.buckets ∧ v'.base = v₁.base ∧
      v'.ref i = v₁.ref i := by
  have hcap : i < v₁.cap := h.lt_taken.trans_le h.holds.ok.taken
  have hb : i / slabBucketEntries < v₁.buckets := Places.div_lt hcap
  obtain ⟨v₂, lost₂, hc⟩ := h.holds.funcSlabBucketSnapshot hb (fun hf _ _ => hslot hf) h₁
  have hh₂ := hc.holds h.holds
  have ht₂ := hc.touched
  rw [← ht₂.ref] at h₂
  obtain ⟨hh₃, hv₃⟩ := hh₂.setFlag (ht₂.buckets ▸ hb) h₂
  have ht := ht₂.trans (View.touched_setFlag v₂ (i / slabBucketEntries) f)
  have hv := hh₂.trans hc.evolves hv₃ ht₂.cap.ge
  have hflag : copySlot (i / slabBucketEntries) = i / slabBucketEntries → v.Flagged →
      (v₂.setFlag (i / slabBucketEntries) f).Flagged := fun hs hfl =>
    hc.flagged h.holds (h.complete.linked ▸ hb) hs (h.flagged hfl)
  generalize v₂.setFlag (i / slabBucketEntries) f = v₃ at *
  have hused : v₃.used = v.used := ht.used.trans h.used
  have hev := h.holds.trans h.evolves hv h.cap
  rw [← ht.ref] at h₃ h₄
  obtain ⟨rfl, rfl⟩ := hh₃.shows.loadEntry (ht.cap.symm ▸ hcap) h₃
  have hbase := ht.base
  rcases h.entry with ⟨hi, rfl, rfl, hsize, hfull, hut⟩ | ⟨rfl, htaken, hfirst⟩
  · -- the entry was in use
    have hi₃ : i < v₃.used := hused.symm ▸ hi
    obtain rfl : s₃ = s' := by
      rcases returns_when.mp h₄ with ⟨hinit, -⟩ | ⟨-, rfl⟩
      · rw [hh₃.isInit hi₃] at hinit
        cases hinit
      · rfl
    obtain ⟨p, hp, -⟩ := h.holds.data hi
    refine ⟨p, v₃, lost₂, ⟨⟨hh₃, ht.complete h.complete, ht.freeRange h.free, ?_, ht.headed h.headed⟩, hev,
      ht.cap.ge, (ht.hasQueue _).mpr h.has, ?_, (hev.seSize i hi).trans hsize, .inl ⟨hi, hused, hfull⟩, fun l => ?_,
      hflag⟩, ht.buckets, hbase, ht.ref i⟩
    · rw [hused, ht.taken, hut]
    · rw [hev.maddr i hi, hp, hev.addr]
    · unfold bitBefore
      rw [if_pos hi, hev.inUse hi hp (Set.notMem_empty p)]
  · -- the entry is the next one
    rw [← hused] at h₄ ⊢
    have hlt : v₃.used < v₃.taken := by
      rw [hused, ht.taken, htaken]
      exact Nat.lt_succ_self _
    have hcap₃ : v₃.used < v₃.cap := hlt.trans_le hh₃.ok.taken
    have hblank := hh₃.ok.blank v₃.used (Nat.le_refl _) hcap₃
    rw [returns_when_true hblank.isInit, returns_bind] at h₄
    obtain ⟨_, s₄, h₄, h₅⟩ := h₄
    rw [← ht.addr] at h₅
    have hfirst₃ : ∀ k, (v₃.queue (.size k)).first = some (v₃.ref v₃.used) → n = k := fun k hk => by
      rw [ht.queue, ht.ref, hused] at hk
      exact hfirst k hk
    obtain ⟨p, m, free, laddr, e, htakes, he, hh₄, hv₄⟩ := hh₃.initEntry hlt hn hfirst₃ h₄ h₅
    have hentry : ((v₃.sized m free).addEntry e).entry v₃.used = e := View.addEntry_entry (v₃.sized m free) e
    have hst : v₃.Steady ((v₃.sized m free).addEntry e) :=
      (View.steady_sized v₃ m free).trans (View.steady_addEntry (v := v₃.sized m free) hlt e)
    have hmaddr : e.dataCurrent.maddr = v₃.addr p := by
      rw [he]
      rfl
    have hseSize : e.seSize = n := by
      rw [he]
      rfl
    have hcap' := h.cap.trans ht.cap.ge
    have hev' := hh₃.trans hev hv₄ hcap'
    have hdata : ((v₃.sized m free).addEntry e).IsData p := (View.addEntry_isData hmaddr).mpr (.inr rfl)
    have hbytes := hev'.bytes p (.inr (.inr hdata)) (Set.notMem_empty p)
    refine ⟨p, (v₃.sized m free).addEntry e, lost₂, ⟨⟨hh₄, hst.complete (ht.complete h.complete),
      hst.freeRange (ht.freeRange h.free), ?_, ht.headed h.headed⟩, hev', hcap', (ht.hasQueue _).mpr h.has, ?_, ?_, ?_,
      fun l => ?_, fun hs hfl => ?_⟩, ht.buckets, hbase, ?_⟩
    · show v₃.used + 1 = v₃.taken
      rw [ht.taken, htaken, hused]
    · rw [hentry]
      exact hmaddr
    · rw [hentry]
      exact hseSize
    · refine .inr ⟨hused, ?_⟩
      show v₃.used + 1 = v.used + 1
      rw [hused]
    · have hmap : ∀ x, s'.mapByte ((v₃.sized m free).addEntry e) v₃.used x =
          if n ≥ slabLargeAlloc then 0 else s.restBytes v.n p x := by
        intro x
        have hbitmap : e.dataCurrent.bitmap = 0 := by
          rw [he]
          exact congrArg (·.dataCurrent.bitmap) hblank
        unfold mapByte
        rw [hentry, hseSize, hmaddr, hbitmap, hbytes.symm]
        rw [show pageNo ((v₃.sized m free).addEntry e).base (v₃.addr p) = p from pageNo_add v₃.base p]
      unfold bitBefore inUse
      rw [hmap, hused, if_neg (Nat.lt_irrefl _)]
      by_cases hlarge : n ≥ slabLargeAlloc
      · rw [if_pos hlarge, decide_eq_false (Nat.not_lt.mpr hlarge), Bool.false_and]
        exact Nat.zero_testBit _
      · rw [if_neg hlarge, decide_eq_true (Nat.not_le.mp hlarge), Bool.true_and]
    · refine (hflag (hused ▸ hs) hfl).congr rfl rfl fun c => ?_
      exact View.setEntry_sbHasSnapshot (v₃.sized m free) v₃.used e c
    · exact ht.ref v₃.used

/-! ## The object -/

/-- A request for `n` bytes got the address `a` from entry `i` on page `p`: the first object that was not in use. It
is refused if a new entry has none. -/
structure Allocated (s : Pm) (v : View) (n a i p : ℕ) (s' : Pm) (v' : View) (lost' : Multiset ℕ) : Prop where
  ready : s'.Idle v' lost'
  evolves : s.Evolves v {p} s' v'
  cap : v.cap ≤ v'.cap
  maddr : (v'.entry i).dataCurrent.maddr = v'.addr p
  seSize : (v'.entry i).seSize = n
  pos : n ≠ 0
  entry : i < v.used ∧ v'.used = v.used ∨ i = v.used ∧ v'.used = v.used + 1
  object : a = 0 ∧ i = v.used ∧ (∀ l < slabEntryCapacity n, s.bitBefore v i n p l = true) ∨
    ∃ k < slabEntryCapacity n, s.bitBefore v i n p k = false ∧ a = v'.addr p + slabEntryDataoffset n + k * n ∧
      ∀ l < slabEntryCapacity n, s'.inUse v' i l = (decide (l = k) || s.bitBefore v i n p l)
  bytes : ∀ x, slabEntryDataoffset n ≤ x → s'.restBytes v'.n p x = s.restBytes v.n p x
  opened : ∀ q, v'.Rests q → s'.restBytes v'.n q ≠ s.restBytes v.n q → s'.Open v'.n q
  flagged : copySlot (i / slabBucketEntries) = i / slabBucketEntries → v.Flagged → v'.Flagged

theorem Allocated.lt (h : s.Allocated v n a i p s' v' lost') : i < v'.used := by
  rcases h.entry with ⟨hi, hu⟩ | ⟨hi, hu⟩ <;> omega

theorem Marked.ready (hm : s.Marked v i p s' v' lost') (h : s.Idle v lost) : s'.Idle v' lost' := by
  have ht := hm.touched
  refine ⟨hm.holds, ht.complete h.complete, ht.freeRange h.free, ?_, ht.headed h.headed⟩
  rw [ht.used, ht.taken, h.used]

theorem Listed.ready (hl : s.Listed v lost n s' v') (h : s.Idle v lost)
    (hn : (v.queue (.size n)).first ≠ none → (v'.queue (.size n)).first ≠ none) : s'.Idle v' lost := by
  refine ⟨hl.holds, hl.complete h.complete, hl.freeRange h.free, ?_, fun k hk => ?_⟩
  · rw [hl.relinked.used, hl.relinked.taken, h.used]
  · have hk' := h.headed k ((hl.has _).mp hk)
    by_cases hkn : k = n
    · rw [hkn] at hk' ⊢
      exact hn hk'
    · rw [hl.other _ fun he => hkn (Queue.size.inj he)]
      exact hk'

/-- A full entry moves to the end of its list. -/
theorem Idle.moveFull (h : s.Idle v lost) (hi : i < v.used) (hsize : (v.entry i).seSize = n) {full : Bool}
    (h₁ : Returns (slabEntryFull (v.ref i)) s full t)
    (h₂ : Returns (when (full = true) (stailqInsertTail (esListAt n) (v.ref i))) t u s') :
    ∃ v', s'.Idle v' lost ∧ s.Evolves v ∅ s' v' ∧ v.Relinked v' := by
  obtain ⟨rfl, -, -⟩ := h.holds.slabEntryFull hi h₁
  rcases returns_when.mp h₂ with ⟨-, h₂⟩ | ⟨-, rfl⟩
  · obtain ⟨v', hl, hn⟩ := h.holds.insertTail hi hsize h₂
    exact ⟨v', hl.ready h hn, hl.evolves, hl.relinked⟩
  · exact ⟨v, h, .refl s v ∅, .refl v⟩

/-- **The last part of `slab_palloc`**: an object is marked, and the entry is checked again. -/
theorem Prepared.allocate (h : s.Prepared v n i p t v' lost') {s₁ s₂ : Pm} {full : Bool}
    (h₁ : Returns (slabEntryAllocMem (v'.ref i)) t a s₁) (h₂ : Returns (slabEntryFull (v'.ref i)) s₁ full s₂)
    (h₃ : Returns (when (full = true) (stailqInsertTail (esListAt n) (v'.ref i))) s₂ u s') :
    ∃ v'' lost'', s.Allocated v n a i p s' v'' lost'' ∧ v''.buckets = v'.buckets := by
  have hi := h.lt
  obtain ⟨hne, hres⟩ := h.ready.holds.slabEntryAllocMem hi h.maddr h₁
  have hdata : v'.IsData p := ⟨i, hi, h.maddr⟩
  have hbefore := h.evolves.bytes p (.inr (.inr hdata)) (Set.notMem_empty p)
  have hsize := h.seSize
  rw [hsize] at hne hres
  have hentry : i < v.used ∧ v'.used = v.used ∨ i = v.used ∧ v'.used = v.used + 1 :=
    h.entry.imp_left fun ⟨hlt, hu, _⟩ => ⟨hlt, hu⟩
  rcases hres with ⟨rfl, rfl, hfull⟩ | ⟨k, v₁, lost₁, hm, hk, hclear, -, rfl, hbits, hbytes⟩
  · -- there was none
    obtain ⟨v₂, hr, hv, hre⟩ := h.ready.moveFull hi hsize h₂ h₃
    have hfull' : ∀ l < slabEntryCapacity n, s.bitBefore v i n p l = true := fun l hl => by
      rw [← h.bit]
      exact hfull l (hsize.symm ▸ hl)
    refine ⟨v₂, lost', ⟨hr, (h.ready.holds.trans h.evolves hv h.cap).mono (Set.empty_subset _),
      hre.cap.symm ▸ h.cap, ?_, ?_, hne, ?_, .inl ⟨rfl, ?_, hfull'⟩, fun x _ => ?_,
      fun q hq hne => ?_, fun hs hf => (h.flagged hs hf).relink hre⟩, congrArg Places.buckets hre.places⟩
    · rw [hv.maddr i hi, h.maddr, hv.addr]
    · rw [hv.seSize i hi, hsize]
    · rw [hre.used]
      exact hentry
    · rcases h.entry with ⟨hlt, -, hnot⟩ | ⟨rfl, -⟩
      · refine absurd (fun l hl => ?_) hnot
        rw [← h.evolves.seSize i hlt, hsize] at hl
        have hl' := hfull' l hl
        unfold bitBefore at hl'
        rwa [if_pos hlt] at hl'
      · rfl
    · rw [hv.bytes p (.inr (.inr (hv.isData hdata))) (Set.notMem_empty p), hbefore]
    · refine absurd ?_ hne
      rw [hv.bytes q hq (Set.notMem_empty q), h.evolves.bytes q (hv.rests q hq) (Set.notMem_empty q)]
  · have hr₁ := hm.ready h.ready
    have hi₁ : i < v₁.used := hm.touched.used.symm ▸ hi
    have hmaddr₁ : (v₁.entry i).dataCurrent.maddr = v₁.addr p := by
      rw [hm.evolves.maddr i hi, h.maddr, hm.evolves.addr]
    have hsize₁ : (v₁.entry i).seSize = n := (hm.evolves.seSize i hi).trans hsize
    rw [← hm.touched.ref] at h₂ h₃
    obtain ⟨v₂, hr, hv, hre⟩ := hr₁.moveFull hi₁ hsize₁ h₂ h₃
    have hev := h.ready.holds.trans (h.evolves.mono (Set.empty_subset {p})) hm.evolves h.cap
    have hcap : v.cap ≤ v₁.cap := hm.touched.cap.symm ▸ h.cap
    refine ⟨v₂, lost₁, ⟨hr, hr₁.holds.trans hev (hv.mono (Set.empty_subset _)) hcap,
      hre.cap.symm ▸ hcap, ?_, ?_, hne, ?_, .inr ⟨k, hk, ?_, ?_, fun l hl => ?_⟩, fun x hx => ?_, fun q hq hne => ?_, fun hs hf => ?_⟩,
      (congrArg Places.buckets hre.places).trans hm.touched.buckets⟩
    · rw [hv.maddr i hi₁, hmaddr₁, hv.addr]
    · rw [hv.seSize i hi₁, hsize₁]
    · rw [hre.used, hm.touched.used]
      exact hentry
    · rw [← h.bit]
      exact hclear
    · rw [h.maddr, hv.addr, hm.evolves.addr]
    · rw [hv.inUse hi₁ hmaddr₁ (Set.notMem_empty p), hbits l hl, h.bit]
    · have hdata₁ := hv.isData (hm.evolves.isData hdata)
      rw [hv.bytes p (.inr (.inr hdata₁)) (Set.notMem_empty p), hbytes x (hsize.symm ▸ hx), hbefore]
    · have hq₁ := hv.rests q hq
      rw [hv.bytes q hq (Set.notMem_empty q),
        ← h.evolves.bytes q (hm.evolves.rests q hq₁) (Set.notMem_empty q)] at hne
      have hopen := hm.opened q hq₁ hne
      obtain rfl : q = p := by
        by_contra hqp
        exact hne (hm.evolves.bytes q hq₁ hqp)
      rcases hv.kept q (hm.evolves.isData hdata) hopen with ho | hlt
      · exact ho
      · rw [hre.places] at hlt
        exact absurd hlt (Nat.lt_irrefl _)
    · exact ((h.flagged hs hf).congr hm.touched.linked hm.inner hm.flag).relink hre

/-- **`slab_palloc`**, from the entry on. -/
theorem Picked.allocate {s₁ : Pm} {v₁ : View} (h : s.Picked v lost n i s₁ v₁)
    (hslot : ¬ s₁.IsFixed → copySlot (i / slabBucketEntries) = i / slabBucketEntries) (hn : n ≤ pageSize)
    (hr : Returns (pallocObject n (v₁.addr 1) (v₁.ref i)) s₁ a s') :
    ∃ p v' lost', s.Allocated v n a i p s' v' lost' ∧ v'.buckets = v₁.buckets := by
  unfold pallocObject at hr
  rw [returns_bind] at hr
  obtain ⟨f, s₂, h₁, hr⟩ := hr
  rw [returns_bind] at hr
  obtain ⟨_, s₃, h₂, hr⟩ := hr
  rw [returns_bind] at hr
  obtain ⟨e, s₄, h₃, hr⟩ := hr
  rw [returns_bind] at hr
  obtain ⟨_, s₅, h₄, hr⟩ := hr
  rw [returns_bind] at hr
  obtain ⟨a', s₆, h₅, hr⟩ := hr
  rw [returns_bind] at hr
  obtain ⟨full, s₇, h₆, hr⟩ := hr
  rw [returns_bind] at hr
  obtain ⟨_, s₈, h₇, hr⟩ := hr
  obtain ⟨rfl, rfl⟩ := returns_pure.mp hr
  obtain ⟨p, v₂, lost₂, hp, hb, -, href⟩ := h.prepare hslot hn h₁ h₂ h₃ h₄
  rw [← href] at h₅ h₆ h₇
  obtain ⟨v₃, lost₃, ha, hb'⟩ := hp.allocate h₅ h₆ h₇
  exact ⟨p, v₃, lost₃, ha, hb'.trans hb⟩

end Pm

end LibPM

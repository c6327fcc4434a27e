import LibPM.Session.Accounts

/-!
# The invariant of a session

`Linked` says how the metadata pages are linked, `Ok` what the entries and lists look like, `Guarded`
which pages can be written, and `Balanced` who holds which page. `Holds` joins them for a state.
-/

namespace LibPM

open Recorded Recorded.Prog

/-! ## The tree -/

/-- How the metadata pages are linked. The last inner node may not be linked yet, and neither may the
last bucket. -/
structure View.Linked (v : View) : Prop where
  current : v.cont.currentSlab.maddr = v.addr 1
  committed : v.cont.snapshotSlab = v.cont.currentSlab
  sdIndex : v.dir.sdIndex = 1
  sdCurrent : (v.dir.sdCurrent 0).maddr = v.addr 2
  sdOther : ∀ i, 0 < i → (v.dir.sdCurrent i).maddr = 0
  sdSnapshot : IsPage v.base (v.dir.sdSnapshot 0).maddr
  sdSame : (v.dir.sdSnapshot 0).maddr = (v.dir.sdCurrent 0).maddr →
    v.dir.sdSnapshot 0 = v.dir.sdCurrent 0
  soIndex : v.outer.soIndex ≤ v.inners
  inners : v.inners ≤ slabDirEntries + 1
  soCurrent : ∀ j < v.outer.soIndex, (v.outer.soCurrent j).maddr = v.addr (v.innerPage j)
  soSnapshot : ∀ j < v.outer.soIndex, IsPage v.base (v.outer.soSnapshot j).maddr
  soSame : ∀ j < v.outer.soIndex, (v.outer.soSnapshot j).maddr = (v.outer.soCurrent j).maddr →
    v.outer.soSnapshot j = v.outer.soCurrent j
  linked : v.linked ≤ v.buckets
  buckets : v.buckets ≤ slabInnerEntries * v.outer.soIndex
  siIndex : ∀ j < v.inners,
    (v.inner j).siIndex = min slabInnerEntries (v.linked - slabInnerEntries * j)
  siCurrent : ∀ b < v.linked, (v.siCurrent b).maddr = v.addr (v.bucketPage b)
  siSnapshot : ∀ b < v.linked, IsPage v.base (v.siSnapshot b).maddr
  siOther : ∀ j < v.inners, ∀ k, (v.inner j).siIndex ≤ k → k < slabInnerEntries →
    ((v.inner j).siCurrent k).maddr = 0
  sbId : ∀ b < v.buckets, (v.bucket b).sbId = b

namespace View.Linked

variable {v : View}

/-- There is room for two more inner nodes in the outer node. -/
theorem inners_le (h : v.Linked) : v.inners ≤ slabOuterEntries := h.inners.trans (by decide)

theorem buckets_le (h : v.Linked) : v.buckets ≤ maxBuckets :=
  h.buckets.trans (Nat.mul_le_mul_left _ (h.soIndex.trans h.inners_le))

theorem div_lt (h : v.Linked) {b : ℕ} (hb : b < v.buckets) :
    b / slabInnerEntries < v.outer.soIndex := Nat.div_lt_of_lt_mul (hb.trans_le h.buckets)

theorem has_inner (h : v.Linked) {b : ℕ} (hb : b < v.buckets) : b / slabInnerEntries < v.inners :=
  (h.div_lt hb).trans_le h.soIndex

theorem bucketSlot_mem (h : v.Linked) {b : ℕ} (hb : b < v.linked) : Holder.bucketSlot b ∈ holders :=
  View.bucketSlot_mem ((hb.trans_le h.linked).trans_le h.buckets_le)

theorem innerSlot_mem (h : v.Linked) {j : ℕ} (hj : j < v.outer.soIndex) :
    Holder.innerSlot j ∈ holders := View.innerSlot_mem (hj.trans_le (h.soIndex.trans h.inners_le))

theorem entry_mem (h : v.Linked) {i : ℕ} (hi : i < v.cap) : Holder.entry i ∈ holders :=
  View.entry_mem (hi.trans_le (Nat.mul_le_mul_right _ h.buckets_le))

end View.Linked

/-! ## Entries -/

/-- An initialised entry: the two versions of its data page and of its page of pointer records. -/
structure SlabEntry.Ok (base : ℕ) (e : SlabEntry) : Prop where
  cur : IsPage base e.dataCurrent.maddr
  snap : IsPage base e.dataSnapshot.maddr
  laddr : e.dataSnapshot.maddr = e.dataCurrent.maddr →
    e.dataSnapshot.laddr = e.dataCurrent.laddr
  size : e.seSize ≤ pageSize
  ptr : e.ptrCurrent.maddr = 0 ∧ e.ptrSnapshot.maddr = 0 ∧
      e.ptrSnapshot.laddr = e.ptrCurrent.laddr ∨
    IsPage base e.ptrCurrent.maddr ∧ (e.ptrSnapshot.maddr = 0 ∨ IsPage base e.ptrSnapshot.maddr)
  clean : e.dataSnapshot.maddr = e.dataCurrent.maddr →
    e.ptrSnapshot.maddr = 0 ∨ e.ptrSnapshot.maddr = e.ptrCurrent.maddr

/-- An entry of a bucket that was cleared, whatever its link is. -/
def SlabEntry.Blank (e : SlabEntry) : Prop := { e with seList := none } = SlabEntry.zero

theorem SlabEntry.Blank.isInit {e : SlabEntry} (h : e.Blank) : e.isInit = false := by
  have hsize : e.seSize = 0 := congrArg SlabEntry.seSize h
  have hmaddr : e.dataCurrent.maddr = 0 := congrArg (·.dataCurrent.maddr) h
  unfold SlabEntry.isInit
  rw [hsize, hmaddr]
  rfl

/-- A link leads to an entry that has left the free list. -/
def View.RefsTaken (v : View) (k : ℕ) (r : Option EntryRef) : Prop := ∀ x ∈ r, ∃ i < k, x = v.ref i

/-- What the metadata say about the entries. -/
structure View.Ok (v : View) : Prop where
  used : v.used ≤ v.taken
  taken : v.taken ≤ v.cap
  root : ∀ r, r ∈ v.dir.sdMaddrRoot ↔ ∃ i < v.used, r = v.ref i
  entry : ∀ i < v.used, (v.entry i).Ok v.base
  seId : ∀ i < v.used, (v.entry i).seId = i
  blank : ∀ i, v.used ≤ i → i < v.cap → (v.entry i).Blank
  first : ∀ n, v.RefsTaken v.taken (v.queue (.size n)).first
  last : ∀ n, v.RefsTaken v.taken (v.queue (.size n)).last
  size : ∀ n i, (v.queue (.size n)).first = some (v.ref i) → i < v.used → (v.entry i).seSize = n
  vector : ∀ r ∈ v.dir.sdVector.items, ∃ i < v.used, r = v.ref i

/-! ## Protections -/

/-- `p` is the data page of an initialised entry. -/
def View.IsData (v : View) (p : ℕ) : Prop := ∃ i < v.used, (v.entry i).dataCurrent.maddr = v.addr p

/-- Which pages can be written. The fixed mapper remembers this in its index, except for data pages,
which are read only there. -/
structure Pm.Guarded (s : Pm) (v : View) : Prop where
  metadata : ∀ p, v.IsMeta p → (s.prot p).write = true
  synced : ∀ p < v.n, ¬ v.IsData p → s.IsFixed → ((s.prot p).write = true ↔ s.Resets p)
  data : ∀ p, v.IsData p → ¬ s.Resets p

/-! ## Offsets -/

/-- The address is absent or belongs to the offset, in a linear mapping at `base`. -/
def Paired (base maddr laddr : ℕ) : Prop := maddr = 0 ∧ laddr = 0 ∨ maddr = base + laddr

def Slot.Paired (base : ℕ) (t : Slot) : Prop := LibPM.Paired base t.maddr t.laddr

/-- The links to data pages, and those to pointer pages unless `torn`. -/
structure SlabEntry.Paired (base : ℕ) (torn : Prop) (e : SlabEntry) : Prop where
  dataCurrent : LibPM.Paired base e.dataCurrent.maddr e.dataCurrent.laddr
  dataSnapshot : LibPM.Paired base e.dataSnapshot.maddr e.dataSnapshot.laddr
  ptrCurrent : ¬ torn → LibPM.Paired base e.ptrCurrent.maddr e.ptrCurrent.laddr
  ptrSnapshot : ¬ torn → LibPM.Paired base e.ptrSnapshot.maddr e.ptrSnapshot.laddr

/-- Addresses and offsets agree, except for the pointer pages of torn entries. -/
structure View.Paired (v : View) : Prop where
  cont : v.cont.currentSlab.Paired v.base
  sdCurrent : (v.dir.sdCurrent 0).Paired v.base
  sdSnapshot : (v.dir.sdSnapshot 0).Paired v.base
  soCurrent : ∀ j < v.outer.soIndex, (v.outer.soCurrent j).Paired v.base
  soSnapshot : ∀ j < v.outer.soIndex, (v.outer.soSnapshot j).Paired v.base
  siCurrent : ∀ b < v.linked, (v.siCurrent b).Paired v.base
  siSnapshot : ∀ b < v.linked, (v.siSnapshot b).Paired v.base
  entry : ∀ i < v.used, (v.entry i).Paired v.base (i ∈ v.torn)

theorem paired_page (base p : ℕ) : Paired base (base + p * pageSize) (p * pageSize) := .inr rfl

/-! ## The invariant -/

/-- The invariant of a state, with the pages `lost`. -/
structure Pm.Holds (s : Pm) (v : View) (lost : Multiset ℕ) : Prop where
  shows : s.Shows v
  linked : v.Linked
  ok : v.Ok
  guarded : s.Guarded v
  balanced : v.Balanced lost
  paired : s.IsFixed → v.Paired
  laddr : ∀ b < v.linked, (v.siCurrent b).laddr = s.vmap (v.bucketPage b) * pageSize
  nextBucket : s.nextSlabBucketId = v.buckets
  nextEntry : s.nextSlabEntryId = v.used

namespace View.Ok

variable {v : View} {lost : Multiset ℕ} {i j p : ℕ}

theorem lt_cap (h : v.Ok) (hi : i < v.used) : i < v.cap := hi.trans_le (h.used.trans h.taken)

theorem holder_mem (h : v.Ok) (hl : v.Linked) (hi : i < v.used) : Holder.entry i ∈ holders :=
  hl.entry_mem (h.lt_cap hi)

theorem held_entry (hi : i < v.used) : v.held (.entry i) = (v.entry i).pages v.base := if_pos hi

/-- The data page of an initialised entry. -/
theorem data (h : v.Ok) (hl : v.Linked) (hb : v.Balanced lost) (hi : i < v.used) :
    ∃ p, (v.entry i).dataCurrent.maddr = v.addr p ∧ p ∈ v.held (.entry i) ∧ p < v.n ∧
      p ∉ v.free ∧ ¬ v.IsMeta p ∧ p ∉ lost := by
  obtain ⟨p, hp⟩ := (h.entry i hi).cur
  have hmem : p ∈ v.held (.entry i) := by
    have := ((v.entry i).data_mem v.base).1
    rw [hp, pageNo_add] at this
    rwa [held_entry hi]
  have hx := h.holder_mem hl hi
  exact ⟨p, hp, hmem, hb.lt_n hx hmem, hb.notMem_free hx hmem, hb.notMeta hx (by simp) hmem,
    hb.notMem_lost hx hmem⟩

theorem dataSnapshot (h : v.Ok) (hl : v.Linked) (hb : v.Balanced lost) (hi : i < v.used) :
    ∃ p, (v.entry i).dataSnapshot.maddr = v.addr p ∧ p ∈ v.held (.entry i) ∧ p < v.n ∧
      p ∉ v.free ∧ ¬ v.IsMeta p ∧ p ∉ lost := by
  obtain ⟨p, hp⟩ := (h.entry i hi).snap
  have hmem : p ∈ v.held (.entry i) := by
    have := ((v.entry i).data_mem v.base).2
    rw [hp, pageNo_add] at this
    rwa [held_entry hi]
  have hx := h.holder_mem hl hi
  exact ⟨p, hp, hmem, hb.lt_n hx hmem, hb.notMem_free hx hmem, hb.notMeta hx (by simp) hmem,
    hb.notMem_lost hx hmem⟩

/-- No two entries have the same data page. -/
theorem data_inj (h : v.Ok) (hl : v.Linked) (hb : v.Balanced lost) (hi : i < v.used) (hj : j < v.used)
    (heq : (v.entry i).dataCurrent.maddr = (v.entry j).dataCurrent.maddr) : i = j := by
  obtain ⟨p, hp, hmem, -⟩ := h.data hl hb hi
  obtain ⟨q, hq, hmem', -⟩ := h.data hl hb hj
  obtain rfl : p = q := v.addr_injective (hp.symm.trans (heq.trans hq))
  exact Holder.entry.inj (Ledger.Balanced.holder_unique hb (Multiset.nodup_range _)
    (h.holder_mem hl hi) (h.holder_mem hl hj) hmem hmem')

theorem isData_facts (h : v.Ok) (hl : v.Linked) (hb : v.Balanced lost) (hp : v.IsData p) :
    p < v.n ∧ p ∉ v.free ∧ ¬ v.IsMeta p ∧ p ∉ lost := by
  obtain ⟨i, hi, hpi⟩ := hp
  obtain ⟨q, hq, -, hlt, hfree, hmeta, hlost⟩ := h.data hl hb hi
  obtain rfl : q = p := v.addr_injective (hq.symm.trans hpi)
  exact ⟨hlt, hfree, hmeta, hlost⟩

theorem rooted (h : v.Ok) (hl : v.Linked) (hb : v.Balanced lost) : v.Rooted := by
  intro r hr
  obtain ⟨i, hi, rfl⟩ := (h.root r).mp hr
  obtain ⟨p, hp, -, -, -, hmeta, -⟩ := h.data hl hb hi
  exact ⟨i, p, rfl, h.lt_cap hi, hmeta, hp⟩

end View.Ok

namespace Pm.Holds

variable {s s' : Pm} {v v' : View} {lost : Multiset ℕ} {i : ℕ}

theorem rooted (h : s.Holds v lost) : v.Rooted := h.ok.rooted h.linked h.balanced

theorem quiet (h : s.Holds v lost) : v.Quiet := .inr ⟨h.linked.current, h.rooted⟩

theorem lt_cap (h : s.Holds v lost) (hi : i < v.used) : i < v.cap := h.ok.lt_cap hi

theorem holder_mem (h : s.Holds v lost) (hi : i < v.used) : Holder.entry i ∈ View.holders :=
  h.ok.holder_mem h.linked hi

theorem data (h : s.Holds v lost) (hi : i < v.used) :
    ∃ p, (v.entry i).dataCurrent.maddr = v.addr p ∧ p ∈ v.held (.entry i) ∧ p < v.n ∧
      p ∉ v.free ∧ ¬ v.IsMeta p ∧ p ∉ lost := h.ok.data h.linked h.balanced hi

theorem isInit (h : s.Holds v lost) (hi : i < v.used) : (v.entry i).isInit = true := by
  obtain ⟨p, hp, -⟩ := h.data hi
  unfold SlabEntry.isInit
  rw [hp, Bool.or_eq_true]
  right
  rw [bne_iff_ne]
  exact h.shows.addr_ne_zero p

theorem isInit_iff (h : s.Holds v lost) (hi : i < v.cap) :
    (v.entry i).isInit = true ↔ i < v.used := by
  refine ⟨fun hinit => ?_, h.isInit⟩
  by_contra hlt
  rw [(h.ok.blank i (Nat.not_lt.mp hlt) hi).isInit] at hinit
  cases hinit

theorem curContainer (h : s.Holds v lost) : s.CurContainer v.cont :=
  ⟨_, h.shows.containers, h.shows.readContainer⟩

theorem currentSlab (h : s.Holds v lost) {sd : ℕ} (hr : Returns currentSlabMaddr s sd s') :
    sd = v.addr 1 ∧ s = s' := by
  obtain ⟨rfl, rfl⟩ := h.shows.currentSlab hr
  exact ⟨h.linked.current, rfl⟩

/-- The search of the directory finds the entry with the data page at an address. -/
theorem usedFind (h : s.Holds v lost) {p : SlabEntry → Bool} {o : Option EntryRef}
    (hr : Returns (LibPM.usedFind (v.addr 1) p) s o s') :
    s = s' ∧ ((∃ i < v.used, o = some (v.ref i) ∧ p (v.entry i) = true) ∨
      o = none ∧ ∀ i < v.used, p (v.entry i) = false) := by
  obtain ⟨⟨d, hd, hfind⟩, rfl⟩ := returns_usedFind.mp hr
  rw [h.shows.readDir, Option.some.injEq] at hd
  subst hd
  refine ⟨rfl, ?_⟩
  cases o with
  | none =>
    refine .inr ⟨rfl, fun i hi => ?_⟩
    obtain ⟨e, he, hpe⟩ := findEntry_eq_some_none hfind _ ((h.ok.root _).mpr ⟨i, hi, rfl⟩)
    rw [h.shows.readEntry (h.lt_cap hi), Option.some.injEq] at he
    rwa [he]
  | some r =>
    obtain ⟨hmem, e, he, hpe⟩ := findEntry_eq_some_some hfind
    obtain ⟨i, hi, rfl⟩ := (h.ok.root r).mp hmem
    rw [h.shows.readEntry (h.lt_cap hi), Option.some.injEq] at he
    exact .inl ⟨i, hi, rfl, he ▸ hpe⟩

end Pm.Holds

end LibPM

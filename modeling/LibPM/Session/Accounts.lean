import LibPM.Ledger.Basic
import LibPM.Session.Lists

/-!
# The pages of a container and their holders

Each page of the mapping is free, held by a part of the container, or lost. The metadata hold their own
pages, a slot holds the page of a snapshot that is not the current page, an initialised entry holds the
versions of its data page and of its page of pointer records.
-/

namespace LibPM

open Recorded Recorded.Prog

/-! ## Pages of two versions -/

/-- The address is that of a page of a mapping at `base`. -/
def IsPage (base a : ℕ) : Prop := ∃ p, a = base + p * pageSize

/-- The number of the page at an address. -/
def pageNo (base a : ℕ) : ℕ := (a - base) / pageSize

@[simp] theorem pageNo_add (base p : ℕ) : pageNo base (base + p * pageSize) = p := by
  unfold pageNo
  rw [Nat.add_sub_cancel_left, Nat.mul_div_cancel _ pageSize_pos]

theorem IsPage.eq {base a : ℕ} (h : IsPage base a) : a = base + pageNo base a * pageSize := by
  obtain ⟨p, rfl⟩ := h
  rw [pageNo_add]

/-- The page of a snapshot that is not the current page. -/
def oldPages (base cur snap : ℕ) : Multiset ℕ := if snap = cur then 0 else {pageNo base snap}

/-- The pages of two versions, which may be one. -/
def versionPages (base cur snap : ℕ) : Multiset ℕ := {pageNo base cur} + oldPages base cur snap

def ptrPages (base cur snap : ℕ) : Multiset ℕ :=
  if cur = 0 then 0 else if snap = 0 then {pageNo base cur} else versionPages base cur snap

def SlabEntry.pages (base : ℕ) (e : SlabEntry) : Multiset ℕ :=
  versionPages base e.dataCurrent.maddr e.dataSnapshot.maddr +
    ptrPages base e.ptrCurrent.maddr e.ptrSnapshot.maddr

theorem oldPages_self (base cur : ℕ) : oldPages base cur cur = 0 := if_pos rfl

theorem oldPages_of_ne {base cur snap : ℕ} (h : snap ≠ cur) :
    oldPages base cur snap = {pageNo base snap} := if_neg h

theorem pageNo_mem_versionPages (base cur snap : ℕ) :
    pageNo base cur ∈ versionPages base cur snap ∧
      pageNo base snap ∈ versionPages base cur snap := by
  unfold versionPages oldPages
  split_ifs with h
  · rw [h]
    exact ⟨by simp, by simp⟩
  · exact ⟨by simp, by simp⟩

/-- A new page takes the place of the snapshot. -/
theorem versionPages_newSnapshot {base cur p : ℕ} (snap : ℕ) (hp : base + p * pageSize ≠ cur) :
    versionPages base cur (base + p * pageSize) + oldPages base cur snap =
      versionPages base cur snap + {p} := by
  unfold versionPages
  rw [oldPages_of_ne hp, pageNo_add]
  abel

/-- A new page takes the place of the current one, whose place is free if it is the snapshot too. -/
theorem versionPages_newCurrent {base cur snap p : ℕ} (hp : base + p * pageSize ≠ snap) :
    versionPages base (base + p * pageSize) snap + oldPages base snap cur =
      versionPages base cur snap + {p} := by
  unfold versionPages oldPages
  rw [pageNo_add, if_neg (Ne.symm hp)]
  by_cases h : snap = cur
  · rw [if_pos h.symm, if_pos h, h]
    abel
  · rw [if_neg (Ne.symm h), if_neg h]
    abel

theorem SlabEntry.data_mem (base : ℕ) (e : SlabEntry) :
    pageNo base e.dataCurrent.maddr ∈ e.pages base ∧
      pageNo base e.dataSnapshot.maddr ∈ e.pages base := by
  obtain ⟨hc, hs⟩ := pageNo_mem_versionPages base e.dataCurrent.maddr e.dataSnapshot.maddr
  exact ⟨Multiset.mem_add.mpr (.inl hc), Multiset.mem_add.mpr (.inl hs)⟩

theorem SlabEntry.ptr_mem {base : ℕ} {e : SlabEntry} (hc : e.ptrCurrent.maddr ≠ 0) :
    pageNo base e.ptrCurrent.maddr ∈ e.pages base ∧
      (e.ptrSnapshot.maddr ≠ 0 → pageNo base e.ptrSnapshot.maddr ∈ e.pages base) := by
  unfold SlabEntry.pages ptrPages
  rw [if_neg hc]
  by_cases hs : e.ptrSnapshot.maddr = 0
  · rw [if_pos hs]
    exact ⟨Multiset.mem_add.mpr (.inr (Multiset.mem_singleton_self _)), fun h => (h hs).elim⟩
  · rw [if_neg hs]
    obtain ⟨h, h'⟩ := pageNo_mem_versionPages base e.ptrCurrent.maddr e.ptrSnapshot.maddr
    exact ⟨Multiset.mem_add.mpr (.inr h), fun _ => Multiset.mem_add.mpr (.inr h')⟩

/-! ## Holders -/

/-- Who holds pages. -/
inductive Holder where
  | metadata
  | outerSlot
  | innerSlot (j : ℕ)
  | bucketSlot (b : ℕ)
  | entry (i : ℕ)
  deriving DecidableEq

namespace View

/-- The slot of bucket `b` in its inner node. -/
def siCurrent (v : View) (b : ℕ) : Slot :=
  (v.inner (b / slabInnerEntries)).siCurrent (b % slabInnerEntries)

def siSnapshot (v : View) (b : ℕ) : Slot :=
  (v.inner (b / slabInnerEntries)).siSnapshot (b % slabInnerEntries)

/-- The pages of the metadata. -/
def metaPages (v : View) : Multiset ℕ :=
  {0, 1, 2} + (Multiset.range v.inners).map v.innerPage +
    (Multiset.range v.buckets).map v.bucketPage

def held (v : View) : Holder → Multiset ℕ
  | .metadata => v.metaPages
  | .outerSlot => oldPages v.base (v.dir.sdCurrent 0).maddr (v.dir.sdSnapshot 0).maddr
  | .innerSlot j =>
    if j < v.outer.soIndex then
      oldPages v.base (v.outer.soCurrent j).maddr (v.outer.soSnapshot j).maddr
    else 0
  | .bucketSlot b =>
    if b < v.linked then oldPages v.base (v.siCurrent b).maddr (v.siSnapshot b).maddr else 0
  | .entry i => if i < v.used then (v.entry i).pages v.base else 0

/-- The most buckets that one outer node has room for. -/
def maxBuckets : ℕ := slabInnerEntries * slabOuterEntries

def holders : Finset Holder :=
  {.metadata, .outerSlot} ∪ (Finset.range slabOuterEntries).image .innerSlot ∪
    (Finset.range maxBuckets).image .bucketSlot ∪
    (Finset.range (maxBuckets * slabBucketEntries)).image .entry

theorem metadata_mem : Holder.metadata ∈ holders := by
  unfold holders
  simp only [Finset.mem_union, Finset.mem_insert, true_or]

theorem outerSlot_mem : Holder.outerSlot ∈ holders := by
  unfold holders
  simp only [Finset.mem_union, Finset.mem_insert, Finset.mem_singleton, or_true, true_or]

theorem innerSlot_mem {j : ℕ} (h : j < slabOuterEntries) : Holder.innerSlot j ∈ holders := by
  have := Finset.mem_image_of_mem Holder.innerSlot (Finset.mem_range.mpr h)
  unfold holders
  simp only [Finset.mem_union, this, or_true, true_or]

theorem bucketSlot_mem {b : ℕ} (h : b < maxBuckets) : Holder.bucketSlot b ∈ holders := by
  have := Finset.mem_image_of_mem Holder.bucketSlot (Finset.mem_range.mpr h)
  unfold holders
  simp only [Finset.mem_union, this, or_true, true_or]

theorem entry_mem {i : ℕ} (h : i < maxBuckets * slabBucketEntries) : Holder.entry i ∈ holders := by
  have := Finset.mem_image_of_mem Holder.entry (Finset.mem_range.mpr h)
  unfold holders
  simp only [Finset.mem_union, this, or_true]

theorem mem_metaPages {v : View} {p : ℕ} : p ∈ v.metaPages ↔ v.IsMeta p := by
  unfold metaPages Places.IsMeta
  simp only [Multiset.mem_add, Multiset.mem_map, Multiset.mem_range, Multiset.insert_eq_cons,
    Multiset.mem_cons, Multiset.mem_singleton]
  constructor
  · rintro (((rfl | rfl | rfl) | ⟨j, hj, rfl⟩) | ⟨b, hb, rfl⟩)
    · exact ⟨.cont, trivial, rfl⟩
    · exact ⟨.dir, trivial, rfl⟩
    · exact ⟨.outer, trivial, rfl⟩
    · exact ⟨.inner j, hj, rfl⟩
    · exact ⟨.bucket b, hb, rfl⟩
  · rintro ⟨x, hx, rfl⟩
    cases x with
    | cont => exact .inl (.inl (.inl rfl))
    | dir => exact .inl (.inl (.inr (.inl rfl)))
    | outer => exact .inl (.inl (.inr (.inr rfl)))
    | inner j => exact .inl (.inr ⟨j, hx, rfl⟩)
    | bucket b => exact .inr ⟨b, hx, rfl⟩

/-- The pages of the mapping add up, with the pages `lost`. -/
def Balanced (v : View) (lost : Multiset ℕ) : Prop :=
  Ledger.Balanced holders v.held lost (v.free : Multiset ℕ) (Multiset.range v.n)

variable {v v' : View} {lost add drop : Multiset ℕ} {p : ℕ} {x : Holder}

namespace Balanced

theorem lt_n (h : v.Balanced lost) (hx : x ∈ holders) (hp : p ∈ v.held x) : p < v.n :=
  Multiset.mem_range.mp (Ledger.Balanced.mem_total h hx hp)

theorem notMem_free (h : v.Balanced lost) (hx : x ∈ holders) (hp : p ∈ v.held x) : p ∉ v.free :=
  fun hf => Ledger.Balanced.notMem_free h (Multiset.nodup_range _) hx hp (Multiset.mem_coe.mpr hf)

theorem notMeta (h : v.Balanced lost) (hx : x ∈ holders) (hne : x ≠ .metadata)
    (hp : p ∈ v.held x) : ¬ v.IsMeta p := by
  intro hm
  apply hne
  exact Ledger.Balanced.holder_unique h (Multiset.nodup_range _) hx metadata_mem hp
    (mem_metaPages.mpr hm)

theorem lost_notMeta (h : v.Balanced lost) (hp : p ∈ lost) : ¬ v.IsMeta p := fun hm =>
  Ledger.Balanced.notMem_lost h (Multiset.nodup_range _) metadata_mem (mem_metaPages.mpr hm) hp

theorem lost_lt (h : v.Balanced lost) (hp : p ∈ lost) : p < v.n :=
  Multiset.mem_range.mp (Multiset.mem_of_le (Ledger.Balanced.lost_le h) hp)

theorem lost_notMem_free (h : v.Balanced lost) (hp : p ∈ lost) : p ∉ v.free := fun hf =>
  Ledger.Balanced.lost_notMem_free h (Multiset.nodup_range _) hp (Multiset.mem_coe.mpr hf)

theorem notMem_lost (h : v.Balanced lost) (hx : x ∈ holders) (hp : p ∈ v.held x) : p ∉ lost :=
  Ledger.Balanced.notMem_lost h (Multiset.nodup_range _) hx hp

theorem free_notMeta (h : v.Balanced lost) (hp : p ∈ v.free) : ¬ v.IsMeta p := fun hm =>
  h.notMem_free metadata_mem (mem_metaPages.mpr hm) hp

/-- One holder takes up the pages `add`, which were lost, and leaves the pages `drop`. -/
theorem move (h : v.Balanced (lost + add)) (hx : x ∈ holders)
    (hpages : v'.held x + drop = v.held x + add)
    (hother : ∀ y ∈ holders, y ≠ x → v'.held y = v.held y) (hfree : v'.free = v.free)
    (hn : v'.n = v.n) : v'.Balanced (lost + drop) := by
  have hmove := Ledger.Balanced.move h hx hpages
  unfold Balanced
  rw [hfree, hn]
  refine hmove.congr fun y hy => ?_
  by_cases hyx : y = x
  · rw [hyx, Function.update_self]
  · rw [Function.update_of_ne hyx, hother y hy hyx]

/-- No holder changes. -/
theorem same (h : v.Balanced lost) (hheld : ∀ y ∈ holders, v'.held y = v.held y)
    (hfree : v'.free = v.free) (hn : v'.n = v.n) : v'.Balanced lost := by
  unfold Balanced
  rw [hfree, hn]
  exact Ledger.Balanced.congr h hheld

/-- A page was handed out. -/
theorem took (h : v.Balanced lost) {n' : ℕ} {free' : List ℕ} (ht : TakesPage p v.n v.free n' free') :
    ({ v with n := n', free := free' } : View).Balanced (lost + {p}) := by
  have hcons : ((p :: free' : List ℕ) : Multiset ℕ) = {p} + (free' : Multiset ℕ) := rfl
  rcases ht.cases with ⟨hn, hfree⟩ | ⟨hn, hnil, hrange⟩
  · have h' : Ledger.Balanced holders v.held lost ({p} + (free' : Multiset ℕ))
        (Multiset.range n') := by
      rw [← hcons, ← hfree, hn]
      exact h
    exact h'.take
  · have htotal : Multiset.range v.n + ((List.range' v.n v.n : List ℕ) : Multiset ℕ) =
        Multiset.range n' := by
      have hl := List.range'_append_1 (s := 0) (m := v.n) (n := v.n)
      rw [Nat.zero_add, ← Nat.two_mul, ← List.range_eq_range', ← List.range_eq_range'] at hl
      rw [hn, ← Multiset.coe_range, ← Multiset.coe_range, Multiset.coe_add, hl]
    have h₁ := Ledger.Balanced.grow h ((p :: free' : List ℕ) : Multiset ℕ)
    rw [hnil, hrange, htotal, ← hrange, hcons, Multiset.coe_nil, zero_add] at h₁
    exact h₁.take

/-- A page was given back. -/
theorem gave (h : v.Balanced (lost + {p})) :
    ({ v with free := v.free ++ [p] } : View).Balanced lost := by
  have h' := Ledger.Balanced.give h
  show Ledger.Balanced holders v.held lost ((v.free ++ [p] : List ℕ) : Multiset ℕ) _
  rw [← Multiset.coe_add]
  exact h'

end Balanced

end View

end LibPM

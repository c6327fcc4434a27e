import LibPM.Restore.Committed
import Mathlib.Data.List.Nodup

/-!
# The entries that a restore gives back

The tree of a file as a list of entries, in the order of the slots and buckets. For a container with one bucket the
nodes are four pages of the file, and the list is that of the bucket, each entry with the page at the offset of its
snapshot (`Pm.ImageAt`).
-/

namespace LibPM

open Recorded Recorded.Prog

/-- An initialised entry and its data, without the offsets of its pages. -/
structure SavedEntry where
  seId : ℕ
  seSize : ℕ
  bitmap : UInt8
  page : Option Page

def EntryTree.saved (t : EntryTree) : SavedEntry := ⟨t.seId, t.seSize, t.bitmap, t.page⟩

/-- The entry with the data page `p`. -/
def SlabEntry.saved (e : SlabEntry) (p : Option Page) : Option SavedEntry :=
  if e.isInit = true then some ⟨e.seId, e.seSize, e.dataCurrent.bitmap, p⟩ else none

/-- What hangs below the slots of a node. -/
def children {α : Type} (t : Option (List (Option (ℕ × α)))) : List α := (t.getD []).filterMap (Option.map Prod.snd)

namespace Way

/-- The entries of the tree of the directory at an address. -/
def entries (w : Way) (s : Pm) (a : ℕ) : List (Option (Option SavedEntry)) :=
  (children (w.dirTree s a)).flatMap fun o => (children o).flatMap fun i => (children i).flatMap fun b =>
    b.map (Option.map (Option.map EntryTree.saved))

/-- Where the data of an entry is. -/
def dataAddr (start : ℕ) (e : SlabEntry) : Way → ℕ
  | .image => start + e.dataSnapshot.laddr
  | .memory => e.dataCurrent.maddr

theorem saved_entryTree (w : Way) (s : Pm) (e : SlabEntry) :
    (w.entryTree s e).map EntryTree.saved = e.saved (s.pageAt (w.dataAddr s.startAddr e)) := by
  unfold entryTree SlabEntry.saved
  split_ifs
  · cases w <;> rfl
  · rfl

end Way

variable {s s' : Pm} {laddr a : ℕ}

/-- **A completed restore** gives back the entries of the file. -/
theorem Pm.Reopened.entries_slabMap (hs : s.Reopened) (hd : s.DistinctPages laddr)
    (hr : Returns (LibPM.slabMap laddr .complete) s a s') :
    Way.memory.entries s' a = Way.image.entries s (s.startAddr + laddr) := by
  obtain ⟨rfl, hres, hdone, hpages⟩ := hs.slabMap_complete hd hr
  unfold Way.entries
  rw [Way.dirTree_eq hs hres hdone hpages]

/-! ## Files that are refused -/

/-- The nodes below the slots of a node that was mapped. -/
theorem Level.done_of_mem {ν : Type} {N : Set ℕ} {K : NodeKind ν} {C : Level .complete N} {l x : ℕ} (hs : s.Reopened)
    (h : Pm.Restores .complete N s s') (hd : (Level.node K C).Done s' l) (hx : x ∈ K.snapshots s l) : C.Done s' x := by
  obtain ⟨n', hn', hall⟩ := hd
  rw [h.edits.startAddr] at hn'
  obtain ⟨p, hp, hr⟩ := h.pageAt_rev hs hn'
  obtain ⟨n, rfl⟩ := K.of_restored_rev hr
  obtain ⟨m, hm, hidx, hsl⟩ := K.of_restored hr
  obtain rfl := K.page_inj hm
  unfold NodeKind.snapshots at hx
  rw [hp, Option.bind_some, K.node?_eq_some.mpr rfl] at hx
  obtain ⟨hx, h0⟩ := List.mem_filter.mp hx
  obtain ⟨i, hi, rfl⟩ := List.mem_map.mp hx
  rw [← hsl.snapshot_laddr i] at h0 ⊢
  have h0 : (K.snapshot n' i).laddr ≠ 0 := by simpa using h0
  obtain ⟨⟨hcons, -⟩, hdone⟩ := hall i (hidx ▸ List.mem_range.mp hi)
  refine hdone ((K.snapshot n' i).laddr, true) ?_
  unfold slotCalls
  rw [if_pos ⟨fun hc => h0 ((not_not.mp hcons).mp hc), h0⟩]
  exact List.mem_singleton_self _

/-- The assertions of `slab_bucket_map` for the entries of the tree: both versions of the data, and of the records, are at
one offset. -/
def Pm.OneVersion (s : Pm) (laddr : ℕ) : Prop := ∀ l ∈ s.bucketOffsets laddr, ∀ i e,
  s.readEntry ⟨s.startAddr + l, i⟩ = some e → e.isInit = true →
    e.dataCurrent.laddr = e.dataSnapshot.laddr ∧ e.ptrCurrent.laddr = e.ptrSnapshot.laddr

/-- **A restore refuses** a file in which an entry has two versions. -/
theorem Pm.Reopened.oneVersion (hs : s.Reopened) (hd : s.DistinctPages laddr)
    (hr : Returns (LibPM.slabMap laddr .complete) s a s') : s.OneVersion laddr := by
  obtain ⟨-, hres, hdone, -⟩ := hs.slabMap_complete hd hr
  intro l hl i e he hinit
  obtain ⟨x, hx, hl⟩ := List.mem_flatMap.mp hl
  obtain ⟨y, hy, hx⟩ := List.mem_flatMap.mp hx
  have hbucket := Level.done_of_mem hs hres (Level.done_of_mem hs hres (Level.done_of_mem hs hres hdone hy) hx) hl
  obtain ⟨hidx, -⟩ := readEntry_eq_some.mp he
  obtain ⟨e', he', hhome⟩ := hbucket ⟨s.startAddr + l, i⟩ (by
    rw [hres.edits.startAddr]
    exact List.mem_map.mpr ⟨i, List.mem_range.mpr hidx, rfl⟩)
  obtain ⟨e'', he'', hentry⟩ := hres.readEntry hs he
  obtain rfl := Option.some.inj (he'.symm.trans he'')
  rcases hentry with hsame | ⟨-, hm, -⟩
  · exact mappable_of_unlinked hsame (hhome ((isInit_of_unlinked hsame).trans hinit)).1
  · exact hm

/-! ## One bucket -/

/-- A node with one child. -/
theorem children_tree {ν α : Type} (K : NodeKind ν) (w : Way) {child : ℕ → α} {n : ν} (hn : s.pageAt a = some (K.page n))
    (h1 : K.index n = 1) (hne : w.laddr (K.current n 0) (K.snapshot n 0) ≠ 0) :
    children (K.tree w s child a) = [child (w.addr s.startAddr (K.current n 0) (K.snapshot n 0))] := by
  unfold NodeKind.tree children
  rw [hn, Option.bind_some, K.node?_eq_some.mpr rfl, Option.map_some, h1, List.range_one, List.map_singleton,
    if_neg hne]
  rfl

/-- The tree at `a` has one bucket: the nodes on the way to it, the offsets of which are not zero. -/
structure Pm.TreeAt (s : Pm) (w : Way) (a ao ai ab : ℕ) (d : SlabDir) (o : SlabOuter) (n : SlabInner) (b : SlabBucket) :
    Prop where
  dir : s.pageAt a = some (.dir d)
  outer : s.pageAt ao = some (.outer o)
  inner : s.pageAt ai = some (.inner n)
  bucket : s.pageAt ab = some (.bucket b)
  sdIndex : d.sdIndex = 1
  sdAddr : w.addr s.startAddr (d.sdCurrent 0) (d.sdSnapshot 0) = ao
  sdLaddr : w.laddr (d.sdCurrent 0) (d.sdSnapshot 0) ≠ 0
  soIndex : o.soIndex = 1
  soAddr : w.addr s.startAddr (o.soCurrent 0) (o.soSnapshot 0) = ai
  soLaddr : w.laddr (o.soCurrent 0) (o.soSnapshot 0) ≠ 0
  siIndex : n.siIndex = 1
  siAddr : w.addr s.startAddr (n.siCurrent 0) (n.siSnapshot 0) = ab
  siLaddr : w.laddr (n.siCurrent 0) (n.siSnapshot 0) ≠ 0

/-- The entries of the tree are those of the bucket. -/
theorem Pm.TreeAt.entries {w : Way} {ao ai ab : ℕ} {d : SlabDir} {o : SlabOuter} {n : SlabInner} {b : SlabBucket}
    (h : s.TreeAt w a ao ai ab d o n b) : w.entries s a = (List.range slabBucketEntries).map fun i =>
      some ((b.sbEntries i).saved (s.pageAt (w.dataAddr s.startAddr (b.sbEntries i)))) := by
  have h₁ : children (w.dirTree s a) = [w.outerTree s ao] := by
    rw [← h.sdAddr]
    exact children_tree dirKind w h.dir h.sdIndex h.sdLaddr
  have h₂ : children (w.outerTree s ao) = [w.innerTree s ai] := by
    rw [← h.soAddr]
    exact children_tree outerKind w h.outer h.soIndex h.soLaddr
  have h₃ : children (w.innerTree s ai) = [w.bucketTree s ab] := by
    rw [← h.siAddr]
    exact children_tree innerKind w h.inner h.siIndex h.siLaddr
  unfold Way.entries
  rw [h₁, List.flatMap_singleton, h₂, List.flatMap_singleton, h₃, List.flatMap_singleton]
  unfold Way.bucketTree
  rw [List.map_map]
  refine List.map_congr_left fun i hi => ?_
  have hread : s.readEntry ⟨ab, i⟩ = some (b.sbEntries i) := by
    unfold Pm.readEntry
    rw [if_pos (List.mem_range.mp hi), readBucket_eq_some.mpr h.bucket]
    rfl
  rw [Function.comp_apply, hread, Option.map_some, Option.map_some, Way.saved_entryTree]

theorem snapshots_one {ν : Type} (K : NodeKind ν) {l : ℕ} {n : ν} (hn : s.pageAt (s.startAddr + l) = some (K.page n))
    (h1 : K.index n = 1) (hne : (K.snapshot n 0).laddr ≠ 0) : K.snapshots s l = [(K.snapshot n 0).laddr] := by
  unfold NodeKind.snapshots
  rw [hn, Option.bind_some, K.node?_eq_some.mpr rfl]
  dsimp only
  rw [h1, List.range_one, List.map_singleton, List.filter_cons_of_pos (by simpa using hne), List.filter_nil]

theorem mul_pageSize_ne_zero {p : ℕ} (h : 0 < p) : p * pageSize ≠ 0 := by
  unfold pageSize
  omega

/-- The file holds a container with one bucket: the pages of its nodes, linked by the offsets of the snapshots. -/
structure Pm.ImageAt (s : Pm) (pd po pi pb : ℕ) (d : SlabDir) (o : SlabOuter) (n : SlabInner) (b : SlabBucket) : Prop where
  dir : s.pageAt (s.startAddr + pd * pageSize) = some (.dir d)
  outer : s.pageAt (s.startAddr + po * pageSize) = some (.outer o)
  inner : s.pageAt (s.startAddr + pi * pageSize) = some (.inner n)
  bucket : s.pageAt (s.startAddr + pb * pageSize) = some (.bucket b)
  sdIndex : d.sdIndex = 1
  sdSnapshot : (d.sdSnapshot 0).laddr = po * pageSize
  soIndex : o.soIndex = 1
  soSnapshot : (o.soSnapshot 0).laddr = pi * pageSize
  siIndex : n.siIndex = 1
  siSnapshot : (n.siSnapshot 0).laddr = pb * pageSize
  pos : 0 < po ∧ 0 < pi ∧ 0 < pb

namespace Pm.ImageAt

variable {pd po pi pb : ℕ} {d : SlabDir} {o : SlabOuter} {n : SlabInner} {b : SlabBucket}

theorem readEntry (h : s.ImageAt pd po pi pb d o n b) {i : ℕ} (hi : i < slabBucketEntries) :
    s.readEntry ⟨s.startAddr + pb * pageSize, i⟩ = some (b.sbEntries i) := by
  unfold Pm.readEntry
  rw [if_pos hi, readBucket_eq_some.mpr h.bucket]
  rfl

theorem treeAt (h : s.ImageAt pd po pi pb d o n b) : s.TreeAt .image (s.startAddr + pd * pageSize)
    (s.startAddr + po * pageSize) (s.startAddr + pi * pageSize) (s.startAddr + pb * pageSize) d o n b where
  dir := h.dir
  outer := h.outer
  inner := h.inner
  bucket := h.bucket
  sdIndex := h.sdIndex
  sdAddr := congrArg (s.startAddr + ·) h.sdSnapshot
  sdLaddr := h.sdSnapshot.trans_ne <| mul_pageSize_ne_zero h.pos.1
  soIndex := h.soIndex
  soAddr := congrArg (s.startAddr + ·) h.soSnapshot
  soLaddr := h.soSnapshot.trans_ne <| mul_pageSize_ne_zero h.pos.2.1
  siIndex := h.siIndex
  siAddr := congrArg (s.startAddr + ·) h.siSnapshot
  siLaddr := h.siSnapshot.trans_ne <| mul_pageSize_ne_zero h.pos.2.2

/-- The pages of the tree are distinct if those of the data are. -/
theorem distinctPages (h : s.ImageAt pd po pi pb d o n b) (hnodes : [pd, po, pi, pb].Nodup) {p : ℕ → ℕ}
    (hp : ∀ i < slabBucketEntries, (b.sbEntries i).isInit = true → (b.sbEntries i).dataSnapshot.laddr = p i * pageSize)
    (hnode : ∀ i < slabBucketEntries, (b.sbEntries i).isInit = true → p i ∉ [pd, po, pi, pb])
    (hinj : ∀ i < slabBucketEntries, ∀ j < slabBucketEntries, (b.sbEntries i).isInit = true →
      (b.sbEntries j).isInit = true → p i = p j → i = j) : s.DistinctPages (pd * pageSize) := by
  have h₁ : s.outerOffsets (pd * pageSize) = [po * pageSize] := by
    rw [← h.sdSnapshot]
    exact snapshots_one dirKind h.dir h.sdIndex (h.sdSnapshot ▸ mul_pageSize_ne_zero h.pos.1)
  have h₂ : s.innerOffsets (pd * pageSize) = [pi * pageSize] := by
    unfold Pm.innerOffsets
    rw [h₁, List.flatMap_singleton, ← h.soSnapshot]
    exact snapshots_one outerKind h.outer h.soIndex (h.soSnapshot ▸ mul_pageSize_ne_zero h.pos.2.1)
  have h₃ : s.bucketOffsets (pd * pageSize) = [pb * pageSize] := by
    unfold Pm.bucketOffsets
    rw [h₂, List.flatMap_singleton, ← h.siSnapshot]
    exact snapshots_one innerKind h.inner h.siIndex (h.siSnapshot ▸ mul_pageSize_ne_zero h.pos.2.2)
  -- the entries that are initialised, by their index
  have hdata : s.dataOffsets (pd * pageSize) =
      ((List.range slabBucketEntries).filter fun i => (b.sbEntries i).isInit).map fun i => p i * pageSize := by
    have hread : (bucketRefs s.startAddr (pb * pageSize)).filterMap s.readEntry =
        (List.range slabBucketEntries).map b.sbEntries := by
      unfold bucketRefs
      rw [List.filterMap_map, ← List.filterMap_eq_map]
      exact List.filterMap_congr fun i hi => h.readEntry (List.mem_range.mp hi)
    unfold Pm.dataOffsets Pm.bucketData
    rw [h₃, List.flatMap_singleton, hread, List.filter_map, List.map_map]
    refine List.map_congr_left fun i hi => ?_
    obtain ⟨hi, hinit⟩ := List.mem_filter.mp hi
    exact hp i (List.mem_range.mp hi) hinit
  have hdiv : ∀ k, k * pageSize / pageSize = k := fun k => Nat.mul_div_cancel k pageSize_pos
  refine ⟨fun l hl => ?_, ?_⟩
  · rw [hdata] at hl
    obtain ⟨i, -, rfl⟩ := List.mem_map.mp hl
    exact Nat.mul_mod_left ..
  · have hoffsets : (s.nodeOffsets (pd * pageSize)).map (· / pageSize) = [pd, po, pi, pb] := by
      unfold Pm.nodeOffsets
      rw [h₁, h₂, h₃]
      simp only [List.cons_append, List.nil_append, List.map_cons, List.map_nil, hdiv]
    rw [List.map_append, hoffsets, hdata, List.map_map, List.nodup_append]
    refine ⟨hnodes, ?_, ?_⟩
    · refine List.Nodup.map_on (fun i hi j hj heq => ?_) (List.nodup_range.filter _)
      obtain ⟨hi, hinit⟩ := List.mem_filter.mp hi
      obtain ⟨hj, hinit'⟩ := List.mem_filter.mp hj
      simp only [Function.comp_apply, hdiv] at heq
      exact hinj i (List.mem_range.mp hi) j (List.mem_range.mp hj) hinit hinit' heq
    · rintro x hx y hy rfl
      obtain ⟨i, hi, rfl⟩ := List.mem_map.mp hy
      obtain ⟨hi, hinit⟩ := List.mem_filter.mp hi
      simp only [Function.comp_apply, hdiv] at hx
      exact hnode i (List.mem_range.mp hi) hinit hx

end Pm.ImageAt

end LibPM

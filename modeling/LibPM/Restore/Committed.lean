import LibPM.Restore.Mapping

/-!
# The tree of a completed restore

A tree can be read in two ways: from the file, along the offsets of the snapshot slots, and from
memory, along the addresses of the current slots. After `slab_map` of a completed checkpoint the two
give the same tree, which is the one that the file held before.
-/

namespace LibPM

open Recorded Recorded.Prog

/-- How the links of a tree are followed. -/
inductive Way where
  | image
  | memory
  deriving DecidableEq

namespace Way

/-- The offset of a child. -/
def laddr : Way → Slot → Slot → ℕ
  | .image, _, t => t.laddr
  | .memory, c, _ => c.laddr

/-- The address of a child. -/
def addr (start : ℕ) : Way → Slot → Slot → ℕ
  | .image, _, t => start + t.laddr
  | .memory, c, _ => c.maddr

end Way

/-- An initialised entry: its numbers, the offsets of its pages, and its data page. -/
structure EntryTree where
  seId : ℕ
  seSize : ℕ
  bitmap : UInt8
  ptrIdx : ℕ
  dataLaddr : ℕ
  ptrLaddr : ℕ
  page : Option Page

def Way.entryTree (w : Way) (s : Pm) (e : SlabEntry) : Option EntryTree :=
  if e.isInit = true then
    some ⟨e.seId, e.seSize, e.dataCurrent.bitmap, e.ptrCurrent.idx,
      match w with | .image => e.dataSnapshot.laddr | .memory => e.dataCurrent.laddr,
      match w with | .image => e.ptrSnapshot.laddr | .memory => e.ptrCurrent.laddr,
      s.pageAt (match w with
        | .image => s.startAddr + e.dataSnapshot.laddr
        | .memory => e.dataCurrent.maddr)⟩
  else none

/-- The slots of a node in use, each with its offset and the tree below it. -/
def NodeKind.tree {ν α : Type} (K : NodeKind ν) (w : Way) (s : Pm) (child : ℕ → α) (a : ℕ) :
    Option (List (Option (ℕ × α))) :=
  ((s.pageAt a).bind K.node?).map fun n => (List.range (K.index n)).map fun i =>
    if w.laddr (K.current n i) (K.snapshot n i) = 0 then none
    else some (w.laddr (K.current n i) (K.snapshot n i),
      child (w.addr s.startAddr (K.current n i) (K.snapshot n i)))

def Way.bucketTree (w : Way) (s : Pm) (a : ℕ) : List (Option (Option EntryTree)) :=
  (List.range slabBucketEntries).map fun i => (s.readEntry ⟨a, i⟩).map (w.entryTree s)

def Way.innerTree (w : Way) (s : Pm) := innerKind.tree w s (w.bucketTree s)

def Way.outerTree (w : Way) (s : Pm) := outerKind.tree w s (w.innerTree s)

/-- The tree of the directory at an address. -/
def Way.dirTree (w : Way) (s : Pm) := dirKind.tree w s (w.outerTree s)

/-! ## The pages of the tree of a file -/

section

variable {ν : Type} {N : Set ℕ} {s s' t : Pm} {laddr l : ℕ}

/-- The offsets in the snapshot slots of the node at the offset `l`. -/
def NodeKind.snapshots (K : NodeKind ν) (s : Pm) (l : ℕ) : List ℕ :=
  match (s.pageAt (s.startAddr + l)).bind K.node? with
  | none => []
  | some n => ((List.range (K.index n)).map fun i => (K.snapshot n i).laddr).filter (· ≠ 0)

namespace Pm

def outerOffsets (s : Pm) (laddr : ℕ) : List ℕ := dirKind.snapshots s laddr

def innerOffsets (s : Pm) (laddr : ℕ) : List ℕ :=
  (s.outerOffsets laddr).flatMap (outerKind.snapshots s)

def bucketOffsets (s : Pm) (laddr : ℕ) : List ℕ :=
  (s.innerOffsets laddr).flatMap (innerKind.snapshots s)

/-- The offsets of the directory and of the nodes and buckets below it. -/
def nodeOffsets (s : Pm) (laddr : ℕ) : List ℕ :=
  laddr :: (s.outerOffsets laddr ++ s.innerOffsets laddr ++ s.bucketOffsets laddr)

/-- The offsets of the data pages of the initialised entries of a bucket. -/
def bucketData (s : Pm) (l : ℕ) : List ℕ :=
  (((bucketRefs s.startAddr l).filterMap s.readEntry).filter (·.isInit)).map (·.dataSnapshot.laddr)

def dataOffsets (s : Pm) (laddr : ℕ) : List ℕ := (s.bucketOffsets laddr).flatMap s.bucketData

/-- The pages reached from the directory at `laddr` by the offsets of snapshots are distinct. A data
page starts at its offset, as the pages of the nodes do. -/
structure DistinctPages (s : Pm) (laddr : ℕ) : Prop where
  aligned : ∀ l ∈ s.dataOffsets laddr, l % pageSize = 0
  nodup : ((s.nodeOffsets laddr ++ s.dataOffsets laddr).map (· / pageSize)).Nodup

/-- The pages that hold the directory and the nodes and buckets below it. -/
def nodePages (s : Pm) (laddr : ℕ) : Set ℕ :=
  {q | ∃ l ∈ s.nodeOffsets laddr, s.vpage (s.startAddr + l) = some q}

end Pm

/-- The children that are mapped are among those of the snapshot slots. -/
theorem NodeKind.calls_complete (K : NodeKind ν) {x : ℕ × Bool} (h : x ∈ K.calls .complete s l) :
    x.1 ∈ K.snapshots s l := by
  unfold NodeKind.calls at h
  unfold NodeKind.snapshots
  cases hn : (s.pageAt (s.startAddr + l)).bind K.node? with
  | none =>
    rw [hn] at h
    exact (List.not_mem_nil h).elim
  | some n =>
    rw [hn] at h
    obtain ⟨i, hi, hx⟩ := List.mem_flatMap.mp h
    unfold slotCalls at hx
    split_ifs at hx with hlive
    · obtain rfl := List.mem_singleton.mp hx
      exact List.mem_filter.mpr ⟨List.mem_map.mpr ⟨i, hi, rfl⟩, by simpa using hlive.2⟩
    · exact (List.not_mem_nil hx).elim

/-- The nodes that are mapped are on the pages of the tree. -/
theorem Pm.pre_nodePages (s : Pm) (laddr : ℕ) :
    (Level.dir .complete (s.nodePages laddr)).Pre s laddr := by
  have hin : ∀ l ∈ s.nodeOffsets laddr, s.OffsetIn (s.nodePages laddr) l :=
    fun l hl q hq => ⟨l, hl, hq⟩
  unfold Pm.nodeOffsets at hin
  refine ⟨hin laddr List.mem_cons_self, fun x hx => ?_⟩
  have hox : x.1 ∈ s.outerOffsets laddr := dirKind.calls_complete hx
  refine ⟨hin x.1 (by simp [hox]), fun y hy => ?_⟩
  have hiy : y.1 ∈ s.innerOffsets laddr :=
    List.mem_flatMap.mpr ⟨x.1, hox, outerKind.calls_complete hy⟩
  refine ⟨hin y.1 (by simp [hiy]), fun z hz => ?_⟩
  have hbz : z.1 ∈ s.bucketOffsets laddr :=
    List.mem_flatMap.mpr ⟨y.1, hiy, innerKind.calls_complete hz⟩
  exact hin z.1 (by simp [hbz])

/-! ## Both ways lead to the same tree -/

theorem EntryRestored.isInit_eq {type : CpointType} {start : ℕ} {e e' : SlabEntry} (h0 : start ≠ 0)
    (h : EntryRestored type start e e') : e'.isInit = e.isInit := by
  rcases h with h | ⟨hi, -, h⟩
  · exact isInit_of_unlinked h
  · rw [isInit_of_unlinked h, isInit_mapEntry h0, hi]

/-- What mapping leaves of an entry. -/
theorem EntryRestored.kept {type : CpointType} {start : ℕ} {e e' : SlabEntry}
    (h : EntryRestored type start e e') : e'.seId = e.seId ∧ e'.seSize = e.seSize ∧
      e'.dataCurrent.bitmap = e.dataCurrent.bitmap ∧ e'.ptrCurrent.idx = e.ptrCurrent.idx ∧
      e'.dataSnapshot.laddr = e.dataSnapshot.laddr ∧
      e'.ptrSnapshot.laddr = e.ptrSnapshot.laddr := by
  have key : ∀ x : SlabEntry, e'.unlinked = x.unlinked → e'.seId = x.seId ∧ e'.seSize = x.seSize ∧
      e'.dataCurrent.bitmap = x.dataCurrent.bitmap ∧ e'.ptrCurrent.idx = x.ptrCurrent.idx ∧
      e'.dataSnapshot.laddr = x.dataSnapshot.laddr ∧
      e'.ptrSnapshot.laddr = x.ptrSnapshot.laddr := by
    intro x hx
    have hdc : e'.dataCurrent = x.dataCurrent := (congrArg SlabEntry.dataCurrent hx :)
    have hds : e'.dataSnapshot = x.dataSnapshot := (congrArg SlabEntry.dataSnapshot hx :)
    have hpc : e'.ptrCurrent = x.ptrCurrent := (congrArg SlabEntry.ptrCurrent hx :)
    have hps : e'.ptrSnapshot = x.ptrSnapshot := (congrArg SlabEntry.ptrSnapshot hx :)
    refine ⟨(congrArg SlabEntry.seId hx :), (congrArg SlabEntry.seSize hx :), ?_⟩
    rw [hdc, hds, hpc, hps]
    exact ⟨rfl, rfl, rfl, rfl⟩
  rcases h with h | ⟨-, -, h⟩
  · exact key e h
  · have hk := key _ h
    cases type <;> exact hk

/-- Where an entry of a completed restore leads. -/
theorem EntryHome.home {start : ℕ} {e : SlabEntry} (h : EntryHome .complete start e)
    (hi : e.isInit = true) : e.dataCurrent.laddr = e.dataSnapshot.laddr ∧
      e.ptrCurrent.laddr = e.ptrSnapshot.laddr ∧
      e.dataCurrent.maddr = start + e.dataSnapshot.laddr := by
  obtain ⟨hm, he⟩ := h hi
  have hdc : e.dataCurrent = (mapEntry start .complete e).dataCurrent :=
    (congrArg SlabEntry.dataCurrent he :)
  exact ⟨hm.1, hm.2, by rw [hdc]; rfl⟩

/-- An entry, in memory or in the file, as it was in the file. -/
theorem EntryRestored.entryTree {e e' : SlabEntry} (hs : s.Reopened)
    (hstart : s'.startAddr = s.startAddr) (hr : EntryRestored .complete s.startAddr e e')
    (hh : EntryHome .complete s.startAddr e')
    (hpage : e.isInit = true → s'.pageAt (s.startAddr + e.dataSnapshot.laddr) =
      s.pageAt (s.startAddr + e.dataSnapshot.laddr)) (w : Way) :
    w.entryTree s' e' = Way.image.entryTree s e := by
  have hi := hr.isInit_eq hs.start
  obtain ⟨hid, hsize, hbit, hidx, hdl, hpl⟩ := hr.kept
  unfold Way.entryTree
  by_cases he : e.isInit = true
  · obtain ⟨hdata, hptr, haddr⟩ := hh.home (hi.trans he)
    rw [if_pos (hi.trans he), if_pos he, hid, hsize, hbit, hidx]
    cases w with
    | image =>
      dsimp only
      rw [hdl, hpl, hstart, hpage he]
    | memory =>
      dsimp only
      rw [haddr, hdata, hptr, hdl, hpl, hpage he]
  · rw [if_neg fun h => he (hi.symm.trans h), if_neg he]

theorem Way.bucketTree_eq (hs : s.Reopened) (h : Pm.Restores .complete N s s')
    (hd : (Level.bucket .complete N).Done s' l)
    (hpages : ∀ x ∈ s.bucketData l, s'.pageAt (s.startAddr + x) = s.pageAt (s.startAddr + x))
    (w : Way) : w.bucketTree s' (s.startAddr + l) = Way.image.bucketTree s (s.startAddr + l) := by
  have hstart := h.edits.startAddr
  refine List.map_congr_left fun i hi => ?_
  have hmem : (⟨s.startAddr + l, i⟩ : EntryRef) ∈ bucketRefs s.startAddr l :=
    List.mem_map.mpr ⟨i, hi, rfl⟩
  have hdone : ∀ r ∈ bucketRefs s'.startAddr l, ∃ e, s'.readEntry r = some e ∧
    EntryHome .complete s'.startAddr e := hd
  rw [hstart] at hdone
  obtain ⟨e', he', hh⟩ := hdone _ hmem
  cases he : s.readEntry ⟨s.startAddr + l, i⟩ with
  | none =>
    rw [h.readEntry_none hs he] at he'
    cases he'
  | some e =>
    obtain ⟨e'', he'', hr⟩ := h.readEntry hs he
    obtain rfl := Option.some.inj (he'.symm.trans he'')
    rw [he', Option.map_some, Option.map_some, hr.entryTree hs hstart hh (fun hinit => ?_) w]
    refine hpages _ (List.mem_map.mpr ⟨e, List.mem_filter.mpr
      ⟨List.mem_filterMap.mpr ⟨_, hmem, he⟩, hinit⟩, rfl⟩)

/-- A node whose children are right is right. -/
theorem NodeKind.tree_eq {α : Type} {K : NodeKind ν} {C : Level .complete N} (hs : s.Reopened)
    (h : Pm.Restores .complete N s s') (hd : (Level.node K C).Done s' l) {w : Way}
    {child child' : ℕ → α} (hchild : ∀ x ∈ K.snapshots s l, C.Done s' x →
      child' (s.startAddr + x) = child (s.startAddr + x)) :
    K.tree w s' child' (s.startAddr + l) = K.tree .image s child (s.startAddr + l) := by
  have hstart := h.edits.startAddr
  obtain ⟨n', hn', hall⟩ := hd
  rw [hstart] at hn' hall
  obtain ⟨p, hp, hr⟩ := h.pageAt_rev hs hn'
  obtain ⟨n, rfl⟩ := K.of_restored_rev hr
  obtain ⟨m, hm, hidx, hsl⟩ := K.of_restored hr
  obtain rfl := K.page_inj hm
  unfold NodeKind.tree
  rw [hn', hp, Option.bind_some, Option.bind_some, K.node?_eq_some.mpr rfl, K.node?_eq_some.mpr rfl,
    Option.map_some, Option.map_some, hidx, hstart]
  refine congrArg some (List.map_congr_left fun i hi => ?_)
  obtain ⟨⟨hcons, hhome⟩, hdone⟩ := hall i (hidx ▸ List.mem_range.mp hi)
  have hiff : (K.current n' i).laddr = 0 ↔ (K.snapshot n' i).laddr = 0 := not_not.mp hcons
  have hsnap := hsl.snapshot_laddr i
  by_cases h0 : (K.snapshot n i).laddr = 0
  · have hw : w.laddr (K.current n' i) (K.snapshot n' i) = 0 := by
      cases w with
      | image => exact hsnap.trans h0
      | memory => exact hiff.mpr (hsnap.trans h0)
    rw [if_pos hw, if_pos (show Way.image.laddr (K.current n i) (K.snapshot n i) = 0 from h0)]
  · have h0' : (K.snapshot n' i).laddr ≠ 0 := fun h => h0 (hsnap.symm.trans h)
    obtain ⟨hc, -⟩ := hhome fun h => h0' (hiff.mp h)
    have hl : w.laddr (K.current n' i) (K.snapshot n' i) = (K.snapshot n i).laddr := by
      cases w with
      | image => exact hsnap
      | memory =>
        show (K.current n' i).laddr = _
        rw [hc]
        exact hsnap
    have ha : w.addr s.startAddr (K.current n' i) (K.snapshot n' i) =
        s.startAddr + (K.snapshot n i).laddr := by
      cases w with
      | image => exact congrArg (s.startAddr + ·) hsnap
      | memory =>
        show (K.current n' i).maddr = _
        rw [hc]
        exact congrArg (s.startAddr + ·) hsnap
    have hmem : (K.snapshot n i).laddr ∈ K.snapshots s l := by
      unfold NodeKind.snapshots
      rw [hp, Option.bind_some, K.node?_eq_some.mpr rfl]
      exact List.mem_filter.mpr ⟨List.mem_map.mpr ⟨i, hi, rfl⟩, by simpa using h0⟩
    have hcall : C.Done s' (K.snapshot n i).laddr := by
      refine hdone ((K.snapshot n i).laddr, true) ?_
      unfold slotCalls
      rw [if_pos ⟨fun h => h0' (hiff.mp h), h0'⟩, hsnap]
      exact List.mem_singleton_self _
    rw [hl, ha, if_neg h0, if_neg (show Way.image.laddr (K.current n i) (K.snapshot n i) ≠ 0 from h0)]
    exact congrArg some (Prod.ext rfl (hchild _ hmem hcall))

/-- **The tree in memory, or in the file, is the one that was in the file.** -/
theorem Way.dirTree_eq (hs : s.Reopened) (h : Pm.Restores .complete N s s')
    (hd : (Level.dir .complete N).Done s' laddr)
    (hpages : ∀ x ∈ s.dataOffsets laddr,
      s'.pageAt (s.startAddr + x) = s.pageAt (s.startAddr + x)) (w : Way) :
    w.dirTree s' (s.startAddr + laddr) = Way.image.dirTree s (s.startAddr + laddr) :=
  NodeKind.tree_eq hs h hd fun x hx hdx => NodeKind.tree_eq hs h hdx fun y hy hdy =>
    NodeKind.tree_eq hs h hdy fun z hz hdz => Way.bucketTree_eq hs h hdz
      (fun a ha => hpages a (List.mem_flatMap.mpr ⟨z, List.mem_flatMap.mpr
        ⟨y, List.mem_flatMap.mpr ⟨x, hx, hy⟩, hz⟩, ha⟩)) w

/-! ## Files that agree on the pages of the tree -/

theorem NodeKind.tree_agree {α : Type} {K : NodeKind ν} {child child' : ℕ → α}
    (hl : t.pageAt (t.startAddr + l) = s.pageAt (s.startAddr + l))
    (hchild : ∀ x ∈ K.snapshots s l, child' (t.startAddr + x) = child (s.startAddr + x)) :
    K.tree .image t child' (t.startAddr + l) = K.tree .image s child (s.startAddr + l) := by
  unfold NodeKind.snapshots at hchild
  unfold NodeKind.tree
  rw [hl]
  cases hn : (s.pageAt (s.startAddr + l)).bind K.node? with
  | none => rfl
  | some n =>
    rw [hn] at hchild
    refine congrArg some (List.map_congr_left fun i hi => ?_)
    by_cases h0 : (K.snapshot n i).laddr = 0
    · rw [if_pos (show Way.image.laddr (K.current n i) (K.snapshot n i) = 0 from h0),
        if_pos (show Way.image.laddr (K.current n i) (K.snapshot n i) = 0 from h0)]
    · rw [if_neg (show Way.image.laddr (K.current n i) (K.snapshot n i) ≠ 0 from h0),
        if_neg (show Way.image.laddr (K.current n i) (K.snapshot n i) ≠ 0 from h0)]
      refine congrArg some (Prod.ext rfl (hchild _ (List.mem_filter.mpr
        ⟨List.mem_map.mpr ⟨i, hi, rfl⟩, by simpa using h0⟩)))

theorem Way.bucketTree_agree (hl : t.pageAt (t.startAddr + l) = s.pageAt (s.startAddr + l))
    (hpages : ∀ x ∈ s.bucketData l, t.pageAt (t.startAddr + x) = s.pageAt (s.startAddr + x)) :
    Way.image.bucketTree t (t.startAddr + l) = Way.image.bucketTree s (s.startAddr + l) := by
  refine List.map_congr_left fun i hi => ?_
  have hentry : t.readEntry ⟨t.startAddr + l, i⟩ = s.readEntry ⟨s.startAddr + l, i⟩ := by
    unfold Pm.readEntry Pm.readBucket
    dsimp only
    rw [hl]
  rw [hentry]
  cases he : s.readEntry ⟨s.startAddr + l, i⟩ with
  | none => rfl
  | some e =>
    refine congrArg some ?_
    unfold Way.entryTree
    by_cases hi' : e.isInit = true
    · rw [if_pos hi', if_pos hi']
      dsimp only
      rw [hpages _ (List.mem_map.mpr ⟨e, List.mem_filter.mpr
        ⟨List.mem_filterMap.mpr ⟨_, List.mem_map.mpr ⟨i, hi, rfl⟩, he⟩, hi'⟩, rfl⟩)]
    · rw [if_neg hi', if_neg hi']

/-- The pages of the tree in `s` hold the same in `t`. -/
def Pm.AgreesOn (s t : Pm) (laddr : ℕ) : Prop :=
  ∀ l ∈ s.nodeOffsets laddr ++ s.dataOffsets laddr,
    t.pageAt (t.startAddr + l) = s.pageAt (s.startAddr + l)

theorem Way.dirTree_agree (h : s.AgreesOn t laddr) :
    Way.image.dirTree t (t.startAddr + laddr) = Way.image.dirTree s (s.startAddr + laddr) := by
  have hnode : ∀ l ∈ s.nodeOffsets laddr, t.pageAt (t.startAddr + l) = s.pageAt (s.startAddr + l) :=
    fun l hl => h l (List.mem_append_left _ hl)
  unfold Pm.nodeOffsets at hnode
  refine NodeKind.tree_agree (hnode laddr List.mem_cons_self) fun x hx => ?_
  have hox : x ∈ s.outerOffsets laddr := hx
  refine NodeKind.tree_agree (hnode x (by simp [hox])) fun y hy => ?_
  have hiy : y ∈ s.innerOffsets laddr := List.mem_flatMap.mpr ⟨x, hox, hy⟩
  refine NodeKind.tree_agree (hnode y (by simp [hiy])) fun z hz => ?_
  have hbz : z ∈ s.bucketOffsets laddr := List.mem_flatMap.mpr ⟨y, hiy, hz⟩
  exact Way.bucketTree_agree (hnode z (by simp [hbz])) fun a ha =>
    h a (List.mem_append_right _ (List.mem_flatMap.mpr ⟨z, hbz, ha⟩))

/-! ## Both versions of a slot -/

/-- Both versions of every slot in use have one offset, and `child` holds of the nodes below. -/
def NodeKind.Settled (K : NodeKind ν) (s : Pm) (child : ℕ → Prop) (a : ℕ) : Prop :=
  ∀ n, s.pageAt a = some (K.page n) → ∀ i < K.index n,
    (K.current n i).laddr = (K.snapshot n i).laddr ∧
      ((K.current n i).laddr ≠ 0 → child (K.current n i).maddr)

/-- The same for the entries of a bucket. -/
def Pm.BucketSettled (s : Pm) (a : ℕ) : Prop :=
  ∀ i e, s.readEntry ⟨a, i⟩ = some e → e.isInit = true →
    e.dataCurrent.laddr = e.dataSnapshot.laddr ∧ e.ptrCurrent.laddr = e.ptrSnapshot.laddr

/-- Both versions agree in the whole tree of the directory at an address. -/
def Pm.Settled (s : Pm) : ℕ → Prop :=
  dirKind.Settled s (outerKind.Settled s (innerKind.Settled s s.BucketSettled))

theorem Level.bucket_settled (hd : (Level.bucket .complete N).Done s l) :
    s.BucketSettled (s.startAddr + l) := by
  intro i e he hi
  obtain ⟨hidx, -⟩ := readEntry_eq_some.mp he
  obtain ⟨e', he', hh⟩ := hd ⟨s.startAddr + l, i⟩ (List.mem_map.mpr ⟨i, List.mem_range.mpr hidx, rfl⟩)
  obtain rfl := Option.some.inj (he.symm.trans he')
  obtain ⟨hdata, hptr, -⟩ := hh.home hi
  exact ⟨hdata, hptr⟩

theorem Level.node_settled {K : NodeKind ν} {C : Level .complete N} {child : ℕ → Prop}
    (hd : (Level.node K C).Done s l) (hchild : ∀ x, C.Done s x → child (s.startAddr + x)) :
    K.Settled s child (s.startAddr + l) := by
  intro n hn i hi
  obtain ⟨n', hn', hall⟩ := hd
  obtain rfl := K.page_inj (Option.some.inj (hn.symm.trans hn'))
  obtain ⟨⟨hcons, hhome⟩, hdone⟩ := hall i hi
  have hiff : (K.current n i).laddr = 0 ↔ (K.snapshot n i).laddr = 0 := not_not.mp hcons
  by_cases h0 : (K.current n i).laddr = 0
  · exact ⟨h0.trans (hiff.mp h0).symm, fun h => (h h0).elim⟩
  · obtain ⟨hc, -⟩ := hhome h0
    have hdone' := hdone ((K.snapshot n i).laddr, true) (by
      unfold slotCalls
      rw [if_pos ⟨h0, fun h => h0 (hiff.mpr h)⟩]
      exact List.mem_singleton_self _)
    refine ⟨by rw [hc]; rfl, fun _ => ?_⟩
    rw [hc]
    exact hchild _ hdone'

theorem Level.dir_settled (hd : (Level.dir .complete N).Done s laddr) :
    s.Settled (s.startAddr + laddr) :=
  Level.node_settled hd fun _ hx => Level.node_settled hx fun _ hy => Level.node_settled hy fun _ hz =>
    Level.bucket_settled hz

/-! ## The pages of the tree stay -/

theorem NodeKind.snapshots_agree {K : NodeKind ν}
    (hl : t.pageAt (t.startAddr + l) = s.pageAt (s.startAddr + l)) :
    K.snapshots t l = K.snapshots s l := by
  unfold NodeKind.snapshots
  rw [hl]

theorem Pm.bucketData_agree (hl : t.pageAt (t.startAddr + l) = s.pageAt (s.startAddr + l)) :
    t.bucketData l = s.bucketData l := by
  unfold Pm.bucketData bucketRefs
  rw [List.filterMap_map, List.filterMap_map]
  have hentry : (t.readEntry ∘ fun i => (⟨t.startAddr + l, i⟩ : EntryRef)) =
      s.readEntry ∘ fun i => ⟨s.startAddr + l, i⟩ := by
    funext i
    unfold Function.comp Pm.readEntry Pm.readBucket
    dsimp only
    rw [hl]
  rw [hentry]

/-- A tree whose nodes have the same children has the same pages. -/
theorem Pm.DistinctPages.congr (h : s.DistinctPages laddr)
    (hdir : dirKind.snapshots t laddr = dirKind.snapshots s laddr)
    (houter : ∀ l ∈ s.outerOffsets laddr, outerKind.snapshots t l = outerKind.snapshots s l)
    (hinner : ∀ l ∈ s.innerOffsets laddr, innerKind.snapshots t l = innerKind.snapshots s l)
    (hbucket : ∀ l ∈ s.bucketOffsets laddr, t.bucketData l = s.bucketData l) :
    t.DistinctPages laddr := by
  have ho : t.outerOffsets laddr = s.outerOffsets laddr := hdir
  have hi : t.innerOffsets laddr = s.innerOffsets laddr := by
    unfold Pm.innerOffsets
    rw [ho]
    exact List.flatMap_congr houter
  have hb : t.bucketOffsets laddr = s.bucketOffsets laddr := by
    unfold Pm.bucketOffsets
    rw [hi]
    exact List.flatMap_congr hinner
  have hdata : t.dataOffsets laddr = s.dataOffsets laddr := by
    unfold Pm.dataOffsets
    rw [hb]
    exact List.flatMap_congr hbucket
  have hnode : t.nodeOffsets laddr = s.nodeOffsets laddr := by
    unfold Pm.nodeOffsets
    rw [ho, hi, hb]
  exact ⟨hdata ▸ h.aligned, by rw [hnode, hdata]; exact h.nodup⟩

theorem Pm.AgreesOn.distinctPages (h : s.AgreesOn t laddr) (hd : s.DistinctPages laddr) :
    t.DistinctPages laddr := by
  have hnode : ∀ l ∈ s.nodeOffsets laddr, t.pageAt (t.startAddr + l) = s.pageAt (s.startAddr + l) :=
    fun l hl => h l (List.mem_append_left _ hl)
  unfold Pm.nodeOffsets at hnode
  exact hd.congr (NodeKind.snapshots_agree (hnode laddr List.mem_cons_self))
    (fun l hl => NodeKind.snapshots_agree (hnode l (by simp [hl])))
    (fun l hl => NodeKind.snapshots_agree (hnode l (by simp [hl])))
    (fun l hl => Pm.bucketData_agree (hnode l (by simp [hl])))

theorem Pm.Restores.snapshots {type : CpointType} (h : Pm.Restores type N s s') (hs : s.Reopened)
    (K : NodeKind ν) (l : ℕ) : K.snapshots s' l = K.snapshots s l := by
  cases hp : (s.pageAt (s.startAddr + l)).bind K.node? with
  | some n =>
    obtain ⟨p, hp, hn⟩ := Option.bind_eq_some_iff.mp hp
    obtain rfl := K.node?_eq_some.mp hn
    obtain ⟨n', hn', hi, hsl⟩ := h.node hs hp
    unfold NodeKind.snapshots
    rw [h.edits.startAddr, hn', hp, Option.bind_some, Option.bind_some, K.node?_eq_some.mpr rfl,
      K.node?_eq_some.mpr rfl]
    dsimp only
    rw [hi, funext fun i => hsl.snapshot_laddr i]
  | none =>
    have hp' := h.node?_eq_none hs hp
    unfold NodeKind.snapshots
    rw [h.edits.startAddr, hp, hp']

theorem Pm.Restores.bucketData {type : CpointType} (h : Pm.Restores type N s s') (hs : s.Reopened)
    (l : ℕ) : s'.bucketData l = s.bucketData l := by
  unfold Pm.bucketData
  rw [h.edits.startAddr]
  induction bucketRefs s.startAddr l with
  | nil => rfl
  | cons r rs ih =>
    cases he : s.readEntry r with
    | none =>
      rw [List.filterMap_cons_none (h.readEntry_none hs he), List.filterMap_cons_none he, ih]
    | some e =>
      obtain ⟨e', he', hr⟩ := h.readEntry hs he
      obtain ⟨-, -, -, -, hdl, -⟩ := hr.kept
      rw [List.filterMap_cons_some he', List.filterMap_cons_some he, List.filter_cons, List.filter_cons,
        hr.isInit_eq hs.start]
      split_ifs
      · rw [List.map_cons, List.map_cons, ih, hdl]
      · exact ih

theorem Pm.Restores.distinctPages {type : CpointType} (h : Pm.Restores type N s s') (hs : s.Reopened)
    (hd : s.DistinctPages laddr) : s'.DistinctPages laddr :=
  hd.congr (h.snapshots hs dirKind laddr) (fun l _ => h.snapshots hs outerKind l)
    (fun l _ => h.snapshots hs innerKind l) (fun l _ => h.bucketData hs l)

/-! ## A completed restore -/

theorem Pm.vpage_eq {q : ℕ} (h : s.vpage (s.startAddr + l) = some q) : q = l / pageSize := by
  unfold Pm.vpage at h
  split_ifs at h
  have hq := Option.some.inj h
  rw [Nat.add_sub_cancel_left] at hq
  exact hq.symm

/-- Data pages are no pages of nodes. -/
theorem Pm.DistinctPages.data (h : s.DistinctPages laddr) {x q : ℕ} (hx : x ∈ s.dataOffsets laddr)
    (hq : s.vpage (s.startAddr + x) = some q) : q ∉ s.nodePages laddr := by
  rintro ⟨l, hl, hlq⟩
  have hdisj := (List.nodup_append.mp (List.map_append ▸ h.nodup)).2.2
  exact hdisj _ (List.mem_map.mpr ⟨l, hl, rfl⟩) _ (List.mem_map.mpr ⟨x, hx, rfl⟩)
    ((Pm.vpage_eq hlq).symm.trans (Pm.vpage_eq hq))

theorem indexInv_true {type : CpointType} {sd : ℕ} {v : ℕ → Option ℕ} :
    IndexInv type sd N v fun _ _ => True :=
  ⟨fun _ _ _ _ => trivial, fun _ _ _ _ _ _ => trivial, fun _ _ _ _ _ _ => trivial⟩

/-- What `slab_map` does with the tree of a completed checkpoint. -/
theorem Pm.Reopened.slabMap_complete (hs : s.Reopened) (hd : s.DistinctPages laddr) {a : ℕ}
    (hr : Returns (LibPM.slabMap laddr .complete) s a s') : a = s.startAddr + laddr ∧
      Pm.Restores .complete (s.nodePages laddr) s s' ∧
      (Level.dir .complete (s.nodePages laddr)).Done s' laddr ∧
      ∀ x ∈ s.dataOffsets laddr, s'.pageAt (s.startAddr + x) = s.pageAt (s.startAddr + x) := by
  obtain ⟨ha, hres, -, hdone, -⟩ := hs.slabMap indexInv_true (fun _ _ => trivial)
    (s.pre_nodePages laddr) hr
  exact ⟨ha, hres, hdone, fun x hx => hres.pageAt_frame hs fun q hq => hd.data hx hq⟩

end

end LibPM

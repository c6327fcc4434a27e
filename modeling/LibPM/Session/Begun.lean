import LibPM.Session.Fresh
import LibPM.Session.Buckets

/-!
# The first view of a container

When `container_init` returns, the container has one node of each kind and an entry list of one bucket,
and all of its entries are free. A view like this satisfies the invariant of a session.
-/

namespace LibPM

open Recorded Recorded.Prog

/-- One node of each kind, linked by both versions of their slots, and no entry in use. -/
structure View.Begun (v : View) : Prop where
  n : 5 ≤ v.n
  free : v.free = List.range' 5 (v.n - 5)
  inners : v.inners = 1
  innerPage : v.innerPage 0 = 3
  buckets : v.buckets = 1
  bucketPage : v.bucketPage 0 = 4
  linked : v.linked = 1
  taken : v.taken = 0
  used : v.used = 0
  currentSlab : v.cont.currentSlab = ⟨v.addr 1, 1 * pageSize⟩
  snapshotSlab : v.cont.snapshotSlab = v.cont.currentSlab
  sdIndex : v.dir.sdIndex = 1
  sdCurrent : v.dir.sdCurrent 0 = ⟨v.addr 2, 2 * pageSize⟩
  sdSnapshot : v.dir.sdSnapshot 0 = v.dir.sdCurrent 0
  sdOther : ∀ i, 0 < i → (v.dir.sdCurrent i).maddr = 0
  sdMaddrRoot : v.dir.sdMaddrRoot = []
  sdVector : v.dir.sdVector = CVector.init
  soIndex : v.outer.soIndex = 1
  soCurrent : v.outer.soCurrent 0 = ⟨v.addr 3, 3 * pageSize⟩
  soSnapshot : v.outer.soSnapshot 0 = v.outer.soCurrent 0
  siIndex : (v.inner 0).siIndex = 1
  siCurrent : (v.inner 0).siCurrent 0 = ⟨v.addr 4, 4 * pageSize⟩
  siSnapshot : (v.inner 0).siSnapshot 0 = (v.inner 0).siCurrent 0
  siOther : ∀ k, 0 < k → ((v.inner 0).siCurrent k).maddr = 0
  sbId : (v.bucket 0).sbId = 0
  blank : ∀ i < v.cap, (v.entry i).Blank
  sizes : v.sizes = []
  flag : (v.bucket 0).sbHasSnapshot = 0

namespace View.Begun

variable {v : View} {p : ℕ}

theorem cap (h : v.Begun) : v.cap = slabBucketEntries := by
  unfold Places.cap
  rw [h.buckets, Nat.one_mul]

theorem isMeta_iff (h : v.Begun) : v.IsMeta p ↔ p < 5 := by
  constructor
  · rintro ⟨x, hx, rfl⟩
    cases x with
    | cont => exact Nat.succ_pos 4
    | dir => exact Nat.one_lt_succ_succ 3
    | outer => exact (by decide : 2 < 5)
    | inner j =>
      have hj : j < v.inners := hx
      obtain rfl : j = 0 := by
        rw [h.inners] at hj
        omega
      show v.innerPage 0 < 5
      rw [h.innerPage]
      decide
    | bucket b =>
      have hb : b < v.buckets := hx
      obtain rfl : b = 0 := by
        rw [h.buckets] at hb
        omega
      show v.bucketPage 0 < 5
      rw [h.bucketPage]
      decide
  · intro hp
    have hcases : p = 0 ∨ p = 1 ∨ p = 2 ∨ p = 3 ∨ p = 4 := by omega
    rcases hcases with rfl | rfl | rfl | rfl | rfl
    · exact ⟨.cont, trivial, rfl⟩
    · exact ⟨.dir, trivial, rfl⟩
    · exact ⟨.outer, trivial, rfl⟩
    · exact ⟨.inner 0, Nat.lt_of_lt_of_eq Nat.one_pos h.inners.symm, h.innerPage⟩
    · exact ⟨.bucket 0, Nat.lt_of_lt_of_eq Nat.one_pos h.buckets.symm, h.bucketPage⟩

theorem linkedSpec (h : v.Begun) : v.Linked := by
  have hslot : ∀ {b}, b < v.linked → b = 0 := fun hb => by
    rw [h.linked] at hb
    omega
  have hchild : ∀ {j}, j < v.outer.soIndex → j = 0 := fun hj => by
    rw [h.soIndex] at hj
    omega
  have hinner : ∀ {j}, j < v.inners → j = 0 := fun hj => by
    rw [h.inners] at hj
    omega
  refine ⟨?_, h.snapshotSlab, h.sdIndex, ?_, h.sdOther, ?_, fun _ => h.sdSnapshot, ?_, ?_,
    fun j hj => ?_, fun j hj => ?_, fun j hj _ => ?_, ?_, ?_, fun j hj => ?_, fun b hb => ?_,
    fun b hb => ?_, fun j hj k hk _ => ?_, fun b hb => ?_⟩
  · rw [h.currentSlab]
  · rw [h.sdCurrent]
  · rw [h.sdSnapshot, h.sdCurrent]
    exact ⟨2, rfl⟩
  · rw [h.soIndex, h.inners]
  · rw [h.inners]
    decide
  · rw [hchild hj, h.soCurrent, h.innerPage]
  · rw [hchild hj, h.soSnapshot, h.soCurrent]
    exact ⟨3, rfl⟩
  · rw [hchild hj, h.soSnapshot]
  · rw [h.linked, h.buckets]
  · rw [h.buckets, h.soIndex]
    decide
  · rw [hinner hj, h.siIndex, h.linked]
    rfl
  · rw [hslot hb, View.siCurrent]
    show ((v.inner 0).siCurrent 0).maddr = _
    rw [h.siCurrent, h.bucketPage]
  · rw [hslot hb, View.siSnapshot]
    show IsPage _ ((v.inner 0).siSnapshot 0).maddr
    rw [h.siSnapshot, h.siCurrent]
    exact ⟨4, rfl⟩
  · rw [hinner hj, h.siIndex] at hk
    rw [hinner hj]
    exact h.siOther k hk
  · rw [h.buckets] at hb
    obtain rfl : b = 0 := by omega
    exact h.sbId

theorem ok (h : v.Begun) : v.Ok := by
  have hnone : ∀ {i}, ¬ i < v.used := fun hi => by
    rw [h.used] at hi
    omega
  have hqueue : ∀ n, v.queue (.size n) = Stailq.init := fun n => by
    unfold View.queue
    dsimp only
    rw [h.sizes]
    rfl
  refine ⟨?_, ?_, fun r => ?_, fun i hi => absurd hi hnone, fun i hi => absurd hi hnone,
    fun i _ hi => h.blank i hi, fun n r hr => ?_, fun n r hr => ?_, fun n i _ hi => absurd hi hnone,
    fun r hr => ?_⟩
  · rw [h.used]
    exact Nat.zero_le _
  · rw [h.taken]
    exact Nat.zero_le _
  · rw [h.sdMaddrRoot]
    exact iff_of_false List.not_mem_nil fun ⟨i, hi, _⟩ => hnone hi
  · rw [hqueue] at hr
    cases hr
  · rw [hqueue] at hr
    cases hr
  · rw [h.sdVector] at hr
    cases hr

/-- The first five pages are the metadata, the others are free. -/
theorem balanced (h : v.Begun) : v.Balanced 0 := by
  have hmeta : v.metaPages = (List.range 5 : Multiset ℕ) := by
    unfold View.metaPages
    rw [h.inners, h.buckets, Multiset.range_succ, Multiset.range_zero, Multiset.map_cons,
      Multiset.map_cons, Multiset.map_zero, Multiset.map_zero, h.innerPage, h.bucketPage]
    decide
  have hrest : ∀ x ∈ View.holders.erase .metadata, v.held x = 0 := by
    intro x hx
    unfold View.held
    cases x with
    | metadata => exact absurd rfl (Finset.ne_of_mem_erase hx)
    | outerSlot =>
      dsimp only
      rw [h.sdSnapshot]
      exact oldPages_self _ _
    | innerSlot j =>
      dsimp only
      split_ifs with hj
      · rw [h.soIndex, Nat.lt_one_iff] at hj
        rw [hj, h.soSnapshot]
        exact oldPages_self _ _
      · rfl
    | bucketSlot b =>
      dsimp only
      split_ifs with hb
      · rw [h.linked, Nat.lt_one_iff] at hb
        rw [hb]
        show oldPages _ ((v.inner 0).siCurrent 0).maddr ((v.inner 0).siSnapshot 0).maddr = 0
        rw [h.siSnapshot]
        exact oldPages_self _ _
      · rfl
    | entry i =>
      dsimp only
      rw [h.used, if_neg (Nat.not_lt_zero i)]
  have hn := h.n
  unfold View.Balanced Ledger.Balanced
  rw [← Finset.add_sum_erase _ _ View.metadata_mem, Finset.sum_eq_zero hrest, add_zero, zero_add]
  show (v.free : Multiset ℕ) + v.metaPages = _
  rw [hmeta, h.free, add_comm, Multiset.coe_add, List.range_eq_range', List.range'_append_1,
    Nat.add_sub_cancel' hn]
  exact congrArg _ List.range_eq_range'.symm

theorem paired (h : v.Begun) : v.Paired := by
  refine ⟨?_, ?_, ?_, fun j hj => ?_, fun j hj => ?_, fun b hb => ?_, fun b hb => ?_, fun i hi => ?_⟩
  · rw [h.currentSlab]
    exact paired_page _ _
  · rw [h.sdCurrent]
    exact paired_page _ _
  · rw [h.sdSnapshot, h.sdCurrent]
    exact paired_page _ _
  · rw [h.soIndex, Nat.lt_one_iff] at hj
    rw [hj, h.soCurrent]
    exact paired_page _ _
  · rw [h.soIndex, Nat.lt_one_iff] at hj
    rw [hj, h.soSnapshot, h.soCurrent]
    exact paired_page _ _
  · rw [h.linked, Nat.lt_one_iff] at hb
    rw [hb, View.siCurrent]
    show ((v.inner 0).siCurrent 0).Paired _
    rw [h.siCurrent]
    exact paired_page _ _
  · rw [h.linked, Nat.lt_one_iff] at hb
    rw [hb, View.siSnapshot]
    show ((v.inner 0).siSnapshot 0).Paired _
    rw [h.siSnapshot, h.siCurrent]
    exact paired_page _ _
  · rw [h.used] at hi
    exact absurd hi (Nat.not_lt_zero i)

theorem complete (h : v.Begun) : v.Complete := by
  refine ⟨?_, ?_, ?_, ?_⟩
  · rw [h.soIndex, h.inners]
  · rw [h.linked, h.buckets]
  · rw [h.buckets]
    exact Nat.one_pos
  · rw [h.inners, h.buckets]
    decide

end View.Begun

/-! ## The pages of a new container -/

/-- The header, the directory and one node of each kind, on the first five pages. -/
def Places.first (base n : ℕ) : Places where
  base := base
  n := n
  free := List.range' 5 (n - 5)
  inners := 1
  innerPage _ := 3
  buckets := 1
  bucketPage _ := 4

theorem Places.first_isMeta {base n p : ℕ} : (Places.first base n).IsMeta p → p < 5 := by
  rintro ⟨x, hx, rfl⟩
  cases x with
  | cont => exact (by decide : 0 < 5)
  | dir => exact (by decide : 1 < 5)
  | outer => exact (by decide : 2 < 5)
  | inner j => exact (by decide : 3 < 5)
  | bucket b => exact (by decide : 4 < 5)

/-- The view before the nodes are linked. -/
def View.first (base n : ℕ) (c : Container) (d : SlabDir) (o : SlabOuter) (x : SlabInner)
    (b : SlabBucket) (sizes : List SlabEntrySize) : View :=
  { Places.first base n with
    linked := 0
    taken := 0
    used := 0
    torn := ∅
    cont := c
    dir := d
    outer := o
    inner _ := x
    bucket _ := b
    sizes := sizes }

/-- The next slot of the directory leads to the outer node on page `p`. -/
def View.linkOuter (v : View) (p l : ℕ) : View :=
  { v with dir := { v.dir with
      sdCurrent := Function.update v.dir.sdCurrent v.dir.sdIndex ⟨v.addr p, l⟩
      sdSnapshot := Function.update v.dir.sdSnapshot v.dir.sdIndex ⟨v.addr p, l⟩
      sdIndex := v.dir.sdIndex + 1 } }

/-- The trees and the free list are empty. -/
def View.cleared (v : View) : View :=
  { v with
    dir := { v.dir with
      sdMaddrRoot := []
      sdFreeList := ⟨none, none⟩ }
    sizes := [] }

/-- The view once the nodes are linked and no entry is in the free list. -/
def View.nodes (base n : ℕ) (c : Container) (sizes : List SlabEntrySize) : View :=
  ((((View.first base n c (dirOfBytes fun _ => 0) (outerOfBytes fun _ => 0) (innerOfBytes fun _ => 0)
    (Pm.newBucket 0) sizes).linkOuter 2 (2 * pageSize)).cleared).linkInner 3 (3 * pageSize)).linkBucket
      (4 * pageSize)

theorem View.sizes_eq_nil {v : View} (h : ∀ n, ¬ v.HasQueue (.size n)) : v.sizes = [] := by
  cases hs : v.sizes with
  | nil => rfl
  | cons es l =>
    refine absurd ?_ (h es.esSize)
    show (v.sizes.find? (·.esSize == es.esSize)).isSome
    rw [hs, List.find?_cons, beq_self_eq_true]
    rfl

section

variable {v : View} {base n : ℕ} {c c' : Container} {sizes : List SlabEntrySize}

theorem dirOfBytes_zero_sdIndex : (dirOfBytes fun _ => 0).sdIndex = 0 := le32_zero 0

theorem outerOfBytes_zero_soIndex : (outerOfBytes fun _ => 0).soIndex = 0 := le32_zero 0

theorem View.nodes_sdIndex : (View.nodes base n c sizes).dir.sdIndex = 1 :=
  congrArg Nat.succ dirOfBytes_zero_sdIndex

theorem View.nodes_sdCurrent : (View.nodes base n c sizes).dir.sdCurrent =
    Function.update (dirOfBytes fun _ => 0).sdCurrent 0 ⟨base + 2 * pageSize, 2 * pageSize⟩ := by
  show Function.update _ (dirOfBytes fun _ => 0).sdIndex _ = _
  rw [dirOfBytes_zero_sdIndex]
  rfl

theorem View.nodes_sdSnapshot : (View.nodes base n c sizes).dir.sdSnapshot =
    Function.update (dirOfBytes fun _ => 0).sdSnapshot 0 ⟨base + 2 * pageSize, 2 * pageSize⟩ := by
  show Function.update _ (dirOfBytes fun _ => 0).sdIndex _ = _
  rw [dirOfBytes_zero_sdIndex]
  rfl

theorem View.nodes_outer : (View.nodes base n c sizes).outer = {
    soIndex := 1
    soCurrent :=
      Function.update (outerOfBytes fun _ => 0).soCurrent 0 ⟨base + 3 * pageSize, 3 * pageSize⟩
    soSnapshot :=
      Function.update (outerOfBytes fun _ => 0).soSnapshot 0 ⟨base + 3 * pageSize, 3 * pageSize⟩ } := by
  show SlabOuter.mk ((outerOfBytes fun _ => 0).soIndex + 1)
    (Function.update _ (outerOfBytes fun _ => 0).soIndex _)
    (Function.update _ (outerOfBytes fun _ => 0).soIndex _) = _
  rw [outerOfBytes_zero_soIndex]
  rfl

/-- The first bucket takes the first slot of the first inner node. -/
theorem View.linkBucket_inner_zero (h : v.linked = 0) (l : ℕ) : (v.linkBucket l).inner 0 = {
    siIndex := 1
    siCurrent := Function.update (v.inner 0).siCurrent 0 ⟨v.addr (v.bucketPage 0), l⟩
    siSnapshot := Function.update (v.inner 0).siSnapshot 0 ⟨v.addr (v.bucketPage 0), l⟩ } := by
  unfold View.linkBucket View.putSlot
  dsimp only
  rw [h, Nat.zero_div, Nat.zero_mod]
  exact View.setInner_inner v 0 _

theorem View.nodes_inner : (View.nodes base n c sizes).inner 0 = {
    siIndex := 1
    siCurrent :=
      Function.update (innerOfBytes fun _ => 0).siCurrent 0 ⟨base + 4 * pageSize, 4 * pageSize⟩
    siSnapshot :=
      Function.update (innerOfBytes fun _ => 0).siSnapshot 0 ⟨base + 4 * pageSize, 4 * pageSize⟩ } :=
  View.linkBucket_inner_zero rfl _

theorem View.nodes_entry (i : ℕ) : (View.nodes base n c sizes).entry i =
    (Pm.newBucket 0).sbEntries (i % slabBucketEntries) := rfl

theorem SlabEntry.Blank.setLink {e : SlabEntry} (h : e.Blank) (r : Option EntryRef) :
    SlabEntry.Blank { e with seList := r } := h

/-- The entries are free, and the header may lead to the directory. -/
theorem View.Relinked.begun (h : (View.nodes base n c sizes).Relinked v) (hn : 5 ≤ n)
    (hsize : ∀ n, ¬ v.HasQueue (.size n)) (hcur : c'.currentSlab = ⟨v.addr 1, 1 * pageSize⟩)
    (hsnap : c'.snapshotSlab = c'.currentSlab) (q : ℕ) : View.Begun { v with
      cont := c'
      dir := { v.dir with
        sdVector := CVector.init
        sdVectorHeap := q } } := by
  obtain ⟨l, hdir⟩ := h.dir
  have hplaces : v.toPlaces = .first base n := h.places
  have haddr : ∀ p, v.addr p = base + p * pageSize := h.addr
  have hvn : v.n = n := congrArg Places.n hplaces
  have hfree : v.free = List.range' 5 (n - 5) := congrArg Places.free hplaces
  have houter := h.outer
  rw [View.nodes_outer] at houter
  have hinner : v.inner 0 = _ := (congrFun h.inner 0).trans View.nodes_inner
  refine ⟨?_, ?_, congrArg Places.inners hplaces, congrArg (·.innerPage 0) hplaces,
    congrArg Places.buckets hplaces, congrArg (·.bucketPage 0) hplaces, h.linked, h.taken, h.used, hcur,
    hsnap, ?_, ?_, ?_, fun i hi => ?_, ?_, rfl, ?_, ?_, ?_, ?_, ?_, ?_, fun k hk => ?_, ?_,
    fun i hi => ?_, View.sizes_eq_nil hsize, (h.flag 0).trans (le32_zero 0)⟩
  · exact hn.trans hvn.ge
  · exact hfree.trans (by rw [← hvn])
  all_goals dsimp only
  · rw [hdir]
    exact View.nodes_sdIndex
  · rw [hdir]
    dsimp only
    rw [View.nodes_sdCurrent, Function.update_self, ← haddr]
  · rw [hdir]
    dsimp only
    rw [View.nodes_sdCurrent, View.nodes_sdSnapshot, Function.update_self, Function.update_self]
  · rw [hdir]
    dsimp only
    rw [View.nodes_sdCurrent, Function.update_of_ne (Nat.ne_of_gt hi)]
    exact le64_zero _
  · rw [hdir]
    rfl
  · rw [houter]
  · rw [houter]
    dsimp only
    rw [Function.update_self, ← haddr]
  · rw [houter]
    dsimp only
    rw [Function.update_self, Function.update_self]
  · rw [hinner]
  · rw [hinner]
    dsimp only
    rw [Function.update_self, ← haddr]
  · rw [hinner]
    dsimp only
    rw [Function.update_self, Function.update_self]
  · rw [hinner]
    dsimp only
    rw [Function.update_of_ne (Nat.ne_of_gt hk)]
    exact le64_zero _
  · exact h.sbId 0
  · obtain ⟨r, hr⟩ := h.entry i
    have hblank := (Pm.newBucket_blank 0 (i % slabBucketEntries)).setLink r
    rw [← @View.nodes_entry base n c sizes, ← hr] at hblank
    exact hblank

end

/-- A state of `container_init` after the five pages were taken. -/
structure Pm.Begins (s : Pm) (v : View) : Prop where
  shows : s.Shows v
  places : v.toPlaces = .first v.base v.n
  le : 5 ≤ v.n
  vmap : ∀ p < v.n, s.vmap p = p
  opened : ∀ p < 5, (s.prot p).write = true
  synced : ∀ p < v.n, s.IsFixed → ((s.prot p).write = true ↔ s.Resets p)
  zero : ∀ p, 5 ≤ p → s.restBytes v.n p = fun _ => 0
  nextBucket : s.nextSlabBucketId = 1
  nextEntry : s.nextSlabEntryId = 0

namespace Pm

variable {s s' : Pm} {v v' : View} {n : ℕ} {c : Container} {d : SlabDir} {o : SlabOuter} {x : SlabInner}
  {b : SlabBucket}

theorem Begins.notMeta (h : s.Begins v) {p : ℕ} (hp : 5 ≤ p) : ¬ v.IsMeta p := by
  intro hm
  rw [h.places] at hm
  have := Places.first_isMeta hm
  omega

/-- A store to a node. -/
theorem Begins.step (h : s.Begins v) (hs : s'.Shows v') (hl : v'.toPlaces = v.toPlaces)
    (hm : s.SameData v.toPlaces s') : s'.Begins v' := by
  have hbase : v'.base = v.base := congrArg Places.base hl
  have hn : v'.n = v.n := congrArg Places.n hl
  refine ⟨hs, ?_, ?_, fun p hp => ?_, fun p hp => ?_, fun p hp hf => ?_, fun p hp => ?_, ?_, ?_⟩
  · rw [hbase, hn]
    exact hl.trans h.places
  · rw [hn]
    exact h.le
  · rw [hn] at hp
    rw [hm.vmap]
    exact h.vmap p hp
  · rw [hm.prot]
    exact h.opened p hp
  · rw [hn] at hp
    rw [hm.prot]
    unfold Resets
    rw [hm.pa]
    exact h.synced p hp (hm.isFixed.mp hf)
  · rw [hn, (SameData.restBytes hm fun _ => h.notMeta hp).2]
    exact h.zero p hp
  · obtain ⟨file, sizes, rfl⟩ := hm.same
    exact h.nextBucket
  · obtain ⟨file, sizes, rfl⟩ := hm.same
    exact h.nextEntry

/-- The five pages hold nodes. -/
theorem Fresh.begins (h : s.Fresh n [.container c, .dir d, .outer o, .inner x, .bucket b])
    (hc : s.containers = some (s.addr 0)) (hb : s.nextSlabBucketId = 1) (he : s.nextSlabEntryId = 0) :
    s.Begins (.first s.startAddr n c d o x b s.sizes) := by
  have hle : 5 ≤ n := h.le
  have hwf : (Places.first s.startAddr n).Wf := by
    refine ⟨fun y hy => ?_, fun y z hy hz heq => ?_⟩
    · have := Places.first_isMeta ⟨y, hy, rfl⟩
      exact this.trans_le hle
    · have hzero : ∀ {k}, k < 1 → k = 0 := fun hk => Nat.lt_one_iff.mp hk
      cases y <;> cases z <;> first
        | rfl
        | exact congrArg _ ((hzero hy).trans (hzero hz).symm)
        | cases heq
  refine ⟨⟨h.space, rfl, hc, fun y hy => ?_, rfl, hwf⟩, rfl, hle, h.vmap, h.opened, h.synced,
    fun p hp => ?_, hb, he⟩
  · have hlt := hwf.lt y hy
    show s.file (s.vmap ((Places.first s.startAddr n).pageOf y)) = _
    rw [h.vmap _ hlt, h.file]
    cases y <;> rfl
  · have hpage : s.filePage n p = p := by
      unfold filePage
      split_ifs with hlt
      · exact h.vmap p hlt
      · rfl
    show s.restBytes n p = _
    unfold restBytes
    rw [hpage, h.file, List.getD_eq_getElem?_getD, List.getElem?_eq_none hp]
    rfl

/-- **The invariant holds** when the first view is complete. -/
theorem Begins.holds (h : s.Begins v) (hv : v.Begun) : s.Holds v 0 := by
  have hdata : ∀ p, ¬ v.IsData p := fun p ⟨i, hi, _⟩ => by
    rw [hv.used] at hi
    exact Nat.not_lt_zero i hi
  refine ⟨h.shows, hv.linkedSpec, hv.ok, ⟨fun p hp => h.opened p (hv.isMeta_iff.mp hp),
    fun p hp _ => h.synced p hp, fun p hp => absurd hp (hdata p)⟩, hv.balanced, fun _ => hv.paired,
    fun b hb => ?_, h.nextBucket.trans hv.buckets.symm, h.nextEntry.trans hv.used.symm⟩
  rw [hv.linked, Nat.lt_one_iff] at hb
  rw [hb, hv.bucketPage, h.vmap 4 (by have := h.le; omega)]
  show ((v.inner 0).siCurrent 0).laddr = _
  rw [hv.siCurrent]

/-! ## `slab_dir_init` -/

variable {u : Unit} {p l : ℕ}

/-- The next slot of the directory leads to a page. -/
theorem Shows.installOuter (h : s.Shows v) (hq : v.Quiet)
    (hr : Returns (LibPM.installOuter (v.addr 1) (v.addr p) l) s u s') :
    s'.Shows (v.linkOuter p l) ∧ s.SameData v.toPlaces s' := by
  unfold LibPM.installOuter at hr
  simp only [returns_bind, returns_require] at hr
  obtain ⟨o, s₁, h₁, _, _, ⟨-, rfl⟩, _, s₂, h₂, _, s₃, h₃, _, s₄, h₄, _, s₅, h₅, h₆⟩ := hr
  obtain ⟨rfl, rfl⟩ := h.loadDir h₁
  obtain ⟨hs₂, hm₂⟩ := h.updateDir hq h₂
  obtain ⟨hs₃, hm₃⟩ := hs₂.updateDir (u := ()) hq h₃
  obtain ⟨hs₄, hm₄⟩ := hs₃.updateDir (u := ()) hq h₄
  obtain ⟨hs₅, hm₅⟩ := hs₄.updateDir (u := ()) hq h₅
  obtain ⟨hs₆, hm₆⟩ := hs₅.updateDir (u := ()) hq h₆
  unfold View.linkOuter
  rw [← setLaddr_setMaddr, ← setLaddr_setMaddr]
  exact ⟨hs₆, hm₂.trans (hm₃.trans (hm₄.trans (hm₅.trans hm₆)))⟩

/-- Both trees and the free list are empty. -/
theorem Shows.clearIndexes (h : s.Shows v) (hq : v.cont.currentSlab.maddr = 0)
    (hr : Returns (LibPM.clearIndexes (v.addr 1)) s u s') :
    s'.Shows v.cleared ∧ s.SameData v.toPlaces s' := by
  unfold LibPM.clearIndexes at hr
  simp only [returns_bind, returns_modify] at hr
  obtain ⟨_, s₁, h₁, _, _, rfl, _, s₂, h₂, h₃⟩ := hr
  obtain ⟨hs₁, hm₁⟩ := h.updateDir (.inl hq) h₁
  obtain ⟨hs, hm⟩ := hs₁.onSize []
  obtain ⟨hs₂, hm₂⟩ := hs.updateDir (u := ()) (.inl hq) h₂
  obtain ⟨hs₃, hm₃⟩ := hs₂.updateDir (u := ()) (.inl hq) h₃
  exact ⟨hs₃, hm₁.trans (hm.trans (hm₂.trans hm₃))⟩

theorem SameData.startAddr {t : Places} (h : s.SameData t s') : s'.startAddr = s.startAddr := by
  obtain ⟨file, sizes, rfl⟩ := h.same
  rfl

theorem SameData.mapLimit {t : Places} (h : s.SameData t s') : s'.mapLimit = s.mapLimit := by
  obtain ⟨file, sizes, rfl⟩ := h.same
  rfl

/-- The pages of `slab_dir_init`: the four nodes below the header. -/
theorem Fresh.nodes {s₁ s₂ s₃ s₄ s₅ s₆ s₇ : Pm} {sd so si sb sdL soL siL sbL id : ℕ} {u₁ u₂ u₃ : Unit}
    (h : s.Fresh n [.container c]) (hc : s.containers = some (s.addr 0))
    (hb : s.nextSlabBucketId = 0) (he : s.nextSlabEntryId = 0)
    (h₁ : Returns (pageAllocatorGetpage paProtWrite) s (sd, sdL) s₁)
    (h₂ : Returns (retypePage sd fun b => .dir (dirOfBytes b)) s₁ u₁ s₂)
    (h₃ : Returns slabOuterInit s₂ (so, soL) s₃) (h₄ : Returns LibPM.slabInnerInit s₃ (si, siL) s₄)
    (h₅ : Returns (pageAllocatorGetpage paProtWrite) s₄ (sb, sbL) s₅)
    (h₆ : Returns (retypePage sb fun b => .bucket (bucketOfBytes b)) s₅ u₂ s₆)
    (h₇ : Returns getNextBucketId s₆ id s₇)
    (h₈ : Returns (updatePage sb (Page.onBucket fun b => { b with sbId := id })) s₇ u₃ s') :
    ∃ n', (sd, sdL) = (s'.addr 1, 1 * pageSize) ∧ (so, soL) = (s'.addr 2, 2 * pageSize) ∧
      (si, siL) = (s'.addr 3, 3 * pageSize) ∧ (sb, sbL) = (s'.addr 4, 4 * pageSize) ∧
      s'.Begins (.first s'.startAddr n' c (dirOfBytes fun _ => 0) (outerOfBytes fun _ => 0)
        (innerOfBytes fun _ => 0) (newBucket 0) s'.sizes) ∧
      s'.startAddr = s.startAddr ∧ s'.mapLimit = s.mapLimit := by
  obtain ⟨n₁, rfl, rfl, hf₁, hm₁⟩ := h.newPage h₁ h₂
  unfold slabOuterInit at h₃
  simp only [returns_bind, returns_pure] at h₃
  obtain ⟨⟨a₃, l₃⟩, t₃, h₃, _, _, h₃', heq, rfl⟩ := h₃
  obtain ⟨rfl, rfl⟩ := Prod.mk.inj heq
  obtain ⟨n₂, rfl, rfl, hf₂, hm₂⟩ := hf₁.newPage h₃ h₃'
  unfold LibPM.slabInnerInit at h₄
  simp only [returns_bind, returns_pure] at h₄
  obtain ⟨⟨a₄, l₄⟩, t₄, h₄, _, _, h₄', heq, rfl⟩ := h₄
  obtain ⟨rfl, rfl⟩ := Prod.mk.inj heq
  obtain ⟨n₃, rfl, rfl, hf₃, hm₃⟩ := hf₂.newPage h₄ h₄'
  obtain ⟨n₄, rfl, rfl, hf₄, hm₄⟩ := hf₃.newPage h₅ h₆
  have hm := hm₁.trans (hm₂.trans (hm₃.trans hm₄))
  have hid : s₆.nextSlabBucketId = 0 := by
    obtain ⟨pa, prot, len, vmap, file, rfl⟩ := hm.same
    exact hb
  unfold getNextBucketId at h₇
  simp only [returns_bind, returns_get, returns_modify, returns_pure] at h₇
  obtain ⟨_, _, ⟨rfl, rfl⟩, _, _, rfl, rfl, rfl⟩ := h₇
  rw [hid] at h₈
  have hf₅ := hf₄.setNextBucket ((0 + 1) % 2 ^ 32)
  rw [← hm₄.addr] at h₈
  obtain ⟨y, hy, hf, hm₅⟩ := hf₅.update rfl h₈
  cases hy
  have haddr : ∀ p, s'.addr p = s₆.addr p := fun p => hm₅.addr p
  have hst : s'.startAddr = s₆.startAddr := hm₅.start
  refine ⟨n₄, ?_, ?_, ?_, ?_, ?_, hst.trans hm.start, ?_⟩
  · rw [haddr, hm.addr]
    rfl
  · rw [haddr, hm₄.addr, hm₃.addr, hm₂.addr]
    rfl
  · rw [haddr, hm₄.addr, hm₃.addr]
    rfl
  · rw [haddr, hm₄.addr]
    rfl
  · refine Fresh.begins hf ?_ ?_ ?_
    · rw [haddr, hm.addr]
      obtain ⟨pa, prot, len, vmap, file, rfl⟩ := hm.same
      obtain ⟨pa, prot, len, vmap, file, rfl⟩ := hm₅.same
      exact hc
    · obtain ⟨pa, prot, len, vmap, file, rfl⟩ := hm₅.same
      rfl
    · obtain ⟨pa, prot, len, vmap, file, rfl⟩ := hm.same
      obtain ⟨pa, prot, len, vmap, file, rfl⟩ := hm₅.same
      exact he
  · obtain ⟨pa, prot, len, vmap, file, rfl⟩ := hm.same
    obtain ⟨pa, prot, len, vmap, file, rfl⟩ := hm₅.same
    rfl

/-- **`slab_dir_init`** in a container that holds its header only. -/
theorem Fresh.slabDirInit {sd : ℕ} (h : s.Fresh n [.container c]) (hc : s.containers = some (s.addr 0))
    (hz : c.currentSlab.maddr = 0) (hb : s.nextSlabBucketId = 0) (he : s.nextSlabEntryId = 0)
    (hr : Returns LibPM.slabDirInit s (sd, l) s') :
    ∃ v, sd = v.addr 1 ∧ l = 1 * pageSize ∧ s'.Begins v ∧ v.FreeRange 0 v.cap ∧
      (∀ c', c'.currentSlab = ⟨v.addr 1, 1 * pageSize⟩ → c'.snapshotSlab = c'.currentSlab →
        View.Begun { v with cont := c' }) ∧ v.cont = c ∧
      s'.startAddr = s.startAddr ∧ s'.mapLimit = s.mapLimit := by
  unfold LibPM.slabDirInit at hr
  simp only [returns_bind, returns_get, returns_pure] at hr
  obtain ⟨⟨sd', sdL⟩, s₁, h₁, _, s₂, h₂, ⟨so, soL⟩, s₃, h₃, ⟨si, siL⟩, s₄, h₄, ⟨sb, sbL⟩, s₅, h₅, _, s₆, h₆,
    id, s₇, h₇, _, s₈, h₈, _, s₉, h₉, _, s₁₀, h₁₀, _, s₁₁, h₁₁, _, s₁₂, h₁₂, _, s₁₃, h₁₃, _, _,
    ⟨rfl, rfl⟩, _, s₁₅, h₁₅, heq, rfl⟩ := hr
  obtain ⟨n', hsd, hso, hsi, hsb, hbegin, hst, hlim⟩ := h.nodes hc hb he h₁ h₂ h₃ h₄ h₅ h₆ h₇ h₈
  obtain ⟨rfl, rfl⟩ := Prod.mk.inj hsd
  obtain ⟨rfl, rfl⟩ := Prod.mk.inj hso
  obtain ⟨rfl, rfl⟩ := Prod.mk.inj hsi
  obtain ⟨rfl, rfl⟩ := Prod.mk.inj hsb
  obtain ⟨rfl, rfl⟩ := Prod.mk.inj heq
  obtain ⟨hs₉, hm₉⟩ := hbegin.shows.installOuter (p := 2) (.inl hz) h₉
  obtain ⟨hs₁₀, hm₁₀⟩ := hs₉.clearIndexes hz h₁₀
  obtain ⟨hs₁₁, hm₁₁⟩ := hs₁₀.installInner (p := 3) (.inl hz) h₁₁
  obtain ⟨hs₁₂, hm₁₂⟩ := hs₁₁.installBucket (.inl hz) (show 0 / slabInnerEntries < 1 by decide)
    (le32_zero 0) h₁₂
  replace hs₁₂ : s₁₂.Shows (View.nodes s₈.startAddr n' c s₈.sizes) := hs₁₂
  have hnil : (View.nodes s₈.startAddr n' c s₈.sizes).FreeRange 0 (0 * slabBucketEntries) :=
    View.freeRange_nil rfl rfl
  obtain ⟨v, hf⟩ := hs₁₂.freeBucketEntries (b := 0) (.inl hz) Nat.one_pos hnil (Nat.le_refl _) h₁₃
  have haddr : s₈.addr 1 = v.addr 1 := (hf.relinked.addr 1).symm
  dsimp only at h₁₅
  rw [haddr] at h₁₅
  obtain ⟨hs₁₅, hm₁₅⟩ := hf.shows.updateDir (hf.relinked.quiet (.inl hz)) h₁₅
  have hplaces : v.toPlaces = .first s₈.startAddr n' := hf.relinked.places
  have hm : s₈.SameData (.first s₈.startAddr n') s₁₅ := by
    rw [hplaces] at hm₁₅
    exact hm₉.trans (hm₁₀.trans (hm₁₁.trans (hm₁₂.trans (hf.same.trans hm₁₅))))
  have hsize : ∀ k, ¬ v.HasQueue (.size k) := fun k hk => Bool.false_ne_true ((hf.has (.size k)).mp hk)
  refine ⟨{ v with dir := { v.dir with
      sdVector := CVector.init
      sdVectorHeap := s₁₃.heap } }, haddr, rfl, hbegin.step hs₁₅ hplaces hm, ?_, fun c' hcur hsnap => ?_,
    hf.relinked.cont, ?_, ?_⟩
  · have hfree := hf.free
    have hcap : v.cap = 0 * slabBucketEntries + slabBucketEntries := hf.relinked.cap
    rw [← hcap] at hfree
    exact ⟨hfree.first, hfree.last, hfree.next⟩
  · exact hf.relinked.begun hbegin.le hsize hcur hsnap _
  · rw [hm.startAddr, hst]
  · rw [hm.mapLimit, hlim]

/-! ## `container_init` -/

/-- The state of a process that has made a container and done nothing else. -/
structure Starts (s : Pm) (env : Env) (v : View) : Prop where
  begins : s.Begins v
  begun : v.Begun
  free : v.FreeRange 0 v.cap
  start : s.startAddr = env.mapHint
  limit : s.mapLimit = env.mapLimit

/-- **A new container.** -/
theorem starts_containerInit {env : Env} {cont : ℕ} {m : Machine}
    (hr : Returns (containerInit env) (Machine.fresh env) cont m) : ∃ v, m.pm.Starts env v := by
  unfold containerInit closureInit onPm at hr
  simp only [returns_bind, returns_get, returns_require, returns_zoom, returns_modify,
    returns_pure] at hr
  obtain ⟨_, _, ⟨rfl, rfl⟩, _, _, ⟨-, rfl⟩, _, _, ⟨s₀, h₀, rfl⟩, ⟨a, laddr⟩, _, ⟨s₁, h₁, rfl⟩, _, _,
    ⟨-, rfl⟩, _, _, rfl, _, _, ⟨s₈, ⟨_, s₂, h₂, _, _, rfl, _, s₄, h₄, ⟨sd, sdLaddr⟩, s₅, h₅, h₆⟩, rfl⟩,
    -, rfl⟩ := hr
  obtain ⟨n, hf₀, hst₀, pa, prot, len, hs₀⟩ := fresh_pageAllocatorInit h₀
  obtain ⟨n₁, rfl, rfl, hf₂, hm₂⟩ := hf₀.newPage h₁ h₂
  -- the header
  have haddr₂ : s₀.addr 0 = s₂.addr 0 := (hm₂.addr 0).symm
  have hf₃ := hf₂.setContainers (some (s₂.addr 0))
  dsimp only [List.length_nil] at h₄ h₅ h₆
  rw [haddr₂] at h₄ h₆
  obtain ⟨y, hy, hf₄, hm₄⟩ := hf₃.update (k := 0) rfl h₄
  cases hy
  have hc₄ : s₄.containers = some (s₄.addr 0) := by
    rw [hm₄.addr]
    obtain ⟨pa, prot, len, vmap, file, rfl⟩ := hm₄.same
    rfl
  have hkept : s₄.nextSlabBucketId = 0 ∧ s₄.nextSlabEntryId = 0 ∧ s₄.mapLimit = env.mapLimit := by
    obtain ⟨pa, prot, len, vmap, file, rfl⟩ := hm₄.same
    obtain ⟨pa, prot, len, vmap, file, rfl⟩ := hm₂.same
    rw [hs₀]
    exact ⟨rfl, rfl, rfl⟩
  have hst₄ : s₄.startAddr = env.mapHint := (hm₄.start.trans hm₂.start).trans hst₀
  -- the tree
  have hz : (containerOfBytes fun _ => 0).currentSlab.maddr = 0 := le64_zero 16
  obtain ⟨v, rfl, rfl, hbegin, hfree, hbegun, hcont, hst₅, hlim₅⟩ :=
    Fresh.slabDirInit hf₄ hc₄ hz hkept.1 hkept.2.1 h₅
  have hcaddr : s₂.addr 0 = v.addr 0 := by
    rw [hbegin.shows.addr_eq]
    unfold Pm.addr
    rw [hst₅, hst₄, hm₂.start, hst₀]
  rw [hcaddr] at h₆
  obtain ⟨_, t₁, hc₁, _, t₂, hc₂, _, t₃, hc₃, hc₄⟩ := h₆
  have hz' : v.cont.currentSlab.maddr = 0 := by
    rw [hcont]
    exact hz
  have hroot : v.dir.sdMaddrRoot = [] := (hbegun
    { v.cont with
      currentSlab := ⟨v.addr 1, 1 * pageSize⟩
      snapshotSlab := ⟨v.addr 1, 1 * pageSize⟩ } rfl rfl).sdMaddrRoot
  have hquiet : ∀ c : Container, c.currentSlab.maddr = v.addr 1 → View.Quiet { v with cont := c } := by
    refine fun c hc => .inr ⟨hc, fun r hr => ?_⟩
    change r ∈ v.dir.sdMaddrRoot at hr
    rw [hroot] at hr
    cases hr
  obtain ⟨hs₁, hm₁⟩ := hbegin.shows.updateCont (.inl hz') hc₁
  obtain ⟨hs₂, hm₂⟩ := hs₁.updateCont (u := ()) (.inl hz') hc₂
  obtain ⟨hs₃, hm₃⟩ := hs₂.updateCont (u := ()) (hquiet _ rfl) hc₃
  obtain ⟨hs₄, hm₄⟩ := hs₃.updateCont (u := ()) (hquiet _ rfl) hc₄
  have hm := hm₁.trans (hm₂.trans (hm₃.trans hm₄))
  exact ⟨_, hbegin.step hs₄ rfl hm, hbegun _ rfl rfl, ⟨hfree.first, hfree.last, hfree.next⟩,
    hm.startAddr.trans (hst₅.trans hst₄), hm.mapLimit.trans (hlim₅.trans hkept.2.2)⟩

end Pm

end LibPM

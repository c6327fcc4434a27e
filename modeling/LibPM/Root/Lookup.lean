import LibPM.SearchTree.Basic
import LibPM.Memory.Access
import LibPM.Model.Cont

/-!
# The comparison behind `sd_maddr_root`

`slab_entry_compare_by_maddr` is two comparisons, and the snapshot address of its first argument says
which one runs. The tree is built with the exact one. A search for an address runs the other one, which
singles out the entry whose page has the address: the same entry an exact search for the start of that
page finds (`slabFind_eq_exact`).
-/

namespace LibPM

open Recorded Recorded.Prog Splay Splay.Tree

/-- `SE_SEARCH_NORMAL`. -/
def seSearchNormal : ℕ := 1

/-- `SE_SEARCH_MADDR`. -/
def seSearchMaddr : ℕ := 2

/-- `SLAB_ENTRY_SEARCH_KEY(key, type)`. -/
def slabEntrySearchKey (key type : ℕ) : SlabEntry :=
  { SlabEntry.zero with dataCurrent.maddr := key, dataSnapshot.maddr := type }

/-- `SLAB_ENTRY_SEARCH_TYPE(se)`. -/
def slabEntrySearchType (se : SlabEntry) : ℕ := se.dataSnapshot.maddr

/-- `slab_entry_compare_by_maddr`: `.lt`, `.eq` and `.gt` stand for `-1`, `0` and `1`. -/
def slabEntryCompareByMaddr (a b : SlabEntry) : Ordering :=
  if slabEntrySearchType a = seSearchMaddr then
    if a.dataCurrent.maddr < b.dataCurrent.maddr then .lt
    else if a.dataCurrent.maddr ≥ b.dataCurrent.maddr + pageSize then .gt else .eq
  else if a.dataCurrent.maddr < b.dataCurrent.maddr then .lt
  else if a.dataCurrent.maddr > b.dataCurrent.maddr then .gt else .eq

/-- `RB_FIND(used_slab_entry_tree, …)` for a key; `mem` holds the entries the nodes point to. -/
def usedTreeFind (mem : EntryRef → SlabEntry) (t : Splay.Tree EntryRef) (key : SlabEntry) :
    Option EntryRef :=
  SearchTree.find (fun r => slabEntryCompareByMaddr key (mem r)) t

/-- `RB_INSERT(used_slab_entry_tree, …)` up to the rebalancing. -/
def usedTreeInsert (mem : EntryRef → SlabEntry) (t : Splay.Tree EntryRef) (se : EntryRef) :
    Splay.Tree EntryRef :=
  SearchTree.insert (fun r => slabEntryCompareByMaddr (mem se) (mem r)) se t

/-- The trees `sd_maddr_root` can be, with the entries in memory. An entry joins the tree with an
address of its own, and the address stays while other fields change. -/
inductive UsedTree (rebalance : Splay.Tree EntryRef → Splay.Tree EntryRef) :
    (EntryRef → SlabEntry) → Splay.Tree EntryRef → Prop
  | init (mem : EntryRef → SlabEntry) : UsedTree rebalance mem leaf
  | insert {mem : EntryRef → SlabEntry} {t : Splay.Tree EntryRef} {se : EntryRef} :
      UsedTree rebalance mem t → pageSize ∣ (mem se).dataCurrent.maddr →
      pageSize ∣ (mem se).dataSnapshot.maddr →
      (∀ r ∈ t.toList, (mem r).dataCurrent.maddr ≠ (mem se).dataCurrent.maddr) →
      UsedTree rebalance mem (rebalance (usedTreeInsert mem t se))
  | change {mem mem' : EntryRef → SlabEntry} {t : Splay.Tree EntryRef} : UsedTree rebalance mem t →
      (∀ r ∈ t.toList, (mem' r).dataCurrent.maddr = (mem r).dataCurrent.maddr) →
      UsedTree rebalance mem' t

/-! ## The order of the tree -/

/-- The entries are page aligned and in the order of their addresses. -/
structure ByMaddr (mem : EntryRef → SlabEntry) (t : Splay.Tree EntryRef) : Prop where
  sorted : t.toList.Pairwise fun a b => (mem a).dataCurrent.maddr < (mem b).dataCurrent.maddr
  aligned : ∀ r ∈ t.toList, pageSize ∣ (mem r).dataCurrent.maddr

variable {mem : EntryRef → SlabEntry} {t : Splay.Tree EntryRef} {rebalance : Splay.Tree EntryRef → Splay.Tree EntryRef}

theorem compare_eq_lt_iff {a b : SlabEntry} :
    slabEntryCompareByMaddr a b = .lt ↔ a.dataCurrent.maddr < b.dataCurrent.maddr := by
  unfold slabEntryCompareByMaddr
  split_ifs <;> simp <;> omega

theorem compare_eq_gt_iff {a b : SlabEntry} :
    slabEntryCompareByMaddr a b = .gt ↔
      b.dataCurrent.maddr + (if slabEntrySearchType a = seSearchMaddr then pageSize else 1) ≤
        a.dataCurrent.maddr := by
  unfold slabEntryCompareByMaddr pageSize
  split_ifs <;> simp <;> omega

/-- Both comparisons are monotone along the addresses. -/
theorem ByMaddr.isCut (h : ByMaddr mem t) (key : SlabEntry) :
    IsCut (fun r => slabEntryCompareByMaddr key (mem r)) t.toList := by
  refine h.sorted.imp fun {a b} hab => ?_
  rw [compare_eq_lt_iff, compare_eq_lt_iff, compare_eq_gt_iff, compare_eq_gt_iff]
  omega

theorem ByMaddr.eq_of_maddr (h : ByMaddr mem t) {a b : EntryRef} (ha : a ∈ t.toList)
    (hb : b ∈ t.toList) (hab : (mem a).dataCurrent.maddr = (mem b).dataCurrent.maddr) : a = b := by
  by_contra hne
  have hs : t.toList.Pairwise fun x y => (mem x).dataCurrent.maddr ≠ (mem y).dataCurrent.maddr :=
    h.sorted.imp Nat.ne_of_lt
  have : Std.Symm fun x y => (mem x).dataCurrent.maddr ≠ (mem y).dataCurrent.maddr :=
    ⟨fun _ _ => Ne.symm⟩
  exact hs.forall ha hb hne hab

theorem compare_eq_iff_normal {key : SlabEntry} {b : SlabEntry}
    (hk : slabEntrySearchType key ≠ seSearchMaddr) :
    slabEntryCompareByMaddr key b = .eq ↔ b.dataCurrent.maddr = key.dataCurrent.maddr := by
  unfold slabEntryCompareByMaddr
  rw [if_neg hk]
  split_ifs <;> simp <;> omega

theorem compare_eq_iff_maddr {p : ℕ} {b : SlabEntry} :
    slabEntryCompareByMaddr (slabEntrySearchKey p seSearchMaddr) b = .eq ↔
      b.dataCurrent.maddr ≤ p ∧ p < b.dataCurrent.maddr + pageSize := by
  have htype : slabEntrySearchType (slabEntrySearchKey p seSearchMaddr) = seSearchMaddr := rfl
  have hkey : (slabEntrySearchKey p seSearchMaddr).dataCurrent.maddr = p := rfl
  unfold slabEntryCompareByMaddr
  rw [if_pos htype, hkey]
  split_ifs <;> simp <;> omega

/-- An aligned page has an address if and only if it starts where the address is rounded down to. -/
theorem roundDwnPg_eq_iff {a p : ℕ} (ha : pageSize ∣ a) :
    a = roundDwnPg p ↔ a ≤ p ∧ p < a + pageSize := by
  obtain ⟨k, rfl⟩ := ha
  unfold roundDwnPg pageSize
  omega

theorem ByMaddr.insert (h : ByMaddr mem t) {se : EntryRef}
    (ha : pageSize ∣ (mem se).dataCurrent.maddr) (hs : pageSize ∣ (mem se).dataSnapshot.maddr)
    (hne : ∀ r ∈ t.toList, (mem r).dataCurrent.maddr ≠ (mem se).dataCurrent.maddr) :
    ByMaddr mem (usedTreeInsert mem t se) := by
  have hk : slabEntrySearchType (mem se) ≠ seSearchMaddr := by
    unfold slabEntrySearchType seSearchMaddr
    unfold pageSize at hs
    omega
  obtain ⟨pre, post, hl, hl', hpre, hpost⟩ := SearchTree.toList_insert (h.isCut (mem se))
    (fun b hb heq => hne b hb ((compare_eq_iff_normal hk).mp heq)) se
  have hbelow : ∀ b ∈ pre, (mem b).dataCurrent.maddr < (mem se).dataCurrent.maddr := by
    intro b hb
    have hgt := compare_eq_gt_iff.mp (hpre b hb)
    rwa [if_neg hk] at hgt
  have habove : ∀ b ∈ post, (mem se).dataCurrent.maddr < (mem b).dataCurrent.maddr := by
    exact fun b hb => compare_eq_lt_iff.mp (hpost b hb)
  have hsort := h.sorted
  rw [hl, List.pairwise_append] at hsort
  obtain ⟨hp, hq, hpq⟩ := hsort
  constructor
  · rw [usedTreeInsert, hl', List.pairwise_append, List.pairwise_cons]
    refine ⟨hp, ⟨habove, hq⟩, fun b hb d hd => ?_⟩
    rcases List.mem_cons.mp hd with rfl | hd
    · exact hbelow b hb
    · exact hpq b hb d hd
  · intro r hr
    rw [usedTreeInsert, hl', List.mem_append, List.mem_cons] at hr
    rcases hr with hr | rfl | hr
    · exact h.aligned r (by rw [hl]; simp [hr])
    · exact ha
    · exact h.aligned r (by rw [hl]; simp [hr])

/-- Every tree that can be reached is in the order of the addresses. -/
theorem UsedTree.byMaddr (hr : ∀ t, (rebalance t).toList = t.toList)
    (h : UsedTree rebalance mem t) : ByMaddr mem t := by
  induction h with
  | init mem => exact ⟨by simp, by simp⟩
  | insert _ ha hs hne ih =>
    obtain ⟨hsort, hal⟩ := ih.insert ha hs hne
    exact ⟨by rwa [hr], by rwa [hr]⟩
  | @change mem mem' t _ hmem ih =>
    refine ⟨ih.sorted.imp_of_mem fun {a b} ha hb hab => ?_, fun r hr => ?_⟩
    · rwa [hmem a ha, hmem b hb]
    · rw [hmem r hr]
      exact ih.aligned r hr

/-! ## Searches -/

/-- What a search for an address finds. -/
theorem ByMaddr.find_maddr (h : ByMaddr mem t) {p : ℕ} {e : EntryRef} :
    usedTreeFind mem t (slabEntrySearchKey p seSearchMaddr) = some e ↔
      e ∈ t.toList ∧ (mem e).dataCurrent.maddr ≤ p ∧ p < (mem e).dataCurrent.maddr + pageSize := by
  unfold usedTreeFind
  rw [SearchTree.find_eq_some_iff (h.isCut _), compare_eq_iff_maddr]
  intro a ha b hb hca hcb
  rw [compare_eq_iff_maddr, ← roundDwnPg_eq_iff (h.aligned _ ‹_›)] at hca hcb
  exact h.eq_of_maddr ha hb (hca.trans hcb.symm)

/-- What an exact search finds. -/
theorem ByMaddr.find_normal (h : ByMaddr mem t) {a : ℕ} {e : EntryRef} :
    usedTreeFind mem t (slabEntrySearchKey a seSearchNormal) = some e ↔
      e ∈ t.toList ∧ (mem e).dataCurrent.maddr = a := by
  have hk : slabEntrySearchType (slabEntrySearchKey a seSearchNormal) ≠ seSearchMaddr :=
    show seSearchNormal ≠ seSearchMaddr by decide
  have hkey : (slabEntrySearchKey a seSearchNormal).dataCurrent.maddr = a := rfl
  unfold usedTreeFind
  rw [SearchTree.find_eq_some_iff (h.isCut _), compare_eq_iff_normal hk, hkey]
  intro x hx y hy hcx hcy
  rw [compare_eq_iff_normal hk] at hcx hcy
  exact h.eq_of_maddr hx hy (hcx.trans hcy.symm)

/-! ## The searches of the model -/

/-- The tree of the current directory is `t`, and its entries are in memory. -/
structure Pm.HoldsTree (s : Pm) (sd : ℕ) (mem : EntryRef → SlabEntry) (t : Splay.Tree EntryRef) :
    Prop where
  current : Returns currentSlabMaddr s sd s
  root : ∃ d, s.readDir sd = some d ∧ ∀ r, r ∈ d.sdMaddrRoot ↔ r ∈ t.toList
  entry : ∀ r ∈ t.toList, s.readEntry r = some (mem r)

variable {s s' : Pm} {sd : ℕ}

theorem findEntry_eq_find? {q : SlabEntry → Bool} {l : List EntryRef}
    (h : ∀ r ∈ l, s.readEntry r = some (mem r)) :
    s.findEntry q l = some (l.find? fun r => q (mem r)) := by
  induction l with
  | nil => rfl
  | cons r l ih =>
    unfold Pm.findEntry
    rw [h r (by simp), List.find?_cons]
    cases hq : q (mem r) with
    | true => simp [hq]
    | false => simpa [hq] using ih fun x hx => h x (by simp [hx])

/-- A search of the model that asks for what the comparison singles out is the walk down the tree. -/
theorem Pm.HoldsTree.returns_usedFind (h : s.HoldsTree sd mem t) {q : SlabEntry → Bool}
    {key : SlabEntry}
    (hq : ∀ e, usedTreeFind mem t key = some e ↔ e ∈ t.toList ∧ q (mem e) = true)
    {o : Option EntryRef} :
    Returns (usedFind sd q) s o s' ↔ o = usedTreeFind mem t key ∧ s = s' := by
  obtain ⟨d, hd, hroot⟩ := h.root
  rw [LibPM.returns_usedFind]
  refine and_congr_left fun _ => ?_
  have hfind := @findEntry_eq_find? mem s q d.sdMaddrRoot fun r hr => h.entry r ((hroot r).mp hr)
  have hwalk : d.sdMaddrRoot.find? (fun r => q (mem r)) = usedTreeFind mem t key := by
    cases hf : d.sdMaddrRoot.find? (fun r => q (mem r)) with
    | none =>
      rw [List.find?_eq_none] at hf
      cases hw : usedTreeFind mem t key with
      | none => rfl
      | some e => exact (hf e ((hroot e).mpr ((hq e).mp hw).1) ((hq e).mp hw).2).elim
    | some e =>
      refine ((hq e).mpr ⟨(hroot e).mp (List.mem_of_find?_eq_some hf), ?_⟩).symm
      exact @List.find?_some _ (fun r => q (mem r)) _ _ hf
  rw [← hwalk]
  constructor
  · rintro ⟨d', hd', hf⟩
    obtain rfl := Option.some.inj (hd.symm.trans hd')
    exact (Option.some.inj (hfind.symm.trans hf)).symm
  · rintro rfl
    exact ⟨d, hd, hfind⟩

theorem Pm.HoldsTree.returns_searchNormal (h : s.HoldsTree sd mem t) (hb : ByMaddr mem t) {a : ℕ}
    {o : Option EntryRef} : Returns (usedFind sd (searchNormal a)) s o s' ↔
      o = usedTreeFind mem t (slabEntrySearchKey a seSearchNormal) ∧ s = s' := by
  refine h.returns_usedFind fun e => hb.find_normal.trans ?_
  unfold searchNormal
  rw [beq_iff_eq]

theorem Pm.HoldsTree.returns_slabFind (h : s.HoldsTree sd mem t) (hb : ByMaddr mem t) {p : ℕ}
    {o : Option EntryRef} : Returns (slabFind p) s o s' ↔
      o = usedTreeFind mem t (slabEntrySearchKey p seSearchMaddr) ∧ s = s' := by
  have hq : ∀ e, usedTreeFind mem t (slabEntrySearchKey p seSearchMaddr) = some e ↔
      e ∈ t.toList ∧ searchMaddr p (mem e) = true := fun e => by
    unfold searchMaddr
    rw [decide_eq_true_iff]
    exact hb.find_maddr
  unfold slabFind
  rw [returns_bind, ← h.returns_usedFind hq]
  constructor
  · rintro ⟨sd', _, hsd, hr⟩
    obtain ⟨rfl, rfl⟩ := h.current.unique hsd
    exact hr
  · exact fun hr => ⟨sd, s, h.current, hr⟩

/-- **A search by range finds the entry whose page has the address**, as the exact search for the start
of the page does. -/
theorem slabFind_eq_exact (hr : ∀ t, (rebalance t).toList = t.toList)
    (h : UsedTree rebalance mem t) (hs : s.HoldsTree sd mem t) (p : ℕ) :
    (∀ e, Returns (slabFind p) s (some e) s ↔
      e ∈ t.toList ∧ (mem e).dataCurrent.maddr ≤ p ∧ p < (mem e).dataCurrent.maddr + pageSize) ∧
    (∀ o s', Returns (slabFind p) s o s' ↔
      o = usedTreeFind mem t (slabEntrySearchKey p seSearchMaddr) ∧ s = s') ∧
    (∀ o s', Returns (usedFind sd (searchNormal (roundDwnPg p))) s o s' ↔
      o = usedTreeFind mem t (slabEntrySearchKey (roundDwnPg p) seSearchNormal) ∧ s = s') ∧
    usedTreeFind mem t (slabEntrySearchKey p seSearchMaddr) =
      usedTreeFind mem t (slabEntrySearchKey (roundDwnPg p) seSearchNormal) := by
  have hb := h.byMaddr hr
  refine ⟨fun e => ?_, fun o s' => hs.returns_slabFind hb, fun o s' => hs.returns_searchNormal hb,
    Option.ext fun e => ?_⟩
  · rw [hs.returns_slabFind hb, ← hb.find_maddr, eq_comm]
    exact and_iff_left rfl
  · rw [hb.find_maddr, hb.find_normal]
    exact and_congr_right fun he => (roundDwnPg_eq_iff (hb.aligned e he)).symm

/-- The entries of two data pages. -/
def pairMem (r : EntryRef) : SlabEntry :=
  let data : DataVersion := ⟨2 ^ 40 + (3 + r.idx) * pageSize, (3 + r.idx) * pageSize, 0⟩
  { SlabEntry.zero with seSize := 512, dataCurrent := data, dataSnapshot := data }

def pairState : Pm := { Pm.boot (Env.standard .fixedMapper) (5 * pageSize) (fun _ => Page.zero) 0 with
  pa := .fixed ⟨5 * pageSize, 2 ^ 40, 0, [], none, fun _ => none⟩
  containers := some (2 ^ 40)
  file := fun i =>
    let bucket := 2 ^ 40 + 2 * pageSize
    match i with
    | 0 => .container ⟨0, ⟨2 ^ 40 + pageSize, pageSize⟩, ⟨0, 0⟩, 0⟩
    | 1 => .dir { dirOfBytes (fun _ => 0) with sdMaddrRoot := [⟨bucket, 1⟩, ⟨bucket, 0⟩] }
    | 2 => .bucket { bucketOfBytes (fun _ => 0) with sbEntries := fun l => pairMem ⟨bucket, l⟩ }
    | _ => Page.zero }

def pairTree : Splay.Tree EntryRef :=
  usedTreeInsert pairMem (usedTreeInsert pairMem leaf ⟨2 ^ 40 + 2 * pageSize, 0⟩)
    ⟨2 ^ 40 + 2 * pageSize, 1⟩

theorem usedTree_pair : UsedTree id pairMem pairTree := by
  refine ((UsedTree.init pairMem).insert ?_ ?_ ?_).insert ?_ ?_ ?_ <;> decide

theorem holdsTree_pair : pairState.HoldsTree (2 ^ 40 + pageSize) pairMem pairTree := by
  have hp : ∀ i < 5, pairState.pageAt (2 ^ 40 + i * pageSize) = some (pairState.file i) := by
    intro i hi
    have hlen : pairState.startAddr = 2 ^ 40 ∧ pairState.mapLen = 5 * pageSize := ⟨rfl, rfl⟩
    unfold Pm.pageAt Pm.fpage Pm.vpage
    rw [hlen.1, hlen.2, if_pos (by unfold pageSize; omega),
      if_pos (by unfold pageSize; omega), Nat.add_sub_cancel_left,
      Nat.mul_div_cancel _ (by decide)]
    rfl
  have hl : pairTree.toList = [⟨2 ^ 40 + 2 * pageSize, 0⟩, ⟨2 ^ 40 + 2 * pageSize, 1⟩] := by
    decide
  refine ⟨?_, ?_, ?_⟩
  · exact returns_currentSlabMaddr.mpr
      ⟨⟨2 ^ 40, _, rfl, readContainer_eq_some.mpr (hp 0 (by decide)), rfl⟩, rfl⟩
  · refine ⟨_, readDir_eq_some.mpr (hp 1 (by decide)), fun r => ?_⟩
    rw [hl]
    exact (List.Perm.swap _ _ _).mem_iff
  · rw [hl]
    refine fun r hr => readEntry_eq_some.mpr ?_
    have hsb : r.sb = 2 ^ 40 + 2 * pageSize ∧ r.idx < slabBucketEntries := by
      rcases List.mem_cons.mp hr with rfl | hr
      · exact ⟨rfl, by decide⟩
      · rw [List.mem_singleton.mp hr]
        exact ⟨rfl, by decide⟩
    have hb : pairState.readBucket r.sb = some { bucketOfBytes (fun _ => 0) with
        sbEntries := fun l => pairMem ⟨2 ^ 40 + 2 * pageSize, l⟩ } := by
      rw [hsb.1]
      exact readBucket_eq_some.mpr (hp 2 (by decide))
    exact ⟨hsb.2, _, hb, rfl⟩

/-- With the last byte of the first page. -/
theorem slabFind_eq_exact_pair : Returns (slabFind (2 ^ 40 + 3 * pageSize + 4095)) pairState
    (some ⟨2 ^ 40 + 2 * pageSize, 0⟩) pairState := by
  have h := slabFind_eq_exact (fun _ => rfl) usedTree_pair holdsTree_pair
    (2 ^ 40 + 3 * pageSize + 4095)
  exact (h.1 _).mpr (by decide)

end LibPM

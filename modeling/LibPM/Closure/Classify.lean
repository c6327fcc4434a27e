import LibPM.HTable.Basic
import LibPM.Root.Lookup
import LibPM.Model.Closure

/-!
# The classification of pointers

`classify_pointers` asks two searches about each registered location. One is a splay tree of the
registered allocations, in the order of their addresses; the search moves its nodes and keeps their order.
The other one is the tree of data pages. A location in an allocation is kept in the table and recorded with
the allocation, one in a data page moves to `pptr_vec`, and any other stays where it is
(`classifyPointers_partition`).
-/

namespace LibPM

open Recorded Recorded.Prog Splay Splay.Tree

/-! ## Registered allocations -/

/-- The address `p` is in the allocation. -/
def MallocatEntry.Has (e : MallocatEntry) (p : ℕ) : Prop := e.addr ≤ p ∧ p < e.addr + e.size

instance (e : MallocatEntry) (p : ℕ) : Decidable (e.Has p) := by
  unfold MallocatEntry.Has
  infer_instance

/-- Disjoint allocations, in the order of their addresses. -/
def InOrder (l : List MallocatEntry) : Prop := l.Pairwise fun a b => a.addr + a.size ≤ b.addr

theorem mallocatEntryCpm_eq_iff {p : ℕ} {e : MallocatEntry} :
    mallocatEntryCpm p e = .eq ↔ e.Has p := by
  unfold mallocatEntryCpm MallocatEntry.Has
  split_ifs <;> simp <;> omega

theorem mallocatEntryCpm_lt_iff {p : ℕ} {e : MallocatEntry} :
    mallocatEntryCpm p e = .lt ↔ p < e.addr := by
  unfold mallocatEntryCpm
  split_ifs <;> simp <;> omega

theorem mallocatEntryCpm_gt_iff {p : ℕ} {e : MallocatEntry} :
    mallocatEntryCpm p e = .gt ↔ e.addr + e.size ≤ p := by
  unfold mallocatEntryCpm
  split_ifs <;> simp <;> omega

theorem InOrder.isCut {l : List MallocatEntry} (h : InOrder l) (p : ℕ) :
    IsCut (mallocatEntryCpm p) l := by
  refine h.imp fun {a b} hab => ?_
  simp only [mallocatEntryCpm_lt_iff, mallocatEntryCpm_gt_iff]
  omega

/-- Only one allocation has an address. -/
theorem InOrder.not_has {l r : List MallocatEntry} {a : MallocatEntry} (h : InOrder (l ++ a :: r))
    {p : ℕ} (ha : a.Has p) : (∀ x ∈ l, ¬ x.Has p) ∧ ∀ x ∈ r, ¬ x.Has p := by
  unfold InOrder at h
  rw [List.pairwise_append, List.pairwise_cons] at h
  obtain ⟨-, ⟨har, -⟩, hla⟩ := h
  unfold MallocatEntry.Has at *
  refine ⟨fun x hx hp => ?_, fun x hx hp => ?_⟩
  · have := hla x hx a List.mem_cons_self
    omega
  · have := har x hx
    omega

/-- The pointer at `p` is recorded with the allocation that has it. -/
def MallocatEntry.mark (p : ℕ) (e : MallocatEntry) : MallocatEntry :=
  if e.Has p then { e with ptrs := e.ptrs.append p } else e

theorem MallocatEntry.addr_mark (p : ℕ) (e : MallocatEntry) :
    (e.mark p).addr = e.addr ∧ (e.mark p).size = e.size ∧ (e.mark p).paddr = e.paddr := by
  unfold MallocatEntry.mark
  split_ifs <;> exact ⟨rfl, rfl, rfl⟩

theorem MallocatEntry.has_mark (p q : ℕ) (e : MallocatEntry) : (e.mark p).Has q ↔ e.Has q := by
  unfold MallocatEntry.Has
  rw [(e.addr_mark p).1, (e.addr_mark p).2.1]

theorem map_mark_of_not_has {l : List MallocatEntry} {p : ℕ} (h : ∀ x ∈ l, ¬ x.Has p) :
    l.map (MallocatEntry.mark p) = l := by
  refine (List.map_congr_left fun x hx => ?_).trans (List.map_id l)
  unfold MallocatEntry.mark
  rw [if_neg (h x hx)]
  rfl

theorem InOrder.map_mark {l : List MallocatEntry} (h : InOrder l) (p : ℕ) :
    InOrder (l.map (MallocatEntry.mark p)) := by
  unfold InOrder
  rw [List.pairwise_map]
  refine h.imp fun {a b} hab => ?_
  rwa [(a.addr_mark p).1, (a.addr_mark p).2.1, (b.addr_mark p).1]

/-- A registered allocation has the address. -/
def allocated (l : List MallocatEntry) (p : ℕ) : Bool := l.any fun e => decide (e.Has p)

theorem allocated_eq_true {l : List MallocatEntry} {p : ℕ} :
    allocated l p = true ↔ ∃ e ∈ l, e.Has p := by
  unfold allocated
  simp

theorem allocated_map_mark (l : List MallocatEntry) (p q : ℕ) :
    allocated (l.map (MallocatEntry.mark p)) q = allocated l q := by
  unfold allocated
  rw [List.any_map]
  congr 1
  funext e
  exact decide_eq_decide.mpr (e.has_mark p q)

/-- An allocation that is disjoint from those of the tree joins them. -/
theorem InOrder.insert {t : Splay.Tree MallocatEntry} (h : InOrder t.toList) {addr size : ℕ}
    (hd : ∀ b ∈ t.toList, b.addr ≠ addr ∧ (addr + size ≤ b.addr ∨ b.addr + b.size ≤ addr)) :
    InOrder (Splay.insert (mallocatEntryCpm addr) (mallocatEntryAlloc addr size) t).toList ∧
      (Splay.insert (mallocatEntryCpm addr) (mallocatEntryAlloc addr size) t).toList.Perm
        (mallocatEntryAlloc addr size :: t.toList) := by
  rcases Splay.toList_insert (h.isCut addr) (mallocatEntryAlloc addr size) with
    ⟨⟨b, hb, heq⟩, -⟩ | ⟨pre, post, hl, hl', hpre, hpost⟩
  · rw [mallocatEntryCpm_eq_iff] at heq
    unfold MallocatEntry.Has at heq
    have := hd b hb
    omega
  · rw [hl, hl']
    refine ⟨?_, List.perm_middle⟩
    unfold InOrder at h ⊢
    rw [hl, List.pairwise_append] at h
    obtain ⟨hp, hq, hpq⟩ := h
    refine List.pairwise_append.mpr ⟨hp, List.pairwise_cons.mpr ⟨fun b hb => ?_, hq⟩, fun b hb x hx => ?_⟩
    · have hlt := mallocatEntryCpm_lt_iff.mp (hpost b hb)
      have := hd b (by rw [hl]; exact List.mem_append_right _ hb)
      show addr + size ≤ b.addr
      omega
    · rcases List.mem_cons.mp hx with rfl | hx
      · exact mallocatEntryCpm_gt_iff.mp (hpre b hb)
      · exact hpq b hb x hx

/-- `build_mallocat_tree` puts disjoint allocations in order. -/
theorem returns_buildMallocatTree {m : Machine} (hw : m.htMallocat.Wf) (h0 : m.mallocatTree = leaf)
    (hd : m.htMallocat.entries.Pairwise fun x y => x.key + x.val ≤ y.key ∨ y.key + y.val ≤ x.key) :
    ∃ tree : Splay.Tree MallocatEntry, Returns buildMallocatTree m () { m with mallocatTree := tree } ∧
      InOrder tree.toList ∧
      tree.toList.Perm (m.htMallocat.entries.map fun x => mallocatEntryAlloc x.key x.val) := by
  have hne : m.htMallocat.entries.Pairwise fun x y => x.key ≠ y.key := List.pairwise_map.mp hw.nodup
  have hloop : ∀ (l : List HtableEntry) (tree : Splay.Tree MallocatEntry), InOrder tree.toList →
      (l.Pairwise fun x y => x.key + x.val ≤ y.key ∨ y.key + y.val ≤ x.key) →
      (l.Pairwise fun x y => x.key ≠ y.key) →
      (∀ b ∈ tree.toList, ∀ x ∈ l, b.addr ≠ x.key ∧
        (x.key + x.val ≤ b.addr ∨ b.addr + b.size ≤ x.key)) →
      ∃ tree' : Splay.Tree MallocatEntry, Returns (l.forM fun e => initMallocatTreeCallback e.key e.val)
          { m with mallocatTree := tree } () { m with mallocatTree := tree' } ∧ InOrder tree'.toList ∧
        tree'.toList.Perm ((l.map fun x => mallocatEntryAlloc x.key x.val) ++ tree.toList) := by
    intro l
    induction l with
    | nil => exact fun tree ho _ _ _ => ⟨tree, returns_forM_nil.mpr rfl, ho, .refl _⟩
    | cons x l ih =>
      intro tree ho hl hk hb
      rw [List.pairwise_cons] at hl hk
      obtain ⟨ho', hp⟩ := ho.insert fun b hbt => hb b hbt x List.mem_cons_self
      obtain ⟨tree', hr, ho'', hp'⟩ := ih _ ho' hl.2 hk.2 fun b hbt y hy => by
        rcases List.mem_cons.mp (hp.mem_iff.mp hbt) with rfl | hbt
        · exact ⟨hk.1 y hy, (hl.1 y hy).symm⟩
        · exact hb b hbt y (List.mem_cons_of_mem _ hy)
      refine ⟨tree', returns_forM_cons.mpr ⟨_, returns_modify.mpr rfl, hr⟩, ho'', hp'.trans ?_⟩
      exact (hp.append_left _).trans List.perm_middle
  obtain ⟨tree, hr, ho, hp⟩ := hloop m.htMallocat.entries leaf (show InOrder [] from .nil) hd hne
    (by simp)
  refine ⟨tree, ?_, ho, by simpa using hp⟩
  have hm : m = { m with mallocatTree := leaf } := by rw [← h0]
  rw [← hm] at hr
  unfold buildMallocatTree htableForeach
  rw [returns_bind]
  refine ⟨m, m, returns_get.mpr ⟨rfl, rfl⟩, returns_bind.mpr ⟨(), _, hr, ?_⟩⟩
  exact returns_require.mpr ⟨hw.elems, rfl⟩

/-! ## One pointer -/

/-- A data page of the container has the address. -/
def inDataPage (mem : EntryRef → SlabEntry) (t : Splay.Tree EntryRef) (p : ℕ) : Bool :=
  t.toList.any fun r => decide ((mem r).dataCurrent.maddr ≤ p ∧ p < (mem r).dataCurrent.maddr + pageSize)

theorem inDataPage_eq_true {mem : EntryRef → SlabEntry} {t : Splay.Tree EntryRef} {p : ℕ} :
    inDataPage mem t p = true ↔ ∃ r ∈ t.toList,
      (mem r).dataCurrent.maddr ≤ p ∧ p < (mem r).dataCurrent.maddr + pageSize := by
  unfold inDataPage
  simp

/-- The pointers that move to `pptr_vec`. -/
def isPersistent (l : List MallocatEntry) (mem : EntryRef → SlabEntry) (t : Splay.Tree EntryRef) (p : ℕ) :
    Bool := !allocated l p && inDataPage mem t p

variable {m m₁ m' : Machine} {mem : EntryRef → SlabEntry} {t : Splay.Tree EntryRef} {sd : ℕ}

theorem returns_mallocatFind {a : ℕ} {o : Option MallocatEntry} :
    Returns (mallocatFind a) m o m' ↔ o = (Splay.find (mallocatEntryCpm a) m.mallocatTree).1 ∧
      m' = { m with mallocatTree := (Splay.find (mallocatEntryCpm a) m.mallocatTree).2 } := by
  unfold mallocatFind
  simp only [returns_bind, returns_get, returns_modify, returns_pure]
  constructor
  · rintro ⟨_, _, ⟨rfl, rfl⟩, _, _, rfl, rfl, rfl⟩
    exact ⟨rfl, rfl⟩
  · rintro ⟨rfl, rfl⟩
    exact ⟨m, m, ⟨rfl, rfl⟩, (), _, rfl, rfl, rfl⟩

/-- What the callback does with a pointer. -/
theorem returns_classifyPointersCallback (hs : m.pm.HoldsTree sd mem t) (hb : ByMaddr mem t)
    (ho : InOrder m.mallocatTree.toList) (p v : ℕ) :
    ∃ tree : Splay.Tree MallocatEntry, tree.toList = m.mallocatTree.toList.map (MallocatEntry.mark p) ∧
      Returns (classifyPointersCallback p v) m (isPersistent m.mallocatTree.toList mem t p)
        { m with
          mallocatTree := tree
          pptrVec := if isPersistent m.mallocatTree.toList mem t p = true then m.pptrVec.append p
            else m.pptrVec } := by
  have hc := ho.isCut p
  unfold classifyPointersCallback
  cases hf : (Splay.find (mallocatEntryCpm p) m.mallocatTree).1 with
  | some e =>
    -- the entry found is at the root
    obtain ⟨heq, l, r, hroot⟩ := Splay.find_eq_some hf
    have hhas := mallocatEntryCpm_eq_iff.mp heq
    have hlist : m.mallocatTree.toList = l.toList ++ e :: r.toList := by
      rw [← toList_find (mallocatEntryCpm p), hroot]
      rfl
    have hpers : isPersistent m.mallocatTree.toList mem t p = false := by
      unfold isPersistent
      rw [allocated_eq_true.mpr ⟨e, by rw [hlist]; simp, hhas⟩]
      rfl
    obtain ⟨hl, hr⟩ := (hlist ▸ ho : InOrder (l.toList ++ e :: r.toList)).not_has hhas
    refine ⟨setRoot (fun e => { e with ptrs := e.ptrs.append p }) (node l e r), ?_, ?_⟩
    · rw [toList_setRoot, hlist, List.map_append, List.map_cons, map_mark_of_not_has hl,
        map_mark_of_not_has hr]
      unfold MallocatEntry.mark
      rw [if_pos hhas]
    · rw [hpers, returns_bind]
      refine ⟨_, _, returns_mallocatFind.mpr ⟨hf.symm, rfl⟩, ?_⟩
      unfold setFound
      simp only [returns_bind, returns_modify, returns_pure]
      refine ⟨(), _, rfl, trivial, ?_⟩
      rw [hroot]
      rfl
  | none =>
    have hnone : ∀ x ∈ m.mallocatTree.toList, ¬ x.Has p := fun x hx hp =>
      Splay.find_eq_none hc hf x hx (mallocatEntryCpm_eq_iff.mpr hp)
    have hnot : allocated m.mallocatTree.toList p = false := by
      rw [Bool.eq_false_iff, Ne, allocated_eq_true]
      rintro ⟨x, hx, hp⟩
      exact hnone x hx hp
    have hpers : isPersistent m.mallocatTree.toList mem t p =
        (usedTreeFind mem t (slabEntrySearchKey p seSearchMaddr)).isSome := by
      unfold isPersistent
      rw [hnot, Bool.not_false, Bool.true_and, Bool.eq_iff_iff, inDataPage_eq_true,
        Option.isSome_iff_exists]
      exact exists_congr fun r => hb.find_maddr.symm
    refine ⟨(Splay.find (mallocatEntryCpm p) m.mallocatTree).2, ?_, ?_⟩
    · rw [toList_find, map_mark_of_not_has hnone]
    · rw [hpers, returns_bind]
      refine ⟨none, _, returns_mallocatFind.mpr ⟨hf.symm, rfl⟩, ?_⟩
      dsimp only
      rw [returns_bind]
      refine ⟨usedTreeFind mem t (slabEntrySearchKey p seSearchMaddr), _,
        returns_zoom.mpr ⟨m.pm, (hs.returns_slabFind hb).mpr ⟨rfl, rfl⟩, rfl⟩, ?_⟩
      cases usedTreeFind mem t (slabEntrySearchKey p seSearchMaddr) with
      | some se =>
        simp only [returns_bind, returns_modify, returns_pure]
        exact ⟨(), _, rfl, rfl, rfl⟩
      | none => exact returns_pure.mpr ⟨rfl, rfl⟩

/-! ## The table -/

/-- The state when the entries `done` of the table are behind. -/
structure Classified (m : Machine) (mem : EntryRef → SlabEntry) (t : Splay.Tree EntryRef)
    (done : List HtableEntry) (m' : Machine) : Prop where
  same : ∃ ht tree vec, m' = { m with htPointerat := ht, mallocatTree := tree, pptrVec := vec }
  wf : m'.htPointerat.Wf
  length : m'.htPointerat.length = m.htPointerat.length
  chains : ∀ i < m.htPointerat.length, m'.htPointerat.list i = (m.htPointerat.list i).filter fun x =>
    !(decide (x ∈ done) && isPersistent m.mallocatTree.toList mem t x.key)
  tree : m'.mallocatTree.toList =
    (done.map HtableEntry.key).foldl (fun l p => l.map (MallocatEntry.mark p)) m.mallocatTree.toList
  vec : m'.pptrVec.items = m.pptrVec.items ++
    (done.map HtableEntry.key).filter (isPersistent m.mallocatTree.toList mem t)

theorem Classified.pm {done : List HtableEntry} (h : Classified m mem t done m') : m'.pm = m.pm := by
  obtain ⟨ht, tree, vec, rfl⟩ := h.same
  rfl

theorem inOrder_foldl_mark {l : List MallocatEntry} (h : InOrder l) (ps : List ℕ) :
    InOrder (ps.foldl (fun l p => l.map (MallocatEntry.mark p)) l) := by
  induction ps generalizing l with
  | nil => exact h
  | cons p ps ih => exact ih (h.map_mark p)

theorem allocated_foldl_mark (l : List MallocatEntry) (ps : List ℕ) (q : ℕ) :
    allocated (ps.foldl (fun l p => l.map (MallocatEntry.mark p)) l) q = allocated l q := by
  induction ps generalizing l with
  | nil => rfl
  | cons p ps ih => exact (ih _).trans (allocated_map_mark l p q)

theorem mem_entries {ht : HTable} {x : HtableEntry} :
    x ∈ ht.entries ↔ ∃ i < ht.length, x ∈ ht.list i := Chains.mem_items

/-- One turn of the loop. -/
theorem Classified.step {done post : List HtableEntry} {e : HtableEntry}
    (hw : m.htPointerat.Wf) (hs : m.pm.HoldsTree sd mem t) (hb : ByMaddr mem t)
    (ho : InOrder m.mallocatTree.toList) (hent : m.htPointerat.entries = done ++ e :: post)
    (h : Classified m mem t done m₁) :
    ∃ m₂, Returns (do
        let r ← classifyPointersCallback e.key e.val
        when (r = true) (modify fun m => { m with htPointerat := m.htPointerat.unlink e })) m₁ () m₂ ∧
      Classified m mem t (done ++ [e]) m₂ := by
  have hkeys := hw.nodup
  have hnodup : m.htPointerat.entries.Nodup := List.Nodup.of_map _ hkeys
  have hmem : e ∈ m.htPointerat.entries := by
    rw [hent]
    simp
  have hnot : e ∉ done := by
    rw [hent, List.nodup_append] at hnodup
    exact fun hd => hnodup.2.2 e hd e List.mem_cons_self rfl
  have ho₁ : InOrder m₁.mallocatTree.toList := by
    rw [h.tree]
    exact inOrder_foldl_mark ho _
  have hpers : isPersistent m₁.mallocatTree.toList mem t e.key =
      isPersistent m.mallocatTree.toList mem t e.key := by
    unfold isPersistent
    rw [h.tree, allocated_foldl_mark]
  obtain ⟨tree, htree, hcall⟩ := returns_classifyPointersCallback (h.pm.symm ▸ hs) hb ho₁ e.key e.val
  rw [hpers] at hcall
  have htree' : tree.toList = ((done ++ [e]).map HtableEntry.key).foldl
      (fun l p => l.map (MallocatEntry.mark p)) m.mallocatTree.toList := by
    rw [htree, h.tree, List.map_append, List.foldl_append]
    rfl
  obtain ⟨ht₀, tree₀, vec₀, hsame⟩ := h.same
  cases hp : isPersistent m.mallocatTree.toList mem t e.key with
  | false =>
    rw [hp] at hcall
    refine ⟨_, returns_bind.mpr ⟨false, _, hcall, (returns_when_false (by simp)).mpr rfl⟩, ?_⟩
    refine ⟨⟨ht₀, tree, vec₀, by rw [hsame]; rfl⟩, h.wf, h.length, fun i hi => ?_, htree', ?_⟩
    · refine (h.chains i hi).trans (List.filter_congr fun x _ => ?_)
      by_cases hx : x = e
      · rw [hx, hp]
        simp
      · simp [hx]
    · rw [List.map_append, List.filter_append, ← List.append_assoc]
      refine h.vec.trans ?_
      simp [hp]
  | true =>
    rw [hp] at hcall
    refine ⟨_, returns_bind.mpr ⟨true, _, hcall, (returns_when_true rfl).mpr
      (returns_modify.mpr rfl)⟩, ?_⟩
    obtain ⟨i, hi, hei⟩ := mem_entries.mp hmem
    have hslot : HTable.slot m.htPointerat.length e.hash = i := hw.chains i hi e hei
    have he₁ : e ∈ m₁.htPointerat.entries := by
      refine mem_entries.mpr ⟨i, h.length.symm ▸ hi, ?_⟩
      rw [h.chains i hi, List.mem_filter]
      exact ⟨hei, by simp [hnot]⟩
    refine ⟨⟨_, tree, _, by rw [hsame]⟩, (h.wf.unlink he₁).1, h.length, fun j hj => ?_, htree', ?_⟩
    · show Function.update m₁.htPointerat.list (HTable.slot m₁.htPointerat.length e.hash) _ j = _
      rw [h.length, hslot]
      by_cases hji : j = i
      · have hchain : (m.htPointerat.list i).Nodup :=
          (List.nodup_flatMap.mp hnodup).1 i (List.mem_range.mpr hi)
        rw [hji, Function.update_self, h.chains i hi, (hchain.filter _).erase_eq_filter,
          List.filter_filter]
        refine List.filter_congr fun x _ => ?_
        by_cases hx : x = e
        · rw [hx, hp]
          simp
        · simp [hx]
      · rw [Function.update_of_ne hji, h.chains j hj]
        refine List.filter_congr fun x hx => ?_
        have hxe : x ≠ e := fun hxe => hji ((hw.chains j hj x hx).symm.trans (hxe ▸ hslot))
        simp [hxe]
    · rw [List.map_append, List.filter_append, ← List.append_assoc]
      show (m₁.pptrVec.append e.key).items = _
      rw [CVector.items_append, h.vec]
      simp [hp]

/-- The whole loop. -/
theorem Classified.loop (hw : m.htPointerat.Wf) (hs : m.pm.HoldsTree sd mem t) (hb : ByMaddr mem t)
    (ho : InOrder m.mallocatTree.toList) {l done : List HtableEntry}
    (hent : m.htPointerat.entries = done ++ l) (h : Classified m mem t done m₁) :
    ∃ m₂, Returns (l.forM fun e => do
        let r ← classifyPointersCallback e.key e.val
        when (r = true) (modify fun m => { m with htPointerat := m.htPointerat.unlink e })) m₁ () m₂ ∧
      Classified m mem t (done ++ l) m₂ := by
  induction l generalizing done m₁ with
  | nil => exact ⟨m₁, returns_forM_nil.mpr rfl, by rwa [List.append_nil]⟩
  | cons e l ih =>
    obtain ⟨m₂, hstep, h₂⟩ := h.step hw hs hb ho hent
    obtain ⟨m₃, hloop, h₃⟩ := ih (by rw [hent, List.append_assoc]; rfl) h₂
    refine ⟨m₃, returns_forM_cons.mpr ⟨m₂, hstep, hloop⟩, ?_⟩
    rwa [List.append_assoc] at h₃

/-- An allocation with the pointers recorded for it. -/
theorem foldl_mark_eq (l : List MallocatEntry) (ps : List ℕ) :
    ps.foldl (fun l p => l.map (MallocatEntry.mark p)) l =
      l.map fun e => { e with ptrs := (ps.filter fun p => decide (e.Has p)).foldl CVector.append e.ptrs } := by
  induction ps generalizing l with
  | nil => exact (List.map_id l).symm
  | cons p ps ih =>
    rw [List.foldl_cons, ih, List.map_map]
    refine List.map_congr_left fun e _ => ?_
    have hhas : ∀ q, decide ((e.mark p).Has q) = decide (e.Has q) := fun q =>
      decide_eq_decide.mpr (e.has_mark p q)
    show MallocatEntry.mk _ _ _ _ = _
    simp only [hhas, (e.addr_mark p).1, (e.addr_mark p).2.1, (e.addr_mark p).2.2]
    unfold MallocatEntry.mark
    by_cases hp : e.Has p
    · rw [if_pos hp, List.filter_cons_of_pos (by simpa using hp)]
      rfl
    · rw [if_neg hp, List.filter_cons_of_neg (by simpa using hp)]

theorem items_foldl_append (v : CVector ℕ) (ps : List ℕ) :
    (ps.foldl CVector.append v).items = v.items ++ ps := by
  induction ps generalizing v with
  | nil => exact (List.append_nil _).symm
  | cons p ps ih => rw [List.foldl_cons, ih, CVector.items_append, List.append_assoc]; rfl

/-- **The classification is a partition.** Each location of the table is one entry of it. Those in a
registered allocation stay in the table and are recorded once, with the one allocation that has them; of the
others those in a data page leave the table and join `pptr_vec` once; the rest stays. -/
theorem classifyPointers_partition (hw : m.htPointerat.Wf) (hs : m.pm.HoldsTree sd mem t)
    (hb : ByMaddr mem t) (ho : InOrder m.mallocatTree.toList) :
    ∃ m', Returns classifyPointers m () m' ∧ m'.htPointerat.Wf ∧
      (m.htPointerat.entries.map HtableEntry.key).Nodup ∧
      m'.htPointerat.entries = (m.htPointerat.entries.filter fun x =>
        allocated m.mallocatTree.toList x.key || !inDataPage mem t x.key) ∧
      m'.mallocatTree.toList = (m.mallocatTree.toList.map fun e => { e with
        ptrs := ((m.htPointerat.entries.map HtableEntry.key).filter fun p =>
          decide (e.Has p)).foldl CVector.append e.ptrs }) ∧
      (∀ p, allocated m.mallocatTree.toList p = true →
        ∃! e, e ∈ m.mallocatTree.toList ∧ e.Has p) ∧
      m'.pptrVec.items = m.pptrVec.items ++ ((m.htPointerat.entries.map HtableEntry.key).filter
        fun p => !allocated m.mallocatTree.toList p && inDataPage mem t p) ∧
      ∃ ht tree vec, m' = { m with htPointerat := ht, mallocatTree := tree, pptrVec := vec } := by
  have h₀ : Classified m mem t [] m :=
    ⟨⟨_, _, _, rfl⟩, hw, rfl, fun i _ => by simp, rfl, (List.append_nil _).symm⟩
  obtain ⟨m', hr, h⟩ := h₀.loop hw hs hb ho (List.nil_append _).symm
  rw [List.nil_append] at h
  refine ⟨m', ?_, h.wf, hw.nodup, ?_, ?_, fun p hp => ?_, h.vec, h.same⟩
  · unfold classifyPointers htableFilterPointerat
    exact returns_bind.mpr ⟨m, m, returns_get.mpr ⟨rfl, rfl⟩, hr⟩
  · rw [HTable.entries_eq, HTable.entries_eq, h.length, Chains.items, Chains.items,
      List.filter_flatMap]
    refine List.flatMap_congr fun i hi => ?_
    have hi := List.mem_range.mp hi
    rw [h.chains i hi]
    refine List.filter_congr fun x hx => ?_
    have hmem : x ∈ m.htPointerat.entries := mem_entries.mpr ⟨i, hi, hx⟩
    unfold isPersistent
    simp [hmem]
  · rw [h.tree, foldl_mark_eq]
  · obtain ⟨e, he, hhas⟩ := allocated_eq_true.mp hp
    refine ⟨e, ⟨he, hhas⟩, fun e' h' => ?_⟩
    obtain ⟨he', hhas'⟩ := h'
    obtain ⟨l, r, hlr⟩ := List.append_of_mem he
    rw [hlr] at ho he'
    obtain ⟨hl, hr'⟩ := ho.not_has hhas
    rcases List.mem_append.mp he' with hm | hm
    · exact (hl e' hm hhas').elim
    · rcases List.mem_cons.mp hm with rfl | hm
      · rfl
      · exact (hr' e' hm hhas').elim

/-- A pointer in an allocation, one in a data page and one elsewhere. -/
def threePointers : Machine := { Machine.fresh (Env.standard .fixedMapper) with
  pm := pairState
  htPointerat := ((HTable.init.insert (2 ^ 20 + 8) (2 ^ 20 + 8)).insert (2 ^ 40 + 4 * pageSize - 8)
    (2 ^ 40 + 4 * pageSize - 8)).insert (2 ^ 20 + 64) (2 ^ 20 + 64)
  mallocatTree := node leaf (mallocatEntryAlloc (2 ^ 20) 64) leaf }

/-- With an address at the end of a data page, and one behind an allocation. -/
theorem classifyPointers_partition_threePointers : ∃ m', Returns classifyPointers threePointers () m' ∧
    m'.pptrVec.items = [2 ^ 40 + 4 * pageSize - 8] ∧
    m'.mallocatTree.toList.map (·.ptrs.items) = [[2 ^ 20 + 8]] := by
  have hwf : threePointers.htPointerat.Wf := by
    obtain ⟨_, _, -, rfl, h₁, -⟩ := HTable.init_wf.htableInsert (2 ^ 20 + 8) (2 ^ 20 + 8)
    obtain ⟨_, _, -, rfl, h₂, -⟩ := h₁.htableInsert (2 ^ 40 + 4 * pageSize - 8)
      (2 ^ 40 + 4 * pageSize - 8)
    obtain ⟨_, _, -, rfl, h₃, -⟩ := h₂.htableInsert (2 ^ 20 + 64) (2 ^ 20 + 64)
    exact h₃
  obtain ⟨m', hr, -, -, -, htree, -, hvec, -⟩ := classifyPointers_partition hwf holdsTree_pair
    (usedTree_pair.byMaddr fun _ => rfl) (show InOrder [_] from List.pairwise_singleton ..)
  refine ⟨m', hr, hvec.trans ?_, ?_⟩
  · decide +kernel
  · rw [htree]
    decide +kernel

end LibPM

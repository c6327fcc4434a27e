import Mathlib.Data.List.Nodup
import LibPM.Allocator.Fixed

/-!
# The non-linear mapper

Closed forms for nlmapper.c in a session that started on an empty file: every page of the mapping is
either on the free list or in the tree, and its node knows the page of the file behind it.
-/

namespace LibPM

open Recorded Recorded.Prog

/-! ## The free list -/

theorem listInsertAfter_concat {α : Type} {isLast : α → Bool} {p x : α} {l : List α}
    (hl : ∀ y ∈ l, isLast y = false) (hx : isLast x = true) :
    listInsertAfter isLast p (l ++ [x]) = .ok (l ++ [x, p]) := by
  induction l with
  | nil => simp [listInsertAfter, hx]
  | cons y l ih =>
    have hy : isLast y = false := hl y (by simp)
    rw [List.cons_append, listInsertAfter, ih fun z hz => hl z (by simp [hz])]
    simp [hy, Functor.map, Except.map]

/-- A node on the free list. -/
def NlmPage.freed (p : NlmPage) : NlmPage := { p with isFree := true, isUse := false }

/-- A node of the tree. -/
def NlmPage.used (p : NlmPage) : NlmPage := { p with isFree := false, isUse := true }

@[simp] theorem NlmPage.used_addr (p : NlmPage) : p.used.addr = p.addr := rfl
@[simp] theorem NlmPage.freed_addr (p : NlmPage) : p.freed.addr = p.addr := rfl
@[simp] theorem NlmPage.freed_pgoff (p : NlmPage) : p.freed.pgoff = p.pgoff := rfl

/-- A page joins the end of the free list. -/
theorem listFree_eq {nlm : Nlm} {p : NlmPage} (hp : ∀ q ∈ nlm.freeHead, q.addr ≠ p.addr)
    (hnd : (nlm.freeHead.map (·.addr)).Nodup) (hsize : nlm.freeSize = nlm.freeHead.length)
    (hlast : nlm.freeLast = nlm.freeHead.getLast?.map (·.addr)) :
    nlm.listFree p = .ok { nlm with
      freeHead := nlm.freeHead ++ [p.freed]
      freeLast := some p.addr
      freeSize := nlm.freeSize + 1 } := by
  have hmap : (nlm.freeHead ++ [p]).map (fun q =>
      if q.addr = p.addr then { q with isFree := true, isUse := false } else q) =
      nlm.freeHead ++ [p.freed] := by
    rw [List.map_append, List.map_singleton, if_pos rfl]
    congr 1
    conv_rhs => rw [← List.map_id nlm.freeHead]
    exact List.map_congr_left fun q hq => if_neg (hp q hq)
  unfold Nlm.listFree
  rcases List.eq_nil_or_concat nlm.freeHead with hnil | ⟨init, l, hl⟩
  · rw [hnil] at hsize hlast hmap
    rw [if_pos (by simpa using hsize), hlast, hnil, ← hmap]
    rfl
  · rw [List.concat_eq_append] at hl
    have hne : nlm.freeSize ≠ 0 := by
      rw [hsize, hl]
      simp
    have hins : listInsertAfter (·.addr == l.addr) p nlm.freeHead = .ok (nlm.freeHead ++ [p]) := by
      rw [hl, listInsertAfter_concat, List.append_assoc]
      · rfl
      · intro y hy
        rw [hl, List.map_append, List.nodup_append] at hnd
        have := hnd.2.2 y.addr (List.mem_map_of_mem hy) l.addr (by simp)
        simpa using this
      · simp
    rw [if_neg hne, hlast, hl, List.getLast?_append, List.getLast?_singleton, ← hl, ← hmap]
    show (listInsertAfter (·.addr == l.addr) p nlm.freeHead >>= _) = _
    rw [hins]
    rfl

/-! ## Growing the file -/

/-- The node of the new page `i`. -/
def Nlm.newPage (nlm : Nlm) (i : ℕ) : NlmPage :=
  ⟨nlm.prevFileSize + i * pageSize, nlm.startAddr + (nlm.prevFileSize + i * pageSize), true, false,
    false⟩

/-- The free list holds the first `k` new pages. -/
def Nlm.withPages (nlm : Nlm) (k : ℕ) : Nlm :=
  { nlm with
    pgcnt := nlm.pgcnt + k
    freeHead := (List.range k).map nlm.newPage
    freeSize := k
    freeLast := ((List.range k).map nlm.newPage).getLast?.map (·.addr) }

theorem newPage_injective (nlm : Nlm) {i j : ℕ} (h : (nlm.newPage i).addr = (nlm.newPage j).addr) :
    i = j := by
  have hij : i * pageSize = j * pageSize := by
    unfold Nlm.newPage at h
    dsimp only at h
    omega
  exact Nat.eq_of_mul_eq_mul_right pageSize_pos hij

theorem nodup_newPages (nlm : Nlm) (k : ℕ) :
    (((List.range k).map nlm.newPage).map (·.addr)).Nodup := by
  rw [List.map_map]
  exact List.nodup_range.map fun _ _ h => newPage_injective nlm h

theorem addPage_withPages_nlm (nlm : Nlm) (k : ℕ) :
    (nlm.withPages k).addPage k = .ok (nlm.withPages (k + 1)) := by
  unfold Nlm.addPage
  dsimp only
  rw [listFree_eq]
  · unfold Nlm.withPages
    simp only [List.range_succ, List.map_append, List.map_singleton, List.getLast?_append,
      List.getLast?_singleton, Option.some_or, Option.map_some, Except.ok.injEq]
    rfl
  · intro q hq
    obtain ⟨i, hi, rfl⟩ := List.mem_map.mp hq
    intro h
    have := newPage_injective nlm (j := k) h
    rw [List.mem_range] at hi
    omega
  · exact nodup_newPages nlm k
  · unfold Nlm.withPages
    simp
  · rfl

theorem addPagesToFreeList_eq {nlm : Nlm} (hhead : nlm.freeHead = []) (hsize : nlm.freeSize = 0)
    (hlast : nlm.freeLast = none) :
    nlm.addPagesToFreeList =
      .ok (nlm.withPages ((nlm.fileSize - nlm.prevFileSize) / pageSize)) := by
  unfold Nlm.addPagesToFreeList
  have h0 : nlm = nlm.withPages 0 := by
    unfold Nlm.withPages
    cases nlm
    simp_all
  generalize (nlm.fileSize - nlm.prevFileSize) / pageSize = k
  have : (List.range k).foldlM Nlm.addPage (nlm.withPages 0) = .ok (nlm.withPages k) := by
    induction k with
    | zero => rfl
    | succ k ih =>
      rw [List.range_succ, List.foldlM_append, ih]
      show (nlm.withPages k).addPage k >>= _ = _
      rw [addPage_withPages_nlm]
      rfl
  rwa [← h0] at this

/-! ## The mapper of a session -/

/-- The addresses of `n` pages from `start` on. -/
def pageAddrs (start n : ℕ) : List ℕ := (List.range n).map (start + · * pageSize)

/-- The mapper of a session on `n` pages, mapped by `vmap`. -/
structure Nlm.Good (nlm : Nlm) (vmap : ℕ → ℕ) (n : ℕ) : Prop where
  pos : 0 < n
  size : nlm.fileSize = n * pageSize
  start : nlm.startAddr ≠ 0
  perm : ((nlm.freeHead ++ nlm.root).map (·.addr)).Perm (pageAddrs nlm.startAddr n)
  pgoff : ∀ p ∈ nlm.freeHead ++ nlm.root, ∀ k < n, p.addr = nlm.startAddr + k * pageSize →
    p.pgoff = vmap k * pageSize
  isFree : ∀ p ∈ nlm.freeHead, p.isFree = true
  freeSize : nlm.freeSize = nlm.freeHead.length
  freeLast : nlm.freeLast = nlm.freeHead.getLast?.map (·.addr)

theorem addr_injective {start i j : ℕ} (h : start + i * pageSize = start + j * pageSize) : i = j :=
  Nat.eq_of_mul_eq_mul_right pageSize_pos (Nat.add_left_cancel h)

theorem nodup_pageAddrs (start n : ℕ) : (pageAddrs start n).Nodup :=
  List.nodup_range.map fun _ _ h => addr_injective h

theorem mem_pageAddrs {start n a : ℕ} :
    a ∈ pageAddrs start n ↔ ∃ k < n, a = start + k * pageSize := by
  unfold pageAddrs
  simp [eq_comm]

namespace Nlm.Good

variable {nlm nlm' : Nlm} {vmap : ℕ → ℕ} {n : ℕ}

theorem nodup (hg : nlm.Good vmap n) : ((nlm.freeHead ++ nlm.root).map (·.addr)).Nodup :=
  hg.perm.nodup_iff.mpr (nodup_pageAddrs _ _)

theorem exists_addr (hg : nlm.Good vmap n) {p : NlmPage} (hp : p ∈ nlm.freeHead ++ nlm.root) :
    ∃ k < n, p.addr = nlm.startAddr + k * pageSize :=
  mem_pageAddrs.mp (hg.perm.subset (List.mem_map_of_mem hp))

/-- Two nodes with one address are the same. -/
theorem eq_of_addr (hg : nlm.Good vmap n) {p q : NlmPage} (hp : p ∈ nlm.freeHead ++ nlm.root)
    (hq : q ∈ nlm.freeHead ++ nlm.root) (h : p.addr = q.addr) : p = q :=
  List.inj_on_of_nodup_map hg.nodup hp hq h

theorem freeHead_nodup (hg : nlm.Good vmap n) : (nlm.freeHead.map (·.addr)).Nodup := by
  have := hg.nodup
  rw [List.map_append] at this
  exact (List.nodup_append.mp this).1

theorem disjoint (hg : nlm.Good vmap n) {p q : NlmPage} (hp : p ∈ nlm.freeHead)
    (hq : q ∈ nlm.root) : p.addr ≠ q.addr := by
  have := hg.nodup
  rw [List.map_append] at this
  exact (List.nodup_append.mp this).2.2 _ (List.mem_map_of_mem hp) _ (List.mem_map_of_mem hq)

theorem usePage_eq (hg : nlm.Good vmap n) {p : NlmPage} (h : nlm.usePage = .ok (p, nlm')) :
    ∃ q rest, nlm.freeHead = q :: rest ∧ p = q.used ∧ nlm' = { nlm with
      freeHead := rest
      freeSize := nlm.freeSize - 1
      freeLast := if nlm.freeSize - 1 = 0 then none else nlm.freeLast
      root := q.used :: nlm.root } := by
  unfold Nlm.usePage at h
  cases hhead : nlm.freeHead with
  | nil => rw [hhead] at h; cases h
  | cons q rest =>
    rw [hhead] at h
    dsimp only at h
    rw [if_neg (by rw [hg.isFree q (by simp [hhead])]; simp)] at h
    have hroot : nlm.root.any (·.addr == q.addr) = false := by
      rw [List.any_eq_false]
      intro r hr
      have := hg.disjoint (p := q) (by simp [hhead]) hr
      simpa using Ne.symm this
    simp only [hroot, Bool.false_eq_true, if_false] at h
    cases h
    exact ⟨q, rest, rfl, rfl, rfl⟩

/-- The head of the free list moves to the tree. -/
theorem usePage (hg : nlm.Good vmap n) {p : NlmPage} (h : nlm.usePage = .ok (p, nlm')) :
    ∃ q rest, nlm.freeHead = q :: rest ∧ nlm'.freeHead = rest ∧ q.addr = p.addr ∧
      p ∈ nlm'.root ∧ nlm'.Good vmap n ∧ nlm'.startAddr = nlm.startAddr ∧
      nlm'.fileSize = nlm.fileSize := by
  obtain ⟨q, rest, hhead, rfl, rfl⟩ := hg.usePage_eq h
  refine ⟨q, rest, hhead, rfl, rfl, List.mem_cons_self, ?_, rfl, rfl⟩
  have hperm : (rest ++ q.used :: nlm.root).map (·.addr) |>.Perm
      ((nlm.freeHead ++ nlm.root).map (·.addr)) := by
    rw [hhead]
    simp only [List.map_append, List.map_cons, List.cons_append]
    exact List.perm_middle
  refine ⟨hg.pos, hg.size, hg.start, hperm.trans hg.perm, ?_, ?_, ?_, ?_⟩
  · intro r hr k hk haddr
    rw [List.mem_append, List.mem_cons] at hr
    rcases hr with hr | rfl | hr
    · exact hg.pgoff r (by simp [hhead, hr]) k hk haddr
    · exact hg.pgoff q (by simp [hhead]) k hk haddr
    · exact hg.pgoff r (by simp [hr]) k hk haddr
  · intro r hr
    exact hg.isFree r (by rw [hhead]; exact List.mem_cons_of_mem _ hr)
  · have := hg.freeSize
    rw [hhead, List.length_cons] at this
    show nlm.freeSize - 1 = rest.length
    omega
  · have hfs := hg.freeSize
    have hfl := hg.freeLast
    rw [hhead] at hfs hfl
    show (if nlm.freeSize - 1 = 0 then none else nlm.freeLast) = _
    cases rest with
    | nil => simp [hfs]
    | cons y rest => simp [hfs, hfl]

theorem freePage_eq (hg : nlm.Good vmap n) {p : NlmPage} (hp : p ∈ nlm.root)
    (h : nlm.freePage p = .ok nlm') : nlm' = { nlm with
      freeHead := nlm.freeHead ++ [p.freed]
      freeSize := nlm.freeSize + 1
      freeLast := some p.addr
      root := nlm.root.filter (·.addr != p.addr) } := by
  unfold Nlm.freePage at h
  split_ifs at h with huse
  have heq : ({ nlm with root := nlm.root.filter (·.addr != p.addr) } : Nlm).listFree p = _ :=
    listFree_eq (fun q hq => hg.disjoint hq hp) hg.freeHead_nodup hg.freeSize hg.freeLast
  rw [heq] at h
  cases h
  rfl

/-- A node of the tree moves to the free list. -/
theorem freePage (hg : nlm.Good vmap n) {p : NlmPage} (hp : p ∈ nlm.root)
    (h : nlm.freePage p = .ok nlm') :
    nlm'.freeHead = nlm.freeHead ++ [p.freed] ∧ nlm'.Good vmap n ∧
      nlm'.startAddr = nlm.startAddr ∧ nlm'.fileSize = nlm.fileSize := by
  obtain rfl := hg.freePage_eq hp h
  refine ⟨rfl, ?_, rfl, rfl⟩
  have hrootnd : (nlm.root.map (·.addr)).Nodup := by
    have := hg.nodup
    rw [List.map_append] at this
    exact (List.nodup_append.mp this).2.1
  have hroot : (nlm.root.map (·.addr)).Perm
      (p.addr :: (nlm.root.filter (·.addr != p.addr)).map (·.addr)) := by
    have hf : (nlm.root.filter (·.addr != p.addr)).map (·.addr) =
        (nlm.root.map (·.addr)).erase p.addr := by
      rw [hrootnd.erase_eq_filter, List.filter_map]
      rfl
    rw [hf]
    exact List.perm_cons_erase (List.mem_map_of_mem hp)
  refine ⟨hg.pos, hg.size, hg.start, ?_, ?_, ?_, ?_, ?_⟩
  · refine List.Perm.trans ?_ hg.perm
    simp only [List.map_append, List.map_cons, NlmPage.freed_addr, List.append_assoc,
      List.singleton_append]
    exact hroot.symm.append_left _
  · intro r hr k hk haddr
    simp only [List.mem_append, List.mem_filter, List.mem_singleton] at hr
    rcases hr with (hr | rfl) | hr
    · exact hg.pgoff r (by simp [hr]) k hk haddr
    · exact hg.pgoff p (by simp [hp]) k hk haddr
    · exact hg.pgoff r (by simp [hr.1]) k hk haddr
  · intro r hr
    rcases List.mem_append.mp hr with hr | hr
    · exact hg.isFree r hr
    · rw [List.mem_singleton.mp hr]
      rfl
  · simp [hg.freeSize]
  · simp

end Nlm.Good

/-! ## Mapping the new part of the file -/

/-- The mapping once the pages from `n` on were added. -/
def grownVmap (vmap : ℕ → ℕ) (n i : ℕ) : ℕ := if i < n then vmap i else i

def grownProt (prot : ℕ → Prot) (n i : ℕ) : Prot := if i < n then prot i else defaultMappingProt

/-- The mapper after the file doubled. -/
def Nlm.doubled (nlm : Nlm) (n : ℕ) : Nlm :=
  { Nlm.withPages { nlm with
      prevFileSize := nlm.fileSize
      fileSize := nlm.fileSize * 2
      isFullyMapped := false } n with isFullyMapped := true }

theorem mapAppending_again {nlm nlm' : Nlm} {s s' : Pm} {n : ℕ}
    (h : Returns (mapAppending nlm) s nlm' s') (hstart : nlm.startAddr ≠ 0)
    (hhead : nlm.freeHead = []) (hfs : nlm.freeSize = 0) (hlast : nlm.freeLast = none)
    (hprev : nlm.prevFileSize = n * pageSize) (hsize : nlm.fileSize = n * pageSize * 2) :
    nlm' = { nlm.withPages n with isFullyMapped := true } ∧
      nlm.startAddr + nlm.fileSize ≤ s.mapLimit ∧
      s' = { s with prot := grownProt s.prot n, vmap := grownVmap s.vmap n } := by
  have hnew : (nlm.fileSize - nlm.prevFileSize) / pageSize = n := by
    rw [hprev, hsize, Nat.mul_two, Nat.add_sub_cancel, Nat.mul_div_cancel _ pageSize_pos]
  have hold : bytes2pgs nlm.prevFileSize = n := by
    unfold bytes2pgs
    rw [hprev, Nat.mul_div_cancel _ pageSize_pos]
  unfold mapAppending at h
  simp only [returns_bind, returns_require, returns_get, returns_mmapAt, returns_modify,
    returns_ofResult, returns_pure, if_neg hstart] at h
  obtain ⟨_, _, ⟨-, rfl⟩, _, _, ⟨rfl, rfl⟩, _, _, ⟨-, hle, rfl⟩, _, _, rfl, n₂, _, ⟨h₂, rfl⟩, rfl,
    rfl⟩ := h
  rw [show ({ nlm with startAddr := nlm.startAddr } : Nlm) = nlm from rfl,
    addPagesToFreeList_eq hhead hfs hlast, hnew] at h₂
  cases h₂
  refine ⟨rfl, by omega, ?_⟩
  rw [hold]
  rfl

namespace Nlm.Good

variable {nlm : Nlm} {vmap : ℕ → ℕ} {n : ℕ}

theorem eq_nil (hg : nlm.Good vmap n) (h0 : nlm.freeSize = 0) :
    nlm.freeHead = [] ∧ nlm.freeLast = none := by
  have hhead : nlm.freeHead = [] := by
    rw [← List.length_eq_zero_iff, ← hg.freeSize, h0]
  refine ⟨hhead, ?_⟩
  rw [hg.freeLast, hhead]
  rfl

theorem doubled (hg : nlm.Good vmap n) (h0 : nlm.freeSize = 0) :
    (nlm.doubled n).Good (grownVmap vmap n) (2 * n) := by
  obtain ⟨hhead, -⟩ := hg.eq_nil h0
  have hroot : (nlm.root.map (·.addr)).Perm (pageAddrs nlm.startAddr n) := by
    have := hg.perm
    rwa [hhead, List.nil_append] at this
  have hnew : ((nlm.doubled n).freeHead.map (·.addr)) =
      (List.range' n n).map (nlm.startAddr + · * pageSize) := by
    unfold Nlm.doubled Nlm.withPages
    rw [List.map_map, List.range'_eq_map_range, List.map_map]
    refine List.map_congr_left fun i _ => ?_
    unfold Nlm.newPage
    simp only [Function.comp_apply, hg.size, Nat.add_mul]
  refine ⟨by have := hg.pos; omega, ?_, hg.start, ?_, ?_, ?_, ?_, rfl⟩
  · show nlm.fileSize * 2 = _
    rw [hg.size, Nat.mul_comm, Nat.mul_assoc]
  · rw [List.map_append, hnew]
    refine (List.perm_append_comm.trans (hroot.append_right _)).trans ?_
    have hrange : List.range n ++ List.range' n n = List.range (2 * n) := by
      have := List.range'_append_1 (s := 0) (m := n) (n := n)
      rwa [Nat.zero_add, ← Nat.two_mul, ← List.range_eq_range', ← List.range_eq_range'] at this
    unfold pageAddrs
    rw [← List.map_append, hrange]
    exact List.Perm.refl _
  · intro p hp k hk haddr
    unfold grownVmap
    rcases List.mem_append.mp hp with hp | hp
    · obtain ⟨i, hi, rfl⟩ := List.mem_map.mp hp
      unfold Nlm.newPage at haddr ⊢
      dsimp only at haddr ⊢
      have hki : k = n + i := by
        refine @addr_injective nlm.startAddr _ _ (haddr.symm.trans ?_)
        rw [hg.size, Nat.add_mul]
      rw [if_neg (by omega), hki, hg.size, Nat.add_mul]
    · obtain ⟨j, hj, hj'⟩ := hg.exists_addr (List.mem_append_right _ hp)
      obtain rfl : j = k := addr_injective (hj'.symm.trans haddr)
      rw [if_pos hj]
      exact hg.pgoff p (List.mem_append_right _ hp) j hj hj'
  · intro p hp
    obtain ⟨i, -, rfl⟩ := List.mem_map.mp hp
    rfl
  · show n = _
    unfold Nlm.doubled Nlm.withPages
    simp

end Nlm.Good

/-! ## Swapping two pages -/

/-- The mapping with the pages behind `x` and `y` exchanged. -/
def swapVmap (vmap : ℕ → ℕ) (x y : ℕ) : ℕ → ℕ :=
  Function.update (Function.update vmap x (vmap y)) y (vmap x)

theorem swapVmap_self (vmap : ℕ → ℕ) (x : ℕ) : swapVmap vmap x x = vmap := by
  unfold swapVmap
  rw [Function.update_idem, Function.update_eq_self]

theorem swapVmap_left (vmap : ℕ → ℕ) (x y : ℕ) : swapVmap vmap x y x = vmap y := by
  unfold swapVmap
  by_cases h : x = y
  · rw [h, Function.update_self]
  · rw [Function.update_of_ne h, Function.update_self]

theorem swapVmap_right (vmap : ℕ → ℕ) (x y : ℕ) : swapVmap vmap x y y = vmap x := by
  unfold swapVmap
  rw [Function.update_self]

theorem swapVmap_of_ne (vmap : ℕ → ℕ) {x y k : ℕ} (hx : k ≠ x) (hy : k ≠ y) :
    swapVmap vmap x y k = vmap k := by
  unfold swapVmap
  rw [Function.update_of_ne hy, Function.update_of_ne hx]

theorem Nlm.Good.swapped {nlm : Nlm} {vmap : ℕ → ℕ} {n x y : ℕ} (hg : nlm.Good vmap n) (hx : x < n)
    (hy : y < n) (hxr : nlm.startAddr + x * pageSize ∈ nlm.root.map (·.addr))
    (hyr : nlm.startAddr + y * pageSize ∈ nlm.root.map (·.addr)) :
    (nlm.updateSwappedPages (nlm.startAddr + x * pageSize) (nlm.startAddr + y * pageSize)).Good
        (swapVmap vmap x y) n ∧
      (nlm.updateSwappedPages (nlm.startAddr + x * pageSize)
        (nlm.startAddr + y * pageSize)).freeHead = nlm.freeHead ∧
      (nlm.updateSwappedPages (nlm.startAddr + x * pageSize)
        (nlm.startAddr + y * pageSize)).startAddr = nlm.startAddr := by
  have hfind : ∀ a, a ∈ nlm.root.map (·.addr) →
      ∃ q ∈ nlm.root, nlm.root.find? (·.addr == a) = some q ∧ q.addr = a := by
    intro a ha
    obtain ⟨q, hq, hqa⟩ := List.mem_map.mp ha
    cases hf : nlm.root.find? (·.addr == a) with
    | none => simpa [hqa] using List.find?_eq_none.mp hf q hq
    | some r =>
      have hr : r.addr = a := by simpa using List.find?_some hf
      exact ⟨r, List.mem_of_find?_eq_some hf, rfl, hr⟩
  obtain ⟨px, hpx, hfx, hax⟩ := hfind _ hxr
  obtain ⟨py, hpy, hfy, hay⟩ := hfind _ hyr
  have hgx := hg.pgoff px (List.mem_append_right _ hpx) x hx hax
  have hgy := hg.pgoff py (List.mem_append_right _ hpy) y hy hay
  unfold Nlm.updateSwappedPages
  rw [hfx, hfy]
  dsimp only
  refine ⟨⟨hg.pos, hg.size, hg.start, ?_, ?_, hg.isFree, hg.freeSize, hg.freeLast⟩, rfl, rfl⟩
  · -- no address changes
    have haddr : ∀ (f : NlmPage → NlmPage), (∀ q, (f q).addr = q.addr) →
        (nlm.root.map f).map (·.addr) = nlm.root.map (·.addr) := by
      intro f hf
      rw [List.map_map]
      exact List.map_congr_left fun q _ => hf q
    have := hg.perm
    rw [List.map_append] at this ⊢
    rw [haddr]
    · exact this
    · intro q
      split_ifs with h₁ h₂
      · exact hax.trans h₁.symm
      · exact hay.trans h₂.symm
      · rfl
  · intro q hq k hk haddr
    rcases List.mem_append.mp hq with hq | hq
    · have hne : ∀ r ∈ nlm.root, q.addr ≠ r.addr := fun r hr => hg.disjoint hq hr
      have hkx : k ≠ x := by
        rintro rfl
        exact hne px hpx (haddr.trans hax.symm)
      have hky : k ≠ y := by
        rintro rfl
        exact hne py hpy (haddr.trans hay.symm)
      rw [swapVmap_of_ne _ hkx hky]
      exact hg.pgoff q (List.mem_append_left _ hq) k hk haddr
    · obtain ⟨r, hr, rfl⟩ := List.mem_map.mp hq
      dsimp only at haddr ⊢
      split_ifs at haddr ⊢ with h₁ h₂
      · obtain rfl : x = k := addr_injective (hax.symm.trans haddr)
        rw [swapVmap_left]
        exact hgy
      · obtain rfl : y = k := addr_injective (hay.symm.trans haddr)
        rw [swapVmap_right]
        exact hgx
      · have hkx : k ≠ x := by
          rintro rfl
          exact h₁ haddr
        have hky : k ≠ y := by
          rintro rfl
          exact h₂ haddr
        rw [swapVmap_of_ne _ hkx hky]
        exact hg.pgoff r (List.mem_append_right _ hr) k hk haddr

end LibPM

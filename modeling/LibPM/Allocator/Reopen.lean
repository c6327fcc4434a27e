import LibPM.Model.Cont
import LibPM.Allocator.Fixed

/-!
# The page allocator of a reopened file

Neither mapper finds out which pages of an existing file are in use. After `page_allocator_init`
on such a file the fixed mapper has an index without a single written slot and an empty free list;
the non-linear mapper has every page on its free list, the header page first, and none in use. So
the first request already goes wrong, whatever it is.
-/

namespace LibPM

open Recorded Recorded.Prog

/-! ## What initialisation leaves -/

/-- The fixed mapper after it was opened on a file that is not empty. -/
structure FixedMapper.Blank (fm : FixedMapper) : Prop where
  index : ∀ i, fm.index i = none
  freeSize : fm.freeSize = 0
  freeHead : fm.freeHead = []
  start : fm.startAddr ≠ 0
  size : pageSize ≤ fm.fileSize

/-- The non-linear mapper after it was opened: the header page is the next one to be handed out,
and no page is in use. -/
structure Nlm.Blank (nlm : Nlm) : Prop where
  head : ∃ p rest, nlm.freeHead = p :: rest ∧ p.pgoff = 0 ∧ p.addr = nlm.startAddr
  freeSize : nlm.freeSize ≠ 0
  root : nlm.root = []

theorem blank_fixedMapperInit {size : ℕ} {s s' : Pm} {fm : FixedMapper}
    (hlen : pageSize ≤ s.fileLen) (h : Returns (fixedMapperInit size) s fm s') : fm.Blank := by
  have hpos : s.fileLen ≠ 0 := by have := pageSize_pos; omega
  unfold fixedMapperInit at h
  simp only [returns_bind, returns_get] at h
  obtain ⟨_, _, ⟨rfl, rfl⟩, fm₁, _, h₁, h⟩ := h
  rw [if_neg hpos, returns_pure] at h₁
  obtain ⟨rfl, rfl⟩ := h₁
  obtain ⟨rfl, hne, -, -⟩ := returns_mapFile_first rfl h
  exact ⟨fun _ => rfl, rfl, rfl, hne, hlen⟩

/-- An insertion behind another element leaves the first element first. -/
theorem head_listInsertAfter {α : Type} {isLast : α → Bool} {p y : α} {l r : List α}
    (h : listInsertAfter isLast p (y :: l) = .ok r) : ∃ r', r = y :: r' := by
  unfold listInsertAfter at h
  split_ifs at h with hy
  · cases h
    exact ⟨_, rfl⟩
  · cases hr : listInsertAfter isLast p l with
    | error e => rw [hr] at h; cases h
    | ok r' => rw [hr] at h; cases h; exact ⟨r', rfl⟩

/-- What a page appended to the free list leaves alone. -/
theorem listFree_frame {nlm nlm' : Nlm} {p : NlmPage} (h : nlm.listFree p = .ok nlm') :
    nlm'.freeSize = nlm.freeSize + 1 ∧ nlm'.root = nlm.root ∧
      nlm'.startAddr = nlm.startAddr ∧ nlm'.fileSize = nlm.fileSize := by
  unfold Nlm.listFree at h
  rw [bind_eq_ok] at h
  obtain ⟨head, -, h⟩ := h
  cases h
  exact ⟨rfl, rfl, rfl, rfl⟩

/-- The first page of an empty free list is its head. -/
theorem listFree_head_of_empty {nlm nlm' : Nlm} {p : NlmPage} (h : nlm.listFree p = .ok nlm')
    (h0 : nlm.freeSize = 0) :
    ∃ q rest, nlm'.freeHead = q :: rest ∧ q.pgoff = p.pgoff ∧ q.addr = p.addr := by
  unfold Nlm.listFree at h
  rw [bind_eq_ok, if_pos h0] at h
  obtain ⟨head, hhead, h⟩ := h
  cases h
  split_ifs at hhead with hlast
  cases hhead
  refine ⟨_, _, rfl, ?_, ?_⟩ <;> dsimp only <;> split_ifs <;> rfl

/-- A page appended to a free list does not become its head. -/
theorem listFree_head {nlm nlm' : Nlm} {p q : NlmPage} {rest : List NlmPage}
    (h : nlm.listFree p = .ok nlm') (h0 : nlm.freeSize ≠ 0) (hq : nlm.freeHead = q :: rest) :
    ∃ q' rest', nlm'.freeHead = q' :: rest' ∧ q'.pgoff = q.pgoff ∧ q'.addr = q.addr := by
  unfold Nlm.listFree at h
  rw [bind_eq_ok, if_neg h0] at h
  obtain ⟨head, hhead, h⟩ := h
  cases h
  cases hl : nlm.freeLast with
  | none => rw [hl] at hhead; cases hhead
  | some l =>
    rw [hl, hq] at hhead
    obtain ⟨r', rfl⟩ := head_listInsertAfter hhead
    refine ⟨_, _, rfl, ?_, ?_⟩ <;> dsimp only <;> split_ifs <;> rfl

/-- Every page of a newly mapped file joins the free list; the first one is its head. -/
theorem blank_addPagesToFreeList {nlm nlm' : Nlm} (h : nlm.addPagesToFreeList = .ok nlm')
    (hfree : nlm.freeSize = 0) (hroot : nlm.root = []) (hprev : nlm.prevFileSize = 0)
    (hsize : pageSize ≤ nlm.fileSize) : nlm'.Blank := by
  unfold Nlm.addPagesToFreeList at h
  obtain ⟨k, hk⟩ : ∃ k, (nlm.fileSize - nlm.prevFileSize) / pageSize = k + 1 := by
    have : 1 ≤ (nlm.fileSize - nlm.prevFileSize) / pageSize := by
      rw [Nat.le_div_iff_mul_le (by decide)]
      omega
    exact ⟨_, (Nat.sub_add_cancel this).symm⟩
  rw [hk, List.range_succ_eq_map, List.foldlM_cons, bind_eq_ok] at h
  obtain ⟨n₁, h₁, h⟩ := h
  have hb₁ : n₁.Blank := by
    obtain ⟨hs, hr, hst, -⟩ := listFree_frame h₁
    obtain ⟨q, rest, hq, hoff, haddr⟩ := listFree_head_of_empty h₁ hfree
    refine ⟨⟨q, rest, hq, by simp [hoff, hprev], ?_⟩, by omega, hr.trans hroot⟩
    rw [haddr, hst]
    simp [hprev]
  refine foldlM_induct (P := Nlm.Blank) ?_ hb₁ h
  rintro b a b' - hb hstep
  obtain ⟨hs, hr, hst, -⟩ := listFree_frame hstep
  obtain ⟨q, rest, hq, h0, haddr⟩ := hb.head
  obtain ⟨q', rest', hq', h0', haddr'⟩ := listFree_head hstep hb.freeSize hq
  refine ⟨⟨q', rest', hq', h0'.trans h0, ?_⟩, by omega, hr.trans hb.root⟩
  rw [haddr', haddr, hst]

theorem frame_addPagesToFreeList {nlm nlm' : Nlm} (h : nlm.addPagesToFreeList = .ok nlm') :
    nlm'.startAddr = nlm.startAddr ∧ nlm'.fileSize = nlm.fileSize := by
  refine foldlM_induct (P := fun b => b.startAddr = nlm.startAddr ∧ b.fileSize = nlm.fileSize) ?_
    ⟨rfl, rfl⟩ h
  rintro b a b' - ⟨hst, hsz⟩ hstep
  obtain ⟨-, -, hst', hsz'⟩ := listFree_frame hstep
  exact ⟨hst'.trans hst, hsz'.trans hsz⟩

/-- The size of the file after an initialisation that gives a new file `size` bytes. -/
def openedSize (size fileLen : ℕ) : ℕ := if fileLen = 0 then size else fileLen

/-- `nlm_init` maps the whole file, old or new, for reading, and puts its pages on the list. -/
theorem returns_nlmInit {size : ℕ} {s s' : Pm} {nlm : Nlm} (h : Returns (nlmInit size) s nlm s') :
    nlm.startAddr = s.mapHint ∧ nlm.fileSize = openedSize size s.fileLen ∧
      (pageSize ≤ openedSize size s.fileLen → nlm.Blank) ∧
      ∃ len, s' = { s with fileLen := len, prot := fun _ => defaultMappingProt, vmap := id } := by
  unfold nlmInit at h
  simp only [returns_bind, returns_get] at h
  obtain ⟨_, _, ⟨rfl, rfl⟩, nlm₁, s₁, h₁, h⟩ := h
  obtain ⟨len, hnlm, hs₁⟩ : ∃ len, nlm₁ = ⟨openedSize size s.fileLen, 0, 0, false, false, 0, 0, [],
      none, []⟩ ∧ s₁ = { s with fileLen := len } := by
    unfold openedSize
    by_cases h0 : s.fileLen = 0
    · rw [if_pos h0] at h₁
      unfold nlmGrowFile posixFallocate at h₁
      simp only [returns_bind, returns_require, returns_modify, returns_pure] at h₁
      obtain ⟨_, _, ⟨-, rfl⟩, _, _, rfl, rfl, rfl⟩ := h₁
      rw [if_pos h0, h0]
      exact ⟨_, rfl, rfl⟩
    · rw [if_neg h0, returns_pure] at h₁
      obtain ⟨rfl, rfl⟩ := h₁
      rw [if_neg h0]
      exact ⟨s.fileLen, rfl, rfl⟩
  subst hnlm hs₁
  unfold mapAppending at h
  simp only [returns_bind, returns_require, returns_get, returns_mmapAt, returns_modify,
    returns_ofResult, returns_pure] at h
  obtain ⟨_, _, ⟨-, rfl⟩, _, _, ⟨rfl, rfl⟩, _, _, ⟨-, -, rfl⟩, _, _, rfl, n₂, _, ⟨h₂, rfl⟩, rfl, rfl⟩ := h
  obtain ⟨hst, hsz⟩ := frame_addPagesToFreeList h₂
  refine ⟨hst, hsz, fun hle => ?_, len, ?_⟩
  · have hb := blank_addPagesToFreeList h₂ rfl rfl rfl hle
    exact ⟨hb.head, hb.freeSize, hb.root⟩
  · simp [bytes2pgs]
    rfl

/-! ## Requests -/

/-- What the container asks of its page allocator. -/
inductive PageRequest where
  | getpage (flags : Prot)
  /-- The page is named by its number in the file. -/
  | freepages (pgno : ℕ)

/-- The numbers of the pages on the free list. -/
def Pm.freePgnos (s : Pm) : List ℕ :=
  match s.pa with
  | .unset => []
  | .fixed fm => fm.freeHead
  | .nonlinear nlm => nlm.freeHead.map fun p => p.pgoff / pageSize

/-- A request is served as it should be, when the container references the pages `used`: a page
handed out is not among them, a page given back is the one that joins the free list. -/
def ServedRight (used : Set ℕ) (s : Pm) : PageRequest → Set ℕ → Pm → Prop
  | .getpage flags, used', s' => ∃ maddr laddr,
      Returns (pageAllocatorGetpage flags) s (maddr, laddr) s' ∧ laddr / pageSize ∉ used ∧
        used' = insert (laddr / pageSize) used
  | .freepages pgno, used', s' =>
      Returns (pageAllocatorFreepages (s.startAddr + pgno * pageSize)) s () s' ∧
        s'.freePgnos.Perm (pgno :: s.freePgnos) ∧ used' = used \ {pgno}

/-- All requests, one after another, are served as they should be. -/
def AllServedRight : List PageRequest → Set ℕ → Pm → Prop
  | [], _, _ => True
  | r :: l, used, s => ∃ used' s', ServedRight used s r used' s' ∧ AllServedRight l used' s'


/-- What the allocator of a reopened file looks like, for either mapper. -/
def Pm.BlankAllocator (s : Pm) : Prop :=
  (∃ fm, s.pa = .fixed fm ∧ fm.Blank) ∨ ∃ nlm, s.pa = .nonlinear nlm ∧ nlm.Blank

theorem blankAllocator_init {kind : MapperKind} {size : ℕ} {s s' : Pm} {u : Unit}
    (h : Returns (pageAllocatorInit kind size) s u s') (hlen : pageSize ≤ s.fileLen) :
    s'.BlankAllocator := by
  cases kind with
  | fixedMapper =>
    unfold pageAllocatorInit at h
    simp only [returns_bind, returns_modify] at h
    obtain ⟨fm, t, hinit, rfl⟩ := h
    exact .inl ⟨fm, rfl, blank_fixedMapperInit hlen hinit⟩
  | nonlinearMapper =>
    unfold pageAllocatorInit at h
    simp only [returns_bind, returns_modify] at h
    obtain ⟨nlm, t, hinit, rfl⟩ := h
    have hpos : s.fileLen ≠ 0 := by have := pageSize_pos; omega
    obtain ⟨-, -, hb, -⟩ := returns_nlmInit hinit
    exact .inr ⟨nlm, rfl, hb (by rw [openedSize, if_neg hpos]; exact hlen)⟩

/-- The first page asked of a fixed mapper makes the file grow, and the scan of the index that
follows reads slots no one wrote. -/
theorem not_returns_alloc_of_blank {fm : FixedMapper} {flags : Prot} {s s' : Pm} {a : ℕ × ℕ}
    (hb : fm.Blank) : ¬ Returns (fixedMapperAllocPage fm flags) s a s' := by
  intro h
  unfold fixedMapperAllocPage at h
  rw [returns_bind, if_pos hb.freeSize] at h
  obtain ⟨fm₁, s₁, h₁, -⟩ := h
  rw [returns_bind] at h₁
  obtain ⟨fm₂, s₂, hgrow, hmap⟩ := h₁
  rw [returns_fixedMapperGrowFile, growFile_eq hb.freeSize hb.freeHead] at hgrow
  obtain ⟨hfm, rfl⟩ := hgrow
  cases hfm
  obtain ⟨-, -, hall, -⟩ := returns_mapFile_again hmap hb.start
  have hold : 0 < bytes2pgs fm.fileSize := Nat.div_pos hb.size pageSize_pos
  have hnew : 0 < bytes2pgs (fm.fileSize * 2) :=
    Nat.div_pos (by have := hb.size; omega) pageSize_pos
  refine hall 0 hnew ?_
  show (if bytes2pgs fm.fileSize ≤ 0 ∧ _ then _ else fm.index 0) = none
  rw [if_neg (by omega), hb.index]

/-- No page can be given back: the slot of the fixed mapper was never written, and the non-linear
mapper has no page in use. -/
theorem not_returns_freepages_of_blank {s s' : Pm} {a : ℕ} {u : Unit} (hb : s.BlankAllocator) :
    ¬ Returns (pageAllocatorFreepages a) s u s' := by
  intro h
  unfold pageAllocatorFreepages at h
  simp only [returns_bind, returns_get] at h
  obtain ⟨_, _, ⟨rfl, rfl⟩, h⟩ := h
  rcases hb with ⟨fm, hpa, hb⟩ | ⟨nlm, hpa, hb⟩
  · rw [hpa] at h
    simp [fixedMapperFreepages, hb.index] at h
  · rw [hpa] at h
    simp [nlmFreePages, hb.root] at h

/-- The page the non-linear mapper hands out first is the header page. -/
theorem laddr_of_blank {nlm : Nlm} {flags : Prot} {s s' : Pm} {maddr laddr : ℕ} (hb : nlm.Blank)
    (h : Returns (nlmAllocPage nlm flags) s (maddr, laddr) s') : laddr = 0 := by
  obtain ⟨p, rest, hhead, hoff, -⟩ := hb.head
  unfold nlmAllocPage at h
  rw [returns_bind, if_neg hb.freeSize] at h
  obtain ⟨_, _, h₁, h⟩ := h
  rw [returns_pure] at h₁
  obtain ⟨rfl, rfl⟩ := h₁
  simp only [returns_bind, returns_ofResult] at h
  obtain ⟨⟨q, nlm'⟩, _, ⟨huse, rfl⟩, h⟩ := h
  simp only [returns_modify, returns_pure] at h
  obtain ⟨_, _, -, _, _, -, hr, -⟩ := h
  cases hr
  unfold Nlm.usePage at huse
  rw [hhead] at huse
  dsimp only at huse
  by_cases hf : p.isFree = false
  · rw [if_pos hf] at huse
    cases huse
  · rw [if_neg hf] at huse
    cases huse
    exact hoff

theorem not_servedRight_of_blank {used used' : Set ℕ} {s s' : Pm} (hb : s.BlankAllocator)
    (h0 : 0 ∈ used) (r : PageRequest) : ¬ ServedRight used s r used' s' := by
  cases r with
  | getpage flags =>
    rintro ⟨maddr, laddr, h, hfresh, -⟩
    unfold pageAllocatorGetpage at h
    simp only [returns_bind, returns_get] at h
    obtain ⟨_, _, ⟨rfl, rfl⟩, h⟩ := h
    rcases hb with ⟨fm, hpa, hb⟩ | ⟨nlm, hpa, hb⟩
    · rw [hpa] at h
      exact not_returns_alloc_of_blank hb h
    · rw [hpa] at h
      rw [laddr_of_blank hb h] at hfresh
      exact hfresh h0
  | freepages pgno =>
    rintro ⟨h, -, -⟩
    exact not_returns_freepages_of_blank hb h

/-- **Allocation after reopening.** Whatever process left the file, and whichever pages its
container references, the header page being one of them: the allocator that `container_restore`
sets up serves a sequence of requests as it should only if there is no request at all. -/
theorem allServedRight_iff_nil (env : Env) (m : Machine) (s : Pm) (used : Set ℕ)
    (hlen : pageSize ≤ m.pm.fileLen) (h0 : containerLimaAddress / pageSize ∈ used)
    (h : Returns (pageAllocatorInit env.kind env.initSize) (m.restart env).pm () s)
    (requests : List PageRequest) : AllServedRight requests used s ↔ requests = [] := by
  have hb : s.BlankAllocator := blankAllocator_init h hlen
  cases requests with
  | nil => simp [AllServedRight]
  | cons r l =>
    simp only [AllServedRight, reduceCtorEq, iff_false]
    rintro ⟨used', s', hr, -⟩
    exact not_servedRight_of_blank hb h0 r hr

/-- A session that makes a container, and a second process that opens its file: the address of the
container and the length of the file. -/
def reopenedFile (env : Env) : MachineProg (ℕ × ℕ) := do
  let cont ← containerInit env
  let m ← get
  modify fun m => m.restart env
  onPm (pageAllocatorInit env.kind env.initSize)
  return (cont, m.pm.fileLen)

theorem exists_reopened (kind : MapperKind) : ∃ m s,
    Returns (containerInit (Env.standard kind)) (Machine.fresh (Env.standard kind)) (2 ^ 40) m ∧
      pageSize ≤ m.pm.fileLen ∧
      Returns (pageAllocatorInit kind fmFileSize) (m.restart (Env.standard kind)).pm () s := by
  have hrun : (reopenedFile (Env.standard kind) (Machine.fresh (Env.standard kind))).value? =
      some (2 ^ 40, 12 * pageSize) := by
    cases kind <;> decide +kernel
  obtain ⟨t, h⟩ := exists_returns_of_value hrun
  unfold reopenedFile onPm at h
  simp only [returns_bind, returns_get, returns_modify, returns_zoom, returns_pure] at h
  obtain ⟨cont, m, hinit, _, _, ⟨rfl, rfl⟩, _, _, rfl, _, _, ⟨s, hs, rfl⟩, hr, -⟩ := h
  obtain ⟨rfl, hlen⟩ := Prod.mk.inj hr
  exact ⟨m, s, hinit, by rw [hlen]; decide, hs⟩

/-- At the file of a new container, with five pages in use. -/
theorem allServedRight_iff_nil_standard : ∃ m s,
    Returns (pageAllocatorInit .fixedMapper fmFileSize)
      (Machine.restart (Env.standard .fixedMapper) m).pm () s ∧
    (AllServedRight [.freepages 1] {p | p < 5} s ↔ [PageRequest.freepages 1] = []) := by
  obtain ⟨m, s, -, hlen, h⟩ := exists_reopened .fixedMapper
  exact ⟨m, s, h, allServedRight_iff_nil (Env.standard .fixedMapper) m s {p | p < 5} hlen
    (show 0 < 5 by decide) h _⟩

/-- A container was just made, its process ends, and a new one opens the file: the next page asked
for or given back is not served as it should be, with either mapper. -/
theorem exists_not_allServedRight (kind : MapperKind) : ∃ m s,
    Returns (containerInit (Env.standard kind)) (Machine.fresh (Env.standard kind)) (2 ^ 40) m ∧
      Returns (pageAllocatorInit kind fmFileSize) (m.restart (Env.standard kind)).pm () s ∧
      ¬ AllServedRight [.getpage paProtWrite] {p | p < 5} s ∧
      ¬ AllServedRight [.freepages 1] {p | p < 5} s := by
  obtain ⟨m, s, hinit, hlen, h⟩ := exists_reopened kind
  have hb : s.BlankAllocator := blankAllocator_init h hlen
  refine ⟨m, s, hinit, h, ?_, ?_⟩
  · rintro ⟨used', s', hr, -⟩
    exact not_servedRight_of_blank hb (show 0 < 5 by decide) _ hr
  · rintro ⟨used', s', hr, -⟩
    exact not_servedRight_of_blank hb (show 0 < 5 by decide) _ hr

/-- The same for the default mapper. -/
theorem not_allServedRight_standard : ∃ m s,
    Returns (containerInit (Env.standard .fixedMapper)) (Machine.fresh (Env.standard .fixedMapper)) (2 ^ 40) m ∧
      Returns (pageAllocatorInit .fixedMapper fmFileSize) (m.restart (Env.standard .fixedMapper)).pm () s ∧
      ¬ AllServedRight [.getpage paProtWrite] {p | p < 5} s ∧
      ¬ AllServedRight [.freepages 1] {p | p < 5} s := exists_not_allServedRight .fixedMapper

end LibPM

import LibPM.Allocator.Reopen
import LibPM.Allocator.Runs

/-!
# The size of the file

Both mappers record twice the old size when the file grows, and hand this new size to `posix_fallocate`
as the length behind the old end: the file becomes three times as long. So the record is right until the
file grows for the first time (`fileKept_iff`).
-/

namespace LibPM

open Recorded Recorded.Prog

variable {s s' : Pm} {n : ℕ} {free : List ℕ}

/-! ## What changes the length of the file -/

def Pm.SameFileLen (s s' : Pm) : Prop := s'.fileLen = s.fileLen

instance : IsTrans Pm Pm.SameFileLen := ⟨fun _ _ _ h h' => Eq.trans h' h⟩

instance : Std.Refl Pm.SameFileLen := ⟨fun _ => rfl⟩

theorem sameFileLen_modify {f : Pm → Pm} (h : ∀ s, (f s).fileLen = s.fileLen) :
    Keeps Pm.SameFileLen (modify f : PmProg Unit) := Keeps.modify h

theorem sameFileLen_mmapAt (hint len : ℕ) : Keeps Pm.SameFileLen (mmapAt hint len) :=
  fun _ _ _ h => congrArg Pm.fileLen (returns_mmapAt.mp h).2.2.symm

theorem sameFileLen_mapFile (fm : FixedMapper) (again : Bool) :
    Keeps Pm.SameFileLen (mapFile fm again) := by
  refine keeps_get.bind fun s => (Keeps.when (sameFileLen_mmapAt _ _)).bind fun _ =>
    keeps_require.bind fun _ => Keeps.bind ?_ fun _ => (Keeps.when ?_).bind fun _ => keeps_pure
  · exact sameFileLen_modify fun _ => rfl
  · exact Keeps.forM fun i _ => keeps_ofOption.bind fun p => sameFileLen_modify fun _ => rfl

theorem sameFileLen_mapAppending (nlm : Nlm) : Keeps Pm.SameFileLen (mapAppending nlm) := by
  refine keeps_require.bind fun _ => keeps_get.bind fun s => (sameFileLen_mmapAt _ _).bind fun _ =>
    Keeps.bind ?_ fun _ => keeps_ofResult.bind fun _ => keeps_pure
  exact sameFileLen_modify fun _ => rfl

theorem sameFileLen_mprotect (a : ℕ) (flags : Prot) :
    Keeps Pm.SameFileLen (pageAllocatorMprotect a flags) :=
  keeps_get.bind fun _ => keeps_ofOption.bind fun _ => sameFileLen_modify fun _ => rfl

theorem sameFileLen_freepages (a : ℕ) : Keeps Pm.SameFileLen (pageAllocatorFreepages a) := by
  refine keeps_get.bind fun s => ?_
  cases s.pa with
  | unset => exact keeps_fail
  | fixed fm =>
    exact keeps_require.bind fun _ => keeps_require.bind fun _ => keeps_ofOption.bind fun _ =>
      keeps_ofResult.bind fun _ => sameFileLen_modify fun _ => rfl
  | nonlinear nlm =>
    exact keeps_ofOption.bind fun _ => keeps_ofResult.bind fun _ => sameFileLen_modify fun _ => rfl

/-- The length of the file after a growth from `n` pages. -/
def grownLen (len n : ℕ) : ℕ := max len (n * pageSize + n * pageSize * 2)

/-- The file grows if no page is free. -/
theorem Pm.Space.fileLen_getpage {flags : Prot} {r : ℕ × ℕ} (h : s.Space n free)
    (hr : Returns (pageAllocatorGetpage flags) s r s') :
    s'.fileLen = if free = [] then grownLen s.fileLen n else s.fileLen := by
  have hs := h.serves
  unfold pageAllocatorGetpage at hr
  obtain ⟨_, _, hget, hr⟩ := returns_bind.mp hr
  obtain ⟨rfl, rfl⟩ := returns_get.mp hget
  cases hpa : s.pa with
  | unset =>
    rw [hpa] at hs
    exact hs.elim
  | fixed fm =>
    rw [hpa] at hs hr
    obtain ⟨hg, -, rfl, -⟩ := hs
    unfold fixedMapperAllocPage at hr
    obtain ⟨fm₁, s₁, h₁, hr⟩ := returns_bind.mp hr
    have hrest : s₁.SameFileLen s' := by
      refine Keeps.bind keeps_ofResult (fun x => ?_) hr
      refine keeps_ofOption.bind fun _ => Keeps.bind ?_ fun _ => Keeps.bind ?_ fun _ => keeps_pure
      · exact sameFileLen_modify fun _ => rfl
      · exact Keeps.when (sameFileLen_modify fun _ => rfl)
    have hnil : fm.freeSize = 0 ↔ fm.freeHead = [] := by
      rw [hg.freeSize, List.length_eq_zero_iff]
    rw [show s'.fileLen = s₁.fileLen from hrest]
    by_cases h0 : fm.freeSize = 0
    · rw [if_pos h0, returns_bind] at h₁
      obtain ⟨fm₂, s₂, hgrow, hmap⟩ := h₁
      obtain ⟨-, rfl⟩ := returns_fixedMapperGrowFile.mp hgrow
      rw [if_pos (hnil.mp h0), sameFileLen_mapFile _ _ hmap]
      unfold grownLen
      rw [hg.size]
    · rw [if_neg h0, returns_pure] at h₁
      rw [if_neg fun hn => h0 (hnil.mpr hn), h₁.2]
  | nonlinear nlm =>
    rw [hpa] at hs hr
    obtain ⟨hg, -, hfree⟩ := hs
    unfold nlmAllocPage at hr
    obtain ⟨nlm₁, s₁, h₁, hr⟩ := returns_bind.mp hr
    have hrest : s₁.SameFileLen s' := by
      refine Keeps.bind keeps_ofResult (fun x => ?_) hr
      refine Keeps.bind ?_ fun _ => (Keeps.when (sameFileLen_mprotect _ _)).bind fun _ => keeps_pure
      exact sameFileLen_modify fun _ => rfl
    have hnil : nlm.freeSize = 0 ↔ free = [] := by
      rw [hg.freeSize, getLast?_addr_eq hfree, List.length_eq_zero_iff]
    rw [show s'.fileLen = s₁.fileLen from hrest]
    by_cases h0 : nlm.freeSize = 0
    · rw [if_pos h0, returns_bind] at h₁
      obtain ⟨nlm₂, s₂, hgrow, hmap⟩ := h₁
      unfold nlmGrowFile posixFallocate at hgrow
      simp only [returns_bind, returns_require, returns_modify, returns_pure] at hgrow
      obtain ⟨_, _, ⟨-, rfl⟩, _, _, rfl, rfl, rfl⟩ := hgrow
      rw [if_pos (hnil.mp h0), sameFileLen_mapAppending _ hmap]
      unfold grownLen
      rw [hg.size]
    · rw [if_neg h0, returns_pure] at h₁
      rw [if_neg fun hn => h0 (hnil.mpr hn), h₁.2]

/-! ## A file that is opened -/

theorem mapLen_pageAllocatorInit {kind : MapperKind} {size : ℕ} {u : Unit}
    (h : Returns (pageAllocatorInit kind size) s u s') : s'.mapLen = openedSize size s.fileLen := by
  cases kind with
  | fixedMapper =>
    unfold pageAllocatorInit fixedMapperInit at h
    simp only [returns_bind, returns_get, returns_modify] at h
    obtain ⟨fm, _, ⟨_, _, ⟨rfl, rfl⟩, fm₁, t, h₁, hmap⟩, rfl⟩ := h
    obtain ⟨hsize, h0⟩ : fm₁.fileSize = openedSize size s.fileLen ∧ fm₁.startAddr = 0 := by
      unfold openedSize
      by_cases h0 : s.fileLen = 0
      · rw [if_pos h0, returns_fixedMapperGrowFile, growFile_eq rfl rfl] at h₁
        cases h₁.1
        exact ⟨(if_pos h0).symm, rfl⟩
      · rw [if_neg h0, returns_pure] at h₁
        rw [← h₁.1]
        exact ⟨(if_neg h0).symm, rfl⟩
    obtain ⟨rfl, -⟩ := returns_mapFile_first h0 hmap
    exact hsize
  | nonlinearMapper =>
    unfold pageAllocatorInit at h
    simp only [returns_bind, returns_modify] at h
    obtain ⟨nlm, t, hinit, rfl⟩ := h
    exact (returns_nlmInit hinit).2.1

theorem fileLen_pageAllocatorInit {kind : MapperKind} {size : ℕ} {u : Unit} (h0 : s.fileLen = 0)
    (h : Returns (pageAllocatorInit kind size) s u s') : s'.fileLen = size := by
  cases kind with
  | fixedMapper =>
    unfold pageAllocatorInit fixedMapperInit at h
    simp only [returns_bind, returns_get, returns_modify] at h
    obtain ⟨fm, _, ⟨_, _, ⟨rfl, rfl⟩, fm₁, t, h₁, hmap⟩, rfl⟩ := h
    rw [if_pos h0, returns_fixedMapperGrowFile] at h₁
    obtain ⟨-, rfl⟩ := h₁
    show Pm.fileLen _ = size
    rw [sameFileLen_mapFile _ _ hmap]
    show max s.fileLen (s.fileLen + size) = size
    omega
  | nonlinearMapper =>
    unfold pageAllocatorInit nlmInit at h
    simp only [returns_bind, returns_get, returns_modify] at h
    obtain ⟨nlm, _, ⟨_, _, ⟨rfl, rfl⟩, nlm₁, t, h₁, hmap⟩, rfl⟩ := h
    rw [if_pos h0] at h₁
    unfold nlmGrowFile posixFallocate at h₁
    simp only [returns_bind, returns_require, returns_modify, returns_pure] at h₁
    obtain ⟨_, _, ⟨-, rfl⟩, _, _, rfl, rfl, rfl⟩ := h₁
    show Pm.fileLen _ = size
    rw [sameFileLen_mapAppending _ hmap]
    show max s.fileLen (s.fileLen + size) = size
    omega

/-! ## Runs -/

/-- A mapper of a new file after some requests: the most pages that were in use at once, and the addresses
of those that are now. -/
inductive NeedsRun (env : Env) : ℕ → List ℕ → Pm → Prop
  | init {s : Pm} :
      Returns (pageAllocatorInit env.kind env.initSize) (Machine.fresh env).pm () s →
        NeedsRun env 0 [] s
  | alloc {need : ℕ} {used : List ℕ} {s s' : Pm} {flags : Prot} {maddr laddr : ℕ} :
      NeedsRun env need used s → Returns (pageAllocatorGetpage flags) s (maddr, laddr) s' →
        NeedsRun env (max need (used.length + 1)) (maddr :: used) s'
  | free {need : ℕ} {used : List ℕ} {s s' : Pm} {a : ℕ} :
      NeedsRun env need used s → a ∈ used → Returns (pageAllocatorFreepages a) s () s' →
        NeedsRun env need (used.erase a) s'

theorem NeedsRun.allocatorRun {env : Env} {need : ℕ} {used : List ℕ} (h : NeedsRun env need used s) :
    AllocatorRun env used s := by
  induction h with
  | init h => exact .init h
  | alloc _ hr ih => exact ih.alloc hr
  | free _ ha hr ih => exact ih.free ha hr

/-- The length of the file and the number `n` of mapped pages: the file is new, or it was doubled. -/
structure Pm.Sized (s : Pm) (env : Env) (need n : ℕ) (used : List ℕ) : Prop where
  used_le : used.length ≤ need
  cases : need ≤ n ∧ n * pageSize = env.initSize ∧ s.fileLen = env.initSize ∨
    ∃ m, n = 2 * m ∧ m < need ∧ env.initSize ≤ m * pageSize ∧ s.fileLen = 3 * m * pageSize

/-- **The length of the file in a run.** -/
theorem NeedsRun.sized {env : Env} {need : ℕ} {used : List ℕ} (h : NeedsRun env need used s) :
    ∃ n free pages, s.Tracks n free pages ∧ used = pages.map s.addr ∧ s.Sized env need n used := by
  induction h with
  | init h =>
    obtain ⟨n, ht, -, hn, -⟩ := tracks_init h
    exact ⟨n, _, [], ht, rfl, Nat.le_refl _, .inl ⟨Nat.zero_le _, hn, fileLen_pageAllocatorInit rfl h⟩⟩
  | @alloc need used s s' flags maddr laddr _ hr ih =>
    obtain ⟨n, free, pages, ht, rfl, hsz⟩ := ih
    obtain ⟨p, n', free', htook, ht', -⟩ := ht.getpage hr
    have hlen := ht.space.fileLen_getpage hr
    have hcount : free.length + pages.length = n := by
      have := ht.perm.length_eq
      rwa [List.length_append, List.length_range] at this
    have hle := hsz.used_le
    have hpos := ht.space.pos
    refine ⟨n', free', p :: pages, ht', ?_, ?_, ?_⟩
    · rw [List.map_cons, htook.maddr]
      unfold Pm.addr
      rw [htook.start]
    · rw [List.length_cons]
      omega
    · rw [List.length_map] at hle ⊢
      rcases htook.takes.cases with ⟨rfl, hfree⟩ | ⟨rfl, hnil, -⟩
      · -- a page was free, so no more than the mapped pages are needed
        rw [hfree, if_neg (List.cons_ne_nil _ _)] at hlen
        rw [hfree, List.length_cons] at hcount
        rw [hlen]
        rcases hsz.cases with ⟨hneed, hn⟩ | ⟨m, hn, hm, hrest⟩
        · exact .inl ⟨by omega, hn⟩
        · exact .inr ⟨m, hn, by omega, hrest⟩
      · rw [hnil, if_pos rfl] at hlen
        rw [hnil, List.length_nil] at hcount
        unfold grownLen at hlen
        refine .inr ⟨n, rfl, by omega, ?_, ?_⟩
        · rcases hsz.cases with ⟨-, hn, -⟩ | ⟨m, hn, -, hinit, -⟩
          · exact Nat.le_of_eq hn.symm
          · exact hinit.trans (Nat.mul_le_mul_right _ (by omega))
        · rcases hsz.cases with ⟨-, hn, hfile⟩ | ⟨m, hn, -, -, hfile⟩
          · rw [hlen, hfile, ← hn]
            unfold pageSize
            omega
          · rw [hlen, hfile, hn]
            unfold pageSize
            omega
  | @free need used s s' a _ ha hr ih =>
    obtain ⟨n, free, pages, ht, rfl, hsz⟩ := ih
    obtain ⟨p, hp, rfl⟩ := List.mem_map.mp ha
    obtain ⟨ht', hst⟩ := ht.freepages hp hr
    have hlen : s'.fileLen = s.fileLen := sameFileLen_freepages _ hr
    refine ⟨n, _, pages.erase p, ht', ?_, ?_, by rw [hlen]; exact hsz.cases⟩
    · rw [← List.map_erase fun i j hij => Pm.addr_injective hij]
      unfold Pm.addr
      rw [hst]
    · exact List.length_erase_le.trans hsz.used_le

/-! ## The record of the size -/

/-- The mapper knows the length of its file, so does the next process, and the file is not longer than it
was at first or than twice what is needed. -/
structure FileKept (env : Env) (need : ℕ) (s : Pm) : Prop where
  size : s.mapLen = s.fileLen
  reopened : ∀ (env' : Env) (t : Pm), Returns (pageAllocatorInit env'.kind env'.initSize)
    (Pm.boot env' s.fileLen s.file (s.heap + 1)) () t → t.mapLen = s.mapLen
  bound : s.fileLen ≤ max env.initSize (2 * (need * pageSize))

/-- **File size bookkeeping**: it is right as long as the pages of the new file are enough. -/
theorem fileKept_iff {env : Env} {need : ℕ} {used : List ℕ} (h : NeedsRun env need used s) :
    FileKept env need s ↔ need * pageSize ≤ env.initSize := by
  obtain ⟨n, free, pages, ht, -, hsz⟩ := h.sized
  have hlen := ht.space.len
  have hpos := ht.space.pos
  rcases hsz.cases with ⟨hneed, hn, hfile⟩ | ⟨m, rfl, hm, hinit, hfile⟩
  · refine iff_of_true ⟨by rw [hlen, hn, hfile], fun env' t hr => ?_, ?_⟩ ?_
    · rw [mapLen_pageAllocatorInit hr]
      show openedSize _ s.fileLen = _
      have hne : s.fileLen ≠ 0 := by
        rw [hfile, ← hn]
        have := pageSize_pos
        exact (Nat.mul_pos hpos this).ne'
      unfold openedSize
      rw [if_neg hne, hlen, hn, hfile]
    · rw [hfile]
      exact Nat.le_max_left _ _
    · rw [← hn]
      exact Nat.mul_le_mul_right _ hneed
  · -- the file grew: it is half as long again as the mapper believes
    refine iff_of_false (fun hk => ?_) fun hle => ?_
    · have hsize := hk.size
      rw [hlen, hfile] at hsize
      have := Nat.eq_of_mul_eq_mul_right pageSize_pos hsize
      omega
    · have := Nat.le_of_mul_le_mul_right (hle.trans hinit) pageSize_pos
      omega

theorem exists_needsRun_grown (kind : MapperKind) : ∃ s,
    NeedsRun (Env.standard kind) 3 [2 ^ 40 + 2 * pageSize, 2 ^ 40] s := by
  have hrun : (grownPages kind (Env.standard kind).initSize
      (Machine.fresh (Env.standard kind)).pm).value? =
      some [2 ^ 40 + 2 * pageSize, 2 ^ 40 + pageSize, 2 ^ 40] := by
    cases kind <;> decide +kernel
  obtain ⟨t, h⟩ := exists_returns_of_value hrun
  unfold grownPages at h
  simp only [returns_bind, returns_pure, List.cons.injEq] at h
  obtain ⟨_, _, h₀, ⟨x, _⟩, _, h₁, ⟨y, _⟩, _, h₂, ⟨z, _⟩, _, h₃, _, _, h₄, ⟨hz, hy, hx, -⟩, rfl⟩ := h
  obtain rfl : x = 2 ^ 40 := hx
  obtain rfl : y = 2 ^ 40 + pageSize := hy
  obtain rfl : z = 2 ^ 40 + 2 * pageSize := hz
  exact ⟨_, ((((@NeedsRun.init (Env.standard kind) _ h₀).alloc h₁).alloc h₂).alloc h₃).free
    (by simp) h₄⟩

theorem exists_twoThirds (kind : MapperKind) : ∃ need used s,
    NeedsRun (Env.standard kind) need used s ∧ 3 * s.mapLen = 2 * s.fileLen ∧ s.mapLen ≠ s.fileLen := by
  obtain ⟨s, h⟩ := exists_needsRun_grown kind
  obtain ⟨n, free, pages, ht, -, hsz⟩ := h.sized
  have hlen := ht.space.len
  have hpos := ht.space.pos
  refine ⟨3, _, s, h, ?_⟩
  rcases hsz.cases with ⟨hneed, hn, -⟩ | ⟨m, rfl, -, -, hfile⟩
  · have hinit : (Env.standard kind).initSize = 2 * pageSize := rfl
    have := Nat.eq_of_mul_eq_mul_right pageSize_pos (hn.trans hinit)
    omega
  · rw [hlen, hfile]
    unfold pageSize
    omega

/-- With three pages, of which the new file had two. -/
theorem fileKept_iff_grown : (∃ s, ¬ FileKept (Env.standard .fixedMapper) 3 s) ∧
    ∃ s, ¬ FileKept (Env.standard .nonlinearMapper) 3 s := by
  obtain ⟨s, h⟩ := exists_needsRun_grown .fixedMapper
  obtain ⟨t, ht⟩ := exists_needsRun_grown .nonlinearMapper
  exact ⟨⟨s, fun hk => absurd ((fileKept_iff h).mp hk) (by decide)⟩,
    ⟨t, fun hk => absurd ((fileKept_iff ht).mp hk) (by decide)⟩⟩

/-- Either mapper knows of two thirds of the file. -/
theorem not_forall_fileKept :
    (∃ need used s, NeedsRun (Env.standard .fixedMapper) need used s ∧
      3 * s.mapLen = 2 * s.fileLen ∧ s.mapLen ≠ s.fileLen) ∧
    ∃ need used s, NeedsRun (Env.standard .nonlinearMapper) need used s ∧
      3 * s.mapLen = 2 * s.fileLen ∧ s.mapLen ≠ s.fileLen :=
  ⟨exists_twoThirds .fixedMapper, exists_twoThirds .nonlinearMapper⟩

end LibPM

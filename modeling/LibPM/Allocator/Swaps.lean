import Mathlib.Data.Set.Finite.Basic
import Mathlib.Order.Interval.Finset.Nat
import LibPM.Allocator.Runs

/-!
# Runs of the non-linear mapper

The marks of the pages, and the offsets they carry through swaps, the free list and growth.
-/

namespace LibPM

open Recorded Recorded.Prog

/-! ## The marks of a page -/

/-- The bits of every page and the count of pages are right. -/
structure Nlm.Marked (nlm : Nlm) : Prop where
  use : ∀ p ∈ nlm.root, p.isUse = true ∧ p.isFree = false
  free : ∀ p ∈ nlm.freeHead, p.isUse = false ∧ p.isFree = true
  nonlinear : ∀ p ∈ nlm.freeHead ++ nlm.root, p.isNonlinear = nlm.pageIsNonlinear p
  pgcnt : nlm.pgcnt = nlm.fileSize / pageSize

namespace Nlm.Marked

variable {nlm nlm' : Nlm} {vmap : ℕ → ℕ} {n : ℕ}

theorem withPages (hroot : nlm.root = []) (hpgcnt : nlm.pgcnt = 0) (hprev : nlm.prevFileSize = 0)
    (hsize : nlm.fileSize = n * pageSize) : (nlm.withPages n).Marked := by
  have hempty : (nlm.withPages n).root = [] := hroot
  refine ⟨fun p hp => ?_, fun p hp => ?_, fun p hp => ?_, ?_⟩
  · rw [hempty] at hp
    cases hp
  · obtain ⟨i, -, rfl⟩ := List.mem_map.mp hp
    exact ⟨rfl, rfl⟩
  · rw [hempty, List.append_nil] at hp
    obtain ⟨i, -, rfl⟩ := List.mem_map.mp hp
    unfold Nlm.newPage Nlm.pageIsNonlinear Nlm.withPages
    simp [hprev]
  · show nlm.pgcnt + n = nlm.fileSize / pageSize
    rw [hpgcnt, hsize, Nat.mul_div_cancel _ pageSize_pos, Nat.zero_add]

theorem doubled (hm : nlm.Marked) (hsize : nlm.fileSize = n * pageSize) :
    (nlm.doubled n).Marked := by
  refine ⟨hm.use, fun p hp => ?_, fun p hp => ?_, ?_⟩
  · obtain ⟨i, -, rfl⟩ := List.mem_map.mp hp
    exact ⟨rfl, rfl⟩
  · rcases List.mem_append.mp hp with hp | hp
    · obtain ⟨i, -, rfl⟩ := List.mem_map.mp hp
      unfold Nlm.newPage Nlm.pageIsNonlinear Nlm.doubled Nlm.withPages
      simp
    · exact hm.nonlinear p (List.mem_append_right _ hp)
  · show nlm.pgcnt + n = nlm.fileSize * 2 / pageSize
    rw [hm.pgcnt, hsize, Nat.mul_div_cancel _ pageSize_pos, Nat.mul_right_comm,
      Nat.mul_div_cancel _ pageSize_pos, Nat.mul_two]

theorem ready {nlm₁ : Nlm} {vmap₁ : ℕ → ℕ} {n₁ limit : ℕ} (hm : nlm.Marked) (hg : nlm.Good vmap n)
    (h : nlm.Ready nlm₁ vmap vmap₁ n n₁ limit) : nlm₁.Marked := by
  rcases h with ⟨-, rfl, -⟩ | ⟨-, rfl, -⟩
  · exact hm
  · exact hm.doubled hg.size

theorem usePage (hm : nlm.Marked) (hg : nlm.Good vmap n) {p : NlmPage}
    (h : nlm.usePage = .ok (p, nlm')) : nlm'.Marked := by
  obtain ⟨q, rest, hhead, rfl, rfl⟩ := hg.usePage_eq h
  have hmem : ∀ r ∈ rest, r ∈ nlm.freeHead := fun r hr => hhead ▸ List.mem_cons_of_mem _ hr
  refine ⟨fun r hr => ?_, fun r hr => hm.free r (hmem r hr), fun r hr => ?_, hm.pgcnt⟩
  · rcases List.mem_cons.mp hr with rfl | hr
    · exact ⟨rfl, rfl⟩
    · exact hm.use r hr
  · rw [List.mem_append, List.mem_cons] at hr
    rcases hr with hr | rfl | hr
    · exact hm.nonlinear r (List.mem_append_left _ (hmem r hr))
    · exact hm.nonlinear q (List.mem_append_left _ (by simp [hhead]))
    · exact hm.nonlinear r (List.mem_append_right _ hr)

theorem freePage (hm : nlm.Marked) (hg : nlm.Good vmap n) {p : NlmPage} (hp : p ∈ nlm.root)
    (h : nlm.freePage p = .ok nlm') : nlm'.Marked := by
  obtain rfl := hg.freePage_eq hp h
  refine ⟨fun r hr => hm.use r (List.mem_filter.mp hr).1, fun r hr => ?_, fun r hr => ?_, hm.pgcnt⟩
  · rcases List.mem_append.mp hr with hr | hr
    · exact hm.free r hr
    · rw [List.mem_singleton.mp hr]
      exact ⟨rfl, rfl⟩
  · simp only [List.mem_append, List.mem_filter, List.mem_singleton] at hr
    rcases hr with (hr | rfl) | hr
    · exact hm.nonlinear r (List.mem_append_left _ hr)
    · exact hm.nonlinear p (List.mem_append_right _ hp)
    · exact hm.nonlinear r (List.mem_append_right _ hr.1)

theorem updateSwappedPages (hm : nlm.Marked) (xaddr yaddr : ℕ) :
    (nlm.updateSwappedPages xaddr yaddr).Marked := by
  unfold Nlm.updateSwappedPages
  split
  · next x y hx hy =>
    have hxr := hm.use x (List.mem_of_find?_eq_some hx)
    have hyr := hm.use y (List.mem_of_find?_eq_some hy)
    refine ⟨fun r hr => ?_, hm.free, fun r hr => ?_, hm.pgcnt⟩
    · obtain ⟨q, hq, rfl⟩ := List.mem_map.mp hr
      dsimp only
      split_ifs
      · exact hxr
      · exact hyr
      · exact hm.use q hq
    · rcases List.mem_append.mp hr with hr | hr
      · exact hm.nonlinear r (List.mem_append_left _ hr)
      · obtain ⟨q, hq, rfl⟩ := List.mem_map.mp hr
        dsimp only
        split_ifs
        · rfl
        · rfl
        · exact hm.nonlinear q (List.mem_append_right _ hq)
  · exact hm

theorem swap (hm : nlm.Marked) (xaddr yaddr xpgoff : ℕ) : (nlm.swap xaddr yaddr xpgoff).Marked := by
  unfold Nlm.swap
  refine updateSwappedPages ?_ xaddr yaddr
  split_ifs
  · exact ⟨hm.use, hm.free, hm.nonlinear, hm.pgcnt⟩
  · exact hm

end Nlm.Marked

theorem AllocatorRun.marked {env : Env} {used : List ℕ} {s : Pm}
    (hk : env.kind = .nonlinearMapper) (h : AllocatorRun env used s) :
    ∃ nlm, s.pa = .nonlinear nlm ∧ nlm.Marked := by
  induction h with
  | init h =>
    rw [hk] at h
    unfold pageAllocatorInit at h
    simp only [returns_bind, returns_modify] at h
    obtain ⟨nlm, _, hinit, rfl⟩ := h
    obtain ⟨n, -, hsize⟩ := initSize_eq env
    obtain ⟨rfl, -⟩ := returns_nlmInit_new hsize rfl hinit
    have hm := @Nlm.Marked.withPages
      ⟨n * pageSize, 0, env.mapHint, false, false, 0, 0, [], none, []⟩ n rfl rfl rfl rfl
    exact ⟨_, rfl, hm.use, hm.free, hm.nonlinear, hm.pgcnt⟩
  | alloc hrun hr ih =>
    obtain ⟨nlm, hpa, hm⟩ := ih
    obtain ⟨n, free, pages, ht, -⟩ := hrun.tracks
    have hs := ht.space.serves
    rw [hpa] at hs
    obtain ⟨hg, -⟩ := hs
    obtain ⟨nlm₁, _, _, p, nlm', _, _, hready, huse, -, -, -, rfl⟩ :=
      returns_getpage_nonlinear hpa hg hr
    exact ⟨nlm', rfl, (hm.ready hg hready).usePage (hready.good hg) huse⟩
  | free hrun ha hr ih =>
    obtain ⟨nlm, hpa, hm⟩ := ih
    obtain ⟨n, free, pages, ht, rfl⟩ := hrun.tracks
    obtain ⟨k, hk, rfl⟩ := List.mem_map.mp ha
    have hs := ht.space.serves
    rw [hpa] at hs
    obtain ⟨hg, -⟩ := hs
    obtain ⟨p, nlm', hp, hfree, rfl⟩ := returns_freepages_nonlinear hpa (ht.space.addr_mod k) hr
    exact ⟨nlm', rfl, hm.freePage hg (List.mem_of_find?_eq_some hp) hfree⟩
  | swap _ _ _ _ _ hr ih =>
    obtain ⟨nlm, hpa, hm⟩ := ih
    obtain ⟨nlm', hpa', i, j, -, -, rfl⟩ := returns_swapMappings hr
    rw [hpa, PageAllocator.nonlinear.injEq] at hpa'
    subst hpa'
    exact ⟨_, rfl, hm.swap _ _ _⟩

/-! ## The account of the mapper -/

/-- The account of the non-linear mapper, when the file is mapped by `vmap` and the pages at the
addresses `used` are in use. -/
structure Nlm.Accounts (nlm : Nlm) (vmap : ℕ → ℕ) (used : List ℕ) : Prop where
  once : ((nlm.freeHead ++ nlm.root).map (·.addr)).Perm
    (pageAddrs nlm.startAddr (nlm.fileSize / pageSize))
  inUse : (nlm.root.map (·.addr)).Perm used
  marked : nlm.Marked
  freeSize : nlm.freeSize = nlm.freeHead.length
  freeLast : nlm.freeLast = nlm.freeHead.getLast?.map (·.addr)
  bijective : Set.BijOn vmap (Set.Iio (nlm.fileSize / pageSize))
    (Set.Iio (nlm.fileSize / pageSize))
  recorded : ∀ p ∈ nlm.freeHead ++ nlm.root, ∃ k < nlm.fileSize / pageSize,
    p.addr = nlm.startAddr + k * pageSize ∧ p.pgoff = vmap k * pageSize

theorem Pm.Tracks.accounts_nonlinear {s : Pm} {n : ℕ} {free pages : List ℕ} {nlm : Nlm}
    (h : s.Tracks n free pages) (hpa : s.pa = .nonlinear nlm) (hm : nlm.Marked) :
    nlm.Accounts s.vmap (pages.map s.addr) := by
  have hs := h.space.serves
  rw [hpa] at hs
  obtain ⟨hg, hst, hfree⟩ := hs
  have hn : nlm.fileSize / pageSize = n := by
    rw [hg.size, Nat.mul_div_cancel _ pageSize_pos]
  refine ⟨hn ▸ hg.perm, ?_, hm, hg.freeSize, hg.freeLast, ?_, fun p hp => ?_⟩
  · -- both lists make up the pages of the mapping, together with the free ones
    have hroot : (nlm.freeHead.map (·.addr) ++ nlm.root.map (·.addr)).Perm
        (nlm.freeHead.map (·.addr) ++ pages.map s.addr) := by
      rw [← List.map_append]
      refine hg.perm.trans ?_
      have hpages := (h.perm.map s.addr).symm
      rw [List.map_append] at hpages
      rw [hfree, hst]
      exact hpages
    exact (List.perm_append_left_iff _).mp hroot
  · rw [hn]
    refine ((Set.finite_Iio n).injOn_iff_bijOn_of_mapsTo fun i hi => h.space.maps i hi).mp ?_
    exact fun i hi j hj hij => h.space.inj i j hi hj hij
  · obtain ⟨k, hk, haddr⟩ := hg.exists_addr hp
    rw [hn]
    exact ⟨k, hk, haddr, hg.pgoff p hp k hk haddr⟩

/-- **The non-linear mapper keeps its account**, over any run on a new file, with swaps: every page is
in the tree or on the free list, its node knows the page of the file that is mapped at its address,
and a page that is handed out comes with the offset of the page that is really there. -/
theorem nonlinearMapper_run {env : Env} {used : List ℕ} {s : Pm}
    (hk : env.kind = .nonlinearMapper) (h : AllocatorRun env used s) :
    ∃ nlm, s.pa = .nonlinear nlm ∧ nlm.Accounts s.vmap used ∧
      (∀ flags maddr laddr s', Returns (pageAllocatorGetpage flags) s (maddr, laddr) s' →
        maddr ∉ used ∧ ∃ i, s'.fpage maddr = some i ∧ laddr = i * pageSize) ∧
      (∀ flags, (nlm.freeHead = [] → nlm.startAddr + 2 * nlm.fileSize ≤ s.mapLimit) →
        ∃ r s', Returns (pageAllocatorGetpage flags) s r s') ∧
      (∀ a ∈ used, ∃ s', Returns (pageAllocatorFreepages a) s () s') ∧
      ∀ x ∈ used, ∀ y ∈ used, ∃ xpgoff ypgoff s', s.pgoffOf x = some xpgoff ∧
        s.pgoffOf y = some ypgoff ∧
        Returns (pageAllocatorSwapMappings x ypgoff y xpgoff) s () s' := by
  obtain ⟨nlm, hpa, hm⟩ := h.marked hk
  obtain ⟨n, free, pages, ht, rfl⟩ := h.tracks
  have hs := ht.space.serves
  rw [hpa] at hs
  obtain ⟨hg, hst, hfree⟩ := hs
  have hacc := ht.accounts_nonlinear hpa hm
  have hnode : ∀ a ∈ pages.map s.addr, ∃ p ∈ nlm.root, p.addr = a := by
    intro a ha
    exact List.mem_map.mp (hacc.inUse.mem_iff.mpr ha)
  refine ⟨nlm, hpa, hacc, fun flags maddr laddr s' hr => ?_, fun flags hroom => ?_, fun a ha => ?_,
    fun x hx y hy => ?_⟩
  · obtain ⟨p, n', free', htook, ht', hp⟩ := ht.getpage hr
    refine ⟨fun hmem => ?_, s'.vmap p, ?_, htook.laddr⟩
    · obtain ⟨q, hq, haddr⟩ := List.mem_map.mp hmem
      rw [htook.maddr] at haddr
      exact hp (Pm.addr_injective haddr ▸ hq)
    · have haddr : maddr = s'.addr p := by
        rw [htook.maddr]
        unfold Pm.addr
        rw [htook.start]
      unfold Pm.fpage
      rw [haddr, htook.space.vpage htook.takes.lt]
      rfl
  · refine exists_returns_getpage_nonlinear flags hpa hg fun hnil => ?_
    have := hroom hnil
    rwa [hg.size, ← Nat.mul_assoc] at this
  · obtain ⟨p, hp, rfl⟩ := hnode a ha
    obtain ⟨k, -, hk⟩ := List.mem_map.mp ha
    exact exists_returns_freepages_nonlinear hpa hg (hk ▸ ht.space.addr_mod k) hp
      fun q hq => (hm.use q hq).1
  · have hoff : ∀ a ∈ pages.map s.addr, ∃ off, s.pgoffOf a = some off := by
      intro a ha
      obtain ⟨p, hp, haddr⟩ := hnode a ha
      unfold Pm.pgoffOf
      rw [hpa]
      cases hf : nlm.root.find? (·.addr == a) with
      | none => simpa [haddr] using List.find?_eq_none.mp hf p hp
      | some q => exact ⟨q.pgoff, by dsimp only; rw [hf]; rfl⟩
    obtain ⟨xoff, hxo⟩ := hoff x hx
    obtain ⟨yoff, hyo⟩ := hoff y hy
    obtain ⟨p, hp, rfl⟩ := List.mem_map.mp hx
    obtain ⟨q, hq, rfl⟩ := List.mem_map.mp hy
    obtain ⟨s', hs'⟩ := ht.space.exists_returns_swapMappings hpa (ht.lt hp) (ht.lt hq) yoff xoff
    exact ⟨xoff, yoff, s', hxo, hyo, hs'⟩

/-- Two pages are taken and exchanged. -/
def swappedPages (kind : MapperKind) (size : ℕ) : PmProg (ℕ × ℕ) := do
  pageAllocatorInit kind size
  let (x, _) ← pageAllocatorGetpage paProtWrite
  let (y, _) ← pageAllocatorGetpage paProtWrite
  let s ← get
  let xpgoff ← ofOption .uninitialised (s.pgoffOf x)
  let ypgoff ← ofOption .uninitialised (s.pgoffOf y)
  pageAllocatorSwapMappings x ypgoff y xpgoff
  return (x, y)

/-- After an exchange of the first two pages. -/
theorem nonlinearMapper_run_swapped : ∃ s nlm,
    AllocatorRun (Env.standard .nonlinearMapper) [2 ^ 40 + pageSize, 2 ^ 40] s ∧
      s.pa = .nonlinear nlm ∧ nlm.Accounts s.vmap [2 ^ 40 + pageSize, 2 ^ 40] := by
  have hrun : (swappedPages .nonlinearMapper (Env.standard .nonlinearMapper).initSize
      (Machine.fresh (Env.standard .nonlinearMapper)).pm).value? =
      some (2 ^ 40, 2 ^ 40 + pageSize) := by
    decide +kernel
  obtain ⟨t, h⟩ := exists_returns_of_value hrun
  unfold swappedPages at h
  simp only [returns_bind, returns_get, returns_ofOption, returns_pure, Prod.mk.injEq] at h
  obtain ⟨_, _, h₀, ⟨x, _⟩, _, h₁, ⟨y, _⟩, _, h₂, _, _, ⟨rfl, rfl⟩, _, _, ⟨hx, rfl⟩, _, _,
    ⟨hy, rfl⟩, _, _, h₃, ⟨hx', hy'⟩, rfl⟩ := h
  obtain rfl : x = 2 ^ 40 := hx'
  obtain rfl : y = 2 ^ 40 + pageSize := hy'
  have hr := AllocatorRun.swap (((@AllocatorRun.init (Env.standard .nonlinearMapper) _ h₀).alloc h₁).alloc h₂)
    (List.mem_cons_of_mem _ List.mem_cons_self) List.mem_cons_self hx hy h₃
  obtain ⟨nlm, hpa, hacc, -⟩ := nonlinearMapper_run rfl hr
  exact ⟨_, nlm, hr, hpa, hacc⟩

end LibPM

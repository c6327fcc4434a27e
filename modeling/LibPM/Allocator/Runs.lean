import Mathlib.Data.Set.Finite.Basic
import Mathlib.Order.Interval.Finset.Nat
import LibPM.Model.Cont
import LibPM.Allocator.Progress

/-!
# Runs of the page allocators

Whatever is asked of a mapper on a new file, its pages are the free ones and the ones in use, each
once. The two mappers differ in how they keep this account, and their answers are the same as long
as no pages are exchanged.
-/

namespace LibPM

open Recorded Recorded.Prog

/-- The offset in the file that the non-linear mapper has recorded for the page in use at `a`. -/
def Pm.pgoffOf (s : Pm) (a : ℕ) : Option ℕ :=
  match s.pa with
  | .nonlinear nlm => (nlm.root.find? (·.addr == a)).map (·.pgoff)
  | _ => none

/-- The mapper of a new file after some requests, with the addresses of the pages in use. -/
inductive AllocatorRun (env : Env) : List ℕ → Pm → Prop
  | init {s : Pm} :
      Returns (pageAllocatorInit env.kind env.initSize) (Machine.fresh env).pm () s →
        AllocatorRun env [] s
  | alloc {used : List ℕ} {s s' : Pm} {flags : Prot} {maddr laddr : ℕ} :
      AllocatorRun env used s → Returns (pageAllocatorGetpage flags) s (maddr, laddr) s' →
        AllocatorRun env (maddr :: used) s'
  | free {used : List ℕ} {s s' : Pm} {a : ℕ} :
      AllocatorRun env used s → a ∈ used → Returns (pageAllocatorFreepages a) s () s' →
        AllocatorRun env (used.erase a) s'
  | swap {used : List ℕ} {s s' : Pm} {x y xpgoff ypgoff : ℕ} :
      AllocatorRun env used s → x ∈ used → y ∈ used → s.pgoffOf x = some xpgoff →
        s.pgoffOf y = some ypgoff →
        Returns (pageAllocatorSwapMappings x ypgoff y xpgoff) s () s' → AllocatorRun env used s'

/-! ## The account of pages, for either mapper -/

/-- The pages of the mapping are the free ones and the pages in use. -/
structure Pm.Tracks (s : Pm) (n : ℕ) (free pages : List ℕ) : Prop where
  space : s.Space n free
  perm : (free ++ pages).Perm (List.range n)

namespace Pm.Tracks

variable {s s' : Pm} {n : ℕ} {free pages : List ℕ} {u : Unit}

theorem nodup (h : s.Tracks n free pages) : (free ++ pages).Nodup :=
  h.perm.nodup_iff.mpr List.nodup_range

theorem lt (h : s.Tracks n free pages) {p : ℕ} (hp : p ∈ pages) : p < n :=
  List.mem_range.mp (h.perm.subset (List.mem_append_right _ hp))

theorem notMem_free (h : s.Tracks n free pages) {p : ℕ} (hp : p ∈ pages) : p ∉ free :=
  fun hf => (List.nodup_append.mp h.nodup).2.2 p hf p hp rfl

theorem mem_iff (h : s.Tracks n free pages) {p : ℕ} : p ∈ pages ↔ p < n ∧ p ∉ free := by
  refine ⟨fun hp => ⟨h.lt hp, h.notMem_free hp⟩, fun ⟨hp, hf⟩ => ?_⟩
  have hmem := h.perm.mem_iff.mpr (List.mem_range.mpr hp)
  exact (List.mem_append.mp hmem).resolve_left hf

theorem getpage (h : s.Tracks n free pages) {flags : Prot} {maddr laddr : ℕ}
    (hr : Returns (pageAllocatorGetpage flags) s (maddr, laddr) s') :
    ∃ p n' free', s.Took s' flags maddr laddr p n free n' free' ∧ s'.Tracks n' free' (p :: pages) ∧
      p ∉ pages := by
  obtain ⟨p, n', free', ht⟩ := h.space.getpage hr
  refine ⟨p, n', free', ht, ⟨ht.space, ?_⟩, fun hp => ?_⟩
  · refine List.Perm.trans (@List.perm_middle _ p free' pages) ?_
    rcases ht.takes.cases with ⟨hn, hfree⟩ | ⟨hn, hnil, hrange⟩
    · rw [hn, ← List.cons_append, ← hfree]
      exact h.perm
    · have hpages := h.perm
      rw [hnil, List.nil_append] at hpages
      have hsplit : List.range n' = List.range n ++ List.range' n n := by
        have := @List.range'_append_1 0 n n
        rw [Nat.zero_add] at this
        rw [hn, Nat.two_mul, List.range_eq_range', List.range_eq_range', this]
      rw [hsplit, ← List.cons_append, hrange]
      exact List.perm_append_comm.trans (hpages.append_right _)
  · exact ht.takes.ne (h.lt hp) (h.notMem_free hp) rfl

theorem freepages (h : s.Tracks n free pages) {p : ℕ} (hp : p ∈ pages)
    (hr : Returns (pageAllocatorFreepages (s.addr p)) s u s') :
    s'.Tracks n (free ++ [p]) (pages.erase p) ∧ s'.startAddr = s.startAddr := by
  obtain ⟨-, hsp, hst, -⟩ := h.space.freepages (h.lt hp) hr
  refine ⟨⟨hsp, ?_⟩, hst⟩
  rw [List.append_assoc]
  exact ((List.perm_cons_erase hp).symm.append_left _).trans h.perm

end Pm.Tracks

/-- The recorded offset of a page in use is that of the file page behind it. -/
theorem Pm.Space.pgoffOf_eq {s : Pm} {n p off : ℕ} {free : List ℕ} (h : s.Space n free) (hp : p < n)
    (hoff : s.pgoffOf (s.addr p) = some off) : off = s.vmap p * pageSize := by
  unfold Pm.pgoffOf at hoff
  have hs := h.serves
  cases hpa : s.pa with
  | unset => rw [hpa] at hoff; cases hoff
  | fixed fm => rw [hpa] at hoff; cases hoff
  | nonlinear nlm =>
    rw [hpa] at hoff hs
    obtain ⟨hg, hst, -⟩ := hs
    dsimp only at hoff
    rw [Option.map_eq_some_iff] at hoff
    obtain ⟨q, hq, rfl⟩ := hoff
    have haddr : q.addr = s.addr p := by simpa using List.find?_some hq
    refine hg.pgoff q (List.mem_append_right _ (List.mem_of_find?_eq_some hq)) p hp ?_
    rw [haddr, hst]
    rfl

theorem initSize_eq (env : Env) : ∃ n, 0 < n ∧ env.initSize = n * pageSize := by
  unfold Env.initSize
  cases env.pmlibInitSize with
  | none => exact ⟨2, by decide, rfl⟩
  | some k =>
    refine ⟨max ((k + (pageSize - 1)) / pageSize) 1, by omega, ?_⟩
    show max (roundPg k) pageSize = _
    unfold roundPg
    rw [← Nat.mul_max_mul_right, Nat.one_mul]

theorem mapHint_aligned (env : Env) : env.mapHint % pageSize = 0 := by
  have := env.hint_aligned
  unfold pageSize
  omega

theorem tracks_init {env : Env} {s : Pm} {u : Unit}
    (h : Returns (pageAllocatorInit env.kind env.initSize) (Machine.fresh env).pm u s) :
    ∃ n, s.Tracks n (List.range n) [] ∧ s.vmap = id ∧ n * pageSize = env.initSize ∧
      s.startAddr = env.mapHint ∧ s.mapLimit = env.mapLimit := by
  obtain ⟨n, hn, hsize⟩ := initSize_eq env
  obtain ⟨hsp, hst, pa, prot, len, rfl⟩ :=
    space_pageAllocatorInit hn hsize rfl (mapHint_aligned env) h
  exact ⟨n, ⟨hsp, by rw [List.append_nil]⟩, rfl, hsize.symm, hst, rfl⟩

/-- **The account of a run**: the pages in use are those of the mapping that are not free. -/
theorem AllocatorRun.tracks {env : Env} {used : List ℕ} {s : Pm} (h : AllocatorRun env used s) :
    ∃ n free pages, s.Tracks n free pages ∧ used = pages.map s.addr := by
  induction h with
  | init h =>
    obtain ⟨n, ht, -⟩ := tracks_init h
    exact ⟨n, _, [], ht, rfl⟩
  | alloc _ hr ih =>
    obtain ⟨n, free, pages, ht, rfl⟩ := ih
    obtain ⟨p, n', free', htook, ht', -⟩ := ht.getpage hr
    refine ⟨n', free', p :: pages, ht', ?_⟩
    rw [List.map_cons, htook.maddr]
    unfold Pm.addr
    rw [htook.start]
  | free _ ha hr ih =>
    obtain ⟨n, free, pages, ht, rfl⟩ := ih
    obtain ⟨p, hp, rfl⟩ := List.mem_map.mp ha
    obtain ⟨ht', hst⟩ := ht.freepages hp hr
    refine ⟨n, _, pages.erase p, ht', ?_⟩
    rw [← List.map_erase fun i j hij => Pm.addr_injective hij]
    unfold Pm.addr
    rw [hst]
  | swap _ hx hy hxo hyo hr ih =>
    obtain ⟨n, free, pages, ht, rfl⟩ := ih
    obtain ⟨p, hp, rfl⟩ := List.mem_map.mp hx
    obtain ⟨q, hq, rfl⟩ := List.mem_map.mp hy
    rw [ht.space.pgoffOf_eq (ht.lt hp) hxo] at hr
    obtain ⟨hsp, hst, -⟩ := ht.space.swap (ht.lt hp) (ht.lt hq) (ht.notMem_free hp)
      (ht.notMem_free hq) (fun _ => ht.space.pgoffOf_eq (ht.lt hq) hyo) hr
    refine ⟨n, free, pages, ⟨hsp, ht.perm⟩, ?_⟩
    unfold Pm.addr
    rw [hst]

/-! ## The fixed mapper -/

/-- The account of the fixed mapper, when the pages at the addresses `used` are in use. -/
structure FixedMapper.Accounts (fm : FixedMapper) (used : List ℕ) : Prop where
  freeSize : fm.freeSize = fm.freeHead.length
  freeLast : fm.freeLast = fm.freeHead.getLast?
  index : ∀ i < fm.fileSize / pageSize, ∃ flags, fm.index i = some ⟨i, flags⟩
  nodup : fm.freeHead.Nodup
  lt : ∀ p ∈ fm.freeHead, p < fm.fileSize / pageSize
  usedNodup : used.Nodup
  complement : ∀ a, a ∈ used ↔
    ∃ p < fm.fileSize / pageSize, p ∉ fm.freeHead ∧ a = fm.startAddr + p * pageSize

/-- An answer of `fixed_mapper_alloc_page`: a page that was not in use, by its offset in the file and
by its address, after the file doubled if no page was free. -/
structure FixedMapper.Fresh (fm fm' : FixedMapper) (used : List ℕ) (maddr laddr : ℕ) : Prop where
  notUsed : maddr ∉ used
  page : ∃ pgno, laddr = pgno * pageSize
  inFile : laddr < fm'.fileSize
  address : maddr = fm'.startAddr + laddr
  start : fm'.startAddr = fm.startAddr
  fileSize : fm'.fileSize = if fm.freeHead = [] then 2 * fm.fileSize else fm.fileSize

theorem AllocatorRun.pa_fixed {env : Env} {used : List ℕ} {s : Pm}
    (hk : env.kind = .fixedMapper) (h : AllocatorRun env used s) : ∃ fm, s.pa = .fixed fm := by
  induction h with
  | init h =>
    rw [hk] at h
    unfold pageAllocatorInit at h
    simp only [returns_bind, returns_modify] at h
    obtain ⟨fm, _, -, rfl⟩ := h
    exact ⟨fm, rfl⟩
  | alloc hrun hr ih =>
    obtain ⟨fm, hpa⟩ := ih
    obtain ⟨n, free, pages, ht, -⟩ := hrun.tracks
    have hs := ht.space.serves
    rw [hpa] at hs
    obtain ⟨hg, -, -, hv⟩ := hs
    obtain ⟨fm', n', p, prot, len, -, -, -, -, -, rfl⟩ := returns_getpage_fixed hpa hg hv hr
    exact ⟨fm', rfl⟩
  | free hrun ha hr ih =>
    obtain ⟨fm, hpa⟩ := ih
    obtain ⟨n, free, pages, ht, rfl⟩ := hrun.tracks
    obtain ⟨p, hp, rfl⟩ := List.mem_map.mp ha
    have hs := ht.space.serves
    rw [hpa] at hs
    obtain ⟨hg, hst, -, -⟩ := hs
    unfold Pm.addr at hr
    rw [← hst] at hr
    obtain ⟨-, fm', -, -, -, -, rfl⟩ := returns_freepages_fixed hpa hg (ht.lt hp) hr
    exact ⟨fm', rfl⟩
  | swap _ _ _ _ _ hr ih =>
    obtain ⟨fm, hpa⟩ := ih
    unfold pageAllocatorSwapMappings at hr
    rw [returns_bind] at hr
    obtain ⟨_, _, hget, hr⟩ := hr
    obtain ⟨rfl, rfl⟩ := returns_get.mp hget
    rw [hpa] at hr
    exact (returns_fail hr).elim

theorem Pm.Tracks.accounts_fixed {s : Pm} {n : ℕ} {free pages : List ℕ} {fm : FixedMapper}
    (h : s.Tracks n free pages) (hpa : s.pa = .fixed fm) : fm.Accounts (pages.map s.addr) := by
  have hs := h.space.serves
  rw [hpa] at hs
  obtain ⟨hg, hst, rfl, -⟩ := hs
  have hn : fm.fileSize / pageSize = n := hg.bytes2pgs
  refine ⟨hg.freeSize, hg.freeLast, hn ▸ hg.index, hg.nodup, hn ▸ hg.lt, ?_, fun a => ?_⟩
  · exact (List.nodup_append.mp h.nodup).2.1.map fun i j hij => Pm.addr_injective hij
  · rw [List.mem_map, hn, hst]
    constructor
    · rintro ⟨p, hp, rfl⟩
      exact ⟨p, h.lt hp, h.notMem_free hp, rfl⟩
    · rintro ⟨p, hp, hf, rfl⟩
      exact ⟨p, h.mem_iff.mpr ⟨hp, hf⟩, rfl⟩

theorem Pm.Tracks.fresh_fixed {s s' : Pm} {n : ℕ} {free pages : List ℕ} {fm : FixedMapper}
    (h : s.Tracks n free pages) (hpa : s.pa = .fixed fm) {flags : Prot} {maddr laddr : ℕ}
    (hr : Returns (pageAllocatorGetpage flags) s (maddr, laddr) s') :
    ∃ fm', s'.pa = .fixed fm' ∧ fm.Fresh fm' (pages.map s.addr) maddr laddr := by
  have hs := h.space.serves
  rw [hpa] at hs
  obtain ⟨hg, hst, rfl, hv⟩ := hs
  obtain ⟨fm', n', p, prot, len, ht, rfl, rfl, -, -, rfl⟩ := returns_getpage_fixed hpa hg hv hr
  refine ⟨fm', rfl, fun hmem => ?_, ⟨p, rfl⟩, ?_, ?_, ht.start, ?_⟩
  · obtain ⟨q, hq, haddr⟩ := List.mem_map.mp hmem
    have hqp : q = p := by
      unfold Pm.addr at haddr
      rw [← hst] at haddr
      exact LibPM.addr_injective haddr
    exact TakesPage.ne ⟨ht.lt, ht.free⟩ (h.lt hq) (h.notMem_free hq) hqp
  · rw [ht.good.size]
    exact (Nat.mul_lt_mul_right pageSize_pos).mpr ht.lt
  · rw [ht.start]
  · rw [ht.good.size, hg.size]
    rcases ht.free with ⟨hn, hcons⟩ | ⟨hn, hnil, -⟩
    · rw [if_neg (by rw [hcons]; exact List.cons_ne_nil _ _), hn]
    · rw [if_pos hnil, hn, Nat.mul_assoc]

/-- **The fixed mapper keeps its account**, over any run on a new file: its fields agree with each
other and with the pages in use, every page it hands out is fresh, and it does not stop as long as
there is room behind the mapping. -/
theorem fixedMapper_run {env : Env} {used : List ℕ} {s : Pm} (hk : env.kind = .fixedMapper)
    (h : AllocatorRun env used s) :
    ∃ fm, s.pa = .fixed fm ∧ fm.Accounts used ∧
      (∀ flags maddr laddr s', Returns (pageAllocatorGetpage flags) s (maddr, laddr) s' →
        ∃ fm', s'.pa = .fixed fm' ∧ fm.Fresh fm' used maddr laddr) ∧
      (∀ flags, (fm.freeHead = [] → fm.startAddr + 2 * fm.fileSize ≤ s.mapLimit) →
        ∃ r s', Returns (pageAllocatorGetpage flags) s r s') ∧
      ∀ a ∈ used, ∃ s', Returns (pageAllocatorFreepages a) s () s' := by
  obtain ⟨fm, hpa⟩ := h.pa_fixed hk
  obtain ⟨n, free, pages, ht, rfl⟩ := h.tracks
  have hs := ht.space.serves
  rw [hpa] at hs
  obtain ⟨hg, hst, hfree, -⟩ := hs
  refine ⟨fm, hpa, ht.accounts_fixed hpa, fun flags maddr laddr s' hr => ht.fresh_fixed hpa hr,
    fun flags hroom => ?_, fun a ha => ?_⟩
  · refine exists_returns_getpage_fixed flags hpa hg fun hnil => ?_
    have := hroom hnil
    rwa [hg.size, ← Nat.mul_assoc] at this
  · obtain ⟨p, hp, rfl⟩ := List.mem_map.mp ha
    have hal := ht.space.aligned
    rw [← hst] at hal
    have hex := exists_returns_freepages_fixed hpa hg hal (ht.lt hp)
      (by rw [hfree]; exact ht.notMem_free hp)
    rwa [hst] at hex

/-- Three pages are taken, which makes the file grow, and the second one is given back. -/
def grownPages (kind : MapperKind) (size : ℕ) : PmProg (List ℕ) := do
  pageAllocatorInit kind size
  let (x, _) ← pageAllocatorGetpage paProtWrite
  let (y, _) ← pageAllocatorGetpage paProtRead
  let (z, _) ← pageAllocatorGetpage paProtWrite
  pageAllocatorFreepages y
  return [z, y, x]

/-- After the file grew. -/
theorem fixedMapper_run_grown : ∃ s fm,
    AllocatorRun (Env.standard .fixedMapper) [2 ^ 40 + 2 * pageSize, 2 ^ 40] s ∧
      s.pa = .fixed fm ∧ fm.Accounts [2 ^ 40 + 2 * pageSize, 2 ^ 40] := by
  have hrun : (grownPages .fixedMapper (Env.standard .fixedMapper).initSize
      (Machine.fresh (Env.standard .fixedMapper)).pm).value? =
      some [2 ^ 40 + 2 * pageSize, 2 ^ 40 + pageSize, 2 ^ 40] := by
    decide +kernel
  obtain ⟨t, h⟩ := exists_returns_of_value hrun
  unfold grownPages at h
  simp only [returns_bind, returns_pure, List.cons.injEq] at h
  obtain ⟨_, _, h₀, ⟨x, _⟩, _, h₁, ⟨y, _⟩, _, h₂, ⟨z, _⟩, _, h₃, _, _, h₄, ⟨hz, hy, hx, -⟩, rfl⟩ := h
  obtain rfl : x = 2 ^ 40 := hx
  obtain rfl : y = 2 ^ 40 + pageSize := hy
  obtain rfl : z = 2 ^ 40 + 2 * pageSize := hz
  have hr := AllocatorRun.free ((((@AllocatorRun.init (Env.standard .fixedMapper) _ h₀).alloc h₁).alloc h₂).alloc h₃)
    (List.mem_cons_of_mem _ List.mem_cons_self) h₄
  rw [show [2 ^ 40 + 2 * pageSize, 2 ^ 40 + pageSize, 2 ^ 40].erase (2 ^ 40 + pageSize) =
    [2 ^ 40 + 2 * pageSize, 2 ^ 40] by decide] at hr
  obtain ⟨fm, hpa, hacc, -⟩ := fixedMapper_run rfl hr
  exact ⟨_, fm, hr, hpa, hacc⟩

end LibPM

import LibPM.Allocator.Runs
import LibPM.Session.Buckets

/-!
# A new container

`container_init` takes the first five pages of a new file, in their order: for the header, the directory,
an outer node, an inner node and a bucket. What it leaves satisfies the invariant of a session, and every
other page of the file is zero.
-/

namespace LibPM

open Recorded Recorded.Prog

/-! ## The first pages of a file -/

/-- The first pages of the file hold `l`, the others were never written. -/
structure Pm.Fresh (s : Pm) (n : ℕ) (l : List Page) : Prop where
  space : s.Space n (List.range' l.length (n - l.length))
  le : l.length ≤ n
  vmap : ∀ p < n, s.vmap p = p
  file : ∀ p, s.file p = l.getD p Page.zero
  opened : ∀ p < l.length, (s.prot p).write = true
  synced : ∀ p < n, s.IsFixed → ((s.prot p).write = true ↔ s.Resets p)

/-- Only the file and its mapping may differ, and the mapping starts at the same address. -/
structure Pm.Moved (s s' : Pm) : Prop where
  same : ∃ pa prot len vmap file,
    s' = { s with pa := pa, prot := prot, fileLen := len, vmap := vmap, file := file }
  start : s'.startAddr = s.startAddr

theorem getD_append_default {α : Type} (l : List α) (d : α) (p : ℕ) :
    (l ++ [d]).getD p d = l.getD p d := by
  rw [List.getD_eq_getElem?_getD, List.getD_eq_getElem?_getD, List.getElem?_append]
  split_ifs with hp
  · rfl
  · rw [List.getElem?_eq_none (Nat.not_lt.mp hp)]
    cases hq : [d][p - l.length]? with
    | none => rfl
    | some x =>
      have := List.mem_of_getElem? hq
      rw [List.mem_singleton.mp this]
      rfl

theorem getD_set {α : Type} (l : List α) (d : α) {k : ℕ} (hk : k < l.length) (x : α) (p : ℕ) :
    (l.set k x).getD p d = if p = k then x else l.getD p d := by
  rw [List.getD_eq_getElem?_getD, List.getD_eq_getElem?_getD]
  by_cases hp : p = k
  · rw [if_pos hp, hp, List.getElem?_set_self hk]
    rfl
  · rw [if_neg hp, List.getElem?_set_ne (Ne.symm hp)]

namespace Pm

theorem Moved.trans {s t u : Pm} (h : s.Moved t) (h' : t.Moved u) : s.Moved u := by
  refine ⟨?_, h'.start.trans h.start⟩
  obtain ⟨pa, prot, len, vmap, file, rfl⟩ := h.same
  obtain ⟨pa', prot', len', vmap', file', rfl⟩ := h'.same
  exact ⟨pa', prot', len', vmap', file', rfl⟩

theorem Moved.addr {s t : Pm} (h : s.Moved t) (p : ℕ) : t.addr p = s.addr p := by
  unfold Pm.addr
  rw [h.start]

namespace Fresh

variable {s s' : Pm} {n k maddr laddr : ℕ} {l : List Page} {u : Unit}

theorem setPage (h : s.Fresh n l) (hk : k < l.length) (x : Page) :
    (s.setPage (s.vmap k) x).Fresh n (l.set k x) := by
  refine ⟨?_, ?_, h.vmap, fun p => ?_, fun p hp => ?_, h.synced⟩
  · rw [List.length_set]
    exact h.space.setPage _ _
  · rw [List.length_set]
    exact h.le
  · rw [getD_set _ _ hk, h.vmap k (hk.trans_le h.le)]
    unfold Pm.setPage
    dsimp only
    rw [Function.update_apply, h.file p]
  · rw [List.length_set] at hp
    exact h.opened p hp

theorem moved_setPage (s : Pm) (i : ℕ) (x : Page) : s.Moved (s.setPage i x) :=
  ⟨⟨_, _, _, _, _, rfl⟩, rfl⟩

/-- **A request** takes the next page. -/
theorem getpage (h : s.Fresh n l) (hr : Returns (pageAllocatorGetpage paProtWrite) s (maddr, laddr) s') :
    ∃ n', maddr = s.addr l.length ∧ laddr = l.length * pageSize ∧ s'.Fresh n' (l ++ [Page.zero]) ∧
      s.Moved s' := by
  obtain ⟨p, n', free', ht⟩ := h.space.getpage hr
  obtain ⟨rfl, hfree, hlt⟩ : p = l.length ∧ free' = List.range' (l.length + 1) (n' - (l.length + 1)) ∧
      l.length < n' := by
    have hle := h.le
    rcases ht.takes.cases with ⟨rfl, hcons⟩ | ⟨rfl, hnil, hcons⟩
    · obtain ⟨m, hm⟩ : ∃ m, n' - l.length = m + 1 := by
        cases hm : n' - l.length with
        | zero =>
          rw [hm] at hcons
          cases hcons
        | succ m => exact ⟨m, rfl⟩
      rw [hm, List.range'_succ, List.cons.injEq] at hcons
      refine ⟨hcons.1.symm, ?_, by omega⟩
      rw [← hcons.2, show n' - (l.length + 1) = m by omega]
    · have hn : n = l.length := by
        have := congrArg List.length hnil
        rw [List.length_range', List.length_nil] at this
        omega
      have hpos := h.space.pos
      obtain ⟨m, hm⟩ : ∃ m, n = m + 1 := ⟨n - 1, by omega⟩
      rw [← hn]
      rw [hm, List.range'_succ, List.cons.injEq] at hcons
      refine ⟨hcons.1.trans hm.symm, ?_, by omega⟩
      rw [hcons.2, hm, show 2 * (m + 1) - (m + 1 + 1) = m by omega]
  have hfresh : ∀ i < n', s'.vmap i = i := by
    intro i hi
    by_cases hin : i < n
    · rw [ht.vmap i hin, h.vmap i hin]
    · exact ht.fresh i (Nat.not_lt.mp hin) hi
  have hold : ∀ q < n, q ≠ l.length →
      ((s'.prot q).write = true ↔ (s.prot q).write = true) := by
    intro q hq hqp
    rcases ht.prot.old q hq hqp with heq | ⟨⟨fm, hfm, -⟩, hiff⟩
    · rw [heq]
    · exact hiff.trans (h.synced q hq ⟨fm, hfm⟩).symm
  obtain ⟨pa, prot, len, vmap, hs'⟩ := ht.same
  refine ⟨n', ht.maddr, ?_, ⟨?_, ?_, hfresh, fun q => ?_, fun q hq => ?_, fun q hq hf => ?_⟩,
    ⟨⟨pa, prot, len, vmap, s.file, hs'⟩, ht.start⟩⟩
  · rw [ht.laddr, hfresh _ hlt]
  · rw [List.length_append, List.length_singleton, ← hfree]
    exact ht.space
  · rw [List.length_append, List.length_singleton]
    exact hlt
  · rw [getD_append_default, ← h.file q, hs']
  · rw [List.length_append, List.length_singleton] at hq
    by_cases hql : q = l.length
    · rw [hql]
      exact ht.prot.writable rfl
    · have hlt : q < l.length := by omega
      exact (hold q (hlt.trans_le h.le) hql).mpr (h.opened q hlt)
  · by_cases hql : q = l.length
    · obtain ⟨fm, hfm⟩ := hf
      rw [hql]
      refine iff_of_true (ht.prot.writable rfl) ⟨fm, hfm, ?_⟩
      rw [ht.prot.taken fm hfm]
      rfl
    · by_cases hqn : q < n
      · rw [hold q hqn hql, ht.prot.resets q hqn hql]
        exact h.synced q hqn (ht.prot.kind.mp hf)
      · obtain ⟨hw, hres⟩ := ht.prot.fresh q (Nat.not_lt.mp hqn) hq hql
        rw [hw]
        exact iff_of_false Bool.false_ne_true hres

/-- The page gets a type. -/
theorem retype (h : s.Fresh n (l ++ [Page.zero])) {g : (ℕ → UInt8) → Page}
    (hr : Returns (retypePage (s.addr l.length) g) s u s') :
    s'.Fresh n (l ++ [g fun _ => 0]) ∧ s.Moved s' := by
  have hlen : l.length < (l ++ [Page.zero]).length := by
    rw [List.length_append, List.length_singleton]
    exact Nat.lt_succ_self _
  have hfile : s.file (s.vmap l.length) = Page.zero := by
    rw [h.vmap _ (hlen.trans_le h.le), h.file, getD_append_default, List.getD_eq_getElem?_getD,
      List.getElem?_eq_none (Nat.le_refl _)]
    rfl
  unfold retypePage at hr
  simp only [returns_bind, returns_get, returns_ofOption, returns_modify] at hr
  obtain ⟨_, _, ⟨rfl, rfl⟩, i, _, ⟨hi, rfl⟩, rfl⟩ := hr
  unfold Pm.fpage at hi
  rw [h.space.vpage (hlen.trans_le h.le)] at hi
  cases hi
  rw [hfile]
  refine ⟨?_, moved_setPage s _ _⟩
  have hset := h.setPage hlen (g (s.bytesOf Page.zero))
  rw [List.set_append_right _ _ (Nat.le_refl _), Nat.sub_self] at hset
  exact hset

/-- A page is taken and gets a type. -/
theorem newPage {s₁ : Pm} (h : s.Fresh n l) {g : (ℕ → UInt8) → Page}
    (h₁ : Returns (pageAllocatorGetpage paProtWrite) s (maddr, laddr) s₁)
    (h₂ : Returns (retypePage maddr g) s₁ u s') :
    ∃ n', maddr = s.addr l.length ∧ laddr = l.length * pageSize ∧ s'.Fresh n' (l ++ [g fun _ => 0]) ∧
      s.Moved s' := by
  obtain ⟨n', rfl, hl, hf, hm⟩ := h.getpage h₁
  rw [← hm.addr] at h₂
  obtain ⟨hf', hm'⟩ := hf.retype h₂
  exact ⟨n', rfl, hl, hf', hm.trans hm'⟩

/-- A store to one of the first pages. -/
theorem update (h : s.Fresh n l) {g : Page → Option Page} {x : Page} (hk : l[k]? = some x)
    (hr : Returns (updatePage (s.addr k) g) s u s') :
    ∃ y, g x = some y ∧ s'.Fresh n (l.set k y) ∧ s.Moved s' := by
  have hlt : k < l.length := (List.getElem?_eq_some_iff.mp hk).1
  have hv := h.space.vpage (hlt.trans_le h.le)
  unfold updatePage at hr
  simp only [returns_bind, returns_makeWritable, returns_putPage] at hr
  obtain ⟨_, t, ⟨j, hj, hmade⟩, j', y, hj', -, hy, rfl⟩ := hr
  rw [hv, Option.some.injEq] at hj
  subst hj
  rcases hmade with ⟨-, rfl⟩ | ⟨hw', -⟩
  · rw [hv, Option.some.injEq] at hj'
    subst hj'
    rw [h.vmap k (hlt.trans_le h.le), h.file, List.getD_eq_getElem?_getD, hk] at hy
    exact ⟨y, hy, h.setPage hlt y, moved_setPage s _ _⟩
  · rw [h.opened k hlt] at hw'
    cases hw'

theorem setNextBucket (h : s.Fresh n l) (id : ℕ) :
    Pm.Fresh { s with nextSlabBucketId := id } n l :=
  ⟨⟨h.space.serves, h.space.aligned, h.space.inj, h.space.maps⟩, h.le, h.vmap, h.file, h.opened,
    h.synced⟩

theorem setContainers (h : s.Fresh n l) (c : Option ℕ) : Pm.Fresh { s with containers := c } n l :=
  ⟨⟨h.space.serves, h.space.aligned, h.space.inj, h.space.maps⟩, h.le, h.vmap, h.file, h.opened,
    h.synced⟩

end Fresh

/-- The mapper of a new file may write no page. -/
theorem fresh_pageAllocatorInit {env : Env} {s : Pm} {u : Unit}
    (h : Returns (pageAllocatorInit env.kind env.initSize) (Machine.fresh env).pm u s) :
    ∃ n, s.Fresh n [] ∧ s.startAddr = env.mapHint ∧
      ∃ pa prot len, s = { (Machine.fresh env).pm with pa := pa, prot := prot, fileLen := len } := by
  obtain ⟨n, hn, hsize⟩ := initSize_eq env
  obtain ⟨hsp, hst, pa, prot, len, hs⟩ := space_pageAllocatorInit hn hsize rfl (mapHint_aligned env) h
  refine ⟨n, ⟨?_, Nat.zero_le _, fun p _ => ?_, fun p => ?_, fun p hp => absurd hp (Nat.not_lt_zero p),
    fun p _ hf => ?_⟩, hst, pa, prot, len, hs⟩
  · rw [List.length_nil, Nat.sub_zero, ← List.range_eq_range']
    exact hsp
  · rw [hs]
    rfl
  · rw [hs]
    exact List.getD_nil.symm
  · -- the fixed mapper wrote the default protection to every slot of its index
    cases hk : env.kind with
    | nonlinearMapper =>
      rw [hk] at h
      unfold pageAllocatorInit at h
      simp only [returns_bind, returns_modify] at h
      obtain ⟨nlm, t, -, rfl⟩ := h
      exact (not_isFixed rfl hf).elim
    | fixedMapper =>
      rw [hk] at h
      unfold pageAllocatorInit fixedMapperInit at h
      simp only [returns_bind, returns_get, returns_modify] at h
      obtain ⟨fm, t, ⟨_, _, ⟨rfl, rfl⟩, fm₁, t₁, h₁, hmap⟩, rfl⟩ := h
      rw [if_pos (show (Machine.fresh env).pm.fileLen = 0 from rfl), returns_fixedMapperGrowFile, growFile_eq rfl rfl] at h₁
      obtain ⟨hfm, rfl⟩ := h₁
      cases hfm
      obtain ⟨rfl, -, -, rfl⟩ := returns_mapFile_first rfl hmap
      refine iff_of_false Bool.false_ne_true ?_
      rintro ⟨fm, hfm, hw⟩
      cases hfm
      unfold FixedMapper.protOf FixedMapper.withPages at hw
      dsimp only at hw
      split_ifs at hw <;> cases hw

end Pm

end LibPM

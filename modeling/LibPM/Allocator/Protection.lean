import LibPM.Allocator.Reopen
import LibPM.Allocator.Runs

/-!
# The protections of the fixed mapper

The index of pages records the protection a page was asked with, and `page_allocator_mprotect` does
not change the record. When the file grows and is mapped again, every page gets the protection of
its record; a page from the free list that is asked read only keeps the one it has. So a request
keeps the frame of protections exactly when the records and the pages agree in these two places
(`allocFramed_iff`).
-/

namespace LibPM

open Recorded Recorded.Prog

/-- The fixed mapper of a file, new or opened again, after requests and changes of protections, with
the addresses of the pages in use. -/
inductive ProtectionRun (env : Env) : List ℕ → Pm → Prop
  | init {s : Pm} :
      Returns (pageAllocatorInit .fixedMapper env.initSize) (Machine.fresh env).pm () s →
        ProtectionRun env [] s
  | reopen {m : Machine} {s : Pm} : pageSize ≤ m.pm.fileLen →
      Returns (pageAllocatorInit .fixedMapper env.initSize) (m.restart env).pm () s →
        ProtectionRun env [] s
  | alloc {used : List ℕ} {s s' : Pm} {flags : Prot} {maddr laddr : ℕ} :
      ProtectionRun env used s → Returns (pageAllocatorGetpage flags) s (maddr, laddr) s' →
        ProtectionRun env (maddr :: used) s'
  | free {used : List ℕ} {s s' : Pm} {a : ℕ} :
      ProtectionRun env used s → a ∈ used → Returns (pageAllocatorFreepages a) s () s' →
        ProtectionRun env (used.erase a) s'
  | protect {used : List ℕ} {s s' : Pm} {a : ℕ} {flags : Prot} :
      ProtectionRun env used s → Returns (pageAllocatorMprotect a flags) s () s' →
        ProtectionRun env used s'

/-- The page at `maddr`, which a request for `flags` handed out, is writable when that was asked, and
every other page of the file has the protection it had. -/
def Pm.AllocFramed (s s' : Pm) (flags : Prot) (maddr : ℕ) : Prop :=
  ∃ p, s'.vpage maddr = some p ∧ ((s'.prot p).write = true ↔ flags.write = true) ∧
    ∀ q < bytes2pgs s.mapLen, q ≠ p → s'.prot q = s.prot q

/-- The next free page is not writable unless that is asked; or no page is free, and every page of
the file has the protection recorded for it. -/
def Pm.AllocKeeps (s : Pm) (flags : Prot) : Prop :=
  ∃ fm, s.pa = .fixed fm ∧
    match fm.freeHead with
    | p :: _ => flags.write = true ∨ (s.prot p).write = false
    | [] => ∀ q < bytes2pgs s.mapLen, s.prot q = fm.protOf q

/-! ## The states of a run -/

/-- A change of protections is none of the mapper's business. -/
theorem Pm.Tracks.protect {s s' : Pm} {n a : ℕ} {free pages : List ℕ} {flags : Prot} {u : Unit}
    (h : s.Tracks n free pages) (hr : Returns (pageAllocatorMprotect a flags) s u s') :
    s'.Tracks n free pages ∧ s'.startAddr = s.startAddr ∧ s'.pa = s.pa := by
  obtain ⟨i, -, rfl⟩ := returns_pageAllocatorMprotect.mp hr
  exact ⟨⟨⟨h.space.serves, h.space.aligned, h.space.inj, h.space.maps⟩, h.perm⟩, rfl, rfl⟩

/-- On a new file the mapper keeps its account; on an existing one it stays as it was opened. -/
theorem ProtectionRun.state {env : Env} {used : List ℕ} {s : Pm} (h : ProtectionRun env used s) :
    (∃ n free pages, s.Tracks n free pages ∧ s.IsFixed ∧ used = pages.map s.addr) ∨
      ∃ fm, s.pa = .fixed fm ∧ fm.Blank ∧ used = [] := by
  induction h with
  | @init s h =>
    obtain ⟨n, hn, hsize⟩ := initSize_eq env
    obtain ⟨hsp, -⟩ := space_pageAllocatorInit hn hsize rfl (mapHint_aligned env) h
    refine .inl ⟨n, List.range n, [], ⟨hsp, by rw [List.append_nil]⟩, ?_, rfl⟩
    unfold pageAllocatorInit at h
    simp only [returns_bind, returns_modify] at h
    obtain ⟨fm, t, -, rfl⟩ := h
    exact ⟨fm, rfl⟩
  | @reopen m s hlen h =>
    unfold pageAllocatorInit at h
    simp only [returns_bind, returns_modify] at h
    obtain ⟨fm, t, hinit, rfl⟩ := h
    have hlen : pageSize ≤ (m.restart env).pm.fileLen := hlen
    exact .inr ⟨fm, rfl, blank_fixedMapperInit hlen hinit, rfl⟩
  | alloc _ hr ih =>
    rcases ih with ⟨n, free, pages, ht, hf, rfl⟩ | ⟨fm, hpa, hb, -⟩
    · obtain ⟨p, n', free', htook, ht', -⟩ := ht.getpage hr
      refine .inl ⟨n', free', p :: pages, ht', htook.prot.kind.mpr hf, ?_⟩
      rw [List.map_cons, htook.maddr]
      unfold Pm.addr
      rw [htook.start]
    · unfold pageAllocatorGetpage at hr
      rw [returns_bind] at hr
      obtain ⟨_, _, hget, hr⟩ := hr
      obtain ⟨rfl, rfl⟩ := returns_get.mp hget
      rw [hpa] at hr
      exact (not_returns_alloc_of_blank hb hr).elim
  | free _ ha hr ih =>
    rcases ih with ⟨n, free, pages, ht, hf, rfl⟩ | ⟨fm, hpa, hb, rfl⟩
    · obtain ⟨p, hp, rfl⟩ := List.mem_map.mp ha
      obtain ⟨ht', hst⟩ := ht.freepages hp hr
      obtain ⟨-, -, -, ⟨hfix, -⟩, -⟩ := ht.space.freepages (ht.lt hp) hr
      refine .inl ⟨n, _, pages.erase p, ht', hfix.mpr hf, ?_⟩
      rw [← List.map_erase fun i j hij => Pm.addr_injective hij]
      unfold Pm.addr
      rw [hst]
    · cases ha
  | protect _ hr ih =>
    rcases ih with ⟨n, free, pages, ht, ⟨fm, hpa⟩, rfl⟩ | ⟨fm, hpa, hb, rfl⟩
    · obtain ⟨ht', hst, hpa'⟩ := ht.protect hr
      refine .inl ⟨n, free, pages, ht', ⟨fm, hpa'.trans hpa⟩, ?_⟩
      unfold Pm.addr
      rw [hst]
    · obtain ⟨i, -, rfl⟩ := returns_pageAllocatorMprotect.mp hr
      exact .inr ⟨fm, hpa, hb, rfl⟩

/-! ## The frame -/

theorem Pm.Space.bytes2pgs_mapLen {s : Pm} {n : ℕ} {free : List ℕ} (h : s.Space n free) :
    bytes2pgs s.mapLen = n := by
  unfold bytes2pgs
  rw [h.len, Nat.mul_div_cancel _ pageSize_pos]

/-- One request, from any state of the fixed mapper. -/
theorem allocFramed_iff_of_space {s s' : Pm} {n : ℕ} {free : List ℕ} {flags : Prot} {maddr laddr : ℕ}
    (h : s.Space n free) (hf : s.IsFixed)
    (hr : Returns (pageAllocatorGetpage flags) s (maddr, laddr) s') :
    s.AllocFramed s' flags maddr ↔ s.AllocKeeps flags := by
  obtain ⟨fm, hpa⟩ := hf
  have hs := h.serves
  rw [hpa] at hs
  obtain ⟨hg, hst, -, hv⟩ := hs
  obtain ⟨p, n₁, free₁, htook⟩ := h.getpage hr
  obtain ⟨fm', n', p', prot, len, ht, hmaddr, -, -, hp, hs'⟩ := returns_getpage_fixed hpa hg hv hr
  obtain rfl : p' = p := by
    have heq := hmaddr.symm.trans htook.maddr
    rw [hst] at heq
    exact LibPM.addr_injective heq
  have hvpage : s'.vpage maddr = some p' := by
    rw [htook.maddr]
    unfold Pm.addr
    rw [← htook.start]
    exact htook.space.vpage htook.takes.lt
  have hprot : s'.prot = prot := by rw [hs']
  have hframed : s.AllocFramed s' flags maddr ↔ ((prot p').write = true ↔ flags.write = true) ∧
      ∀ q < n, q ≠ p' → prot q = s.prot q := by
    unfold Pm.AllocFramed
    rw [h.bytes2pgs_mapLen, hprot]
    constructor
    · rintro ⟨p, hvp, hw, hq⟩
      obtain rfl := Option.some.inj (hvpage.symm.trans hvp)
      exact ⟨hw, hq⟩
    · exact fun ⟨hw, hq⟩ => ⟨p', hvpage, hw, hq⟩
  have hkeeps : s.AllocKeeps flags ↔ match fm.freeHead with
      | p :: _ => flags.write = true ∨ (s.prot p).write = false
      | [] => ∀ q < n, s.prot q = fm.protOf q := by
    unfold Pm.AllocKeeps
    rw [h.bytes2pgs_mapLen]
    constructor
    · rintro ⟨fm₀, hpa₀, hm⟩
      obtain rfl := PageAllocator.fixed.inj (hpa.symm.trans hpa₀)
      exact hm
    · exact fun hm => ⟨fm, hpa, hm⟩
  have hother : ∀ q, q ≠ p' → prot q = fm.remapped s.prot n n' q := by
    intro q hqp
    rw [hp.prot]
    split_ifs
    · exact Function.update_of_ne hqp _ _
    · rfl
  have hwrite : flags.write = true → (prot p').write = true := by
    intro hw
    rw [hp.prot, if_pos hw, Function.update_self]
    exact hw
  have hread : flags.write = false → prot p' = fm.remapped s.prot n n' p' := by
    intro hw
    rw [hp.prot, if_neg (by rw [hw]; exact Bool.false_ne_true)]
  rw [hframed, hkeeps]
  rcases ht.free with ⟨hn, hhead⟩ | ⟨hn, hnil, hrange⟩
  · -- a page of the free list: the other pages are not touched
    rw [hhead]
    have hsame : fm.remapped s.prot n n' = s.prot := if_pos hn
    rw [hsame] at hother hread
    constructor
    · rintro ⟨hw, -⟩
      by_cases hfl : flags.write = true
      · exact .inl hfl
      · rw [Bool.not_eq_true] at hfl
        refine .inr ?_
        rw [← hread hfl, ← Bool.not_eq_true, hw, hfl]
        exact Bool.false_ne_true
    · intro hcond
      refine ⟨⟨fun hw => ?_, hwrite⟩, fun q _ hqp => hother q hqp⟩
      rcases hcond with hfl | hro
      · exact hfl
      · by_contra hfl
        rw [Bool.not_eq_true] at hfl
        rw [hread hfl, hro] at hw
        cases hw
  · -- the file grows: the page is new, and the others get the protections of the index
    rw [hnil]
    have hpos := hg.pos
    have hne : n' ≠ n := by omega
    have hnp : n ≤ p' := by
      have hmem : p' ∈ List.range' n n := by
        rw [← hrange]
        exact List.mem_cons_self
      exact (List.mem_range'_1.mp hmem).1
    have hnew : ∀ q < n, prot q = fm.protOf q := by
      intro q hq
      rw [hother q (by omega)]
      unfold FixedMapper.remapped
      rw [if_neg hne, if_pos hq]
    constructor
    · rintro ⟨-, hall⟩ q hq
      rw [← hall q hq (by omega), hnew q hq]
    · intro hall
      refine ⟨⟨fun hw => ?_, hwrite⟩, fun q hq _ => (hnew q hq).trans (hall q hq).symm⟩
      by_contra hfl
      rw [Bool.not_eq_true] at hfl
      rw [hread hfl] at hw
      unfold FixedMapper.remapped at hw
      rw [if_neg hne, if_neg (by omega)] at hw
      cases hw

/-- **The frame of protections.** After any run of the fixed mapper, a request that returns keeps
the frame exactly when the records and the protections agree where it looks at them. -/
theorem allocFramed_iff {env : Env} {used : List ℕ} {s s' : Pm} {flags : Prot} {maddr laddr : ℕ}
    (h : ProtectionRun env used s)
    (hr : Returns (pageAllocatorGetpage flags) s (maddr, laddr) s') :
    s.AllocFramed s' flags maddr ↔ s.AllocKeeps flags := by
  rcases h.state with ⟨n, free, pages, ht, hf, -⟩ | ⟨fm, hpa, hb, -⟩
  · exact allocFramed_iff_of_space ht.space hf hr
  · unfold pageAllocatorGetpage at hr
    rw [returns_bind] at hr
    obtain ⟨_, _, hget, hr⟩ := hr
    obtain ⟨rfl, rfl⟩ := returns_get.mp hget
    rw [hpa] at hr
    exact (not_returns_alloc_of_blank hb hr).elim

/-- A page that was writable is given back and asked again to be read only: whether it is writable. -/
def recycledPage (size : ℕ) : PmProg (Option Bool) := do
  pageAllocatorInit .fixedMapper size
  let (x, _) ← pageAllocatorGetpage paProtWrite
  pageAllocatorFreepages x
  let (_, _) ← pageAllocatorGetpage paProtRead
  let (z, _) ← pageAllocatorGetpage paProtRead
  let s ← get
  return (s.vpage z).map fun p => (s.prot p).write

/-- A page whose protection was changed, before and after the file grew: whether it is writable. -/
def regrownPage (size : ℕ) : PmProg (Bool × Bool × Option ℕ) := do
  pageAllocatorInit .fixedMapper size
  let (x, _) ← pageAllocatorGetpage paProtRead
  let (_, _) ← pageAllocatorGetpage paProtRead
  pageAllocatorMprotect x paProtRnw
  let s ← get
  let (z, _) ← pageAllocatorGetpage paProtWrite
  let s' ← get
  return ((s.prot 0).write, (s'.prot 0).write, s'.vpage z)

/-- After the file grew over a page that a fault had made writable. -/
theorem allocFramed_iff_regrown : ∃ used s s' maddr,
    ProtectionRun (Env.standard .fixedMapper) used s ∧ (s.prot 0).write = true ∧
      (s'.prot 0).write = false ∧ s'.vpage maddr = some 2 ∧
      (s.AllocFramed s' paProtWrite maddr ↔ s.AllocKeeps paProtWrite) := by
  have hrun : (regrownPage (Env.standard .fixedMapper).initSize
      (Machine.fresh (Env.standard .fixedMapper)).pm).value? = some (true, false, some 2) := by
    decide +kernel
  obtain ⟨t, h⟩ := exists_returns_of_value hrun
  unfold regrownPage at h
  simp only [returns_bind, returns_get, returns_pure, Prod.mk.injEq] at h
  obtain ⟨_, _, h₀, ⟨x, _⟩, _, h₁, ⟨y, _⟩, _, h₂, _, _, h₃, _, _, ⟨rfl, rfl⟩, ⟨z, _⟩, _, h₄, _, _,
    ⟨rfl, rfl⟩, ⟨hold, hnew, hz⟩, rfl⟩ := h
  have hr := (((@ProtectionRun.init (Env.standard .fixedMapper) _ h₀).alloc h₁).alloc h₂).protect h₃
  exact ⟨_, _, _, z, hr, hold, hnew, hz, allocFramed_iff hr h₄⟩

/-- The promise is broken for a page that is used again. -/
theorem not_forall_allocFramed : ∃ used s s' maddr laddr,
    ProtectionRun (Env.standard .fixedMapper) used s ∧
      Returns (pageAllocatorGetpage paProtRead) s (maddr, laddr) s' ∧
      ¬ s.AllocFramed s' paProtRead maddr := by
  have hrun : (recycledPage (Env.standard .fixedMapper).initSize
      (Machine.fresh (Env.standard .fixedMapper)).pm).value? = some (some true) := by
    decide +kernel
  obtain ⟨t, h⟩ := exists_returns_of_value hrun
  unfold recycledPage at h
  simp only [returns_bind, returns_get, returns_pure] at h
  obtain ⟨_, _, h₀, ⟨x, _⟩, _, h₁, _, _, h₂, ⟨y, _⟩, _, h₃, ⟨z, _⟩, _, h₄, _, _, ⟨rfl, rfl⟩, hz, rfl⟩ := h
  have hr := (((@ProtectionRun.init (Env.standard .fixedMapper) _ h₀).alloc h₁).free
    List.mem_cons_self h₂).alloc h₃
  refine ⟨_, _, _, z, _, hr, h₄, ?_⟩
  rintro ⟨p, hp, hw, -⟩
  rw [hp, Option.map_some, Option.some.injEq] at hz
  exact absurd (hw.mp hz) (by decide)

end LibPM

import LibPM.Allocator.Reopen
import LibPM.Memory.Access

/-!
# The first store of `container_restore`

`page_allocator_init` maps the file for reading only, and `container_restore` stores to the header
page before any page is made writable. The store faults, and the handler looks the page up in the
tree of the directory that the header names, at an address of the process that is gone. Whatever
it finds there, it does not come back: a tree without the header page ends in `handle_error`; an
entry of the header page is to be snapshotted, which needs a page of the allocator (the fixed mapper
has none) and stores to metadata pages that cannot be written either.
-/

namespace LibPM

open Recorded Recorded.Prog

/-! ## Stores where only the first page can be written -/

/-- Everything but the contents and the protection of the first page is the same. -/
structure SameButFirst (s s' : Pm) : Prop where
  file : ∀ i, i ≠ 0 → s'.file i = s.file i
  prot : ∀ i, i ≠ 0 → s'.prot i = s.prot i
  vmap : s'.vmap = s.vmap
  start : s'.startAddr = s.startAddr
  len : s'.mapLen = s.mapLen
  containers : s'.containers = s.containers

theorem SameButFirst.refl (s : Pm) : SameButFirst s s :=
  ⟨fun _ _ => rfl, fun _ _ => rfl, rfl, rfl, rfl, rfl⟩

theorem SameButFirst.trans {s t u : Pm} (h : SameButFirst s t) (h' : SameButFirst t u) :
    SameButFirst s u :=
  ⟨fun i hi => (h'.file i hi).trans (h.file i hi), fun i hi => (h'.prot i hi).trans (h.prot i hi),
    h'.vmap.trans h.vmap, h'.start.trans h.start, h'.len.trans h.len,
    h'.containers.trans h.containers⟩

theorem SameButFirst.vpage {s s' : Pm} (h : SameButFirst s s') (a : ℕ) :
    s'.vpage a = s.vpage a := by
  unfold Pm.vpage
  rw [h.start, h.len]

/-- The mapping is linear, and only its first page can be written. -/
structure Pm.FirstOnly (s : Pm) : Prop where
  prot : ∀ i, i ≠ 0 → (s.prot i).write = false
  vmap : s.vmap = id

theorem Pm.FirstOnly.of_same {s s' : Pm} (hs : s.FirstOnly) (h : SameButFirst s s') :
    s'.FirstOnly :=
  ⟨fun i hi => by rw [h.prot i hi]; exact hs.prot i hi, h.vmap.trans hs.vmap⟩

theorem Pm.FirstOnly.of_writable {s : Pm} (hs : s.FirstOnly) {i : ℕ}
    (hw : (s.prot i).write = true) : i = 0 := by
  by_contra hi
  rw [hs.prot i hi] at hw
  cases hw

theorem sameButFirst_setPage (s : Pm) (p : Page) : SameButFirst s (s.setPage 0 p) :=
  ⟨fun _ hi => Function.update_of_ne hi _ _, fun _ _ => rfl, rfl, rfl, rfl, rfl⟩

theorem sameButFirst_putPage {s s' : Pm} {a : ℕ} {g : Page → Option Page} {u : Unit}
    (hs : s.FirstOnly) (h : Returns (putPage a g) s u s') :
    s.vpage a = some 0 ∧ SameButFirst s s' := by
  obtain ⟨i, p, hi, hw, -, rfl⟩ := returns_putPage.mp h
  obtain rfl := hs.of_writable hw
  rw [hs.vmap]
  exact ⟨hi, sameButFirst_setPage s p⟩

theorem sameButFirst_copyPage {s s' : Pm} {dst src : ℕ} {u : Unit} (hs : s.FirstOnly)
    (h : Returns (copyPage dst src) s u s') : SameButFirst s s' := by
  obtain ⟨i, p, -, hi, hw, rfl⟩ := returns_copyPage.mp h
  obtain rfl := hs.of_writable hw
  rw [hs.vmap]
  exact sameButFirst_setPage s p

theorem sameButFirst_pmemcpyPages {s s' : Pm} {dst src n : ℕ} {u : Unit} (hs : s.FirstOnly)
    (h : Returns (pmemcpyPages dst src n) s u s') : SameButFirst s s' := by
  have := Returns.forM_induct (P := fun _ t => SameButFirst s t) (d := [])
    (SameButFirst.refl s) (fun _ _ _ t t' _ ht hcopy =>
      ht.trans (sameButFirst_copyPage (hs.of_same ht) hcopy)) h
  exact this

/-! ## The handler -/

/-- The header page was just mapped, nothing can be written yet, and the next page the allocator
hands out, if any, is the header page. -/
structure Pm.JustMapped (s : Pm) : Prop where
  prot : ∀ i, (s.prot i).write = false
  vmap : s.vmap = id
  containers : s.containers = some s.startAddr
  next : s.mapLen < pageSize ∨ ∀ maddr laddr s',
    Returns (pageAllocatorGetpage paProtWrite) s (maddr, laddr) s' → SameButFirst s s'

theorem Pm.JustMapped.firstOnly {s : Pm} (hs : s.JustMapped) : s.FirstOnly :=
  ⟨fun i _ => hs.prot i, hs.vmap⟩

/-- The page a structure is read from, in a linear mapping. -/
theorem exists_page {s : Pm} (hv : s.vmap = id) {a : ℕ} {p : Page} (h : s.pageAt a = some p) :
    ∃ i, s.vpage a = some i ∧ s.file i = p := by
  obtain ⟨-, i, hi, hp⟩ := pageAt_eq_some.mp h
  rw [hv] at hp
  exact ⟨i, hi, hp⟩

theorem vpage_startAddr {s : Pm} {i : ℕ} (h : s.vpage s.startAddr = some i) : i = 0 := by
  unfold Pm.vpage at h
  split_ifs at h
  rw [Nat.sub_self, Nat.zero_div] at h
  exact (Option.some.inj h).symm

/-- While the header is read as a container, no other structure is on the first page. -/
theorem ne_zero_of_container {s : Pm} (hv : s.vmap = id) {c : Container} {i : ℕ} {p : Page}
    (hc : s.readContainer s.startAddr = some c) (hi : s.file i = p)
    (hp : ∀ c, p ≠ .container c) : i ≠ 0 := by
  rintro rfl
  obtain ⟨j, hj, hfile⟩ := exists_page hv (readContainer_eq_some.mp hc)
  obtain rfl := vpage_startAddr hj
  exact hp c (hi.symm.trans hfile)

theorem not_returns_slabEntrySnapshot {s s' : Pm} {se : EntryRef} {u : Unit}
    (hs : s.JustMapped) (hlen : ¬ s.mapLen < pageSize) :
    ¬ Returns (slabEntrySnapshot se) s u s' := by
  intro h
  unfold slabEntrySnapshot at h
  rw [returns_bind] at h
  obtain ⟨⟨maddr, laddr⟩, s₁, hget, h⟩ := h
  simp only [returns_bind, returns_loadEntry, returns_currentSlabMaddr] at h
  obtain ⟨e, _, ⟨-, rfl⟩, _, s₂, hcopy, sd, _, ⟨⟨cont, c, hcont, hc, -⟩, rfl⟩, _, s₃, happ, -⟩ := h
  have h₁ : SameButFirst s s₁ := (hs.next.resolve_left hlen) _ _ _ hget
  have h₂ : SameButFirst s s₂ := h₁.trans (sameButFirst_pmemcpyPages (hs.firstOnly.of_same h₁) hcopy)
  have hf₂ := hs.firstOnly.of_same h₂
  -- the directory is not on the first page, but only the first page can be written
  unfold appendDirty at happ
  simp only [returns_bind, returns_loadDir, returns_get, returns_require] at happ
  obtain ⟨d, _, ⟨hd, rfl⟩, _, _, ⟨rfl, rfl⟩, _, _, ⟨-, rfl⟩, hput⟩ := happ
  obtain ⟨hi, -⟩ := sameButFirst_putPage hf₂ hput
  obtain ⟨j, hj, hfile⟩ := exists_page hf₂.vmap (readDir_eq_some.mp hd)
  rw [h₂.containers, hs.containers, ← h₂.start] at hcont
  cases hcont
  have hj0 : j ≠ 0 := ne_zero_of_container hf₂.vmap hc hfile (by simp)
  rw [hi] at hj
  exact hj0 (Option.some.inj hj).symm

theorem not_returns_slabEntryCopynswap {s s' : Pm} {se : EntryRef} {u : Unit} {j : ℕ}
    (hs : s.JustMapped) (hlen : ¬ s.mapLen < pageSize) (hj : s.vpage se.sb = some j)
    (hj0 : j ≠ 0) : ¬ Returns (slabEntryCopynswap se) s u s' := by
  intro h
  unfold slabEntryCopynswap at h
  rw [returns_bind] at h
  obtain ⟨⟨maddr, laddr⟩, s₁, hget, h⟩ := h
  simp only [returns_bind, returns_loadEntry] at h
  obtain ⟨e, _, ⟨-, rfl⟩, _, s₂, hcopy, _, s₃, hput, -⟩ := h
  have h₁ : SameButFirst s s₁ := (hs.next.resolve_left hlen) _ _ _ hget
  have h₂ : SameButFirst s s₂ := h₁.trans (sameButFirst_pmemcpyPages (hs.firstOnly.of_same h₁) hcopy)
  obtain ⟨hi, -⟩ := sameButFirst_putPage (hs.firstOnly.of_same h₂) hput
  rw [h₂.vpage, hj] at hi
  exact hj0 (Option.some.inj hi)

/-- The handler does not come back from the first store. -/
theorem not_returns_handleMemoryUpdate {s s' : Pm} {u : Unit} {a : ℕ} (hs : s.JustMapped) :
    ¬ Returns (handleMemoryUpdate a) s u s' := by
  intro h
  unfold handleMemoryUpdate at h
  simp only [returns_bind, returns_currentSlabMaddr, returns_usedFind] at h
  obtain ⟨sd, _, ⟨⟨cont, c, hcont, hc, -⟩, rfl⟩, o, _, ⟨⟨d, hd, hfind⟩, rfl⟩, h⟩ := h
  rw [hs.containers] at hcont
  cases hcont
  obtain ⟨i, hi, hfile⟩ := exists_page hs.vmap (readDir_eq_some.mp hd)
  have hi0 : i ≠ 0 := ne_zero_of_container hs.vmap hc hfile (by simp)
  have hlen : ¬ s.mapLen < pageSize := by
    intro hlt
    unfold Pm.vpage at hi
    split_ifs at hi with hin
    refine hi0 (Option.some.inj hi ▸ Nat.div_eq_of_lt ?_)
    omega
  cases o with
  | none => simp at h
  | some se =>
    obtain ⟨-, e, he, -⟩ := findEntry_eq_some_some hfind
    obtain ⟨-, b, hb, -⟩ := readEntry_eq_some.mp he
    obtain ⟨j, hj, hbf⟩ := exists_page hs.vmap (readBucket_eq_some.mp hb)
    have hj0 : j ≠ 0 := ne_zero_of_container hs.vmap hc hbf (by simp)
    dsimp only at h
    rw [returns_bind] at h
    obtain ⟨_, _, h, -⟩ := h
    unfold funcSlabEntrySnapshot at h
    simp only [returns_bind, returns_get] at h
    obtain ⟨_, _, ⟨rfl, rfl⟩, h⟩ := h
    split at h
    · exact not_returns_slabEntryCopynswap hs hlen hj hj0 h
    · exact not_returns_slabEntrySnapshot hs hlen h

/-! ## What `page_allocator_init` leaves -/

/-- The first page a fixed mapper hands out after it made the file is the header page. -/
theorem sameButFirst_getpage_fixed {s s' : Pm} {fm : FixedMapper} {n maddr laddr : ℕ}
    (hpa : s.pa = .fixed fm) (hg : fm.Good n) (hhead : fm.freeHead = List.range' 0 n)
    (hv : s.vmap = id) (h : Returns (pageAllocatorGetpage paProtWrite) s (maddr, laddr) s') :
    SameButFirst s s' := by
  obtain ⟨fm', n', p, prot, len, ht, -, -, -, hprot, rfl⟩ := returns_getpage_fixed hpa hg hv h
  obtain ⟨k, rfl⟩ : ∃ k, n = k + 1 := ⟨n - 1, by have := hg.pos; omega⟩
  rw [List.range'_succ] at hhead
  rcases ht.free with ⟨rfl, hfree⟩ | ⟨-, hnil, -⟩
  · rw [hhead] at hfree
    obtain ⟨rfl, -⟩ := List.cons.inj hfree
    refine ⟨fun _ _ => rfl, fun i hi => ?_, hv.symm, ?_, ?_, rfl⟩
    · show prot i = s.prot i
      rw [hprot.prot]
      unfold FixedMapper.remapped
      rw [if_pos rfl]
      exact Function.update_of_ne hi _ _
    · unfold Pm.startAddr
      rw [hpa]
      exact ht.start
    · unfold Pm.mapLen
      rw [hpa]
      exact ht.good.size.trans hg.size.symm
  · rw [hhead] at hnil
    cases hnil

/-- The first page a non-linear mapper hands out is the header page. -/
theorem sameButFirst_getpage_nlm {s s' : Pm} {nlm : Nlm} {maddr laddr : ℕ}
    (hpa : s.pa = .nonlinear nlm) (hb : nlm.Blank)
    (h : Returns (pageAllocatorGetpage paProtWrite) s (maddr, laddr) s') : SameButFirst s s' := by
  obtain ⟨p, rest, hhead, -, haddr⟩ := hb.head
  unfold pageAllocatorGetpage at h
  simp only [returns_bind, returns_get] at h
  obtain ⟨_, _, ⟨rfl, rfl⟩, h⟩ := h
  rw [hpa] at h
  unfold nlmAllocPage at h
  rw [returns_bind, if_neg hb.freeSize] at h
  obtain ⟨_, _, h₁, h⟩ := h
  rw [returns_pure] at h₁
  obtain ⟨rfl, rfl⟩ := h₁
  simp only [returns_bind, returns_ofResult] at h
  obtain ⟨⟨q, nlm'⟩, _, ⟨huse, rfl⟩, h⟩ := h
  unfold Nlm.usePage at huse
  rw [hhead] at huse
  dsimp only at huse
  by_cases hf : p.isFree = false
  · rw [if_pos hf] at huse
    cases huse
  rw [if_neg hf] at huse
  cases huse
  simp only [returns_modify, returns_pure,
    returns_when_true (show paProtWrite.write = true from rfl),
    returns_pageAllocatorMprotect] at h
  obtain ⟨_, _, rfl, _, _, ⟨i, hi, rfl⟩, -, rfl⟩ := h
  rw [haddr] at hi
  obtain rfl := vpage_startAddr hi
  refine ⟨fun _ _ => rfl, fun i hi => Function.update_of_ne hi _ _, rfl, ?_, ?_, rfl⟩
  · unfold Pm.startAddr
    rw [hpa]
  · unfold Pm.mapLen
    rw [hpa]

/-- **After `page_allocator_init`**, on a new file or an old one, nothing can be written. -/
theorem justMapped_init {kind : MapperKind} {size : ℕ} {s s' : Pm} {u : Unit}
    (h : Returns (pageAllocatorInit kind size) s u s') {n : ℕ} (hn : 0 < n)
    (hsize : size = n * pageSize) : { s' with containers := some s'.startAddr }.JustMapped := by
  cases kind with
  | nonlinearMapper =>
    unfold pageAllocatorInit at h
    simp only [returns_bind, returns_modify] at h
    obtain ⟨nlm, t, hinit, rfl⟩ := h
    obtain ⟨hst, hlen, hb, len, rfl⟩ := returns_nlmInit hinit
    refine ⟨fun _ => rfl, rfl, rfl, ?_⟩
    by_cases hlt : openedSize size s.fileLen < pageSize
    · exact .inl (by rw [← hlen] at hlt; exact hlt)
    · exact .inr fun _ _ _ hget => sameButFirst_getpage_nlm rfl (hb (by omega)) hget
  | fixedMapper =>
    unfold pageAllocatorInit at h
    simp only [returns_bind, returns_modify] at h
    obtain ⟨fm, t, hinit, rfl⟩ := h
    have hinit' := hinit
    unfold fixedMapperInit at hinit
    simp only [returns_bind, returns_get] at hinit
    obtain ⟨_, _, ⟨rfl, rfl⟩, fm₁, t₁, h₁, hmap⟩ := hinit
    by_cases h0 : s.fileLen = 0
    · have hold : bytes2pgs s.fileLen = 0 := by rw [h0]; rfl
      have hnew : bytes2pgs size - (0 + 1) + 1 = n := by
        unfold bytes2pgs
        rw [hsize, Nat.mul_div_cancel _ pageSize_pos]
        omega
      rw [if_pos h0, returns_fixedMapperGrowFile, growFile_eq rfl rfl] at h₁
      obtain ⟨hfm, rfl⟩ := h₁
      simp only [hold, hnew, Except.ok.injEq] at hfm
      subst hfm
      obtain ⟨rfl, hne, -, rfl⟩ := returns_mapFile_first rfl hmap
      exact ⟨fun _ => rfl, rfl, rfl, .inr fun _ _ _ hget =>
        sameButFirst_getpage_fixed rfl (good_first hne hn hsize) rfl rfl hget⟩
    · rw [if_neg h0, returns_pure] at h₁
      obtain ⟨rfl, rfl⟩ := h₁
      obtain ⟨rfl, hne, -, rfl⟩ := returns_mapFile_first rfl hmap
      refine ⟨fun _ => rfl, rfl, rfl, ?_⟩
      by_cases hlt : s.fileLen < pageSize
      · exact .inl hlt
      · refine .inr fun maddr laddr s' hget => ?_
        have hb := blank_fixedMapperInit (by omega) hinit'
        unfold pageAllocatorGetpage at hget
        simp only [returns_bind, returns_get] at hget
        obtain ⟨_, _, ⟨rfl, rfl⟩, hget⟩ := hget
        exact (not_returns_alloc_of_blank hb hget).elim

end LibPM

import LibPM.Recorded.Visits
import LibPM.Memory.Access
import LibPM.Model.Slab

/-!
# What the stores of the library expose

Loads and requests to the page allocator expose nothing: the allocator keeps its lists outside of the file. A store
exposes the state that it leaves.
-/

namespace LibPM

open Recorded Recorded.Prog

variable {s t : Pm} {a : ℕ}

/-! ## Loads -/

theorem not_exposes_getContainer : ¬ Exposes getContainer s t := by
  unfold getContainer
  simp

theorem not_exposes_loadContainer : ¬ Exposes (loadContainer a) s t := by
  unfold loadContainer
  simp

theorem not_exposes_loadDir : ¬ Exposes (loadDir a) s t := by
  unfold loadDir
  simp

theorem not_exposes_loadEntry {r : EntryRef} : ¬ Exposes (loadEntry r) s t := by
  unfold loadEntry
  simp

theorem not_exposes_loadByte : ¬ Exposes (loadByte a) s t := by
  unfold loadByte
  simp

theorem not_exposes_currentSlabMaddr : ¬ Exposes currentSlabMaddr s t := by
  unfold currentSlabMaddr
  simp [not_exposes_getContainer, not_exposes_loadContainer]

theorem not_exposes_usedFind {p : SlabEntry → Bool} : ¬ Exposes (usedFind a p) s t := by
  unfold usedFind
  simp [not_exposes_loadDir]

theorem not_exposes_mapM {α β : Type} {f : α → PmProg β} (hf : ∀ x s t, ¬ Exposes (f x) s t) (l : List α) :
    ∀ s t, ¬ Exposes (l.mapM f) s t := by
  induction l with
  | nil =>
    intro s t
    rw [List.mapM_nil]
    exact not_exposes_pure
  | cons x l ih =>
    intro s t
    rw [List.mapM_cons]
    simp [hf, ih]

theorem not_exposes_loadWord : ¬ Exposes (loadWord a) s t := by
  unfold loadWord
  simp [not_exposes_mapM fun x s t => not_exposes_loadByte]

/-! ## The page allocator -/

theorem not_exposes_ofResult {α : Type} {o : Except Fault α} : ¬ Exposes (ofResult o : PmProg α) s t := by
  cases o
  · exact not_exposes_fail
  · exact not_exposes_pure

theorem not_exposes_when {p : Prop} [Decidable p] {c : PmProg Unit} (h : ¬ Exposes c s t) : ¬ Exposes (when p c) s t := by
  unfold Prog.when
  split_ifs
  · exact h
  · exact not_exposes_pure

theorem not_exposes_forM {α : Type} {f : α → PmProg PUnit} (hf : ∀ x s t, ¬ Exposes (f x) s t) (l : List α) :
    ∀ s t, ¬ Exposes (l.forM f) s t := by
  induction l with
  | nil => exact fun s t => not_exposes_pure
  | cons x l ih =>
    intro s t
    show ¬ Exposes (f x >>= fun _ => l.forM f) s t
    rw [exposes_bind]
    rintro (h | ⟨_, s', -, h⟩)
    · exact hf x s t h
    · exact ih s' t h

theorem not_exposes_pageAllocatorMprotect {flags : Prot} : ¬ Exposes (pageAllocatorMprotect a flags) s t := by
  unfold pageAllocatorMprotect
  simp

theorem not_exposes_mmapAt {len : ℕ} : ¬ Exposes (mmapAt a len) s t := by
  unfold mmapAt
  simp

theorem not_exposes_mapFile {fm : FixedMapper} {b : Bool} : ¬ Exposes (mapFile fm b) s t := by
  have hprot : ∀ fm : FixedMapper, ∀ s t, ¬ Exposes (updateMappingProt fm) s t := by
    intro fm
    unfold updateMappingProt
    refine not_exposes_forM (fun i s t => ?_) _
    unfold updatePageProt
    simp
  unfold mapFile
  simp [not_exposes_when, not_exposes_mmapAt, hprot]

theorem not_exposes_fixedMapperGrowFile {fm : FixedMapper} {n : ℕ} : ¬ Exposes (fixedMapperGrowFile fm n) s t := by
  unfold fixedMapperGrowFile posixFallocate
  simp [not_exposes_ofResult]

theorem not_exposes_mapAppending {nlm : Nlm} : ¬ Exposes (mapAppending nlm) s t := by
  unfold mapAppending
  simp [not_exposes_mmapAt, not_exposes_ofResult]

theorem not_exposes_pageAllocatorGetpage {flags : Prot} : ¬ Exposes (pageAllocatorGetpage flags) s t := by
  unfold pageAllocatorGetpage
  rw [exposes_bind, not_or]
  refine ⟨not_exposes_get, ?_⟩
  rintro ⟨_, _, hget, h⟩
  obtain ⟨rfl, rfl⟩ := returns_get.mp hget
  split at h
  · exact not_exposes_fail h
  · next fm _ =>
    unfold fixedMapperAllocPage at h
    split_ifs at h <;>
      simp [not_exposes_fixedMapperGrowFile, not_exposes_mapFile, not_exposes_ofResult, not_exposes_when] at h
  · next nlm _ =>
    unfold nlmAllocPage nlmGrowFile posixFallocate at h
    split_ifs at h <;>
      simp [not_exposes_mapAppending, not_exposes_ofResult, not_exposes_when, not_exposes_pageAllocatorMprotect] at h

/-! ## Stores -/

theorem not_exposes_retypePage {g : (ℕ → UInt8) → Page} : ¬ Exposes (retypePage a g) s t := by
  unfold retypePage
  simp

/-- The store is the last thing that it does. -/
theorem returns_of_exposes_putPage {g : Page → Option Page} (h : Exposes (putPage a g) s t) :
    Returns (putPage a g) s () t := by
  unfold putPage at h ⊢
  simp only [exposes_bind, not_exposes_get, not_exposes_ofOption, not_exposes_require, exposes_store, false_or, returns_bind,
    returns_get, returns_ofOption, returns_require, returns_store] at h ⊢
  obtain ⟨x, y, hx, i, z, hi, u, w, hw, p, r, hp, rfl⟩ := h
  exact ⟨x, y, hx, i, z, hi, u, w, hw, p, r, hp, rfl⟩

theorem returns_of_exposes_copyPage {src : ℕ} (h : Exposes (copyPage a src) s t) : Returns (copyPage a src) s () t := by
  unfold copyPage at h ⊢
  simp only [exposes_bind, not_exposes_get, not_exposes_ofOption, false_or] at h
  obtain ⟨x, y, hx, p, z, hp, h⟩ := h
  exact returns_bind.mpr ⟨x, y, hx, returns_bind.mpr ⟨p, z, hp, returns_of_exposes_putPage h⟩⟩

theorem returns_of_exposes_appendDirty {r : EntryRef} (h : Exposes (appendDirty a r) s t) :
    Returns (appendDirty a r) s () t := by
  unfold appendDirty at h ⊢
  simp only [exposes_bind, not_exposes_get, not_exposes_loadDir, not_exposes_require, false_or] at h
  obtain ⟨d, x, hd, y, z, hy, u, w, hu, h⟩ := h
  exact returns_bind.mpr ⟨d, x, hd, returns_bind.mpr ⟨y, z, hy, returns_bind.mpr ⟨u, w, hu, returns_of_exposes_putPage h⟩⟩⟩

theorem not_exposes_makeWritable {i : ℕ} (hi : s.vpage a = some i) (hw : (s.prot i).write = true) :
    ¬ Exposes (makeWritable a) s t := by
  unfold makeWritable
  rw [exposes_bind, not_or]
  refine ⟨not_exposes_get, ?_⟩
  rintro ⟨_, _, hget, h⟩
  obtain ⟨rfl, rfl⟩ := returns_get.mp hget
  rw [hi] at h
  rcases exposes_bind.mp h with h | ⟨j, _, hj, h⟩
  · exact not_exposes_ofOption h
  · obtain ⟨heq, rfl⟩ := returns_ofOption.mp hj
    obtain rfl := Option.some.inj heq
    unfold Prog.when at h
    rw [if_neg (by rw [hw]; exact Bool.noConfusion)] at h
    exact not_exposes_pure h

/-- A store that does not fault. -/
theorem returns_of_exposes_updatePage {g : Page → Option Page} (hw : ∀ t', ¬ Exposes (makeWritable a) s t')
    (h : Exposes (updatePage a g) s t) : Returns (updatePage a g) s () t := by
  unfold updatePage at h ⊢
  rcases exposes_bind.mp h with h | ⟨u, s', hr, h⟩
  · exact absurd h (hw t)
  · exact returns_bind.mpr ⟨u, s', hr, returns_of_exposes_putPage h⟩

end LibPM

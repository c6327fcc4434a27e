import LibPM.Model.Snapshot

/-!
# Loads and stores

One lemma for each access: what a load that returns has read, and which page a store changes.
-/

namespace LibPM

open Recorded Recorded.Prog

variable {s s' : Pm} {a : ℕ}

/-! ## Pages at addresses -/

theorem pageAt_eq_some {p : Page} :
    s.pageAt a = some p ↔ a % pageSize = 0 ∧ ∃ i, s.vpage a = some i ∧ s.file (s.vmap i) = p := by
  unfold Pm.pageAt Pm.fpage
  split_ifs with h
  · simp [h]
  · simp [h]

theorem readContainer_eq_some {c : Container} :
    s.readContainer a = some c ↔ s.pageAt a = some (.container c) := by
  unfold Pm.readContainer
  split <;> simp_all

theorem readDir_eq_some {d : SlabDir} : s.readDir a = some d ↔ s.pageAt a = some (.dir d) := by
  unfold Pm.readDir
  split <;> simp_all

theorem readOuter_eq_some {o : SlabOuter} :
    s.readOuter a = some o ↔ s.pageAt a = some (.outer o) := by
  unfold Pm.readOuter
  split <;> simp_all

theorem readInner_eq_some {n : SlabInner} :
    s.readInner a = some n ↔ s.pageAt a = some (.inner n) := by
  unfold Pm.readInner
  split <;> simp_all

theorem readBucket_eq_some {b : SlabBucket} :
    s.readBucket a = some b ↔ s.pageAt a = some (.bucket b) := by
  unfold Pm.readBucket
  split <;> simp_all

theorem readPtrs_eq_some {p : ℕ → SlabPtrRec} :
    s.readPtrs a = some p ↔ s.pageAt a = some (.ptrs p) := by
  unfold Pm.readPtrs
  split <;> simp_all

theorem readEntry_eq_some {r : EntryRef} {e : SlabEntry} :
    s.readEntry r = some e ↔
      r.idx < slabBucketEntries ∧ ∃ b, s.readBucket r.sb = some b ∧ b.sbEntries r.idx = e := by
  unfold Pm.readEntry
  by_cases h : r.idx < slabBucketEntries
  · rw [if_pos h, Option.map_eq_some_iff]
    exact ⟨fun he => ⟨h, he⟩, fun he => he.2⟩
  · rw [if_neg h]
    simp only [reduceCtorEq, h, false_and]

/-! ## Loads -/

@[simp] theorem returns_getContainer {c : ℕ} :
    Returns getContainer s c s' ↔ s.containers = some c ∧ s = s' :=
  returns_read

@[simp] theorem returns_loadContainer {c : Container} :
    Returns (loadContainer a) s c s' ↔ s.readContainer a = some c ∧ s = s' :=
  returns_read

@[simp] theorem returns_loadDir {d : SlabDir} :
    Returns (loadDir a) s d s' ↔ s.readDir a = some d ∧ s = s' :=
  returns_read

@[simp] theorem returns_loadOuter {o : SlabOuter} :
    Returns (loadOuter a) s o s' ↔ s.readOuter a = some o ∧ s = s' :=
  returns_read

@[simp] theorem returns_loadInner {n : SlabInner} :
    Returns (loadInner a) s n s' ↔ s.readInner a = some n ∧ s = s' :=
  returns_read

@[simp] theorem returns_loadBucket {b : SlabBucket} :
    Returns (loadBucket a) s b s' ↔ s.readBucket a = some b ∧ s = s' :=
  returns_read

@[simp] theorem returns_loadEntry {r : EntryRef} {e : SlabEntry} :
    Returns (loadEntry r) s e s' ↔ s.readEntry r = some e ∧ s = s' :=
  returns_read

theorem returns_currentSlabMaddr {sd : ℕ} :
    Returns currentSlabMaddr s sd s' ↔
      (∃ cont c, s.containers = some cont ∧ s.readContainer cont = some c ∧
        c.currentSlab.maddr = sd) ∧ s = s' := by
  unfold currentSlabMaddr
  simp only [returns_bind, returns_getContainer, returns_loadContainer, returns_pure]
  constructor
  · rintro ⟨cont, _, ⟨hc, rfl⟩, c, _, ⟨hr, rfl⟩, rfl, rfl⟩
    exact ⟨⟨cont, c, hc, hr, rfl⟩, rfl⟩
  · rintro ⟨⟨cont, c, hc, hr, rfl⟩, rfl⟩
    exact ⟨cont, s, ⟨hc, rfl⟩, c, s, ⟨hr, rfl⟩, rfl, rfl⟩

@[simp] theorem returns_pageAllocatorMprotect {flags : Prot} {u : Unit} :
    Returns (pageAllocatorMprotect a flags) s u s' ↔
      ∃ i, s.vpage a = some i ∧ s' = { s with prot := Function.update s.prot i flags } := by
  unfold pageAllocatorMprotect
  simp only [returns_bind, returns_get, returns_ofOption, returns_modify]
  constructor
  · rintro ⟨_, _, ⟨rfl, rfl⟩, i, _, ⟨hi, rfl⟩, rfl⟩
    exact ⟨i, hi, rfl⟩
  · rintro ⟨i, hi, rfl⟩
    exact ⟨s, s, ⟨rfl, rfl⟩, i, s, ⟨hi, rfl⟩, rfl⟩

/-! ## Searches -/

theorem findEntry_eq_some_some {p : SlabEntry → Bool} {l : List EntryRef} {r : EntryRef}
    (h : s.findEntry p l = some (some r)) :
    r ∈ l ∧ ∃ e, s.readEntry r = some e ∧ p e = true := by
  induction l with
  | nil => simp [Pm.findEntry] at h
  | cons q l ih =>
    unfold Pm.findEntry at h
    cases hq : s.readEntry q with
    | none => simp [hq] at h
    | some e =>
      simp only [hq] at h
      split_ifs at h with hp
      · cases h
        exact ⟨by simp, e, hq, hp⟩
      · obtain ⟨hm, h⟩ := ih h
        exact ⟨by simp [hm], h⟩

theorem findEntry_eq_some_none {p : SlabEntry → Bool} {l : List EntryRef}
    (h : s.findEntry p l = some none) :
    ∀ r ∈ l, ∃ e, s.readEntry r = some e ∧ p e = false := by
  induction l with
  | nil => simp
  | cons q l ih =>
    unfold Pm.findEntry at h
    cases hq : s.readEntry q with
    | none => simp [hq] at h
    | some e =>
      simp only [hq] at h
      by_cases hp : p e = true
      · simp [hp] at h
      · rw [if_neg hp] at h
        intro r hr
        rcases List.mem_cons.mp hr with rfl | hr
        · exact ⟨e, hq, by simpa using hp⟩
        · exact ih h r hr

theorem returns_usedFind {sd : ℕ} {p : SlabEntry → Bool} {o : Option EntryRef} :
    Returns (usedFind sd p) s o s' ↔
      (∃ d, s.readDir sd = some d ∧ s.findEntry p d.sdMaddrRoot = some o) ∧ s = s' := by
  unfold usedFind
  simp only [returns_bind, returns_loadDir, returns_get, returns_ofOption]
  constructor
  · rintro ⟨d, _, ⟨hd, rfl⟩, _, _, ⟨rfl, rfl⟩, hf, rfl⟩
    exact ⟨⟨d, hd, hf⟩, rfl⟩
  · rintro ⟨⟨d, hd, hf⟩, rfl⟩
    exact ⟨d, s, ⟨hd, rfl⟩, s, s, ⟨rfl, rfl⟩, hf, rfl⟩

/-! ## Stores -/

/-- A store that does not fault changes the page behind its address. -/
theorem returns_putPage {g : Page → Option Page} {u : Unit} :
    Returns (putPage a g) s u s' ↔ ∃ i p, s.vpage a = some i ∧ (s.prot i).write = true ∧
      g (s.file (s.vmap i)) = some p ∧ s' = s.setPage (s.vmap i) p := by
  unfold putPage
  simp only [returns_bind, returns_get, returns_ofOption, returns_require, returns_store]
  constructor
  · rintro ⟨_, _, ⟨rfl, rfl⟩, i, _, ⟨hi, rfl⟩, _, _, ⟨hw, rfl⟩, p, _, ⟨hp, rfl⟩, rfl⟩
    exact ⟨i, p, hi, hw, hp, rfl⟩
  · rintro ⟨i, p, hi, hw, hp, rfl⟩
    exact ⟨s, s, ⟨rfl, rfl⟩, i, s, ⟨hi, rfl⟩, (), s, ⟨hw, rfl⟩, p, s, ⟨hp, rfl⟩, rfl⟩

theorem returns_copyPage {dst src : ℕ} {u : Unit} :
    Returns (copyPage dst src) s u s' ↔ ∃ i p, s.pageAt src = some p ∧ s.vpage dst = some i ∧
      (s.prot i).write = true ∧ s' = s.setPage (s.vmap i) p := by
  unfold copyPage
  simp only [returns_bind, returns_get, returns_ofOption, returns_putPage]
  constructor
  · rintro ⟨_, _, ⟨rfl, rfl⟩, p, _, ⟨hp, rfl⟩, i, _, hi, hw, hq, rfl⟩
    cases hq
    exact ⟨i, p, hp, hi, hw, rfl⟩
  · rintro ⟨i, p, hp, hi, hw, rfl⟩
    exact ⟨s, s, ⟨rfl, rfl⟩, p, s, ⟨hp, rfl⟩, i, p, hi, hw, rfl, rfl⟩

/-- A store returns without a fault, or after the fault was handled. -/
theorem returns_makeWritable {u : Unit} :
    Returns (makeWritable a) s u s' ↔ ∃ i, s.vpage a = some i ∧
      ((s.prot i).write = true ∧ s = s' ∨
        (s.prot i).write = false ∧ Returns (handleMemoryUpdate a) s () s') := by
  unfold makeWritable
  simp only [returns_bind, returns_get, returns_ofOption, returns_when]
  constructor
  · rintro ⟨_, _, ⟨rfl, rfl⟩, i, _, ⟨hi, rfl⟩, h⟩
    rcases h with ⟨hw, h⟩ | ⟨hw, h⟩
    · exact ⟨i, hi, .inr ⟨hw, h⟩⟩
    · exact ⟨i, hi, .inl ⟨by simpa using hw, h⟩⟩
  · rintro ⟨i, hi, h⟩
    refine ⟨s, s, ⟨rfl, rfl⟩, i, s, ⟨hi, rfl⟩, ?_⟩
    rcases h with ⟨hw, h⟩ | ⟨hw, h⟩
    · exact .inr ⟨by simp [hw], h⟩
    · exact .inl ⟨hw, h⟩

end LibPM

import LibPM.Allocator.Space

/-!
# When the allocators answer

A mapper that has a free page hands it out, and one that has none grows the file, which takes room
behind the mapping. A page in use can always be given back.
-/

namespace LibPM

open Recorded Recorded.Prog

/-! ## The fixed mapper -/

theorem exists_returns_updateMappingProt {fm : FixedMapper}
    (hidx : ∀ i < bytes2pgs fm.fileSize, ∃ prot, fm.index i = some ⟨i, prot⟩) (s : Pm) :
    ∃ s', Returns (updateMappingProt fm) s () s' := by
  unfold updateMappingProt
  refine exists_returns_forM (fun i hi s => ?_) s
  obtain ⟨prot, hp⟩ := hidx i (List.mem_range.mp hi)
  unfold updatePageProt
  simp only [returns_bind, returns_ofOption, returns_modify]
  exact ⟨_, ⟨i, prot⟩, s, ⟨hp, rfl⟩, rfl⟩

theorem exists_returns_mapFile {fm : FixedMapper} {s : Pm} (hstart : fm.startAddr ≠ 0)
    (hidx : ∀ i < bytes2pgs fm.fileSize, ∃ prot, fm.index i = some ⟨i, prot⟩)
    (hroom : fm.startAddr + fm.fileSize ≤ s.mapLimit) :
    ∃ s', Returns (mapFile fm true) s fm s' := by
  obtain ⟨s', hs'⟩ := exists_returns_updateMappingProt hidx
    { s with prot := fun _ => defaultMappingProt, vmap := id }
  refine ⟨s', ?_⟩
  unfold mapFile
  refine Returns.bind (returns_get.mpr ⟨rfl, rfl⟩) ?_
  rw [if_neg hstart]
  refine Returns.seq ((returns_when_false hstart).mpr rfl) ?_
  refine Returns.seq (returns_require.mpr ⟨hroom, rfl⟩) ?_
  refine Returns.seq (returns_modify.mpr rfl) ?_
  refine Returns.seq ((returns_when_true rfl).mpr hs') ?_
  exact returns_pure.mpr ⟨rfl, rfl⟩

theorem FixedMapper.Good.exists_takeFree {fm : FixedMapper} {n p : ℕ} {rest : List ℕ}
    (hg : fm.Good n) (hhead : fm.freeHead = p :: rest) :
    ∃ fm', fm.takeFree = .ok (p, fm') ∧ fm'.Good n := by
  cases htake : fm.takeFree with
  | error e =>
    unfold FixedMapper.takeFree at htake
    rw [hhead] at htake
    cases htake
  | ok r =>
    obtain ⟨q, fm'⟩ := r
    obtain ⟨hq, hg', -, -⟩ := hg.takeFree htake
    rw [hhead, List.cons.injEq] at hq
    rw [hq.1]
    exact ⟨fm', rfl, hg'⟩

theorem exists_returns_getpage_fixed {fm : FixedMapper} {n : ℕ} {s : Pm} (flags : Prot)
    (hpa : s.pa = .fixed fm) (hg : fm.Good n)
    (hroom : fm.freeHead = [] → fm.startAddr + 2 * n * pageSize ≤ s.mapLimit) :
    ∃ r s', Returns (pageAllocatorGetpage flags) s r s' := by
  -- the mapper that has a free page, grown or not
  obtain ⟨fm₁, s₁, n₁, p, rest, h₁, hg₁, hhead⟩ : ∃ fm₁ s₁ n₁ p rest,
      Returns (if fm.freeSize = 0 then do
          let fm ← fixedMapperGrowFile fm (fm.fileSize * 2)
          mapFile fm true
        else pure fm) s fm₁ s₁ ∧ fm₁.Good n₁ ∧ fm₁.freeHead = p :: rest := by
    by_cases h0 : fm.freeSize = 0
    · have hhead : fm.freeHead = [] := by
        rw [← List.length_eq_zero_iff, ← hg.freeSize, h0]
      have hg₂ := hg.doubled
      have hsize := hg₂.size
      obtain ⟨s₁, hmap⟩ := @exists_returns_mapFile (fm.doubled n)
        { s with fileLen := max s.fileLen (fm.fileSize + fm.fileSize * 2) } hg₂.start
        (by rw [hg₂.bytes2pgs]; exact hg₂.index) (by rw [hsize]; exact hroom hhead)
      obtain ⟨k, rfl⟩ : ∃ k, n = k + 1 := ⟨n - 1, by have := hg.pos; omega⟩
      refine ⟨_, s₁, _, k + 1, List.range' (k + 1 + 1) k, ?_, hg₂, List.range'_succ ..⟩
      rw [if_pos h0, returns_bind]
      exact ⟨_, _, returns_fixedMapperGrowFile.mpr ⟨hg.growFile h0, rfl⟩, hmap⟩
    · have hne : fm.freeHead ≠ [] := by
        intro hnil
        rw [hg.freeSize, hnil] at h0
        exact h0 rfl
      obtain ⟨p, rest, hhead⟩ := List.exists_cons_of_ne_nil hne
      refine ⟨fm, s, n, p, rest, ?_, hg, hhead⟩
      rw [if_neg h0, returns_pure]
      exact ⟨rfl, rfl⟩
  obtain ⟨fm₂, htake, hg₂⟩ := hg₁.exists_takeFree hhead
  obtain ⟨prot, hidx⟩ := hg₂.index p (hg₁.lt p (by simp [hhead]))
  have hbody : ∃ r s', Returns (fixedMapperAllocPage fm flags) s r s' := by
    unfold fixedMapperAllocPage
    by_cases hw : flags.write = true
    · exact ⟨_, _, Returns.bind h₁ <| Returns.bind (returns_ofResult.mpr ⟨htake, rfl⟩) <|
        Returns.bind (returns_ofOption.mpr ⟨hidx, rfl⟩) <| Returns.seq (returns_modify.mpr rfl) <|
        Returns.seq ((returns_when_true hw).mpr (returns_modify.mpr rfl)) <|
        returns_pure.mpr ⟨rfl, rfl⟩⟩
    · exact ⟨_, _, Returns.bind h₁ <| Returns.bind (returns_ofResult.mpr ⟨htake, rfl⟩) <|
        Returns.bind (returns_ofOption.mpr ⟨hidx, rfl⟩) <| Returns.seq (returns_modify.mpr rfl) <|
        Returns.seq ((returns_when_false hw).mpr rfl) <| returns_pure.mpr ⟨rfl, rfl⟩⟩
  obtain ⟨r, s', hr⟩ := hbody
  refine ⟨r, s', Returns.bind (returns_get.mpr ⟨rfl, rfl⟩) ?_⟩
  rw [hpa]
  exact hr

/-! ## The non-linear mapper -/

theorem Nlm.Good.exists_usePage {nlm : Nlm} {vmap : ℕ → ℕ} {n : ℕ} (hg : nlm.Good vmap n)
    (hne : nlm.freeHead ≠ []) : ∃ p nlm', nlm.usePage = .ok (p, nlm') := by
  obtain ⟨q, rest, hhead⟩ := List.exists_cons_of_ne_nil hne
  cases huse : nlm.usePage with
  | error e =>
    unfold Nlm.usePage at huse
    rw [hhead] at huse
    dsimp only at huse
    rw [if_neg (by rw [hg.isFree q (by simp [hhead])]; simp)] at huse
    cases huse
  | ok r => exact ⟨r.1, r.2, rfl⟩

theorem exists_returns_grow {nlm : Nlm} {n : ℕ} {s : Pm} (hg : nlm.Good s.vmap n)
    (h0 : nlm.freeSize = 0) (hroom : nlm.startAddr + 2 * n * pageSize ≤ s.mapLimit) :
    ∃ s', Returns (do
      let nlm ← nlmGrowFile nlm (nlm.fileSize * 2)
      mapAppending nlm) s (nlm.doubled n) s' := by
  obtain ⟨hhead, hlast⟩ := hg.eq_nil h0
  have hlen : nlm.fileSize * 2 - nlm.fileSize = n * pageSize := by
    rw [hg.size]
    omega
  refine Returns.exists_bind (Returns.seq (returns_require.mpr ⟨h0, rfl⟩)
    (Returns.seq (returns_modify.mpr rfl) (returns_pure.mpr ⟨rfl, rfl⟩))) ?_
  unfold mapAppending
  refine Returns.exists_seq (returns_require.mpr ⟨rfl, rfl⟩) ?_
  refine Returns.exists_bind (returns_get.mpr ⟨rfl, rfl⟩) ?_
  rw [if_neg hg.start]
  refine Returns.exists_seq (returns_mmapAt.mpr ⟨?_, ?_, rfl⟩) ?_
  · have := hg.start
    dsimp only
    omega
  · dsimp only
    rw [hlen, hg.size]
    have : 2 * n * pageSize = n * pageSize + n * pageSize := by
      rw [Nat.mul_assoc, Nat.two_mul]
    omega
  · refine Returns.exists_seq (returns_modify.mpr rfl) ?_
    have hadd := @addPagesToFreeList_eq { nlm with
      fileSize := nlm.fileSize * 2
      prevFileSize := nlm.fileSize
      isFullyMapped := false } hhead h0 hlast
    dsimp only at hadd
    rw [hlen, Nat.mul_div_cancel _ pageSize_pos] at hadd
    rw [if_neg hg.start]
    exact ⟨_, Returns.bind (returns_ofResult.mpr ⟨hadd, rfl⟩) (returns_pure.mpr ⟨rfl, rfl⟩)⟩

theorem exists_returns_getpage_nonlinear {nlm : Nlm} {n : ℕ} {s : Pm} (flags : Prot)
    (hpa : s.pa = .nonlinear nlm) (hg : nlm.Good s.vmap n)
    (hroom : nlm.freeHead = [] → nlm.startAddr + 2 * n * pageSize ≤ s.mapLimit) :
    ∃ r s', Returns (pageAllocatorGetpage flags) s r s' := by
  -- the mapper that has a free page, grown or not
  obtain ⟨nlm₁, s₁, vmap₁, n₁, h₁, hg₁, hne⟩ : ∃ nlm₁ s₁ vmap₁ n₁,
      Returns (if nlm.freeSize = 0 then do
          let nlm ← nlmGrowFile nlm (nlm.fileSize * 2)
          mapAppending nlm
        else pure nlm) s nlm₁ s₁ ∧ nlm₁.Good vmap₁ n₁ ∧ nlm₁.freeHead ≠ [] := by
    by_cases h0 : nlm.freeSize = 0
    · obtain ⟨s₁, hgrow⟩ := exists_returns_grow hg h0 (hroom (hg.eq_nil h0).1)
      have hg₁ := hg.doubled h0
      refine ⟨_, s₁, _, _, ?_, hg₁, fun hnil => ?_⟩
      · rw [if_pos h0]
        exact hgrow
      · have hlen := congrArg List.length hnil
        unfold Nlm.doubled Nlm.withPages at hlen
        rw [List.length_map, List.length_range, List.length_nil] at hlen
        have := hg.pos
        omega
    · refine ⟨nlm, s, s.vmap, n, ?_, hg, fun hnil => ?_⟩
      · rw [if_neg h0]
        exact returns_pure.mpr ⟨rfl, rfl⟩
      · rw [hg.freeSize, hnil] at h0
        exact h0 rfl
  obtain ⟨p, nlm₂, huse⟩ := hg₁.exists_usePage hne
  obtain ⟨q, rest, -, -, -, hmem, hg₂, -⟩ := hg₁.usePage huse
  obtain ⟨k, hk, haddr⟩ := hg₂.exists_addr (List.mem_append_right _ hmem)
  have hvpage : Pm.vpage { s₁ with pa := .nonlinear nlm₂ } p.addr = some k := by
    rw [haddr]
    exact vpage_nonlinear rfl hg₂ hk
  have hbody : ∃ r s', Returns (nlmAllocPage nlm flags) s r s' := by
    unfold nlmAllocPage
    by_cases hw : flags.write = true
    · exact ⟨_, _, Returns.bind h₁ <| Returns.bind (returns_ofResult.mpr ⟨huse, rfl⟩) <|
        Returns.seq (returns_modify.mpr rfl) <| Returns.seq ((returns_when_true hw).mpr
          (returns_pageAllocatorMprotect.mpr ⟨k, hvpage, rfl⟩)) <| returns_pure.mpr ⟨rfl, rfl⟩⟩
    · exact ⟨_, _, Returns.bind h₁ <| Returns.bind (returns_ofResult.mpr ⟨huse, rfl⟩) <|
        Returns.seq (returns_modify.mpr rfl) <| Returns.seq ((returns_when_false hw).mpr rfl) <|
        returns_pure.mpr ⟨rfl, rfl⟩⟩
  obtain ⟨r, s', hr⟩ := hbody
  refine ⟨r, s', Returns.bind (returns_get.mpr ⟨rfl, rfl⟩) ?_⟩
  rw [hpa]
  exact hr

/-! ## Giving back a page -/

theorem FixedMapper.Good.exists_insertFree {fm : FixedMapper} {n p : ℕ} (hg : fm.Good n)
    (hp : p ∉ fm.freeHead) : ∃ fm', fm.insertFree p = .ok fm' := by
  unfold FixedMapper.insertFree
  rw [if_neg hp, hg.freeLast]
  rcases List.eq_nil_or_concat fm.freeHead with hnil | ⟨init, l, hl⟩
  · rw [hnil]
    exact ⟨_, rfl⟩
  · rw [List.concat_eq_append] at hl
    have hnd := hg.nodup
    rw [hl] at hnd ⊢
    have hni : l ∉ init := by
      intro hi
      exact (List.nodup_append.mp hnd).2.2 l hi l (by simp) rfl
    rw [List.getLast?_append, List.getLast?_singleton, Option.some_or]
    dsimp only
    rw [listInsertAfter_last hni]
    exact ⟨_, rfl⟩

theorem exists_returns_freepages_fixed {fm : FixedMapper} {n p : ℕ} {s : Pm} (hpa : s.pa = .fixed fm)
    (hg : fm.Good n) (hal : fm.startAddr % pageSize = 0) (hpn : p < n) (hp : p ∉ fm.freeHead) :
    ∃ s', Returns (pageAllocatorFreepages (fm.startAddr + p * pageSize)) s () s' := by
  obtain ⟨prot, hidx⟩ := hg.index p hpn
  obtain ⟨fm', hins⟩ := hg.exists_insertFree hp
  refine Returns.exists_bind (returns_get.mpr ⟨rfl, rfl⟩) ?_
  rw [hpa]
  refine Returns.exists_seq (returns_require.mpr ⟨?_, rfl⟩) ?_
  · unfold roundDwnPg pageSize at *
    omega
  · refine Returns.exists_seq (returns_require.mpr ⟨Nat.le_add_right _ _, rfl⟩) ?_
    rw [Nat.add_sub_cancel_left, Nat.mul_div_cancel _ pageSize_pos]
    exact ⟨_, Returns.bind (returns_ofOption.mpr ⟨hidx, rfl⟩) <|
      Returns.bind (returns_ofResult.mpr ⟨hins, rfl⟩) <| returns_modify.mpr rfl⟩

theorem exists_returns_freepages_nonlinear {nlm : Nlm} {n : ℕ} {vmap : ℕ → ℕ} {s : Pm} {p : NlmPage}
    (hpa : s.pa = .nonlinear nlm) (hg : nlm.Good vmap n) (hal : p.addr % pageSize = 0)
    (hp : p ∈ nlm.root) (huse : ∀ q ∈ nlm.root, q.isUse = true) :
    ∃ s', Returns (pageAllocatorFreepages p.addr) s () s' := by
  obtain ⟨q, hq⟩ : ∃ q, nlm.root.find? (·.addr == p.addr) = some q := by
    cases hf : nlm.root.find? (·.addr == p.addr) with
    | none => simpa using List.find?_eq_none.mp hf p hp
    | some q => exact ⟨q, rfl⟩
  have hround : roundDwnPg p.addr = p.addr := by
    unfold roundDwnPg pageSize at *
    omega
  have hmem := List.mem_of_find?_eq_some hq
  have hfree : ∃ nlm', nlm.freePage q = .ok nlm' := by
    unfold Nlm.freePage
    rw [if_neg (by rw [huse q hmem]; simp)]
    exact ⟨_, listFree_eq (fun r hr => hg.disjoint hr hmem) hg.freeHead_nodup hg.freeSize
      hg.freeLast⟩
  obtain ⟨nlm', hfree⟩ := hfree
  refine Returns.exists_bind (returns_get.mpr ⟨rfl, rfl⟩) ?_
  rw [hpa]
  unfold nlmFreePages
  rw [hround]
  exact ⟨_, Returns.bind (returns_ofOption.mpr ⟨hq, rfl⟩) <|
    Returns.bind (returns_ofResult.mpr ⟨hfree, rfl⟩) <| returns_modify.mpr rfl⟩

theorem returns_remapFilePages {a pgoff i : ℕ} {s : Pm} (hi : s.vpage a = some i) :
    Returns (remapFilePages a pgoff) s ()
      { s with vmap := Function.update s.vmap i (pgoff / pageSize) } :=
  Returns.bind (returns_get.mpr ⟨rfl, rfl⟩) <|
    Returns.bind (returns_ofOption.mpr ⟨hi, rfl⟩) (returns_modify.mpr rfl)

theorem Pm.Space.exists_returns_swapMappings {nlm : Nlm} {n x y : ℕ} {free : List ℕ} {s : Pm}
    (h : s.Space n free) (hpa : s.pa = .nonlinear nlm) (hx : x < n) (hy : y < n) (ypgoff xpgoff : ℕ) :
    ∃ s', Returns (pageAllocatorSwapMappings (s.addr x) ypgoff (s.addr y) xpgoff) s () s' := by
  refine Returns.exists_bind (returns_get.mpr ⟨rfl, rfl⟩) ?_
  rw [hpa]
  refine Returns.exists_seq (returns_remapFilePages (h.vpage hx)) ?_
  exact Returns.exists_seq (returns_remapFilePages (i := y) (h.vpage hy)) ⟨_, returns_modify.mpr rfl⟩

/-! ## Either mapper -/

namespace Pm.Space

variable {s s' : Pm} {n : ℕ} {free : List ℕ}

/-- A request is answered unless there is no room left for the mapping to double. -/
theorem exists_returns_getpage (h : s.Space n free) (flags : Prot)
    (hroom : free = [] → s.startAddr + 2 * n * pageSize ≤ s.mapLimit) :
    ∃ r s', Returns (pageAllocatorGetpage flags) s r s' := by
  have hs := h.serves
  cases hpa : s.pa with
  | unset =>
    rw [hpa] at hs
    exact hs.elim
  | fixed fm =>
    rw [hpa] at hs
    obtain ⟨hg, hst, rfl, -⟩ := hs
    rw [← hst] at hroom
    exact exists_returns_getpage_fixed flags hpa hg hroom
  | nonlinear nlm =>
    rw [hpa] at hs
    obtain ⟨hg, hst, hfree⟩ := hs
    refine exists_returns_getpage_nonlinear flags hpa hg fun hnil => ?_
    rw [hnil] at hfree
    rw [hst]
    exact hroom (List.map_eq_nil_iff.mp hfree.symm)

theorem room_fixed {fm : FixedMapper} (h : s.Space n free) (hpa : s.pa = .fixed fm) {flags : Prot}
    {r : ℕ × ℕ} (hr : Returns (pageAllocatorGetpage flags) s r s') (hnil : free = []) :
    s.startAddr + 2 * n * pageSize ≤ s.mapLimit := by
  have hs := h.serves
  rw [hpa] at hs
  obtain ⟨hg, hst, hhead, hv⟩ := hs
  obtain ⟨fm', n', p, -, -, ht, -, -, hlim, -⟩ := returns_getpage_fixed hpa hg hv hr
  rcases ht.free with ⟨-, hcons⟩ | ⟨hn, -⟩
  · rw [hhead, hnil] at hcons
    cases hcons
  · have hlim := hlim (by have := hg.pos; omega)
    rwa [ht.start, hst, ht.good.size, hn] at hlim

theorem room_nonlinear {nlm : Nlm} (h : s.Space n free) (hpa : s.pa = .nonlinear nlm) {flags : Prot}
    {r : ℕ × ℕ} (hr : Returns (pageAllocatorGetpage flags) s r s') (hnil : free = []) :
    s.startAddr + 2 * n * pageSize ≤ s.mapLimit := by
  have hs := h.serves
  rw [hpa] at hs
  obtain ⟨hg, hst, hfree⟩ := hs
  have hhead : nlm.freeHead = [] := by
    rw [hnil] at hfree
    exact List.map_eq_nil_iff.mp hfree
  obtain ⟨_, _, _, _, _, _, _, hready, -⟩ := returns_getpage_nonlinear hpa hg hr
  rcases hready with ⟨hne, -⟩ | ⟨-, -, -, -, hle⟩
  · exact (hne hhead).elim
  · rwa [hst] at hle

theorem room (h : s.Space n free) {flags : Prot} {r : ℕ × ℕ}
    (hr : Returns (pageAllocatorGetpage flags) s r s') (hnil : free = []) :
    s.startAddr + 2 * n * pageSize ≤ s.mapLimit := by
  cases hpa : s.pa with
  | unset =>
    have hs := h.serves
    rw [hpa] at hs
    exact hs.elim
  | fixed fm => exact h.room_fixed hpa hr hnil
  | nonlinear nlm => exact h.room_nonlinear hpa hr hnil

end Pm.Space

/-! ## A new file -/

/-- The mapping of a new file fits. -/
theorem room_pageAllocatorInit {kind : MapperKind} {size : ℕ} {s s' : Pm} {u : Unit}
    (h0 : s.fileLen = 0) (hsize : ∃ n, size = n * pageSize)
    (h : Returns (pageAllocatorInit kind size) s u s') : s.mapHint + size ≤ s.mapLimit := by
  cases kind with
  | fixedMapper =>
    unfold pageAllocatorInit fixedMapperInit at h
    simp only [returns_bind, returns_get, returns_modify] at h
    obtain ⟨fm, _, ⟨_, _, ⟨rfl, rfl⟩, fm₁, t, h₁, hmap⟩, -⟩ := h
    rw [if_pos h0, returns_fixedMapperGrowFile, growFile_eq rfl rfl] at h₁
    obtain ⟨hfm, rfl⟩ := h₁
    cases hfm
    obtain ⟨-, -, hle, -⟩ := returns_mapFile_first rfl hmap
    exact hle
  | nonlinearMapper =>
    unfold pageAllocatorInit at h
    simp only [returns_bind, returns_modify] at h
    obtain ⟨nlm, _, hinit, -⟩ := h
    obtain ⟨n, hn⟩ := hsize
    exact (returns_nlmInit_new hn h0 hinit).2.2.1

theorem exists_returns_mapFile_first {fm : FixedMapper} {s : Pm} (h0 : fm.startAddr = 0)
    (hhint : s.mapHint ≠ 0) (hroom : s.mapHint + fm.fileSize ≤ s.mapLimit) :
    ∃ s', Returns (mapFile fm false) s { fm with startAddr := s.mapHint } s' := by
  unfold mapFile
  refine Returns.exists_bind (returns_get.mpr ⟨rfl, rfl⟩) ?_
  rw [if_pos h0]
  refine Returns.exists_seq ((returns_when_true h0).mpr (returns_mmapAt.mpr ⟨hhint, hroom, rfl⟩)) ?_
  refine Returns.exists_seq (returns_require.mpr ⟨hroom, rfl⟩) ?_
  refine Returns.exists_seq (returns_modify.mpr rfl) ?_
  refine Returns.exists_seq ((returns_when_false Bool.false_ne_true).mpr rfl) ?_
  exact ⟨_, returns_pure.mpr ⟨rfl, rfl⟩⟩

theorem exists_returns_nlmInit {size : ℕ} {s : Pm} (h0 : s.fileLen = 0) (hhint : s.mapHint ≠ 0)
    (hroom : s.mapHint + size ≤ s.mapLimit) :
    ∃ s', Returns (nlmInit size) s
      { (⟨size, 0, s.mapHint, false, false, 0, 0, [], none, []⟩ : Nlm).withPages
        ((size - 0) / pageSize) with isFullyMapped := true } s' := by
  have hadd := @addPagesToFreeList_eq ⟨size, 0, s.mapHint, false, false, 0, 0, [], none, []⟩ rfl rfl
    rfl
  refine Returns.exists_bind (returns_get.mpr ⟨rfl, rfl⟩) ?_
  dsimp only
  rw [if_pos h0]
  refine Returns.exists_bind (Returns.seq (returns_require.mpr ⟨rfl, rfl⟩)
    (Returns.seq (returns_modify.mpr rfl) (returns_pure.mpr ⟨rfl, rfl⟩))) ?_
  unfold mapAppending
  refine Returns.exists_seq (returns_require.mpr ⟨rfl, rfl⟩) ?_
  refine Returns.exists_bind (returns_get.mpr ⟨rfl, rfl⟩) ?_
  rw [if_pos rfl]
  refine Returns.exists_seq (returns_mmapAt.mpr ⟨hhint, ?_, rfl⟩) ?_
  · rw [h0]
    exact hroom
  refine Returns.exists_seq (returns_modify.mpr rfl) ?_
  rw [if_pos rfl, h0]
  exact ⟨_, Returns.bind (returns_ofResult.mpr ⟨hadd, rfl⟩) (returns_pure.mpr ⟨rfl, rfl⟩)⟩

theorem exists_returns_pageAllocatorInit (kind : MapperKind) {size : ℕ} {s : Pm}
    (h0 : s.fileLen = 0) (hhint : s.mapHint ≠ 0) (hroom : s.mapHint + size ≤ s.mapLimit) :
    ∃ s', Returns (pageAllocatorInit kind size) s () s' := by
  cases kind with
  | fixedMapper =>
    obtain ⟨fm, hgrow, hstart, hsize⟩ : ∃ fm : FixedMapper,
        FixedMapper.growFile ⟨s.fileLen, 0, 0, [], none, fun _ => none⟩ size = .ok fm ∧
          fm.startAddr = 0 ∧ fm.fileSize = size := ⟨_, growFile_eq rfl rfl, rfl, rfl⟩
    obtain ⟨t, hmap⟩ := @exists_returns_mapFile_first fm
      { s with fileLen := max s.fileLen (s.fileLen + size) } hstart hhint (hsize ▸ hroom)
    have hinit : Returns (fixedMapperInit size) s { fm with startAddr := s.mapHint } t := by
      refine Returns.bind (returns_get.mpr ⟨rfl, rfl⟩) ?_
      dsimp only
      rw [if_pos h0]
      exact Returns.bind (returns_fixedMapperGrowFile.mpr ⟨hgrow, rfl⟩) hmap
    exact Returns.exists_bind hinit ⟨_, returns_modify.mpr rfl⟩
  | nonlinearMapper =>
    obtain ⟨s', h⟩ := exists_returns_nlmInit h0 hhint hroom
    exact Returns.exists_bind h ⟨_, returns_modify.mpr rfl⟩

end LibPM

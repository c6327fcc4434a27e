import LibPM.Model.Mapper

/-!
# The fixed mapper

Closed forms for the loops of fixmapper.c: what growing the file, protecting the whole mapping,
taking a page and giving one back leave.
-/

namespace LibPM

open Recorded Recorded.Prog

/-! ## Growing the file -/

theorem listInsertAfter_last {p x : ℕ} {l : List ℕ} (hx : x ∉ l) :
    listInsertAfter (· == x) p (l ++ [x]) = .ok (l ++ [x, p]) := by
  induction l with
  | nil => simp [listInsertAfter]
  | cons y l ih =>
    have hy : y ≠ x := fun h => hx (by simp [h])
    have hl : x ∉ l := fun h => hx (by simp [h])
    rw [List.cons_append, listInsertAfter, ih hl]
    simp [hy, Functor.map, Except.map]

/-- The index and the free list once `k` pages were added from page `cur` on. -/
def FixedMapper.withPages (fm : FixedMapper) (cur k : ℕ) : FixedMapper :=
  { fm with
    index := fun i => if cur ≤ i ∧ i < cur + k then some (fixedPageAlloc i) else fm.index i
    freeHead := List.range' cur k
    freeSize := k
    freeLast := some (cur + k - 1) }

theorem addPage_withPages (fm : FixedMapper) (cur k : ℕ) :
    (fm.withPages cur (k + 1)).addPage (cur + 1 + k) = .ok (fm.withPages cur (k + 2)) := by
  have hmem : cur + k ∉ List.range' cur k := by
    rw [List.mem_range'_1]
    omega
  have hins := listInsertAfter_last (p := cur + 1 + k) hmem
  have h₁ : List.range' cur (k + 1) = List.range' cur k ++ [cur + k] := by
    rw [List.range'_concat, Nat.one_mul]
  have h₂ : List.range' cur (k + 2) = List.range' cur k ++ [cur + k, cur + 1 + k] := by
    rw [List.range'_concat, h₁, Nat.one_mul, Nat.add_right_comm cur 1 k]
    simp [Nat.add_assoc]
  unfold FixedMapper.addPage FixedMapper.withPages
  simp only [show cur + (k + 1) - 1 = cur + k by omega, h₁, bind, Except.bind, hins, pure,
    Except.pure, h₂]
  congr 2
  · exact congrArg some (by omega)
  · funext i
    rw [Function.update_apply]
    by_cases hi : i = cur + 1 + k
    · rw [if_pos hi, if_pos (by omega), hi]
    · rw [if_neg hi]
      exact if_congr (by omega) rfl rfl

theorem foldlM_addPage (fm : FixedMapper) (cur k : ℕ) :
    (List.range' (cur + 1) k).foldlM FixedMapper.addPage (fm.withPages cur 1) =
      .ok (fm.withPages cur (k + 1)) := by
  induction k with
  | zero => rfl
  | succ k ih =>
    rw [List.range'_concat, List.foldlM_append, ih]
    show (fm.withPages cur (k + 1)).addPage (cur + 1 + 1 * k) >>= _ = _
    rw [Nat.one_mul, addPage_withPages]
    rfl

/-- **Growing** a file with no free page adds its new pages, in order. -/
theorem growFile_eq {fm : FixedMapper} {newSize : ℕ} (hsize : fm.freeSize = 0)
    (hhead : fm.freeHead = []) :
    fm.growFile newSize =
      .ok { fm.withPages (bytes2pgs fm.fileSize)
        (bytes2pgs newSize - (bytes2pgs fm.fileSize + 1) + 1) with fileSize := newSize } := by
  have hone : ({ fm with
      index := Function.update fm.index (bytes2pgs fm.fileSize)
        (some (fixedPageAlloc (bytes2pgs fm.fileSize)))
      freeHead := bytes2pgs fm.fileSize :: fm.freeHead
      freeLast := some (bytes2pgs fm.fileSize)
      freeSize := fm.freeSize + 1 } : FixedMapper) = fm.withPages (bytes2pgs fm.fileSize) 1 := by
    unfold FixedMapper.withPages
    congr 1
    · rw [hsize]
    · rw [hhead]; rfl
    · funext i
      rw [Function.update_apply]
      by_cases hi : i = bytes2pgs fm.fileSize
      · rw [if_pos hi, if_pos (by omega), hi]
      · rw [if_neg hi, if_neg (by omega)]
  unfold FixedMapper.growFile
  rw [if_neg (by simp [hsize])]
  simp only [hone, foldlM_addPage]
  rfl

@[simp] theorem returns_fixedMapperGrowFile {fm fm' : FixedMapper} {newSize : ℕ} {s s' : Pm} :
    Returns (fixedMapperGrowFile fm newSize) s fm' s' ↔
      fm.growFile newSize = .ok fm' ∧
        { s with fileLen := max s.fileLen (fm.fileSize + newSize) } = s' := by
  unfold fixedMapperGrowFile posixFallocate
  simp only [returns_bind, returns_ofResult, returns_modify, returns_pure]
  constructor
  · rintro ⟨_, _, ⟨h, rfl⟩, _, _, rfl, rfl, rfl⟩
    exact ⟨h, rfl⟩
  · rintro ⟨h, rfl⟩
    exact ⟨fm', s, ⟨h, rfl⟩, (), _, rfl, rfl, rfl⟩

/-! ## Protecting the whole mapping -/

/-- Protecting pages one by one changes nothing but protections. -/
theorem returns_forM_updatePageProt {fm : FixedMapper} {l : List ℕ} {s s' : Pm} {u : Unit}
    (h : Returns (l.forM (updatePageProt fm)) s u s') :
    (∀ i ∈ l, fm.index i ≠ none) ∧ ∃ prot, s' = { s with prot := prot } := by
  induction l generalizing s with
  | nil => exact ⟨by simp, s.prot, (returns_forM_nil.mp h).symm⟩
  | cons i l ih =>
    obtain ⟨t, hi, hl⟩ := returns_forM_cons.mp h
    unfold updatePageProt at hi
    simp only [returns_bind, returns_ofOption, returns_modify] at hi
    obtain ⟨p, _, ⟨hp, rfl⟩, rfl⟩ := hi
    obtain ⟨hall, prot, rfl⟩ := ih hl
    refine ⟨?_, prot, rfl⟩
    intro j hj
    rcases List.mem_cons.mp hj with rfl | hj
    · simp [hp]
    · exact hall j hj

theorem returns_updateMappingProt {fm : FixedMapper} {s s' : Pm} {u : Unit}
    (h : Returns (updateMappingProt fm) s u s') :
    (∀ i < bytes2pgs fm.fileSize, fm.index i ≠ none) ∧ ∃ prot, s' = { s with prot := prot } := by
  obtain ⟨hall, h⟩ := returns_forM_updatePageProt h
  exact ⟨fun i hi => hall i (List.mem_range.mpr hi), h⟩

/-- Mapping the file again, at the address it has. -/
theorem returns_mapFile_again {fm fm' : FixedMapper} {s s' : Pm}
    (h : Returns (mapFile fm true) s fm' s') (h0 : fm.startAddr ≠ 0) :
    fm' = fm ∧ fm.startAddr + fm.fileSize ≤ s.mapLimit ∧
      (∀ i < bytes2pgs fm.fileSize, fm.index i ≠ none) ∧
      ∃ prot, s' = { s with prot := prot, vmap := id } := by
  unfold mapFile at h
  simp only [returns_bind, returns_get, returns_modify, returns_pure, returns_require, h0, if_false,
    not_false_eq_true, returns_when_false, returns_when_true] at h
  obtain ⟨_, _, ⟨rfl, rfl⟩, _, _, rfl, _, _, ⟨hle, rfl⟩, _, _, rfl, _, _, hu, rfl, rfl⟩ := h
  obtain ⟨hall, prot, rfl⟩ := returns_updateMappingProt hu
  exact ⟨rfl, hle, hall, prot, rfl⟩

/-- The protection of a page in the index. -/
def FixedMapper.protOf (fm : FixedMapper) (i : ℕ) : Prot :=
  match fm.index i with
  | some p => p.protFlags
  | none => defaultMappingProt

theorem returns_forM_updatePageProt_eq {fm : FixedMapper} {l : List ℕ} {s s' : Pm} {u : Unit}
    (hidx : ∀ i ∈ l, ∃ prot, fm.index i = some ⟨i, prot⟩)
    (h : Returns (l.forM (updatePageProt fm)) s u s') :
    s' = { s with prot := fun i => if i ∈ l then fm.protOf i else s.prot i } := by
  induction l generalizing s with
  | nil =>
    rw [← returns_forM_nil.mp h]
    simp
  | cons i l ih =>
    obtain ⟨t, hi, hl⟩ := returns_forM_cons.mp h
    unfold updatePageProt at hi
    simp only [returns_bind, returns_ofOption, returns_modify] at hi
    obtain ⟨p, _, ⟨hp, rfl⟩, rfl⟩ := hi
    obtain ⟨prot, hp'⟩ := hidx i (by simp)
    rw [ih (fun j hj => hidx j (by simp [hj])) hl]
    rw [hp', Option.some.injEq] at hp
    subst hp
    have hof : fm.protOf i = prot := by
      unfold FixedMapper.protOf
      rw [hp']
    congr 1
    funext j
    dsimp only
    by_cases hji : j = i
    · subst hji
      rw [if_pos List.mem_cons_self, Function.update_self, hof, ite_self]
    · rw [Function.update_of_ne hji]
      simp only [List.mem_cons, hji, false_or]

/-- Mapping the file for the first time. -/
theorem returns_mapFile_first {fm fm' : FixedMapper} {s s' : Pm} (h0 : fm.startAddr = 0)
    (h : Returns (mapFile fm false) s fm' s') :
    fm' = { fm with startAddr := s.mapHint } ∧ s.mapHint ≠ 0 ∧
      s.mapHint + fm.fileSize ≤ s.mapLimit ∧
      s' = { s with prot := fun _ => defaultMappingProt, vmap := id } := by
  unfold mapFile at h
  simp only [returns_bind, returns_get, returns_modify, returns_pure, returns_require, h0, if_true,
    returns_when_true, returns_mmapAt, Bool.false_eq_true, not_false_eq_true,
    returns_when_false] at h
  obtain ⟨_, _, ⟨rfl, rfl⟩, _, _, ⟨hne, -, rfl⟩, _, _, ⟨hle, rfl⟩, _, _, rfl, _, _, rfl, rfl, rfl⟩ := h
  exact ⟨rfl, hne, hle, rfl⟩

/-! ## Taking and giving back pages -/

/-- The mapper of a session on `n` pages: every slot of the index is written, the free list holds
pages of the file, each once, and its length and last element are recorded. -/
structure FixedMapper.Good (fm : FixedMapper) (n : ℕ) : Prop where
  pos : 0 < n
  size : fm.fileSize = n * pageSize
  start : fm.startAddr ≠ 0
  index : ∀ i < n, ∃ prot, fm.index i = some ⟨i, prot⟩
  nodup : fm.freeHead.Nodup
  lt : ∀ p ∈ fm.freeHead, p < n
  freeSize : fm.freeSize = fm.freeHead.length
  freeLast : fm.freeLast = fm.freeHead.getLast?

theorem FixedMapper.Good.bytes2pgs {fm : FixedMapper} {n : ℕ} (hg : fm.Good n) :
    bytes2pgs fm.fileSize = n := by
  unfold LibPM.bytes2pgs
  rw [hg.size, Nat.mul_div_cancel _ pageSize_pos]

theorem getLast?_range' (a k : ℕ) : (List.range' a (k + 1)).getLast? = some (a + k) := by
  rw [List.range'_concat, Nat.one_mul, List.getLast?_append]
  rfl

/-- The mapper of a file that was just made has every page on its free list. -/
theorem good_first {fm : FixedMapper} {hint size n : ℕ} (hne : hint ≠ 0) (hn : 0 < n)
    (hsize : size = n * pageSize) :
    ({ fm.withPages 0 n with
      fileSize := size
      startAddr := hint } : FixedMapper).Good n := by
  refine ⟨hn, hsize, hne, ?_, List.nodup_range' .., ?_, (List.length_range' ..).symm, ?_⟩
  · intro i hi
    refine ⟨defaultMappingProt, ?_⟩
    show (if 0 ≤ i ∧ i < 0 + n then some (fixedPageAlloc i) else _) = _
    rw [if_pos (by omega)]
    rfl
  · intro p hp
    have := (List.mem_range'_1.mp hp).2
    omega
  · obtain ⟨k, rfl⟩ : ∃ k, n = k + 1 := ⟨n - 1, by omega⟩
    show some _ = (List.range' 0 (k + 1)).getLast?
    rw [getLast?_range']
    exact congrArg some (by omega)

/-- The mapper after the file doubled. -/
def FixedMapper.doubled (fm : FixedMapper) (n : ℕ) : FixedMapper :=
  { fm.withPages n n with fileSize := fm.fileSize * 2 }

theorem FixedMapper.Good.growFile {fm : FixedMapper} {n : ℕ} (hg : fm.Good n)
    (h : fm.freeSize = 0) : fm.growFile (fm.fileSize * 2) = .ok (fm.doubled n) := by
  have hhead : fm.freeHead = [] := by
    rw [← List.length_eq_zero_iff, ← hg.freeSize, h]
  have hn : LibPM.bytes2pgs (fm.fileSize * 2) - (n + 1) + 1 = n := by
    have := hg.pos
    unfold LibPM.bytes2pgs
    rw [hg.size, Nat.mul_right_comm, Nat.mul_div_cancel _ pageSize_pos]
    omega
  rw [growFile_eq h hhead, hg.bytes2pgs, hn]
  rfl

theorem FixedMapper.Good.doubled {fm : FixedMapper} {n : ℕ} (hg : fm.Good n) :
    (fm.doubled n).Good (2 * n) where
  pos := by have := hg.pos; omega
  size := by
    show fm.fileSize * 2 = _
    rw [hg.size, Nat.mul_comm, Nat.mul_assoc]
  start := hg.start
  index i hi := by
    show ∃ prot, (if n ≤ i ∧ i < n + n then some (fixedPageAlloc i) else fm.index i) = _
    by_cases h : n ≤ i
    · rw [if_pos (by omega)]
      exact ⟨_, rfl⟩
    · rw [if_neg (by omega)]
      exact hg.index i (by omega)
  nodup := List.nodup_range' ..
  lt p hp := by
    have := (List.mem_range'_1.mp hp).2
    omega
  freeSize := (List.length_range' ..).symm
  freeLast := by
    obtain ⟨k, rfl⟩ : ∃ k, n = k + 1 := ⟨n - 1, by have := hg.pos; omega⟩
    show some _ = (List.range' (k + 1) (k + 1)).getLast?
    rw [getLast?_range']
    exact congrArg some (by omega)

/-- Taking the head of the free list. -/
theorem FixedMapper.Good.takeFree {fm fm' : FixedMapper} {n p : ℕ} (hg : fm.Good n)
    (h : fm.takeFree = .ok (p, fm')) :
    fm.freeHead = p :: fm'.freeHead ∧ fm'.Good n ∧ fm'.startAddr = fm.startAddr ∧ p < n := by
  unfold FixedMapper.takeFree at h
  cases hl : fm.freeHead with
  | nil => rw [hl] at h; cases h
  | cons q rest =>
    rw [hl] at h
    cases h
    have hnd := hg.nodup
    have hfs := hg.freeSize
    have hfl := hg.freeLast
    have hlt := hg.lt
    rw [hl] at hnd hfs hfl hlt
    refine ⟨rfl, ?_, rfl, hlt p (by simp)⟩
    refine ⟨hg.pos, hg.size, hg.start, hg.index, (List.nodup_cons.mp hnd).2,
      fun x hx => hlt x (by simp [hx]), ?_, ?_⟩
    · simp [hfs]
    · cases rest with
      | nil => simp [hfs]
      | cons y rest => simp [hfs, hfl]

theorem takeFree_index {fm fm' : FixedMapper} {p : ℕ} (h : fm.takeFree = .ok (p, fm')) :
    fm'.index = fm.index := by
  unfold FixedMapper.takeFree at h
  cases hl : fm.freeHead with
  | nil => rw [hl] at h; cases h
  | cons q rest =>
    rw [hl] at h
    cases h
    rfl

theorem FixedMapper.Good.setProt {fm : FixedMapper} {n p : ℕ} (hg : fm.Good n) (flags : Prot) :
    ({ fm with index := Function.update fm.index p (some ⟨p, flags⟩) } : FixedMapper).Good n := by
  refine ⟨hg.pos, hg.size, hg.start, fun i hi => ?_, hg.nodup, hg.lt, hg.freeSize, hg.freeLast⟩
  show ∃ prot, Function.update fm.index p (some ⟨p, flags⟩) i = _
  by_cases h : i = p
  · exact ⟨flags, by rw [h, Function.update_self]⟩
  · rw [Function.update_of_ne h]
    exact hg.index i hi

/-- What a page taken from the mapper leaves: the head of the free list, or the first page of the
part by which the file grew. -/
structure FixedMapper.Takes (fm fm' : FixedMapper) (n n' p : ℕ) : Prop where
  good : fm'.Good n'
  start : fm'.startAddr = fm.startAddr
  lt : p < n'
  free : (n' = n ∧ fm.freeHead = p :: fm'.freeHead) ∨
    (n' = 2 * n ∧ fm.freeHead = [] ∧ p :: fm'.freeHead = List.range' n n)

/-- The protections once the file was mapped again, if it was. -/
def FixedMapper.remapped (fm : FixedMapper) (prot : ℕ → Prot) (n n' : ℕ) : ℕ → Prot :=
  if n' = n then prot else fun i => if i < n then fm.protOf i else defaultMappingProt

/-- What the mapper does to protections, in the index and in the mapping. -/
structure FixedMapper.Protects (fm fm' : FixedMapper) (flags : Prot) (prot prot' : ℕ → Prot)
    (n n' p : ℕ) : Prop where
  index : ∀ q < n, q ≠ p → fm'.index q = fm.index q
  fresh : ∀ q, n ≤ q → q < n' → q ≠ p → fm'.index q = some (fixedPageAlloc q)
  taken : fm'.index p = some ⟨p, flags⟩
  prot : prot' = if flags.write = true then Function.update (fm.remapped prot n n') p flags
    else fm.remapped prot n n'

theorem returns_mapFile_doubled {fm fm' : FixedMapper} {n : ℕ} {s s' : Pm} (hg : fm.Good n)
    (h : Returns (mapFile (fm.doubled n) true) s fm' s') :
    fm' = fm.doubled n ∧ fm.startAddr + (fm.doubled n).fileSize ≤ s.mapLimit ∧
      s' = { s with prot := fm.remapped s.prot n (2 * n), vmap := id } := by
  unfold mapFile at h
  have h0 : (fm.doubled n).startAddr ≠ 0 := hg.start
  simp only [returns_bind, returns_get, returns_modify, returns_pure, returns_require, h0, if_false,
    not_false_eq_true, returns_when_false, returns_when_true] at h
  obtain ⟨_, _, ⟨rfl, rfl⟩, _, _, rfl, _, _, ⟨hle, rfl⟩, _, _, rfl, _, _, hu, rfl, rfl⟩ := h
  refine ⟨rfl, hle, ?_⟩
  unfold updateMappingProt at hu
  rw [hg.doubled.bytes2pgs] at hu
  have hu := returns_forM_updatePageProt_eq
    (fun i hi => hg.doubled.index i (List.mem_range.mp hi)) hu
  rw [hu]
  have hn : 2 * n ≠ n := by
    have := hg.pos
    omega
  unfold FixedMapper.remapped
  rw [if_neg hn]
  congr 1
  funext i
  simp only [List.mem_range]
  by_cases hi : i < n
  · rw [if_pos (by omega), if_pos hi]
    unfold FixedMapper.protOf
    show (match (if n ≤ i ∧ i < n + n then some (fixedPageAlloc i) else fm.index i) with
      | some p => p.protFlags
      | none => defaultMappingProt) = _
    rw [if_neg (by omega)]
  · rw [if_neg hi]
    split_ifs with hi2
    · unfold FixedMapper.protOf
      show (match (if n ≤ i ∧ i < n + n then some (fixedPageAlloc i) else fm.index i) with
        | some p => p.protFlags
        | none => defaultMappingProt) = _
      rw [if_pos (by omega)]
      rfl
    · rfl

theorem returns_fixedMapperAllocPage {fm : FixedMapper} {n : ℕ} {flags : Prot} {s s' : Pm}
    {maddr laddr : ℕ} (hg : fm.Good n) (hv : s.vmap = id)
    (h : Returns (fixedMapperAllocPage fm flags) s (maddr, laddr) s') :
    ∃ fm' n' p prot len, fm.Takes fm' n n' p ∧ maddr = fm.startAddr + p * pageSize ∧
      laddr = p * pageSize ∧ (n' ≠ n → fm'.startAddr + fm'.fileSize ≤ s.mapLimit) ∧
      fm.Protects fm' flags s.prot prot n n' p ∧
      s' = { s with pa := .fixed fm', prot := prot, fileLen := len, vmap := id } := by
  unfold fixedMapperAllocPage at h
  rw [returns_bind] at h
  obtain ⟨fm₁, s₁, h₁, h⟩ := h
  -- the mapper that has a free page, grown or not
  obtain ⟨n', len, hg₁, hst₁, hs₁, hlim, hidx₁, hnew₁, hcase⟩ : ∃ n' len, fm₁.Good n' ∧
      fm₁.startAddr = fm.startAddr ∧
      s₁ = { s with prot := fm.remapped s.prot n n', fileLen := len, vmap := id } ∧
      (n' ≠ n → fm₁.startAddr + fm₁.fileSize ≤ s.mapLimit) ∧
      (∀ q < n, fm₁.index q = fm.index q) ∧
      (∀ q, n ≤ q → q < n' → fm₁.index q = some (fixedPageAlloc q)) ∧
      ((n' = n ∧ fm₁ = fm) ∨
        (n' = 2 * n ∧ fm.freeHead = [] ∧ fm₁.freeHead = List.range' n n)) := by
    by_cases h0 : fm.freeSize = 0
    · rw [if_pos h0, returns_bind] at h₁
      obtain ⟨fm₂, s₂, hgrow, hmap⟩ := h₁
      rw [returns_fixedMapperGrowFile, hg.growFile h0] at hgrow
      obtain ⟨hfm, rfl⟩ := hgrow
      cases hfm
      obtain ⟨rfl, hle, rfl⟩ := returns_mapFile_doubled hg hmap
      have hhead : fm.freeHead = [] := by
        rw [← List.length_eq_zero_iff, ← hg.freeSize, h0]
      exact ⟨_, _, hg.doubled, rfl, rfl, fun _ => hle,
        fun q hq => if_neg (by omega), fun q hq hq' => if_pos (by omega), .inr ⟨rfl, hhead, rfl⟩⟩
    · rw [if_neg h0, returns_pure] at h₁
      obtain ⟨rfl, rfl⟩ := h₁
      refine ⟨n, s.fileLen, hg, rfl, ?_, fun h => (h rfl).elim, fun _ _ => rfl,
        fun q hq hq' => (Nat.not_lt.mpr hq hq').elim, .inl ⟨rfl, rfl⟩⟩
      unfold FixedMapper.remapped
      rw [if_pos rfl, ← hv]
  simp only [returns_bind, returns_ofResult, returns_ofOption, returns_modify, returns_pure] at h
  obtain ⟨⟨p, fm₂⟩, _, ⟨htake, rfl⟩, page, _, ⟨hpage, rfl⟩, _, _, rfl, _, t, hw, hr, rfl⟩ := h
  cases hr
  obtain ⟨hhead, hg₂, hst₂, hp⟩ := hg₁.takeFree htake
  have hidx₂ := takeFree_index htake
  obtain ⟨prot, hidx⟩ := hg₂.index p hp
  rw [hidx, Option.some.injEq] at hpage
  subst hpage
  have hgood := hg₂.setProt (p := p) flags
  have hfree : (n' = n ∧ fm.freeHead = p :: fm₂.freeHead) ∨
      (n' = 2 * n ∧ fm.freeHead = [] ∧ p :: fm₂.freeHead = List.range' n n) := by
    rcases hcase with ⟨hn, rfl⟩ | ⟨hn, hnil, hrange⟩
    · exact .inl ⟨hn, hhead⟩
    · exact .inr ⟨hn, hnil, hhead ▸ hrange⟩
  have hsize : fm₂.fileSize = fm₁.fileSize := hg₂.size.trans hg₁.size.symm
  have htakes : fm.Takes _ n n' p := ⟨hgood, hst₂.trans hst₁, hp, hfree⟩
  have hlim' : n' ≠ n → fm₂.startAddr + fm₂.fileSize ≤ s.mapLimit := by rwa [hst₂, hsize]
  have hindex : ∀ q < n, q ≠ p →
      Function.update fm₂.index p (some ⟨p, flags⟩) q = fm.index q := by
    intro q hq hqp
    rw [Function.update_of_ne hqp, hidx₂, hidx₁ q hq]
  have hfresh : ∀ q, n ≤ q → q < n' → q ≠ p →
      Function.update fm₂.index p (some ⟨p, flags⟩) q = some (fixedPageAlloc q) := by
    intro q hq hq' hqp
    rw [Function.update_of_ne hqp, hidx₂, hnew₁ q hq hq']
  have htaken : Function.update fm₂.index p (some ⟨p, flags⟩) p = some ⟨p, flags⟩ :=
    Function.update_self ..
  subst hs₁
  rw [returns_when] at hw
  rcases hw with ⟨hf, hw⟩ | ⟨hf, rfl⟩
  · rw [returns_modify] at hw
    exact ⟨_, _, p, _, _, htakes, by rw [hst₂, hst₁], rfl, hlim',
      ⟨hindex, hfresh, htaken, (if_pos hf).symm⟩, hw.symm⟩
  · exact ⟨_, _, p, _, _, htakes, by rw [hst₂, hst₁], rfl, hlim',
      ⟨hindex, hfresh, htaken, (if_neg hf).symm⟩, rfl⟩

/-- **A page from the fixed mapper** was free, or new; nothing but the allocator, the protections
and the length of the file changes. -/
theorem returns_getpage_fixed {fm : FixedMapper} {n : ℕ} {flags : Prot} {s s' : Pm}
    {maddr laddr : ℕ} (hpa : s.pa = .fixed fm) (hg : fm.Good n) (hv : s.vmap = id)
    (h : Returns (pageAllocatorGetpage flags) s (maddr, laddr) s') :
    ∃ fm' n' p prot len, fm.Takes fm' n n' p ∧ maddr = fm.startAddr + p * pageSize ∧
      laddr = p * pageSize ∧ (n' ≠ n → fm'.startAddr + fm'.fileSize ≤ s.mapLimit) ∧
      fm.Protects fm' flags s.prot prot n n' p ∧
      s' = { s with pa := .fixed fm', prot := prot, fileLen := len, vmap := id } := by
  unfold pageAllocatorGetpage at h
  rw [returns_bind] at h
  obtain ⟨_, _, hget, h⟩ := h
  rw [returns_get] at hget
  obtain ⟨rfl, rfl⟩ := hget
  rw [hpa] at h
  exact returns_fixedMapperAllocPage hg hv h

theorem FixedMapper.Good.insertFree {fm fm' : FixedMapper} {n p : ℕ} (hg : fm.Good n)
    (hp : p < n) (h : fm.insertFree p = .ok fm') :
    p ∉ fm.freeHead ∧ fm'.Good n ∧ fm'.startAddr = fm.startAddr ∧
      fm'.freeHead = fm.freeHead ++ [p] ∧ fm'.index = fm.index := by
  unfold FixedMapper.insertFree at h
  split_ifs at h with hmem
  rw [bind_eq_ok] at h
  obtain ⟨head, hhead, h⟩ := h
  cases h
  have happ : head = fm.freeHead ++ [p] := by
    rw [hg.freeLast] at hhead
    rcases List.eq_nil_or_concat fm.freeHead with hnil | ⟨init, l, hl⟩
    · rw [hnil] at hhead ⊢
      cases hhead
      rfl
    · rw [List.concat_eq_append] at hl
      have hnd := hg.nodup
      rw [hl] at hhead hnd ⊢
      have hni : l ∉ init := by
        intro hi
        exact (List.nodup_append.mp hnd).2.2 l hi l (by simp) rfl
      rw [List.getLast?_append, List.getLast?_singleton, Option.some_or] at hhead
      have hins := listInsertAfter_last (p := p) hni
      rw [show listInsertAfter (· == l) p (init ++ [l]) = .ok head from hhead] at hins
      cases hins
      simp
  subst happ
  refine ⟨hmem, ⟨hg.pos, hg.size, hg.start, hg.index, ?_, ?_, ?_, ?_⟩, rfl, rfl, rfl⟩
  · rw [List.nodup_append]
    refine ⟨hg.nodup, by simp, ?_⟩
    intro x hx y hy hxy
    rw [List.mem_singleton] at hy
    exact hmem (hy ▸ hxy ▸ hx)
  · intro x hx
    rcases List.mem_append.mp hx with hx | hx
    · exact hg.lt x hx
    · rw [List.mem_singleton] at hx
      omega
  · simp [hg.freeSize]
  · simp

/-- **A page given back** was not free, and is the last one of the free list afterwards. -/
theorem returns_freepages_fixed {fm : FixedMapper} {n p : ℕ} {s s' : Pm} {u : Unit}
    (hpa : s.pa = .fixed fm) (hg : fm.Good n) (hp : p < n)
    (h : Returns (pageAllocatorFreepages (fm.startAddr + p * pageSize)) s u s') :
    p ∉ fm.freeHead ∧ ∃ fm', fm'.Good n ∧ fm'.startAddr = fm.startAddr ∧
      fm'.freeHead = fm.freeHead ++ [p] ∧ fm'.index = fm.index ∧
      s' = { s with pa := .fixed fm' } := by
  unfold pageAllocatorFreepages at h
  rw [returns_bind] at h
  obtain ⟨_, _, hget, h⟩ := h
  rw [returns_get] at hget
  obtain ⟨rfl, rfl⟩ := hget
  rw [hpa] at h
  unfold fixedMapperFreepages at h
  simp only [returns_bind, returns_require, returns_ofOption, returns_ofResult,
    returns_modify] at h
  obtain ⟨_, _, ⟨-, rfl⟩, _, _, ⟨-, rfl⟩, page, _, ⟨hpage, rfl⟩, fm', _, ⟨hins, rfl⟩, rfl⟩ := h
  rw [Nat.add_sub_cancel_left, Nat.mul_div_cancel _ pageSize_pos] at hpage
  obtain ⟨prot, hidx⟩ := hg.index p hp
  rw [hidx, Option.some.injEq] at hpage
  subst hpage
  obtain ⟨hmem, hg', hst, hhead, hindex⟩ := hg.insertFree hp hins
  exact ⟨hmem, fm', hg', hst, hhead, hindex, rfl⟩

end LibPM

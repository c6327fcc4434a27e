import LibPM.Model.Vector
import LibPM.Recorded.Ends

/-!
# Vectors and the loop over them

`VectorMem.Holds H s v` says that the memory `s` holds the vector `v`, so each macro has the function of the same
name on `CVector` for its meaning. The capacity is 0 or a power of two that is less than twice the size
(`CVector.Doubling`), which decides whether the slot behind the last element exists: `VECTOR_FOREACH` reads it.
-/

namespace LibPM

open Recorded Recorded.Prog

variable {α : Type} {H : CHeap α}

/-! ## Capacities -/

namespace CVector

variable {v : CVector α}

/-- The capacities that doubling leads to. -/
def Doubling (v : CVector α) : Prop :=
  v.capacity = 0 ∧ v.items = [] ∨
    ∃ k, v.capacity = 2 ^ (k + 1) ∧ v.size ≤ 2 ^ (k + 1) ∧ (k = 0 ∨ 2 ^ k < v.size)

theorem doubling_init : (init : CVector α).Doubling := .inr ⟨0, rfl, Nat.zero_le _, .inl rfl⟩

theorem doubling_free : (free : CVector α).Doubling := .inl ⟨rfl, rfl⟩

theorem size_append (v : CVector α) (x : α) : (v.append x).size = v.size + 1 := by
  unfold size
  rw [items_append, List.length_append, List.length_singleton]

theorem capacity_append (v : CVector α) (x : α) :
    (v.append x).capacity = if v.size = v.capacity then max initSize (v.capacity * 2) else v.capacity := rfl

theorem Doubling.append (h : v.Doubling) (x : α) : (v.append x).Doubling := by
  right
  rw [size_append, capacity_append]
  rcases h with ⟨hc, hi⟩ | ⟨k, hc, hs, hk⟩
  · have h0 : v.size = 0 := by unfold size; rw [hi]; rfl
    refine ⟨0, ?_, by rw [h0]; decide, .inl rfl⟩
    rw [if_pos (h0.trans hc.symm), hc]
    rfl
  · have hpow : 2 ^ (k + 1) = 2 ^ k * 2 := Nat.pow_succ 2 k
    have hpos : 0 < 2 ^ k := Nat.two_pow_pos k
    by_cases hfull : v.size = v.capacity
    · refine ⟨k + 1, ?_, ?_, .inr ?_⟩
      · rw [if_pos hfull, hc, Nat.pow_succ 2 (k + 1)]
        unfold initSize
        omega
      · rw [Nat.pow_succ 2 (k + 1)]
        omega
      · omega
    · refine ⟨k, ?_, by omega, ?_⟩
      · rw [if_neg hfull, hc]
      · omega

theorem Doubling.size_le (h : v.Doubling) : v.size ≤ v.capacity := by
  rcases h with ⟨hc, hi⟩ | ⟨k, hc, hs, -⟩
  · unfold size
    rw [hi]
    exact Nat.zero_le _
  · rw [hc]
    exact hs

/-- A full vector has a power of two of elements, or none. -/
theorem Doubling.size_eq_capacity_iff (h : v.Doubling) (hne : v.size ≠ 0) :
    v.size = v.capacity ↔ ∃ k, v.size = 2 ^ (k + 1) := by
  rcases h with ⟨-, hi⟩ | ⟨k, hc, hs, hk⟩
  · unfold size at hne
    rw [hi] at hne
    exact absurd rfl hne
  · constructor
    · intro he
      exact ⟨k, he.trans hc⟩
    · rintro ⟨j, hj⟩
      rw [hj] at hs hk ⊢
      rw [hc]
      have hle : j + 1 ≤ k + 1 := (Nat.pow_le_pow_iff_right (by decide)).mp hs
      have hge : k < j + 1 := by
        rcases hk with rfl | hk
        · exact Nat.succ_pos j
        · exact (Nat.pow_lt_pow_iff_right (by decide)).mp hk
      rw [show j = k by omega]

end CVector

/-! ## The buffer -/

namespace CHeap

variable {n c bytes : ℕ} {cells old : List α}

theorem length_realloc {o : Option (List α)} (h : H.realloc n o bytes = some cells) :
    cells.length = bytes / H.sizeof ∧ bytes < 2 ^ 63 := by
  unfold realloc at h
  obtain ⟨fresh, hf, rfl⟩ := Option.map_eq_some_iff.mp h
  have hlen := H.length_malloc hf
  refine ⟨?_, H.malloc_lt hf⟩
  rw [List.length_append, List.length_drop, List.length_take]
  omega

/-- Cells that fit the new block are kept. -/
theorem prefix_realloc {xs : List α} (h : H.realloc n (some old) bytes = some cells) (hp : xs <+: old)
    (hle : xs.length ≤ bytes / H.sizeof) : xs <+: cells := by
  unfold realloc at h
  obtain ⟨fresh, hf, rfl⟩ := Option.map_eq_some_iff.mp h
  rw [← H.length_malloc hf] at hle
  refine List.IsPrefix.trans ?_ (List.prefix_append _ _)
  exact List.prefix_take_iff.mpr ⟨hp, hle⟩

/-- A block that was handed out has as many bytes as the `int` says. -/
theorem bufferSize_of_lt (h : H.bufferSize c < 2 ^ 63) :
    H.bufferSize c = H.sizeof * c % 2 ^ 32 ∧ H.bufferSize c < 2 ^ 31 := by
  unfold bufferSize at h ⊢
  dsimp only at h ⊢
  by_cases hc : H.sizeof * c % 2 ^ 64 % 2 ^ 32 < 2 ^ 31
  · rw [if_pos hc]
    omega
  · rw [if_neg hc] at h
    omega

/-- The first block: if it has any cell it has all of them. -/
theorem bufferSize_initSize (h : H.bufferSize CVector.initSize < 2 ^ 63)
    (hpos : 0 < H.bufferSize CVector.initSize / H.sizeof) : H.sizeof * CVector.initSize < 2 ^ 31 := by
  obtain ⟨he, hlt⟩ := bufferSize_of_lt h
  have hle : H.sizeof ≤ H.bufferSize CVector.initSize := by
    by_contra hc
    rw [Nat.div_eq_of_lt (Nat.lt_of_not_le hc)] at hpos
    exact Nat.lt_irrefl 0 hpos
  unfold CVector.initSize at *
  omega

/-- The next blocks: a capacity that does not fit an `int` of bytes is refused. -/
theorem bufferSize_double (h : H.bufferSize (c * 2) < 2 ^ 63) (hc : H.sizeof * c < 2 ^ 31) :
    H.sizeof * (c * 2) < 2 ^ 31 := by
  obtain ⟨he, hlt⟩ := bufferSize_of_lt h
  have hmul : H.sizeof * (c * 2) = H.sizeof * c * 2 := (Nat.mul_assoc ..).symm
  omega

theorem bufferSize_div (hc : H.sizeof * c < 2 ^ 31) : H.bufferSize c / H.sizeof = c := by
  have he : H.bufferSize c = H.sizeof * c := by
    unfold bufferSize
    dsimp only
    rw [Nat.mod_eq_of_lt (by omega : H.sizeof * c < 2 ^ 64), Nat.mod_eq_of_lt (by omega : H.sizeof * c < 2 ^ 32),
      if_pos hc]
  rw [he, Nat.mul_div_cancel_left c H.sizeof_pos]

end CHeap

/-! ## The invariant -/

namespace VectorMem

variable {s s' : VectorMem α} {v : CVector α} {x : α} {xs ys : List α}

/-- The memory `s` holds the vector `v`. A block without cells can only have been asked for by `VECTOR_INIT`. -/
structure Holds (H : CHeap α) (s : VectorMem α) (v : CVector α) : Prop where
  capacity : s.capacity = v.capacity
  size : s.size = v.size
  doubling : v.Doubling
  null : v.capacity = 0 → s.buffer = none
  block : v.capacity ≠ 0 → ∃ cells, s.buffer = some cells ∧ v.items <+: cells ∧
    (H.sizeof * v.capacity < 2 ^ 31 ∧ cells.length = v.capacity ∨ v.items = [] ∧ cells = [])

/-- A block of the first capacity. -/
theorem block_init {o : Option (List α)} {n : ℕ} {cells : List α}
    (h : H.realloc n o (H.bufferSize CVector.initSize) = some cells) :
    H.sizeof * CVector.initSize < 2 ^ 31 ∧ cells.length = CVector.initSize ∨ cells = [] := by
  obtain ⟨hlen, hlt⟩ := CHeap.length_realloc h
  rcases Nat.eq_zero_or_pos (H.bufferSize CVector.initSize / H.sizeof) with h0 | hpos
  · right
    exact List.length_eq_zero_iff.mp (hlen.trans h0)
  · left
    have hsize := CHeap.bufferSize_initSize hlt hpos
    exact ⟨hsize, hlen.trans (CHeap.bufferSize_div hsize)⟩

theorem realloc_none {n bytes : ℕ} : H.realloc n none bytes = H.malloc n bytes := by
  unfold CHeap.realloc
  simp

/-- `VECTOR_INIT`, on any memory. -/
theorem holds_vectorInit (hr : Returns (vectorInit H) s () s') : s'.Holds H CVector.init := by
  unfold vectorInit vectorInitat at hr
  simp only [returns_bind, returns_modify, returns_get, returns_require] at hr
  obtain ⟨_, _, rfl, _, _, ⟨rfl, rfl⟩, _, _, rfl, hsome, rfl⟩ := hr
  obtain ⟨cells, hcells⟩ := Option.isSome_iff_exists.mp hsome
  refine ⟨rfl, rfl, CVector.doubling_init, fun h => absurd h (Nat.succ_ne_zero 1), fun _ => ⟨cells, hcells, List.nil_prefix, ?_⟩⟩
  rw [← realloc_none] at hcells
  exact (block_init hcells).imp_right fun h => ⟨rfl, h⟩

/-- `VECTOR_FREE`. -/
theorem holds_vectorFree (hr : Returns vectorFree s () s') : s'.Holds H CVector.free := by
  unfold vectorFree at hr
  obtain rfl := returns_modify.mp hr
  exact ⟨rfl, rfl, CVector.doubling_free, fun _ => rfl, fun h => absurd rfl h⟩

/-- `__VECTOR_DOUBLE` of a full vector makes room: the elements stay. -/
theorem Holds.vectorDouble (h : s.Holds H v) (hfull : v.size = v.capacity)
    (hr : Returns (vectorDouble H) s () s') :
    s'.capacity = max CVector.initSize (v.capacity * 2) ∧ s'.size = s.size ∧
      ∃ cells, s'.buffer = some cells ∧ v.items <+: cells ∧
        (H.sizeof * s'.capacity < 2 ^ 31 ∧ cells.length = s'.capacity ∨ cells = []) := by
  unfold LibPM.vectorDouble at hr
  simp only [returns_bind, returns_modify, returns_get, returns_require] at hr
  obtain ⟨_, _, ⟨rfl, rfl⟩, _, _, ⟨-, rfl⟩, _, _, rfl, _, _, ⟨rfl, rfl⟩, _, _, rfl, hsome, rfl⟩ := hr
  obtain ⟨cells, hcells⟩ := Option.isSome_iff_exists.mp hsome
  dsimp only at hcells ⊢
  rw [h.capacity] at hcells ⊢
  refine ⟨rfl, rfl, cells, hcells, ?_⟩
  by_cases h0 : v.capacity = 0
  · -- the first block
    have hnil : v.items = [] := List.length_eq_zero_iff.mp (hfull.trans h0)
    have hmax : max CVector.initSize (v.capacity * 2) = CVector.initSize := by rw [h0]; rfl
    rw [hmax] at hcells ⊢
    rw [hnil]
    exact ⟨List.nil_prefix, block_init hcells⟩
  · obtain ⟨old, hold, hpre, hblock⟩ := h.block h0
    have hne : v.items ≠ [] := by
      intro hnil
      unfold CVector.size at hfull
      rw [hnil] at hfull
      exact h0 hfull.symm
    obtain ⟨hsize, -⟩ := hblock.resolve_right fun hc => hne hc.1
    have hmax : max CVector.initSize (v.capacity * 2) = v.capacity * 2 := by
      unfold CVector.initSize
      omega
    rw [hmax] at hcells ⊢
    rw [hold] at hcells
    obtain ⟨hlen, hlt⟩ := CHeap.length_realloc hcells
    have hsize' := CHeap.bufferSize_double hlt hsize
    rw [CHeap.bufferSize_div hsize'] at hlen
    refine ⟨CHeap.prefix_realloc hcells hpre ?_, .inl ⟨hsize', hlen⟩⟩
    rw [CHeap.bufferSize_div hsize']
    unfold CVector.size at hfull
    omega

/-- `VECTOR_APPEND`. -/
theorem Holds.vectorAppend (h : s.Holds H v) (hr : Returns (vectorAppend H x) s () s') :
    s'.Holds H (v.append x) := by
  unfold LibPM.vectorAppend at hr
  simp only [returns_bind, returns_modify, returns_get, returns_ofOption, returns_require] at hr
  obtain ⟨_, _, ⟨rfl, rfl⟩, _, t, hw, _, _, ⟨rfl, rfl⟩, _, _, ⟨-, rfl⟩, _, _, rfl, cells, _, ⟨hcells, rfl⟩, _, _,
    ⟨hlt, rfl⟩, rfl⟩ := hr
  -- after the test the vector has room
  have hroom : t.capacity = (v.append x).capacity ∧ t.size = v.size ∧ v.items <+: cells ∧
      (H.sizeof * t.capacity < 2 ^ 31 ∧ cells.length = t.capacity ∨ cells = []) := by
    rw [CVector.capacity_append]
    rcases returns_when.mp hw with ⟨hfull, hd⟩ | ⟨hfull, rfl⟩
    · rw [h.size, h.capacity] at hfull
      obtain ⟨hc, hs, cells', hcells', hpre, hblock⟩ := h.vectorDouble hfull hd
      obtain rfl := Option.some.inj (hcells'.symm.trans hcells)
      rw [if_pos hfull]
      exact ⟨hc, hs.trans h.size, hpre, hblock⟩
    · rw [h.size, h.capacity] at hfull
      rw [if_neg hfull, h.capacity]
      have h0 : v.capacity ≠ 0 := by
        intro h0
        rw [h.null h0] at hcells
        cases hcells
      obtain ⟨cells', hcells', hpre, hblock⟩ := h.block h0
      obtain rfl := Option.some.inj (hcells'.symm.trans hcells)
      exact ⟨rfl, h.size, hpre, hblock.imp_right fun hc => hc.2⟩
  obtain ⟨hc, hs, hpre, hblock⟩ := hroom
  obtain ⟨hsize, hlen⟩ := hblock.resolve_right fun hc => by
    rw [hc] at hlt
    exact absurd hlt (Nat.not_lt_zero _)
  rw [hs] at hlt ⊢
  refine ⟨hc, (CVector.size_append v x).symm, h.doubling.append x, fun h0 => ?_, fun _ => ⟨_, rfl, ?_, .inl ?_⟩⟩
  · rw [← hc, ← hlen] at h0
    omega
  · obtain ⟨rest, rfl⟩ := hpre
    obtain ⟨y, rest, rfl⟩ : ∃ y ys, rest = y :: ys := by
      cases rest with
      | nil =>
        unfold CVector.size at hlt
        simp at hlt
      | cons y ys => exact ⟨y, ys, rfl⟩
    refine ⟨rest, ?_⟩
    unfold CVector.size
    simp
  · rw [← hc]
    exact ⟨hsize, by rw [List.length_set, hlen]⟩

theorem Holds.prefix (h : s.Holds H v) (hne : v.items ≠ []) :
    ∃ cells, s.buffer = some cells ∧ v.items <+: cells ∧ cells.length = v.capacity := by
  have h0 : v.capacity ≠ 0 := by
    rcases h.doubling with ⟨-, hi⟩ | ⟨k, hc, -⟩
    · exact absurd hi hne
    · rw [hc]
      exact Nat.ne_of_gt (Nat.two_pow_pos _)
  obtain ⟨cells, hcells, hpre, hblock⟩ := h.block h0
  exact ⟨cells, hcells, hpre, (hblock.resolve_right fun hc => hne hc.1).2⟩

/-! ## Reading -/

/-- The memory after a slot was read. -/
def readSlot (s : VectorMem α) (i : ℕ) : VectorMem α := { s with reads := s.reads ++ [i] }

theorem returns_vectorAt {i : ℕ} :
    Returns (vectorAt i) s x s' ↔ (∃ cells, s.buffer = some cells ∧ cells[i]? = some x) ∧ s.readSlot i = s' := by
  unfold vectorAt readSlot
  simp only [returns_bind, returns_modify, returns_get, returns_ofOption]
  constructor
  · rintro ⟨_, _, rfl, _, _, ⟨rfl, rfl⟩, cells, _, ⟨hcells, rfl⟩, hx, rfl⟩
    exact ⟨⟨cells, hcells, hx⟩, rfl⟩
  · rintro ⟨⟨cells, hcells, hx⟩, rfl⟩
    exact ⟨(), _, rfl, _, _, ⟨rfl, rfl⟩, cells, _, ⟨hcells, rfl⟩, hx, rfl⟩

/-- `VECTOR_AT`. -/
theorem Holds.vectorAt (h : s.Holds H v) {i : ℕ} (hi : i < v.items.length) :
    Returns (vectorAt i) s v.items[i] (s.readSlot i) := by
  obtain ⟨cells, hcells, hpre, -⟩ := h.prefix (List.ne_nil_of_length_pos (by omega))
  refine returns_vectorAt.mpr ⟨⟨cells, hcells, ?_⟩, rfl⟩
  obtain ⟨rest, rfl⟩ := hpre
  rw [List.getElem?_append_left hi]
  exact List.getElem?_eq_getElem hi

/-- The loop, where the slot behind the last element exists. -/
theorem returns_vectorForeachFrom {cells : List α} :
    ∀ {m i : ℕ} {s : VectorMem α} (hi : i < cells.length), s.buffer = some cells → s.size = i + m →
      i + m < cells.length →
      Returns (vectorForeachFrom (m + 1) i cells[i]) s ((cells.drop i).take m)
        { s with reads := s.reads ++ List.range' (i + 1) m } := by
  intro m
  induction m with
  | zero =>
    intro i s hi _ hs _
    unfold vectorForeachFrom
    refine (returns_get.mpr ⟨rfl, rfl⟩).bind ?_
    rw [if_neg (by omega)]
    simp
  | succ m ih =>
    intro i s hi hb hs hm
    have hi' : i + 1 < cells.length := by omega
    unfold vectorForeachFrom
    refine (returns_get.mpr ⟨rfl, rfl⟩).bind ?_
    rw [if_pos (by omega)]
    refine (returns_vectorAt.mpr ⟨⟨cells, hb, List.getElem?_eq_getElem hi'⟩, rfl⟩).bind ?_
    refine (ih (s := s.readSlot (i + 1)) hi' hb (show s.size = _ by omega) (by omega)).bind ?_
    rw [returns_pure]
    constructor
    · rw [List.drop_eq_getElem_cons hi, List.take_succ_cons]
    · unfold readSlot
      rw [List.range'_succ]
      simp

/-- A loop that returns has read the slot behind the last element. -/
theorem lt_of_returns_vectorForeachFrom {n : ℕ} :
    ∀ {i : ℕ} {itr : α} {s : VectorMem α}, Returns (vectorForeachFrom n i itr) s ys s' → i < s.size →
      ∃ cells, s.buffer = some cells ∧ s.size < cells.length := by
  induction n generalizing ys s' with
  | zero =>
    intro i itr s hr
    exact (returns_fail hr).elim
  | succ n ih =>
    intro i itr s hr hi
    unfold vectorForeachFrom at hr
    rw [returns_bind] at hr
    obtain ⟨_, _, hget, hr⟩ := hr
    obtain ⟨rfl, rfl⟩ := returns_get.mp hget
    rw [if_pos hi] at hr
    simp only [returns_bind, returns_pure] at hr
    obtain ⟨next, _, hat, visited, _, hrest, -⟩ := hr
    obtain ⟨⟨cells, hb, hnext⟩, rfl⟩ := returns_vectorAt.mp hat
    rcases Nat.lt_or_ge (i + 1) s.size with hlt | hge
    · exact ih (s := s.readSlot (i + 1)) hrest hlt
    · refine ⟨cells, hb, ?_⟩
      have := (List.getElem?_eq_some_iff.mp hnext).1
      omega

/-- `VECTOR_FOREACH` runs its body with the elements `xs`, and the slots it reads exist; there are none if the vector
is empty. -/
def ForeachExact (s : VectorMem α) (xs : List α) : Prop :=
  ∃ t slots, Returns vectorForeach s xs t ∧ t.reads = s.reads ++ slots ∧ (∀ i ∈ slots, i < s.capacity) ∧
    (xs = [] → slots = [])

/-- An empty vector is read at slot 0, a full one behind its end. -/
theorem Holds.foreachExact_iff (h : s.Holds H v) :
    s.ForeachExact v.items ↔ v.size ≠ 0 ∧ v.size ≠ v.capacity := by
  unfold ForeachExact vectorForeach
  constructor
  · rintro ⟨t, slots, hr, hreads, -, hnil⟩
    simp only [returns_bind] at hr
    obtain ⟨itr, _, hat, _, _, hget, hr⟩ := hr
    obtain ⟨⟨cells, hb, -⟩, rfl⟩ := returns_vectorAt.mp hat
    obtain ⟨rfl, rfl⟩ := returns_get.mp hget
    have hne : v.size ≠ 0 := by
      intro h0
      rw [show (s.readSlot 0).size = 0 from h.size.trans h0] at hr
      unfold vectorForeachFrom at hr
      simp only [returns_bind, returns_get] at hr
      obtain ⟨_, _, ⟨rfl, rfl⟩, hr⟩ := hr
      rw [if_neg (show ¬ 0 < (s.readSlot 0).size by rw [show (s.readSlot 0).size = 0 from h.size.trans h0]; decide),
        returns_pure] at hr
      obtain ⟨-, rfl⟩ := hr
      rw [hnil (List.length_eq_zero_iff.mp h0)] at hreads
      unfold readSlot at hreads
      simp at hreads
    refine ⟨hne, fun hfull => ?_⟩
    have hsize : 0 < (s.readSlot 0).size := by
      rw [show (s.readSlot 0).size = v.size from h.size]
      omega
    obtain ⟨cells', hb', hlt⟩ := lt_of_returns_vectorForeachFrom hr hsize
    obtain ⟨cells'', hb'', -, hlen⟩ := h.prefix fun hnil => hne (by unfold CVector.size; rw [hnil]; rfl)
    obtain rfl := Option.some.inj (hb''.symm.trans hb')
    rw [show (s.readSlot 0).size = v.size from h.size] at hlt
    omega
  · rintro ⟨hne, hfull⟩
    have hle := h.doubling.size_le
    obtain ⟨cells, hb, hpre, hlen⟩ := h.prefix fun hnil => hne (by unfold CVector.size; rw [hnil]; rfl)
    have h0 : 0 < cells.length := by omega
    have hloop := returns_vectorForeachFrom (m := v.size) (s := s.readSlot 0) h0 hb
      (show s.size = 0 + v.size by rw [h.size, Nat.zero_add]) (by omega)
    have htake : (cells.drop 0).take v.size = v.items := (List.prefix_iff_eq_take.mp hpre).symm
    rw [htake] at hloop
    rw [show v.size = (s.readSlot 0).size from h.size.symm] at hloop
    refine ⟨_, 0 :: List.range' 1 v.size, (returns_vectorAt.mpr ⟨⟨cells, hb, List.getElem?_eq_getElem h0⟩, rfl⟩).bind
      ((returns_get.mpr ⟨rfl, rfl⟩).bind hloop), ?_, fun i hi => ?_, fun hnil => ?_⟩
    · rw [show (s.readSlot 0).size = v.size from h.size]
      unfold readSlot
      simp
    · rw [h.capacity]
      rcases List.mem_cons.mp hi with rfl | hi
      · omega
      · have := List.mem_range'_1.mp hi
        omega
    · unfold CVector.size at hne
      rw [hnil] at hne
      exact absurd rfl hne

end VectorMem

/-! ## Runs -/

open VectorMem

/-- The memory of a vector after any sequence of calls, and the elements appended since the last `VECTOR_INIT` or
`VECTOR_FREE`. -/
inductive VectorRun (H : CHeap α) : VectorMem α → List α → Prop
  | init {s s'} : Returns (vectorInit H) s () s' → VectorRun H s' []
  | append {s s' xs} (x) : VectorRun H s xs → Returns (vectorAppend H x) s () s' → VectorRun H s' (xs ++ [x])
  | free {s s' xs} : VectorRun H s xs → Returns vectorFree s () s' → VectorRun H s' []

variable {s : VectorMem α} {xs : List α}

theorem VectorRun.holds (h : VectorRun H s xs) : ∃ v : CVector α, s.Holds H v ∧ v.items = xs := by
  induction h with
  | init hr => exact ⟨CVector.init, holds_vectorInit hr, rfl⟩
  | append x _ hr ih =>
    obtain ⟨v, hv, rfl⟩ := ih
    exact ⟨v.append x, hv.vectorAppend hr, rfl⟩
  | free _ hr _ => exact ⟨CVector.free, holds_vectorFree hr, rfl⟩

/-- In every run the size is at most the capacity and `VECTOR_AT` finds the elements. `VECTOR_FOREACH` is exact and
within the capacity if the number of elements is not 0, 2, 4, 8 and so on, and only then. -/
theorem vectorForeach_exact_iff (h : VectorRun H s xs) :
    s.size ≤ s.capacity ∧ s.size = xs.length ∧
      (∀ i (hi : i < xs.length), ∃ t, Returns (vectorAt i) s xs[i] t) ∧
      (s.ForeachExact xs ↔ xs.length ≠ 0 ∧ ∀ k, xs.length ≠ 2 ^ (k + 1)) := by
  obtain ⟨v, hv, rfl⟩ := h.holds
  refine ⟨?_, hv.size, fun i hi => ⟨_, hv.vectorAt hi⟩, ?_⟩
  · rw [hv.size, hv.capacity]
    exact hv.doubling.size_le
  · rw [hv.foreachExact_iff]
    refine and_congr_right fun hne => ?_
    rw [Ne, hv.doubling.size_eq_capacity_iff hne]
    exact not_exists

/-- A heap of 64 KiB blocks for elements of 8 bytes. -/
def heapOfWords : CHeap UInt64 where
  sizeof := 8
  sizeof_pos := by decide
  malloc _ bytes := if bytes ≤ 2 ^ 16 then some (List.replicate (bytes / 8) 0) else none
  length_malloc h := by
    split at h
    · obtain rfl := Option.some.inj h
      exact List.length_replicate
    · cases h
  malloc_lt h := by
    split at h
    · next hle => exact Nat.lt_of_le_of_lt hle (by decide)
    · cases h

/-- The memory before the first call. -/
def noVector : VectorMem UInt64 := ⟨0, 0, none, 0, []⟩

theorem vectorForeach_exact_three :
    ∃ s, VectorRun heapOfWords s [10, 20, 30] ∧ s.ForeachExact [10, 20, 30] := by
  have heval : ((do
      vectorInit heapOfWords
      vectorAppend heapOfWords 10
      vectorAppend heapOfWords 20
      vectorAppend heapOfWords 30 : VectorProg UInt64 Unit) noVector).value? = some () := by
    decide +kernel
  obtain ⟨s, hs⟩ := exists_returns_of_value heval
  simp only [returns_bind] at hs
  obtain ⟨_, _, h0, _, _, h1, _, _, h2, h3⟩ := hs
  have hrun := (((VectorRun.init h0).append 10 h1).append 20 h2).append 30 h3
  refine ⟨s, hrun, (vectorForeach_exact_iff hrun).2.2.2.mpr ⟨by decide, fun k => ?_⟩⟩
  rw [Nat.pow_succ]
  intro he
  have : 3 = 2 ^ k * 2 := he
  omega

/-- After the second element the vector is full, and the loop reads slot 2. -/
theorem vectorForeach_outOfBounds :
    ∃ s : VectorMem UInt64, VectorRun heapOfWords s [10, 20] ∧ Stops vectorForeach s .outOfBounds ∧
      ¬ s.ForeachExact [10, 20] := by
  have heval : ((do
      vectorInit heapOfWords
      vectorAppend heapOfWords 10
      vectorAppend heapOfWords 20 : VectorProg UInt64 Unit) noVector).value? = some () := by
    decide +kernel
  obtain ⟨s, hs⟩ := exists_returns_of_value heval
  have hstop : Stops (do
      (do
        vectorInit heapOfWords
        vectorAppend heapOfWords 10
        vectorAppend heapOfWords 20 : VectorProg UInt64 Unit)
      vectorForeach) noVector .outOfBounds := rfl
  have hloop : Stops vectorForeach s .outOfBounds := by
    rcases stops_bind.mp hstop with h | ⟨_, t, ht, h⟩
    · exact absurd hs h.not_returns
    · rwa [(hs.unique ht).2]
  simp only [returns_bind] at hs
  obtain ⟨_, _, h0, _, _, h1, h2⟩ := hs
  refine ⟨s, ((VectorRun.init h0).append 10 h1).append 20 h2, hloop, ?_⟩
  rintro ⟨t, _, hr, -⟩
  exact hloop.not_returns hr

end LibPM

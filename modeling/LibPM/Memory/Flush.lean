import LibPM.Model.Layout

/-!
# Cache lines that are flushed (atomics.c, atomics.h)

The macro `flush` hands its argument to `clflush` as a memory operand, so the line that is flushed is
that of the argument itself. Both callers pass a pointer variable: `itr` in `flush_memsegment` and `addr`
in `atomic_set`. The addresses of these variables are parameters here.
-/

namespace LibPM

def cacheLineSize : ℕ := 64

/-- The number of the cache line of an address. -/
def cacheLine (a : ℕ) : ℕ := a / cacheLineSize

/-- `ROUND_DWNCL`. -/
def roundDwnCl (x : ℕ) : ℕ := x / cacheLineSize * cacheLineSize

/-- `ROUND_UPCL`, in 64-bit arithmetic. -/
def roundUpCl (x : ℕ) : ℕ := (x + (cacheLineSize - 1)) % 2 ^ 64 / cacheLineSize * cacheLineSize

/-- What the processor is told to do. -/
inductive Instr where
  | store (a : ℕ)
  | clflush (line : ℕ)
  | sfence
  deriving DecidableEq, Repr

/-- `flush` of the lvalue at `lvalue`. -/
def flush (lvalue : ℕ) (fence : Bool) : List Instr :=
  .clflush (cacheLine lvalue) :: if fence then [.sfence] else []

/-- The loop of `flush_memsegment`, whose variable `itr` is at `itrAt`. Both ends are multiples of the
line size, so `itr` does not wrap around. -/
def flushLoop (itrAt high : ℕ) (fence : Bool) (itr : ℕ) : List Instr :=
  if itr < high then flush itrAt fence ++ flushLoop itrAt high fence (itr + cacheLineSize) else []
termination_by high - itr
decreasing_by
  unfold cacheLineSize
  omega

def flushMemsegment (itrAt src n : ℕ) (fence : Bool) : List Instr :=
  flushLoop itrAt (roundUpCl (src + n)) fence (roundDwnCl src)

/-- `pmemcpy`: the stores of `memcpy`, then the flushes. -/
def pmemcpy (itrAt dest n : ℕ) : List Instr :=
  (List.range' dest n).map Instr.store ++ flushMemsegment itrAt dest n false

/-- `atomic_set`, whose variable `addr` is at `addrAt`. -/
def atomicSet (addrAt ptr : ℕ) : List Instr := .store ptr :: flush addrAt true

/-! ## Which lines -/

variable {itrAt high a n src : ℕ} {fence : Bool}

/-- Every line that the `n` bytes from `a` on touch is flushed. -/
def FlushesRange (l : List Instr) (a n : ℕ) : Prop :=
  ∀ x, a ≤ x → x < a + n → .clflush (cacheLine x) ∈ l

/-- The `n` bytes from `a` on are all in the line of the variable at `v`. -/
def InLineOf (v a n : ℕ) : Prop := ∀ x, a ≤ x → x < a + n → cacheLine x = cacheLine v

theorem clflush_mem_flush {v line : ℕ} : .clflush line ∈ flush v fence ↔ line = cacheLine v := by
  unfold flush
  cases fence <;> simp

/-- The loop flushes the line of its variable, again and again. -/
theorem clflush_mem_flushLoop {itr line : ℕ} :
    .clflush line ∈ flushLoop itrAt high fence itr ↔ itr < high ∧ line = cacheLine itrAt := by
  induction itr using flushLoop.induct high with
  | case1 itr hlt ih =>
    rw [flushLoop, if_pos hlt, List.mem_append, clflush_mem_flush, ih]
    constructor
    · rintro (h | h)
      · exact ⟨hlt, h⟩
      · exact ⟨hlt, h.2⟩
    · rintro ⟨-, h⟩
      exact .inl h
  | case2 itr hge =>
    rw [flushLoop, if_neg hge]
    simp [hge]

theorem clflush_mem_flushMemsegment {line : ℕ} : .clflush line ∈ flushMemsegment itrAt src n fence ↔
    roundDwnCl src < roundUpCl (src + n) ∧ line = cacheLine itrAt := clflush_mem_flushLoop

/-- A range inside one line ends before the next one. -/
theorem InLineOf.end_le {v : ℕ} (h : InLineOf v a n) (hn : 0 < n) :
    a + n ≤ (cacheLine a + 1) * cacheLineSize := by
  have hfirst := h a (Nat.le_refl _) (by omega)
  have hlast := h (a + n - 1) (by omega) (by omega)
  unfold cacheLine cacheLineSize at *
  omega

/-- The loop runs for a range inside one line, unless that is the last line of all. -/
theorem InLineOf.rounds_iff {v : ℕ} (h : InLineOf v a n) (hn : 0 < n) (ha : a < 2 ^ 64) :
    roundDwnCl a < roundUpCl (a + n) ↔ a + n + (cacheLineSize - 1) < 2 ^ 64 := by
  have hend := h.end_le hn
  unfold cacheLine roundDwnCl roundUpCl cacheLineSize at *
  omega

theorem flushesRange_flushMemsegment_iff (hn : 0 < n) (hsrc : src < 2 ^ 64) :
    FlushesRange (flushMemsegment itrAt src n fence) src n ↔
      InLineOf itrAt src n ∧ src + n + (cacheLineSize - 1) < 2 ^ 64 := by
  constructor
  · intro h
    have hline : InLineOf itrAt src n := fun x hx hx' => (clflush_mem_flushMemsegment.mp (h x hx hx')).2
    have hrounds := (clflush_mem_flushMemsegment.mp (h src (Nat.le_refl _) (by omega))).1
    exact ⟨hline, (hline.rounds_iff hn hsrc).mp hrounds⟩
  · rintro ⟨hline, hend⟩ x hx hx'
    exact clflush_mem_flushMemsegment.mpr ⟨(hline.rounds_iff hn hsrc).mpr hend, hline x hx hx'⟩

theorem clflush_mem_pmemcpy {line : ℕ} : .clflush line ∈ pmemcpy itrAt a n ↔
    .clflush line ∈ flushMemsegment itrAt a n false := by
  unfold pmemcpy
  simp

theorem clflush_mem_atomicSet {addrAt line : ℕ} :
    .clflush line ∈ atomicSet addrAt a ↔ line = cacheLine addrAt := by
  unfold atomicSet
  rw [List.mem_cons, clflush_mem_flush]
  simp

/-- **Flushing covers the written range** only where the range is in the line of the pointer variable
that the flush is given. -/
theorem flushesRange_iff (itrAt addrAt src n : ℕ) (fence : Bool) (hn : 0 < n) (hsrc : src < 2 ^ 64) :
    (FlushesRange (flushMemsegment itrAt src n fence) src n ↔
      InLineOf itrAt src n ∧ src + n + (cacheLineSize - 1) < 2 ^ 64) ∧
    (FlushesRange (pmemcpy itrAt src n) src n ↔
      InLineOf itrAt src n ∧ src + n + (cacheLineSize - 1) < 2 ^ 64) ∧
    (FlushesRange (atomicSet addrAt src) src 8 ↔ InLineOf addrAt src 8) := by
  refine ⟨flushesRange_flushMemsegment_iff hn hsrc, ?_, ?_⟩
  · rw [← @flushesRange_flushMemsegment_iff itrAt n src false hn hsrc]
    exact forall_congr' fun x => forall₂_congr fun _ _ => clflush_mem_pmemcpy
  · exact forall_congr' fun x => forall₂_congr fun _ _ => clflush_mem_atomicSet

/-- A word of the container, with the variables on the stack. -/
theorem flushesRange_iff_word :
    ¬ FlushesRange (flushMemsegment (2 ^ 46) (2 ^ 40) 8 true) (2 ^ 40) 8 ∧
      ¬ FlushesRange (atomicSet (2 ^ 46) (2 ^ 40)) (2 ^ 40) 8 := by
  obtain ⟨hseg, -, hatomic⟩ :=
    flushesRange_iff (2 ^ 46) (2 ^ 46) (2 ^ 40) 8 true (by decide) (by decide)
  have hline : ¬ InLineOf (2 ^ 46) (2 ^ 40) 8 := fun h => absurd (h (2 ^ 40) (Nat.le_refl _) (by decide)) (by decide)
  exact ⟨fun h => hline (hseg.mp h).1, fun h => hline (hatomic.mp h)⟩

/-- The line of the word itself is not flushed. -/
theorem not_forall_flushesRange :
    ∃ itrAt src n fence, 0 < n ∧ src + n < 2 ^ 64 ∧
      ¬ FlushesRange (flushMemsegment itrAt src n fence) src n := by
  refine ⟨2 ^ 46, 2 ^ 40, 8, true, by decide, by decide, fun h => ?_⟩
  have := (clflush_mem_flushMemsegment.mp (h (2 ^ 40) (Nat.le_refl _) (by decide))).2
  exact absurd this (by decide)

end LibPM

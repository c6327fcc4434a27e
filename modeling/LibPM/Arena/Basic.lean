import Mathlib.Data.List.Pairwise
import Mathlib.Logic.Function.Basic
import Mathlib.Tactic.Common

/-!
# Memory handed out in pieces

`Memory` is what the client of an allocator relies on: spans handed out apart from each other, and cells that hold what
was stored last. An allocator that cuts blocks of one length into slots hands out such spans if the slots of a block end
with it.
-/

namespace Arena

variable {β : Type} {x y p q k l n m off off' base size c : ℕ}

/-! ## Spans -/

/-- The cells from `start` on. -/
structure Span where
  start : ℕ
  len : ℕ
  deriving DecidableEq, Repr

namespace Span

def Has (s : Span) (x : ℕ) : Prop := s.start ≤ x ∧ x < s.start + s.len

instance (s : Span) (x : ℕ) : Decidable (s.Has x) := inferInstanceAs (Decidable (_ ∧ _))

/-- No cell is in both. -/
def Apart (s t : Span) : Prop := ∀ x, s.Has x → ¬ t.Has x

theorem Apart.symm {s t : Span} (h : s.Apart t) : t.Apart s := fun x ht hs => h x hs ht

end Span

/-! ## The client's view -/

structure Memory (β : Type) where
  spans : List Span
  cells : ℕ → Option β

namespace Memory

/-- Nothing was handed out. -/
def empty : Memory β := ⟨[], fun _ => none⟩

inductive Step (m : Memory β) : Memory β → Prop
  | grant {s : Span} : (∀ t ∈ m.spans, s.Apart t) → Step m ⟨s :: m.spans, m.cells⟩
  | store {s : Span} {x : ℕ} {b : β} : s ∈ m.spans → s.Has x → Step m ⟨m.spans, Function.update m.cells x (some b)⟩

inductive Reachable : Memory β → Prop
  | empty : Reachable empty
  | step {m m' : Memory β} : Reachable m → Step m m' → Reachable m'

theorem Step.pairwise {m m' : Memory β} (h : Step m m') (hm : m.spans.Pairwise Span.Apart) :
    m'.spans.Pairwise Span.Apart := by
  cases h with
  | grant hs => exact List.pairwise_cons.mpr ⟨hs, hm⟩
  | store _ _ => exact hm

/-- **The spans of a client are apart from each other.** -/
theorem Reachable.pairwise {m : Memory β} (h : Reachable m) : m.spans.Pairwise Span.Apart := by
  induction h with
  | empty => exact List.Pairwise.nil
  | step _ hs ih => exact hs.pairwise ih

end Memory

/-! ## Slots -/

/-- The slot `k` of block `p`: the blocks have `size` cells, and the slots of `n` cells start after `off` cells. -/
def slot (base size p off n k : ℕ) : Span := ⟨base + p * size + off + k * n, n⟩

theorem has_slot : (slot base size p off n k).Has x ↔
    base + p * size + off + k * n ≤ x ∧ x < base + p * size + off + k * n + n := Iff.rfl

/-- A slot lies in its block, after the first `off` cells, if there is room for `c` slots. -/
theorem Span.Has.block (h : (slot base size p off n k).Has x) (hk : k < c) (hfit : off + c * n ≤ size) :
    base + p * size + off ≤ x ∧ x < base + p * size + size := by
  obtain ⟨hle, hlt⟩ := h
  have hmul : (k + 1) * n ≤ c * n := Nat.mul_le_mul_right n hk
  rw [Nat.add_one_mul] at hmul
  unfold slot at hle hlt
  dsimp only at hle hlt
  omega

/-- A cell is in one block. -/
theorem block_unique (hp : base + p * size ≤ x ∧ x < base + p * size + size)
    (hq : base + q * size ≤ x ∧ x < base + q * size + size) : p = q := by
  rcases Nat.lt_trichotomy p q with hlt | heq | hlt
  · have hmul : (p + 1) * size ≤ q * size := Nat.mul_le_mul_right size hlt
    rw [Nat.add_one_mul] at hmul
    omega
  · exact heq
  · have hmul : (q + 1) * size ≤ p * size := Nat.mul_le_mul_right size hlt
    rw [Nat.add_one_mul] at hmul
    omega

/-- Slots of different blocks are apart. -/
theorem slot_apart_of_block (hpq : p ≠ q) (hk : k < c) (hfit : off + c * n ≤ size) {d : ℕ} (hl : l < d)
    (hfit' : off' + d * m ≤ size) : (slot base size p off n k).Apart (slot base size q off' m l) := by
  intro x hx hy
  have hx := hx.block hk hfit
  have hy := hy.block hl hfit'
  exact hpq (block_unique ⟨Nat.le_trans (Nat.le_add_right _ _) hx.1, hx.2⟩ ⟨Nat.le_trans (Nat.le_add_right _ _) hy.1, hy.2⟩)

/-- Different slots of one block are apart. -/
theorem slot_apart_of_index (hkl : k ≠ l) : (slot base size p off n k).Apart (slot base size p off n l) := by
  rintro x ⟨hx, hx'⟩ ⟨hy, hy'⟩
  unfold slot at hx hx' hy hy'
  dsimp only at hx hx' hy hy'
  rcases Nat.lt_or_gt_of_ne hkl with hlt | hlt
  · have hmul : (k + 1) * n ≤ l * n := Nat.mul_le_mul_right n hlt
    rw [Nat.add_one_mul] at hmul
    omega
  · have hmul : (l + 1) * n ≤ k * n := Nat.mul_le_mul_right n hlt
    rw [Nat.add_one_mul] at hmul
    omega

end Arena

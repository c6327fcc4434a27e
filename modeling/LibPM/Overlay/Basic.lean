import Mathlib.Algebra.Group.Nat.Defs
import Mathlib.Tactic.Common
import Mathlib.Data.List.Basic

/-!
# Stores to a memory, one after the other

A memory is a function of addresses, and a store is a partial one: it gives the new content where it is
defined. After a list of stores an address holds what the last store that covers it has put there
(`stores_last`).
-/

namespace Overlay

/-! ## The last element with a property -/

/-- `y` is the last element of `l` that may satisfy `p`: no later one does. -/
def LastIn {γ : Type*} (p : γ → Prop) (y : γ) (l : List γ) : Prop :=
  ∃ l₁ l₂, l = l₁ ++ y :: l₂ ∧ ∀ x ∈ l₂, ¬ p x

section

variable {γ δ ι : Type*} {p : γ → Prop} {y : γ} {l l' : List γ}

theorem LastIn.mem (h : LastIn p y l) : y ∈ l := by
  obtain ⟨l₁, l₂, rfl, -⟩ := h
  simp

theorem lastIn_concat : LastIn p y (l ++ [y]) := ⟨l, [], rfl, by simp⟩

theorem LastIn.append (h : LastIn p y l) (hl : ∀ x ∈ l', ¬ p x) : LastIn p y (l ++ l') := by
  obtain ⟨l₁, l₂, rfl, h₂⟩ := h
  refine ⟨l₁, l₂ ++ l', by simp, fun x hx => ?_⟩
  exact (List.mem_append.mp hx).elim (h₂ x) (hl x)

theorem LastIn.append_left (h : LastIn p y l) : LastIn p y (l' ++ l) := by
  obtain ⟨l₁, l₂, rfl, h₂⟩ := h
  exact ⟨l' ++ l₁, l₂, by simp, h₂⟩

theorem LastIn.filter (h : LastIn p y l) {q : γ → Bool} (hy : q y = true) :
    LastIn p y (l.filter q) := by
  obtain ⟨l₁, l₂, rfl, h₂⟩ := h
  refine ⟨l₁.filter q, l₂.filter q, ?_, fun x hx => h₂ x (List.mem_of_mem_filter hx)⟩
  rw [List.filter_append, List.filter_cons_of_pos hy]

theorem LastIn.map (h : LastIn p y l) {f : γ → δ} {q : δ → Prop} (hq : ∀ x ∈ l, q (f x) → p x) :
    LastIn q (f y) (l.map f) := by
  obtain ⟨l₁, l₂, rfl, h₂⟩ := h
  refine ⟨l₁.map f, l₂.map f, by simp, fun z hz => ?_⟩
  obtain ⟨x, hx, rfl⟩ := List.mem_map.mp hz
  exact fun hqx => h₂ x hx (hq x (by simp [hx]) hqx)

/-- The parts of a list come from indices, and only the part of `i` has elements like `y`. -/
theorem LastIn.flatMap {g : ι → List γ} {is : List ι} {i : ι} (h : LastIn p y (g i)) (hi : i ∈ is)
    (hother : ∀ j ∈ is, j ≠ i → ∀ x ∈ g j, ¬ p x) : LastIn p y (is.flatMap g) := by
  induction is with
  | nil => cases hi
  | cons j is ih =>
    rw [List.flatMap_cons]
    by_cases hmem : i ∈ is
    · exact (ih hmem fun k hk => hother k (List.mem_cons_of_mem j hk)).append_left
    · obtain rfl : i = j := (List.mem_cons.mp hi).resolve_right hmem
      refine h.append fun x hx => ?_
      obtain ⟨k, hk, hxk⟩ := List.mem_flatMap.mp hx
      exact hother k (List.mem_cons_of_mem i hk) (fun hki => hmem (hki ▸ hk)) x hxk

end

/-! ## Stores -/

section

variable {α β : Type*} {m : α → β} {w : α → Option β} {l : List (α → Option β)} {x : α}

def store (m : α → β) (w : α → Option β) : α → β := fun x => (w x).getD (m x)

def stores (m : α → β) (l : List (α → Option β)) : α → β := l.foldl store m

theorem stores_append (m : α → β) (l l' : List (α → Option β)) :
    stores m (l ++ l') = stores (stores m l) l' := List.foldl_append

/-- An address that no store covers keeps its content. -/
theorem stores_frame (h : ∀ w ∈ l, w x = none) : stores m l x = m x := by
  induction l generalizing m with
  | nil => rfl
  | cons w l ih =>
    show stores (store m w) l x = m x
    rw [ih fun w' hw' => h w' (by simp [hw'])]
    unfold store
    rw [h w (by simp), Option.getD_none]

/-- **The last store counts.** -/
theorem stores_last {b : β} (h : LastIn (fun w => w x ≠ none) w l) (hw : w x = some b) :
    stores m l x = b := by
  obtain ⟨l₁, l₂, rfl, h₂⟩ := h
  rw [stores_append, ← List.singleton_append, stores_append,
    stores_frame fun w' hw' => not_not.mp (h₂ w' hw')]
  show (w x).getD _ = b
  rw [hw, Option.getD_some]

end

/-! ## Blocks -/

section

variable {β : Type*} {n a b x : ℕ} {f : ℕ → β}

/-- The store of the `n` values of `f` from the address `a` on. -/
def block (n a : ℕ) (f : ℕ → β) : ℕ → Option β := fun x =>
  if a ≤ x ∧ x < a + n then some (f (x - a)) else none

theorem block_ne_none : block n a f x ≠ none ↔ a ≤ x ∧ x < a + n := by
  unfold block
  split_ifs with h <;> simp [h]

theorem block_add {i : ℕ} (h : i < n) : block n a f (a + i) = some (f i) := by
  unfold block
  rw [if_pos (by omega), Nat.add_sub_cancel_left]

/-- Two blocks of length `n` are the same or do not overlap. -/
def Apart (n a b : ℕ) : Prop := a = b ∨ a + n ≤ b ∨ b + n ≤ a

/-- A block of a list of blocks that are apart, where no later one is at the same address. -/
theorem stores_block {m : ℕ → β} {l : List (ℕ × (ℕ → β))}
    (h : LastIn (fun q => q.1 = a) (a, f) l) (hl : ∀ q ∈ l, Apart n q.1 a) {i : ℕ} (hi : i < n) :
    stores m (l.map fun q => block n q.1 q.2) (a + i) = f i := by
  refine stores_last (h.map fun q hq hne => ?_) (block_add hi)
  obtain ⟨hle, hlt⟩ := block_ne_none.mp hne
  rcases hl q hq with heq | hlow | hhigh
  · exact heq
  · omega
  · omega

end

end Overlay

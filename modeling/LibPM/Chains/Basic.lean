import Mathlib.Tactic.Common
import Mathlib.Data.List.Nodup
import Mathlib.Data.List.Flatten
import Mathlib.Logic.Function.Basic

/-!
# Chains

A table of chains is a function from positions to lists, of which the first `n` are in use. Its
`items` are the elements in the order of a loop over the table. An element is at `home` when its
position is the one computed from it.

A change of one chain changes the items by that chain only (`items_update`), whatever the other
chains hold, and to take a table apart keeps the items (`items_foldl_push`). A walk that asks a
function about each element keeps the ones answered `false` (`kept`).
-/

namespace Chains

variable {α σ : Type*}

/-! ## Items -/

/-- The elements of the first `n` chains, in order. -/
def items (n : ℕ) (chain : ℕ → List α) : List α := (List.range n).flatMap chain

theorem mem_items {n : ℕ} {chain : ℕ → List α} {e : α} :
    e ∈ items n chain ↔ ∃ i < n, e ∈ chain i := by
  simp [items]

@[simp] theorem items_zero (chain : ℕ → List α) : items 0 chain = [] := rfl

theorem items_succ (n : ℕ) (chain : ℕ → List α) :
    items (n + 1) chain = items n chain ++ chain n := by
  simp [items, List.range_succ]

@[simp] theorem items_nil (n : ℕ) : items n (fun _ => ([] : List α)) = [] := by
  simp [items]

theorem items_congr {n : ℕ} {c c' : ℕ → List α} (h : ∀ i < n, c i = c' i) :
    items n c = items n c' := by
  unfold items
  refine List.flatMap_congr fun i hi => h i (List.mem_range.mp hi)

theorem length_items_le {j n : ℕ} (h : j ≤ n) (chain : ℕ → List α) :
    (items j chain).length ≤ (items n chain).length :=
  ((List.range_sublist.mpr h).flatMap chain).length_le

/-- The other elements do not depend on the chain at `i`. -/
theorem items_update {n i : ℕ} (hi : i < n) (chain : ℕ → List α) :
    ∃ rest : List α, ∀ l, (items n (Function.update chain i l)).Perm (l ++ rest) := by
  induction n with
  | zero => omega
  | succ n ih =>
    rcases Nat.lt_succ_iff_lt_or_eq.mp hi with hlt | rfl
    · obtain ⟨rest, h⟩ := ih hlt
      refine ⟨rest ++ chain n, fun l => ?_⟩
      rw [items_succ, Function.update_of_ne (by omega), ← List.append_assoc]
      exact (h l).append_right _
    · refine ⟨items i chain, fun l => ?_⟩
      rw [items_succ, Function.update_self]
      have h : items i (Function.update chain i l) = items i chain :=
        items_congr fun j hj => Function.update_of_ne (by omega) _ _
      rw [h]
      exact List.perm_append_comm

/-- The elements besides those of the chain at `i`. -/
theorem items_split {n i : ℕ} (hi : i < n) (chain : ℕ → List α) :
    ∃ rest : List α, (items n chain).Perm (chain i ++ rest) ∧
      ∀ l, (items n (Function.update chain i l)).Perm (l ++ rest) := by
  obtain ⟨rest, h⟩ := items_update hi chain
  have hself := h (chain i)
  rw [Function.update_eq_self] at hself
  exact ⟨rest, hself, h⟩

/-! ## Homes -/

/-- Every element is in the chain its place names. -/
def Home (n : ℕ) (place : α → ℕ) (chain : ℕ → List α) : Prop :=
  ∀ i < n, ∀ e ∈ chain i, place e = i

theorem Home.mem_chain {n : ℕ} {place : α → ℕ} {chain : ℕ → List α} (h : Home n place chain)
    {e : α} (he : e ∈ items n chain) : e ∈ chain (place e) := by
  obtain ⟨i, hi, hmem⟩ := mem_items.mp he
  rw [h i hi e hmem]
  exact hmem

theorem home_nil (n : ℕ) (place : α → ℕ) : Home n place fun _ => [] := by
  intro i _ e he
  cases he

theorem Home.update {n i : ℕ} {place : α → ℕ} {chain : ℕ → List α} {l : List α}
    (h : Home n place chain) (hl : ∀ e ∈ l, place e = i) :
    Home n place (Function.update chain i l) := by
  intro j hj e he
  by_cases hji : j = i
  · subst hji
    rw [Function.update_self] at he
    exact hl e he
  · rw [Function.update_of_ne hji] at he
    exact h j hj e he

/-- The element joins the front of its chain. -/
def push (place : α → ℕ) (chain : ℕ → List α) (e : α) : ℕ → List α :=
  Function.update chain (place e) (e :: chain (place e))

theorem items_push {n : ℕ} {place : α → ℕ} {e : α} (he : place e < n) (chain : ℕ → List α) :
    (items n (push place chain e)).Perm (e :: items n chain) := by
  obtain ⟨rest, hold, hnew⟩ := items_split he chain
  exact (hnew _).trans (hold.cons e).symm

theorem Home.push {n : ℕ} {place : α → ℕ} {e : α} {chain : ℕ → List α} (he : place e < n)
    (h : Home n place chain) : Home n place (push place chain e) := by
  refine h.update fun x hx => ?_
  rcases List.mem_cons.mp hx with rfl | hx
  · rfl
  · exact h _ he x hx

/-- A table taken apart and put into another one. -/
theorem items_foldl_push {n : ℕ} (place : α → ℕ) (l : List α) (chain : ℕ → List α)
    (hl : ∀ e ∈ l, place e < n) :
    (items n (l.foldl (push place) chain)).Perm (l ++ items n chain) := by
  induction l generalizing chain with
  | nil => exact .refl _
  | cons e l ih =>
    have htail := ih (push place chain e) fun x hx => hl x (List.mem_cons_of_mem _ hx)
    have hpush := items_push (hl e List.mem_cons_self) chain
    exact htail.trans ((hpush.append_left l).trans List.perm_middle)

theorem Home.foldl_push {n : ℕ} {place : α → ℕ} (l : List α) {chain : ℕ → List α}
    (hl : ∀ e ∈ l, place e < n) (h : Home n place chain) :
    Home n place (l.foldl (Chains.push place) chain) := by
  induction l generalizing chain with
  | nil => exact h
  | cons e l ih =>
    exact ih (fun x hx => hl x (List.mem_cons_of_mem _ hx)) (h.push (hl e List.mem_cons_self))

/-! ## Walks -/

/-- A walk asks `f` about each element in order; `f` may keep a state. -/
def walk (f : α → σ → Bool × σ) : List α → σ → List (α × Bool) × σ
  | [], s => ([], s)
  | e :: l, s =>
    let r := f e s
    let t := walk f l r.2
    ((e, r.1) :: t.1, t.2)

/-- The elements answered `false`. -/
def kept (visits : List (α × Bool)) : List α := (visits.filter fun v => !v.2).map Prod.fst

theorem walk_append (f : α → σ → Bool × σ) (l l' : List α) (s : σ) :
    walk f (l ++ l') s =
      ((walk f l s).1 ++ (walk f l' (walk f l s).2).1, (walk f l' (walk f l s).2).2) := by
  induction l generalizing s with
  | nil => rfl
  | cons e l ih => simp only [List.cons_append, walk, ih]

/-- Each element is visited once, in order. -/
@[simp] theorem map_fst_walk (f : α → σ → Bool × σ) (l : List α) (s : σ) :
    (walk f l s).1.map Prod.fst = l := by
  induction l generalizing s with
  | nil => rfl
  | cons e l ih => simp only [walk, List.map_cons, ih]

theorem kept_append (v v' : List (α × Bool)) : kept (v ++ v') = kept v ++ kept v' := by
  simp [kept]

theorem kept_walk_sublist (f : α → σ → Bool × σ) (l : List α) (s : σ) :
    (kept (walk f l s).1).Sublist l := by
  have h : (kept (walk f l s).1).Sublist ((walk f l s).1.map Prod.fst) :=
    List.filter_sublist.map Prod.fst
  rwa [map_fst_walk] at h

theorem walk_map {β : Type*} (f : β → σ → Bool × σ) (g : α → β) (l : List α) (s : σ) :
    walk f (l.map g) s =
      ((walk (fun e => f (g e)) l s).1.map (Prod.map g id), (walk (fun e => f (g e)) l s).2) := by
  induction l generalizing s with
  | nil => rfl
  | cons e l ih => simp only [List.map_cons, walk, ih, Prod.map, id]

theorem mem_kept {v : List (α × Bool)} {e : α} : e ∈ kept v ↔ (e, false) ∈ v := by
  simp [kept]

end Chains

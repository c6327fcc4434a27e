import Mathlib.Tactic.Common
import Mathlib.Logic.Function.Basic
import Mathlib.Data.List.Nodup

/-!
# Tail queues

A tail queue is a singly linked list whose head also points to the last element. `Queue next first
last l` says that the links `next` lead from `first` through `l` to `last`, where they end. Such a
list is finite, it is the only one (`Linked.unique`) and no element comes twice (`Linked.nodup`).
-/

namespace Tailq

variable {α : Type} {next next' : α → Option α} {first last : Option α} {l l' : List α} {x y : α}

/-- The links lead from each element to the one after it, and end at the last. -/
def Linked (next : α → Option α) : List α → Prop
  | [] => True
  | x :: l => next x = l.head? ∧ Linked next l

theorem Linked.congr (h : Linked next l) (hn : ∀ x ∈ l, next' x = next x) : Linked next' l := by
  induction l with
  | nil => trivial
  | cons x l ih =>
    exact ⟨(hn x (by simp)).trans h.1, ih h.2 fun y hy => hn y (by simp [hy])⟩

theorem Linked.suffix (h : Linked next (l' ++ l)) : Linked next l := by
  induction l' with
  | nil => exact h
  | cons x l' ih => exact ih h.2

/-- The links determine the list. -/
theorem Linked.unique (h : Linked next l) (h' : Linked next l') (hd : l.head? = l'.head?) :
    l = l' := by
  induction l generalizing l' with
  | nil =>
    cases l' with
    | nil => rfl
    | cons y l' => cases hd
  | cons x l ih =>
    cases l' with
    | nil => cases hd
    | cons y l' =>
      obtain rfl : x = y := Option.some.inj hd
      rw [ih h.2 h'.2 (h.1.symm.trans h'.1)]

theorem Linked.nodup (h : Linked next l) : l.Nodup := by
  induction l with
  | nil => exact List.nodup_nil
  | cons x l ih =>
    refine List.nodup_cons.mpr ⟨fun hx => ?_, ih h.2⟩
    -- the links would lead from `x` to `x`, so the list would be a part of itself
    obtain ⟨a, b, rfl⟩ := List.append_of_mem hx
    have hb := h.2.suffix
    have heq := Linked.unique h hb rfl
    have hlen := congrArg List.length heq
    simp only [List.length_cons, List.length_append] at hlen
    omega

/-- The queue with the elements `l`. -/
structure Queue (next : α → Option α) (first last : Option α) (l : List α) : Prop where
  first_eq : first = l.head?
  last_eq : last = l.getLast?
  linked : Linked next l

namespace Queue

theorem nil (next : α → Option α) : Queue next none none [] := ⟨rfl, rfl, trivial⟩

theorem congr (h : Queue next first last l) (hn : ∀ x ∈ l, next' x = next x) :
    Queue next' first last l := ⟨h.first_eq, h.last_eq, h.linked.congr hn⟩

theorem last_mem (h : Queue next first last l) (hy : last = some y) : y ∈ l :=
  List.mem_of_getLast? (h.last_eq.symm.trans hy)

theorem eq_nil_iff (h : Queue next first last l) : last = none ↔ l = [] := by
  rw [h.last_eq, List.getLast?_eq_none_iff]

end Queue

variable [DecidableEq α]

/-- A new last element. -/
theorem Linked.concat (h : Linked next (l ++ [y])) (hx : x ∉ l ++ [y]) :
    Linked (Function.update (Function.update next x none) y (some x)) (l ++ [y] ++ [x]) := by
  have hxy : x ≠ y := fun he => hx (by simp [he])
  induction l with
  | nil =>
    refine ⟨Function.update_self .., ?_, trivial⟩
    rw [Function.update_of_ne hxy]
    exact Function.update_self ..
  | cons z l ih =>
    have hnd := h.nodup
    rw [List.cons_append, List.mem_cons, not_or] at hx
    rw [List.cons_append, List.nodup_cons] at hnd
    refine ⟨?_, ih h.2 hx.2⟩
    have hzy : z ≠ y := fun he => hnd.1 (by simp [he])
    rw [Function.update_of_ne hzy, Function.update_of_ne (Ne.symm hx.1), h.1]
    cases l <;> rfl

/-- `STAILQ_INSERT_TAIL` in an empty queue. -/
theorem Queue.insertTail_nil (next : α → Option α) (x : α) :
    Queue (Function.update next x none) (some x) (some x) [x] :=
  ⟨rfl, rfl, Function.update_self .., trivial⟩

/-- `STAILQ_INSERT_TAIL` behind the element `y`. -/
theorem Queue.insertTail (h : Queue next first (some y) l) (hx : x ∉ l) :
    Queue (Function.update (Function.update next x none) y (some x)) first (some x) (l ++ [x]) := by
  obtain ⟨d, rfl⟩ : ∃ d, l = d ++ [y] := by
    obtain ⟨d, hd⟩ := List.getLast?_eq_some_iff.mp h.last_eq.symm
    exact ⟨d, hd⟩
  refine ⟨?_, by simp, h.linked.concat hx⟩
  rw [h.first_eq]
  cases d <;> rfl

/-- `STAILQ_INSERT_HEAD`. -/
theorem Queue.insertHead (h : Queue next first last l) (hx : x ∉ l) :
    Queue (Function.update next x first) (some x) (if first = none then some x else last) (x :: l) := by
  refine ⟨rfl, ?_, ?_, h.linked.congr fun y hy => ?_⟩
  · rw [h.first_eq, h.last_eq]
    cases l with
    | nil => rfl
    | cons y l => simp
  · rw [Function.update_self, h.first_eq]
  · exact Function.update_of_ne (fun he : y = x => hx (he ▸ hy)) ..

end Tailq

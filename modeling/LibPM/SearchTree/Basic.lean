import LibPM.Splay.Basic

/-!
# Binary search trees without their balance

A search walks down by the cut of its key and an insertion hangs the new element below the last node
it meets; any change of the tree's shape that keeps the elements in order may follow. A search is right
for every cut that is monotone along the order (`find_eq_some_iff`), also for one that belongs to
another comparison than the insertions used.
-/

namespace SearchTree

open Splay Splay.Tree

variable {α : Type} {c : α → Ordering} {t : Splay.Tree α}

/-- The walk of `RB_FIND`. -/
def find (c : α → Ordering) : Splay.Tree α → Option α
  | leaf => none
  | node l a r =>
    match c a with
    | .lt => find c l
    | .gt => find c r
    | .eq => some a

/-- The walk of `RB_INSERT`, which drops `x` if an element compares equal. -/
def insert (c : α → Ordering) (x : α) : Splay.Tree α → Splay.Tree α
  | leaf => node leaf x leaf
  | node l a r =>
    match c a with
    | .lt => node (insert c x l) a r
    | .gt => node l a (insert c x r)
    | .eq => node l a r

theorem mem_of_find_eq_some {a : α} (h : find c t = some a) : a ∈ t.toList ∧ c a = .eq := by
  induction t with
  | leaf => cases h
  | node l b r ihl ihr =>
    unfold find at h
    rw [toList_node, List.mem_append, List.mem_cons]
    cases hb : c b with
    | lt =>
      rw [hb] at h
      exact ⟨.inl (ihl h).1, (ihl h).2⟩
    | gt =>
      rw [hb] at h
      exact ⟨.inr (.inr (ihr h).1), (ihr h).2⟩
    | eq =>
      rw [hb] at h
      cases h
      exact ⟨.inr (.inl rfl), hb⟩

theorem find_ne_none (hc : IsCut c t.toList) {a : α} (ha : a ∈ t.toList) (heq : c a = .eq) :
    find c t ≠ none := by
  induction t with
  | leaf => simp at ha
  | node l b r ihl ihr =>
    obtain ⟨hl, hr, hlt, hgt⟩ := isCut_node hc
    rw [toList_node, List.mem_append, List.mem_cons] at ha
    unfold find
    cases hb : c b with
    | eq => simp
    | lt =>
      rcases ha with ha | rfl | ha
      · exact ihl hl ha
      · rw [heq] at hb; cases hb
      · rw [hlt hb a ha] at heq; cases heq
    | gt =>
      rcases ha with ha | rfl | ha
      · rw [hgt hb a ha] at heq; cases heq
      · rw [heq] at hb; cases hb
      · exact ihr hr ha

/-- **A search finds the element the cut singles out**, whatever the shape of the tree. -/
theorem find_eq_some_iff (hc : IsCut c t.toList)
    (hone : ∀ a ∈ t.toList, ∀ b ∈ t.toList, c a = .eq → c b = .eq → a = b) {a : α} :
    find c t = some a ↔ a ∈ t.toList ∧ c a = .eq := by
  refine ⟨mem_of_find_eq_some, fun ⟨ha, heq⟩ => ?_⟩
  obtain ⟨b, hb⟩ := Option.ne_none_iff_exists'.mp (find_ne_none hc ha heq)
  obtain ⟨hmem, hbeq⟩ := mem_of_find_eq_some hb
  rw [hb, hone b hmem a ha hbeq heq]

/-- **An insertion** of an element that no other equals puts it between those above and those below
it. -/
theorem toList_insert (hc : IsCut c t.toList) (hne : ∀ b ∈ t.toList, c b ≠ .eq) (x : α) :
    ∃ pre post, t.toList = pre ++ post ∧ (insert c x t).toList = pre ++ x :: post ∧
      (∀ b ∈ pre, c b = .gt) ∧ ∀ b ∈ post, c b = .lt := by
  induction t with
  | leaf => exact ⟨[], [], rfl, rfl, by simp, by simp⟩
  | node l a r ihl ihr =>
    obtain ⟨hl, hr, hlt, hgt⟩ := isCut_node hc
    unfold insert
    cases ha : c a with
    | eq => exact (hne a (by simp) ha).elim
    | lt =>
      obtain ⟨pre, post, h, h', hpre, hpost⟩ := ihl hl fun b hb => hne b (by simp [hb])
      refine ⟨pre, post ++ a :: r.toList, by simp [h], by simp [h'], hpre, fun b hb => ?_⟩
      rw [List.mem_append, List.mem_cons] at hb
      rcases hb with hb | rfl | hb
      · exact hpost b hb
      · exact ha
      · exact hlt ha b hb
    | gt =>
      obtain ⟨pre, post, h, h', hpre, hpost⟩ := ihr hr fun b hb => hne b (by simp [hb])
      refine ⟨l.toList ++ a :: pre, post, by simp [h], by simp [h'], fun b hb => ?_, hpost⟩
      rw [List.mem_append, List.mem_cons] at hb
      rcases hb with hb | rfl | hb
      · exact hgt ha b hb
      · exact ha
      · exact hpre b hb

end SearchTree

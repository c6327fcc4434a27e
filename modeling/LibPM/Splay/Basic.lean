import Mathlib.Tactic.Common
import Mathlib.Data.List.Pairwise

/-!
# Top-down splay trees

The tree of `SPLAY_GENERATE`: a search key is a *cut*, a function that says on which side of the
key an element lies (`.lt` when the key is below it). One walk down the tree moves the last node it
meets to the root, and the nodes it passes go to a left and a right part.

Every operation keeps the elements in order (`toList_splay`), whatever the cut. A search is right
(`find_eq_some`, `find_eq_none`) when the cut is monotone along that order.
-/

namespace Splay

variable {α : Type}

inductive Tree (α : Type) where
  | leaf
  | node (l : Tree α) (a : α) (r : Tree α)

namespace Tree

/-- The elements in order. -/
def toList : Tree α → List α
  | leaf => []
  | node l a r => l.toList ++ a :: r.toList

@[simp] theorem toList_leaf : (leaf : Tree α).toList = [] := rfl

@[simp] theorem toList_node (l : Tree α) (a : α) (r : Tree α) :
    (node l a r).toList = l.toList ++ a :: r.toList := rfl

/-- `SPLAY_ROOT`. -/
def root : Tree α → Option α
  | leaf => none
  | node _ a _ => some a

/-- A change of the element at the root, which the pointer that a search returns allows. -/
def setRoot (f : α → α) : Tree α → Tree α
  | leaf => leaf
  | node l a r => node l (f a) r

end Tree

open Tree

/-- The left part, a chain of right children: the last node passed comes first. -/
abbrev LeftPart (α : Type) : Type := List (Tree α × α)

/-- The right part, a chain of left children. -/
abbrev RightPart (α : Type) : Type := List (α × Tree α)

def plugLeft : LeftPart α → Tree α → Tree α
  | [], t => t
  | (l, a) :: L, t => plugLeft L (node l a t)

def plugRight : RightPart α → Tree α → Tree α
  | [], t => t
  | (a, r) :: R, t => plugRight R (node t a r)

/-- `SPLAY_ASSEMBLE`. -/
def assemble (L : LeftPart α) (R : RightPart α) (l : Tree α) (a : α) (r : Tree α) : Tree α :=
  node (plugLeft L l) a (plugRight R r)

/-- The loop of `SPLAY`, with a rotation where two steps go the same way. -/
def splayLoop (c : α → Ordering) : Tree α → LeftPart α → RightPart α → Tree α
  | leaf, _, _ => leaf
  | node l a r, L, R =>
    match c a with
    | .eq => assemble L R l a r
    | .lt =>
      match l with
      | leaf => assemble L R leaf a r
      | node ll b lr =>
        match c b with
        | .lt =>
          match ll with
          | leaf => assemble L R leaf b (node lr a r)
          | node x y z => splayLoop c (node x y z) L ((b, node lr a r) :: R)
        | _ => splayLoop c (node ll b lr) L ((a, r) :: R)
    | .gt =>
      match r with
      | leaf => assemble L R l a leaf
      | node rl b rr =>
        match c b with
        | .gt =>
          match rr with
          | leaf => assemble L R (node l a rl) b leaf
          | node x y z => splayLoop c (node x y z) ((node l a rl, b) :: L) R
        | _ => splayLoop c (node rl b rr) ((l, a) :: L) R

/-- `SPLAY`. -/
def splay (c : α → Ordering) (t : Tree α) : Tree α := splayLoop c t [] []

/-- `SPLAY_FIND`: the element found, which is then the root, and the tree. -/
def find (c : α → Ordering) (t : Tree α) : Option α × Tree α :=
  let t' := splay c t
  (t'.root.filter fun a => c a == .eq, t')

/-- `SPLAY_INSERT` of `x`, whose cut is `c`: an element that compares equal drops `x`. -/
def insert (c : α → Ordering) (x : α) (t : Tree α) : Tree α :=
  match splay c t with
  | leaf => node leaf x leaf
  | node l a r =>
    match c a with
    | .lt => node l x (node leaf a r)
    | .gt => node (node l a leaf) x r
    | .eq => node l a r

/-! ## Order -/

def leftList (L : LeftPart α) : List α := (L.reverse.map fun p => p.1.toList ++ [p.2]).flatten

def rightList (R : RightPart α) : List α := (R.map fun p => p.1 :: p.2.toList).flatten

@[simp] theorem leftList_nil : leftList ([] : LeftPart α) = [] := rfl

@[simp] theorem rightList_nil : rightList ([] : RightPart α) = [] := rfl

@[simp] theorem leftList_cons (l : Tree α) (a : α) (L : LeftPart α) :
    leftList ((l, a) :: L) = leftList L ++ (l.toList ++ [a]) := by
  simp [leftList]

@[simp] theorem rightList_cons (a : α) (r : Tree α) (R : RightPart α) :
    rightList ((a, r) :: R) = a :: r.toList ++ rightList R := by
  simp [rightList]

theorem toList_plugLeft (L : LeftPart α) (t : Tree α) :
    (plugLeft L t).toList = leftList L ++ t.toList := by
  induction L generalizing t with
  | nil => rfl
  | cons p L ih => rcases p with ⟨l, a⟩; simp [plugLeft, ih]

theorem toList_plugRight (R : RightPart α) (t : Tree α) :
    (plugRight R t).toList = t.toList ++ rightList R := by
  induction R generalizing t with
  | nil => simp [plugRight]
  | cons p R ih => rcases p with ⟨a, r⟩; simp [plugRight, ih]

theorem toList_assemble (L : LeftPart α) (R : RightPart α) (l : Tree α) (a : α) (r : Tree α) :
    (assemble L R l a r).toList = leftList L ++ (node l a r).toList ++ rightList R := by
  unfold assemble
  rw [toList_node, toList_plugLeft, toList_plugRight]
  simp

theorem toList_splayLoop (c : α → Ordering) (t : Tree α) (L : LeftPart α) (R : RightPart α)
    (ht : t ≠ leaf) : (splayLoop c t L R).toList = leftList L ++ t.toList ++ rightList R := by
  fun_induction splayLoop c t L R
  case case1 => exact (ht rfl).elim
  case case2 | case3 | case4 | case7 | case8 => simp [toList_assemble]
  case case5 ih | case6 ih | case9 ih | case10 ih => simp [ih]

/-- **Splaying keeps the elements in order.** -/
@[simp] theorem toList_splay (c : α → Ordering) (t : Tree α) : (splay c t).toList = t.toList := by
  cases t with
  | leaf => rfl
  | node l a r => simp [splay, toList_splayLoop]

/-! ## Searching -/

/-- `c` is monotone along `xs`: past the first `.lt` all are `.lt`, up to the last `.gt` all are
`.gt`. -/
def IsCut (c : α → Ordering) (xs : List α) : Prop :=
  xs.Pairwise fun a b => (c a = .lt → c b = .lt) ∧ (c b = .gt → c a = .gt)

theorem isCut_node {c : α → Ordering} {l r : Tree α} {a : α} (h : IsCut c (node l a r).toList) :
    IsCut c l.toList ∧ IsCut c r.toList ∧ (c a = .lt → ∀ b ∈ r.toList, c b = .lt) ∧
      (c a = .gt → ∀ b ∈ l.toList, c b = .gt) := by
  unfold IsCut at h
  rw [toList_node, List.pairwise_append, List.pairwise_cons] at h
  obtain ⟨hl, ⟨har, hr⟩, hlr⟩ := h
  refine ⟨hl, hr, fun ha b hb => (har b hb).1 ha, fun ha b hb => ?_⟩
  exact (hlr b hb a (by simp)).2 ha

/-- What the loop leaves on the two sides of a root the key does not match. -/
def RootSplits (c : α → Ordering) : Tree α → Prop
  | leaf => True
  | node l a r =>
    (c a = .lt → ∀ b ∈ l.toList, c b = .gt) ∧ (c a = .gt → ∀ b ∈ r.toList, c b = .lt)

theorem lt_rightList_cons {c : α → Ordering} {a : α} {r : Tree α} {R : RightPart α}
    (ha : c a = .lt) (hr : ∀ b ∈ r.toList, c b = .lt) (hR : ∀ b ∈ rightList R, c b = .lt) :
    ∀ b ∈ rightList ((a, r) :: R), c b = .lt := by
  intro b hb
  rw [rightList_cons, List.mem_append, List.mem_cons] at hb
  rcases hb with (rfl | hb) | hb
  · exact ha
  · exact hr b hb
  · exact hR b hb

theorem gt_leftList_cons {c : α → Ordering} {l : Tree α} {a : α} {L : LeftPart α}
    (ha : c a = .gt) (hl : ∀ b ∈ l.toList, c b = .gt) (hL : ∀ b ∈ leftList L, c b = .gt) :
    ∀ b ∈ leftList ((l, a) :: L), c b = .gt := by
  intro b hb
  rw [leftList_cons, List.mem_append, List.mem_append, List.mem_singleton] at hb
  rcases hb with hb | hb | rfl
  · exact hL b hb
  · exact hl b hb
  · exact ha

theorem rootSplits_splayLoop (c : α → Ordering) (t : Tree α) (L : LeftPart α) (R : RightPart α)
    (hc : IsCut c t.toList) (hL : ∀ b ∈ leftList L, c b = .gt)
    (hR : ∀ b ∈ rightList R, c b = .lt) : RootSplits c (splayLoop c t L R) := by
  fun_induction splayLoop c t L R
  case case1 => trivial
  case case2 h => simp [assemble, RootSplits, h]
  case case3 h => simpa [assemble, RootSplits, h, toList_plugLeft] using hL
  case case4 ha hb => simpa [assemble, RootSplits, hb, toList_plugLeft] using hL
  case case7 h => simpa [assemble, RootSplits, h, toList_plugRight] using hR
  case case8 ha hb => simpa [assemble, RootSplits, hb, toList_plugRight] using hR
  case case5 a r L R ha b lr hb x y z ih =>
    obtain ⟨hl, -, har, -⟩ := isCut_node hc
    obtain ⟨hll, -, hblr, -⟩ := isCut_node hl
    refine ih hll hL (lt_rightList_cons hb ?_ hR)
    intro d hd
    rw [toList_node, List.mem_append, List.mem_cons] at hd
    rcases hd with hd | rfl | hd
    · exact hblr hb d hd
    · exact ha
    · exact har ha d hd
  case case6 a r L R ha x b y hb ih =>
    obtain ⟨hl, -, har, -⟩ := isCut_node hc
    exact ih hl hL (lt_rightList_cons ha (har ha) hR)
  case case9 l a L R ha rl b hb x y z ih =>
    obtain ⟨-, hr, -, hal⟩ := isCut_node hc
    obtain ⟨-, hrr, -, hbrl⟩ := isCut_node hr
    refine ih hrr (gt_leftList_cons hb ?_ hL) hR
    intro d hd
    rw [toList_node, List.mem_append, List.mem_cons] at hd
    rcases hd with hd | rfl | hd
    · exact hal ha d hd
    · exact ha
    · exact hbrl hb d hd
  case case10 l a L R ha x b y hb ih =>
    obtain ⟨-, hr, -, hal⟩ := isCut_node hc
    exact ih hr (gt_leftList_cons ha (hal ha) hL) hR

theorem rootSplits_splay {c : α → Ordering} {t : Tree α} (hc : IsCut c t.toList) :
    RootSplits c (splay c t) :=
  rootSplits_splayLoop c t [] [] hc (by simp) (by simp)

/-- The root of a splayed tree matches the key if some element does. -/
theorem root_splay_eq {c : α → Ordering} {t : Tree α} (hc : IsCut c t.toList) {b : α}
    (hb : b ∈ t.toList) (hcb : c b = .eq) : ∃ a, (splay c t).root = some a ∧ c a = .eq := by
  have hs := rootSplits_splay hc
  rw [← toList_splay c t] at hc hb
  cases hst : splay c t with
  | leaf => rw [hst] at hb; simp at hb
  | node l a r =>
    rw [hst] at hs hc hb
    obtain ⟨-, -, hr, hl⟩ := isCut_node hc
    refine ⟨a, rfl, ?_⟩
    rw [toList_node, List.mem_append, List.mem_cons] at hb
    cases ha : c a with
    | eq => rfl
    | lt =>
      rcases hb with hb | rfl | hb
      · have := hs.1 ha b hb; simp [hcb] at this
      · exact ha.symm.trans hcb
      · have := hr ha b hb; simp [hcb] at this
    | gt =>
      rcases hb with hb | rfl | hb
      · have := hl ha b hb; simp [hcb] at this
      · exact ha.symm.trans hcb
      · have := hs.2 ha b hb; simp [hcb] at this

@[simp] theorem toList_find (c : α → Ordering) (t : Tree α) :
    (find c t).2.toList = t.toList := toList_splay c t

/-- What a search returns is an element that matches, and is at the root. -/
theorem find_eq_some {c : α → Ordering} {t : Tree α} {a : α} (h : (find c t).1 = some a) :
    c a = .eq ∧ ∃ l r, (find c t).2 = node l a r := by
  unfold find at h ⊢
  rw [Option.filter_eq_some_iff] at h
  obtain ⟨h, hc⟩ := h
  refine ⟨by simpa using hc, ?_⟩
  cases hst : splay c t with
  | leaf => simp [hst, root] at h
  | node l b r =>
    simp only [hst, root, Option.some.injEq] at h
    exact ⟨l, r, by rw [h]⟩

theorem mem_of_find_eq_some {c : α → Ordering} {t : Tree α} {a : α}
    (h : (find c t).1 = some a) : a ∈ t.toList := by
  obtain ⟨-, l, r, hn⟩ := find_eq_some h
  rw [← toList_find c t, hn]
  simp

/-- **A search that fails met no element that matches.** -/
theorem find_eq_none {c : α → Ordering} {t : Tree α} (hc : IsCut c t.toList)
    (h : (find c t).1 = none) : ∀ b ∈ t.toList, c b ≠ .eq := by
  intro b hb hcb
  obtain ⟨a, hr, ha⟩ := root_splay_eq hc hb hcb
  simp [find, hr, ha] at h

/-- **An insertion** leaves the tree as it is when an element matches, and puts the new element
between those below and those above it otherwise. -/
theorem toList_insert {c : α → Ordering} {t : Tree α} (hc : IsCut c t.toList) (x : α) :
    ((∃ b ∈ t.toList, c b = .eq) ∧ (insert c x t).toList = t.toList) ∨
    ∃ pre post, t.toList = pre ++ post ∧ (insert c x t).toList = pre ++ x :: post ∧
      (∀ b ∈ pre, c b = .gt) ∧ ∀ b ∈ post, c b = .lt := by
  have hs := rootSplits_splay hc
  have hl := toList_splay c t
  unfold insert
  cases hst : splay c t with
  | leaf =>
    rw [hst] at hl
    exact .inr ⟨[], [], by simpa using hl.symm, by simp, by simp, by simp⟩
  | node l a r =>
    rw [hst] at hs hl
    rw [← hl] at hc ⊢
    obtain ⟨-, -, hr, hal⟩ := isCut_node hc
    cases ha : c a with
    | eq => exact .inl ⟨⟨a, by simp, ha⟩, by simp [ha]⟩
    | lt =>
      refine .inr ⟨l.toList, a :: r.toList, by simp, by simp [ha], hs.1 ha, ?_⟩
      simpa [ha] using hr ha
    | gt =>
      refine .inr ⟨l.toList ++ [a], r.toList, by simp, by simp [ha], ?_, hs.2 ha⟩
      intro b hb
      rw [List.mem_append, List.mem_singleton] at hb
      rcases hb with hb | rfl
      · exact hal ha b hb
      · exact ha

theorem toList_setRoot (f : α → α) (l r : Tree α) (a : α) :
    (setRoot f (node l a r)).toList = l.toList ++ f a :: r.toList := rfl

end Splay

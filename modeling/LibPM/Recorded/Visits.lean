import LibPM.Recorded.Basic

/-!
# What a crash exposes

`Visits T c s` says that `T` holds of every state a crash of `c`, started in `s`, can expose. The rules follow the
syntax: only a store exposes a state, the one it leaves. `Passes T c s Q` is the triple of a crash logic, for what a
program may leave at any store and what it leaves when it returns; nothing is said of whether it does.
-/

namespace Recorded

open Prog

variable {σ ε α β : Type} {T : σ → Prop} {s t : σ} {Q : α → σ → Prop}

/-! ## The recorded states -/

@[simp] theorem not_exposes_pure {a : α} : ¬ Exposes (pure a : Prog σ ε α) s t := List.not_mem_nil

@[simp] theorem not_exposes_fail {e : ε} : ¬ Exposes (fail e : Prog σ ε α) s t := List.not_mem_nil

@[simp] theorem not_exposes_get : ¬ Exposes (get : Prog σ ε σ) s t := List.not_mem_nil

@[simp] theorem not_exposes_modify {f : σ → σ} : ¬ Exposes (modify f : Prog σ ε Unit) s t := List.not_mem_nil

@[simp] theorem exposes_store {f : σ → σ} : Exposes (store f : Prog σ ε Unit) s t ↔ t = f s :=
  List.mem_singleton

@[simp] theorem exposes_bind {c : Prog σ ε α} {f : α → Prog σ ε β} :
    Exposes (c >>= f) s t ↔ Exposes c s t ∨ ∃ a s', Returns c s a s' ∧ Exposes (f a) s' t := by
  show t ∈ (Prog.bind c f s).trace ↔ t ∈ (c s).trace ∨ ∃ a s', (c s).result = .ok (a, s') ∧ t ∈ (f a s').trace
  unfold Prog.bind
  rcases c s with ⟨tr, e | ⟨a, u⟩⟩
  · simp
  · dsimp only
    rw [List.mem_append]
    constructor
    · rintro (h | h)
      · exact .inl h
      · exact .inr ⟨a, u, rfl, h⟩
    · rintro (h | ⟨_, _, he, h⟩)
      · exact .inl h
      · obtain ⟨rfl, rfl⟩ := Prod.mk.inj (Except.ok.inj he)
        exact .inr h

@[simp] theorem exposes_map {c : Prog σ ε α} {f : α → β} : Exposes (f <$> c) s t ↔ Exposes c s t := by
  show Exposes (c >>= fun a => pure (f a)) s t ↔ _
  simp only [exposes_bind, not_exposes_pure, and_false, exists_false, or_false]

@[simp] theorem not_exposes_ofOption {e : ε} {o : Option α} : ¬ Exposes (ofOption e o : Prog σ ε α) s t := by
  cases o
  · exact not_exposes_fail
  · exact not_exposes_pure

@[simp] theorem not_exposes_require {p : Prop} [Decidable p] {e : ε} :
    ¬ Exposes (require p e : Prog σ ε Unit) s t := by
  unfold require
  split_ifs
  · exact not_exposes_pure
  · exact not_exposes_fail

@[simp] theorem exposes_zoom {τ : Type} {read : τ → σ} {put : σ → τ → τ} {c : Prog σ ε α} {x y : τ} :
    Exposes (zoom read put c) x y ↔ ∃ t, Exposes c (read x) t ∧ y = put t x := by
  show y ∈ ((c (read x)).lift (put · x)).trace ↔ ∃ t, t ∈ (c (read x)).trace ∧ y = put t x
  rcases c (read x) with ⟨tr, e | ⟨b, s⟩⟩ <;> simp [Outcome.lift, eq_comm]

/-! ## Every recorded state -/

/-- `T` holds of every state that a crash of `c` can expose. -/
def Visits (T : σ → Prop) (c : Prog σ ε α) (s : σ) : Prop := ∀ t, Exposes c s t → T t

theorem Visits.mono {T' : σ → Prop} {c : Prog σ ε α} (h : Visits T c s) (hT : ∀ t, T t → T' t) : Visits T' c s :=
  fun t ht => hT t (h t ht)

theorem visits_store {f : σ → σ} (h : T (f s)) : Visits T (store f : Prog σ ε Unit) s := by
  intro t ht
  rw [exposes_store.mp ht]
  exact h

/-- A program that stores nothing. -/
theorem visits_of_not_exposes {c : Prog σ ε α} (h : ∀ t, ¬ Exposes c s t) : Visits T c s := fun t ht =>
  absurd ht (h t)

theorem Visits.bind {c : Prog σ ε α} {f : α → Prog σ ε β} (h : Visits T c s)
    (hf : ∀ a s', Returns c s a s' → Visits T (f a) s') : Visits T (c >>= f) s := by
  intro t ht
  rcases exposes_bind.mp ht with ht | ⟨a, s', hr, ht⟩
  · exact h t ht
  · exact hf a s' hr t ht

/-! ## Walks -/

/-- What `c` exposes is within `T`, what it returns within `Q`. -/
structure Passes (T : σ → Prop) (c : Prog σ ε α) (s : σ) (Q : α → σ → Prop) : Prop where
  visits : Visits T c s
  returns : ∀ a s', Returns c s a s' → Q a s'

section Walks

variable {c : Prog σ ε α} {f : α → Prog σ ε β} {R : β → σ → Prop}

theorem Passes.mono {Q' : α → σ → Prop} (h : Passes T c s Q) (hQ : ∀ a s', Q a s' → Q' a s') : Passes T c s Q' :=
  ⟨h.visits, fun a s' hr => hQ a s' (h.returns a s' hr)⟩

theorem Passes.imp {T' : σ → Prop} (h : Passes T c s Q) (hT : ∀ t, T t → T' t) : Passes T' c s Q :=
  ⟨h.visits.mono hT, h.returns⟩

theorem Passes.bind (h : Passes T c s Q) (hf : ∀ a s', Q a s' → Passes T (f a) s' R) : Passes T (c >>= f) s R where
  visits := h.visits.bind fun a s' hr => (hf a s' (h.returns a s' hr)).visits
  returns b t hb := by
    obtain ⟨a, s', hr, hb⟩ := returns_bind.mp hb
    exact (hf a s' (h.returns a s' hr)).returns b t hb

theorem passes_pure {a : α} (h : Q a s) : Passes T (pure a : Prog σ ε α) s Q where
  visits := visits_of_not_exposes fun _ => not_exposes_pure
  returns b t hb := by
    obtain ⟨rfl, rfl⟩ := returns_pure.mp hb
    exact h

theorem passes_store {g : σ → σ} {R : Unit → σ → Prop} (hT : T (g s)) (hR : R () (g s)) :
    Passes T (store g : Prog σ ε Unit) s R where
  visits := visits_store hT
  returns u t hr := by
    obtain rfl := returns_store.mp hr
    exact hR

/-- What is known of the result by other means. -/
theorem Passes.and {Q' : α → σ → Prop} (h : Passes T c s Q) (h' : ∀ a t, Returns c s a t → Q' a t) :
    Passes T c s fun a t => Q a t ∧ Q' a t :=
  ⟨h.visits, fun a t hr => ⟨h.returns a t hr, h' a t hr⟩⟩

theorem Passes.when {p : Prop} [Decidable p] {d : Prog σ ε Unit} {R : Unit → σ → Prop}
    (h : p → Passes T d s R) (h0 : ¬ p → R () s) : Passes T (when p d) s R := by
  unfold Prog.when
  split_ifs with hp
  · exact h hp
  · exact passes_pure (h0 hp)

/-- A program whose only store, if it has one, is the last thing it does. -/
theorem passes_of_returns (hc : ∀ t, Exposes c s t → ∃ a, Returns c s a t) (hT : ∀ a t, Returns c s a t → T t ∧ Q a t) :
    Passes T c s Q where
  visits t ht := by
    obtain ⟨a, ha⟩ := hc t ht
    exact (hT a t ha).1
  returns a t ha := (hT a t ha).2

/-- A program that stores nothing. -/
theorem passes_of_not_exposes (hc : ∀ t, ¬ Exposes c s t) (hQ : ∀ a t, Returns c s a t → Q a t) : Passes T c s Q :=
  ⟨visits_of_not_exposes hc, hQ⟩

/-- The invariant rule of a loop over the numbers below `n`: `J k` holds before round `k`. -/
theorem Passes.forM_range {f : ℕ → Prog σ ε PUnit} {J : ℕ → σ → Prop} {n : ℕ} (h0 : J 0 s)
    (hstep : ∀ k < n, ∀ t, J k t → Passes T (f k) t fun _ => J (k + 1)) :
    Passes T (List.forM (List.range n) f) s fun _ => J n := by
  have hrun : ∀ m k t, k + m = n → J k t → Passes T (List.forM (List.range' k m) f) t fun _ => J n := by
    intro m
    induction m with
    | zero =>
      intro k t hk hJ
      obtain rfl : k = n := hk
      exact passes_pure hJ
    | succ m ih =>
      intro k t hk hJ
      exact (hstep k (by omega) t hJ).bind fun _ t' hJ' => ih (k + 1) t' (by omega) hJ'
  rw [List.range_eq_range']
  exact hrun n 0 s (Nat.zero_add n) h0

end Walks

/-! ## Programs that store nothing -/

/-- `c` neither exposes a state nor changes it. -/
structure Silent (c : Prog σ ε α) : Prop where
  not_exposes : ∀ s t, ¬ Exposes c s t
  keeps : ∀ s a t, Returns c s a t → t = s

section Silent

variable {c : Prog σ ε α} {f : α → Prog σ ε β} {R : β → σ → Prop}

theorem Silent.passes_bind (h : Silent c) (hf : ∀ a, Returns c s a s → Passes T (f a) s R) :
    Passes T (c >>= f) s R where
  visits t ht := by
    rcases exposes_bind.mp ht with ht | ⟨a, s', hr, ht⟩
    · exact absurd ht (h.not_exposes s t)
    · have hs := h.keeps s a s' hr
      rw [hs] at hr ht
      exact (hf a hr).visits t ht
  returns b t hb := by
    obtain ⟨a, s', hr, hb⟩ := returns_bind.mp hb
    have hs := h.keeps s a s' hr
    rw [hs] at hr hb
    exact (hf a hr).returns b t hb

theorem silent_pure {a : α} : Silent (pure a : Prog σ ε α) :=
  ⟨fun _ _ => not_exposes_pure, fun _ _ _ hr => (returns_pure.mp hr).2.symm⟩

theorem silent_get : Silent (get : Prog σ ε σ) :=
  ⟨fun _ _ => not_exposes_get, fun _ _ _ hr => (returns_get.mp hr).2.symm⟩

theorem silent_require {p : Prop} [Decidable p] {e : ε} : Silent (require p e : Prog σ ε Unit) :=
  ⟨fun _ _ => not_exposes_require, fun _ _ _ hr => (returns_require.mp hr).2.symm⟩

theorem Silent.bind (h : Silent c) (hf : ∀ a, Silent (f a)) : Silent (c >>= f) := by
  refine ⟨fun s t ht => ?_, fun s b t hb => ?_⟩
  · rcases exposes_bind.mp ht with ht | ⟨a, s', -, ht⟩
    · exact h.not_exposes s t ht
    · exact (hf a).not_exposes s' t ht
  · obtain ⟨a, s', hr, hb⟩ := returns_bind.mp hb
    exact ((hf a).keeps s' b t hb).trans (h.keeps s a s' hr)

theorem Silent.ite {p : Prop} [Decidable p] {d : Prog σ ε α} (hc : Silent c) (hd : Silent d) :
    Silent (if p then c else d) := by
  split_ifs
  · exact hc
  · exact hd

end Silent

end Recorded

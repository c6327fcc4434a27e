import Mathlib.Tactic.Common
import Mathlib.Logic.Function.Basic

/-!
# Programs that record what a crash can expose

A `Prog σ ε α` runs from a state of type `σ`. It returns a value and a final state, or stops with
a fault of type `ε`; either way it leaves a `trace`, the states a crash can expose, one for each
store to durable memory. The bottom layer of a development writes its code in this monad, and
proves facts of two kinds:

* about runs that return (`Returns`), peeled apart by the inversion lemmas of this file;
* about every recorded state (`Exposes`).

`Keeps R c` says that `c` only moves along the relation `R`, `Avoids e c` that `c` never stops with the
fault `e`; their rules follow the syntax.
-/

namespace Recorded

variable {σ τ ε α β : Type}

/-- How a program ends: the states a crash could have exposed, then the result. -/
structure Outcome (σ ε α : Type) where
  trace : List σ
  result : Except ε (α × σ)

/-- The same outcome, seen in a larger state. -/
def Outcome.lift (f : σ → τ) : Outcome σ ε α → Outcome τ ε α
  | ⟨tr, .error e⟩ => ⟨tr.map f, .error e⟩
  | ⟨tr, .ok (a, s)⟩ => ⟨tr.map f, .ok (a, f s)⟩

/-- The value returned, if there is one. -/
def Outcome.value? (o : Outcome σ ε α) : Option α :=
  match o.result with
  | .ok (a, _) => some a
  | .error _ => none

/-- A program over states `σ` that may stop with a fault `ε`. -/
def Prog (σ ε α : Type) : Type := σ → Outcome σ ε α

namespace Prog

protected def pure (a : α) : Prog σ ε α := fun s => ⟨[], .ok (a, s)⟩

protected def bind (c : Prog σ ε α) (f : α → Prog σ ε β) : Prog σ ε β := fun s =>
  match c s with
  | ⟨tr, .error e⟩ => ⟨tr, .error e⟩
  | ⟨tr, .ok (a, t)⟩ =>
    match f a t with
    | ⟨tr', r⟩ => ⟨tr ++ tr', r⟩

instance : Monad (Prog σ ε) where
  pure := Prog.pure
  bind := Prog.bind

/-- Stop with a fault. -/
def fail (e : ε) : Prog σ ε α := fun _ => ⟨[], .error e⟩

def get : Prog σ ε σ := fun s => ⟨[], .ok (s, s)⟩

/-- Change the state without a durable store: nothing is recorded. -/
def modify (f : σ → σ) : Prog σ ε Unit := fun s => ⟨[], .ok ((), f s)⟩

/-- A durable store: the state it leaves is recorded. -/
def store (f : σ → σ) : Prog σ ε Unit := fun s => ⟨[f s], .ok ((), f s)⟩

/-- The value of an option, or the fault. -/
def ofOption (e : ε) : Option α → Prog σ ε α
  | some a => pure a
  | none => fail e

def ofResult : Except ε α → Prog σ ε α
  | .ok a => pure a
  | .error e => fail e

/-- Stop with `e` unless `p` holds. -/
def require (p : Prop) [Decidable p] (e : ε) : Prog σ ε Unit :=
  if p then pure () else fail e

/-- Run `c` only if `p` holds. -/
def when (p : Prop) [Decidable p] (c : Prog σ ε Unit) : Prog σ ε Unit :=
  if p then c else pure ()

/-- Run a program on a part of a larger state. -/
def zoom (read : τ → σ) (put : σ → τ → τ) (c : Prog σ ε α) : Prog τ ε α := fun t =>
  (c (read t)).lift (put · t)

/-- `for (i = 0; i < size; i++) body(i)`, with `size` read again at each test. At most `fuel`
rounds run, after which the program stops with `e`. -/
def upTo (e : ε) (size : Prog σ ε ℕ) (body : ℕ → Prog σ ε Unit) : ℕ → ℕ → Prog σ ε Unit
  | 0, _ => fail e
  | fuel + 1, i => do
    let n ← size
    if i < n then do
      body i
      upTo e size body fuel (i + 1)
    else pure ()

end Prog

open Prog

theorem bind_pure_eq (c : Prog σ ε α) : Prog.bind c Prog.pure = c := by
  funext s
  unfold Prog.bind Prog.pure
  rcases c s with ⟨tr, _ | ⟨a, t⟩⟩ <;> simp

theorem pure_bind_eq (a : α) (f : α → Prog σ ε β) : Prog.bind (Prog.pure a) f = f a := by
  funext s
  unfold Prog.bind Prog.pure
  dsimp only
  rcases f a s with ⟨tr, r⟩
  rfl

theorem bind_bind_eq {γ : Type} (c : Prog σ ε α) (f : α → Prog σ ε β) (g : β → Prog σ ε γ) :
    Prog.bind (Prog.bind c f) g = Prog.bind c fun a => Prog.bind (f a) g := by
  funext s
  unfold Prog.bind
  rcases c s with ⟨tr, _ | ⟨a, t⟩⟩
  · rfl
  · dsimp only
    rcases f a t with ⟨tr', _ | ⟨b, u⟩⟩
    · rfl
    · dsimp only
      rcases g b u with ⟨tr'', r⟩
      simp

instance : LawfulMonad (Prog σ ε) :=
  LawfulMonad.mk' _ bind_pure_eq pure_bind_eq bind_bind_eq

/-! ## Runs that return -/

/-- `c` started in `s` returns `a` in state `s'`. -/
def Returns (c : Prog σ ε α) (s : σ) (a : α) (s' : σ) : Prop := (c s).result = .ok (a, s')

/-- A crash of `c` started in `s` can expose `t`. -/
def Exposes (c : Prog σ ε α) (s t : σ) : Prop := t ∈ (c s).trace

theorem Returns.unique {c : Prog σ ε α} {s t t' : σ} {a b : α} (h : Returns c s a t)
    (h' : Returns c s b t') : a = b ∧ t = t' := by
  unfold Returns at h h'
  rw [h] at h'
  simpa using h'

/-- A run that was evaluated to a value returns it. -/
theorem exists_returns_of_value {c : Prog σ ε α} {s : σ} {a : α} (h : (c s).value? = some a) :
    ∃ s', Returns c s a s' := by
  unfold Outcome.value? at h
  unfold Returns
  rcases hr : (c s).result with e | ⟨b, t⟩
  · rw [hr] at h
    cases h
  · rw [hr] at h
    cases h
    exact ⟨t, rfl⟩

@[simp] theorem returns_pure {a b : α} {s s' : σ} :
    Returns (pure a : Prog σ ε α) s b s' ↔ a = b ∧ s = s' := by
  show (Except.ok (a, s) : Except ε (α × σ)) = .ok (b, s') ↔ _
  simp

@[simp] theorem returns_bind {c : Prog σ ε α} {f : α → Prog σ ε β} {s s'' : σ} {b : β} :
    Returns (c >>= f) s b s'' ↔ ∃ a s', Returns c s a s' ∧ Returns (f a) s' b s'' := by
  show (Prog.bind c f s).result = _ ↔ _
  unfold Prog.bind Returns
  rcases c s with ⟨tr, e | ⟨a, t⟩⟩
  · simp
  · simp only [Except.ok.injEq, Prod.mk.injEq]
    constructor
    · intro h; exact ⟨a, t, ⟨rfl, rfl⟩, h⟩
    · rintro ⟨_, _, ⟨rfl, rfl⟩, h⟩; exact h

theorem Returns.bind {c : Prog σ ε α} {f : α → Prog σ ε β} {s s' s'' : σ} {a : α} {b : β}
    (h : Returns c s a s') (h' : Returns (f a) s' b s'') : Returns (c >>= f) s b s'' :=
  returns_bind.mpr ⟨a, s', h, h'⟩

theorem Returns.seq {c : Prog σ ε Unit} {f : Unit → Prog σ ε β} {s s' s'' : σ} {b : β}
    (h : Returns c s () s') (h' : Returns (f ()) s' b s'') : Returns (c >>= f) s b s'' := h.bind h'

theorem Returns.exists_bind {c : Prog σ ε α} {f : α → Prog σ ε β} {s s' : σ} {a : α} {b : β}
    (h : Returns c s a s') (h' : ∃ s'', Returns (f a) s' b s'') :
    ∃ s'', Returns (c >>= f) s b s'' := h'.imp fun _ => h.bind

theorem Returns.exists_seq {c : Prog σ ε Unit} {f : Unit → Prog σ ε β} {s s' : σ} {b : β}
    (h : Returns c s () s') (h' : ∃ s'', Returns (f ()) s' b s'') :
    ∃ s'', Returns (c >>= f) s b s'' := h.exists_bind h'

@[simp] theorem returns_map {c : Prog σ ε α} {f : α → β} {s s' : σ} {b : β} :
    Returns (f <$> c) s b s' ↔ ∃ a, Returns c s a s' ∧ f a = b := by
  show Returns (c >>= fun a => pure (f a)) s b s' ↔ _
  simp only [returns_bind, returns_pure]
  constructor
  · rintro ⟨a, t, h, rfl, rfl⟩; exact ⟨a, h, rfl⟩
  · rintro ⟨a, h, rfl⟩; exact ⟨a, s', h, rfl, rfl⟩

@[simp] theorem returns_fail {e : ε} {s s' : σ} {a : α} :
    ¬ Returns (fail e : Prog σ ε α) s a s' := by
  simp [Returns, Prog.fail]

@[simp] theorem returns_get {s s' t : σ} :
    Returns (get : Prog σ ε σ) s t s' ↔ s = t ∧ s = s' := by
  simp [Returns, Prog.get]

@[simp] theorem returns_modify {f : σ → σ} {s s' : σ} {u : Unit} :
    Returns (modify f : Prog σ ε Unit) s u s' ↔ f s = s' := by
  simp [Returns, Prog.modify]

@[simp] theorem returns_store {f : σ → σ} {s s' : σ} {u : Unit} :
    Returns (store f : Prog σ ε Unit) s u s' ↔ f s = s' := by
  simp [Returns, Prog.store]

@[simp] theorem returns_ofOption {e : ε} {o : Option α} {s s' : σ} {a : α} :
    Returns (ofOption e o : Prog σ ε α) s a s' ↔ o = some a ∧ s = s' := by
  cases o <;> simp [ofOption]

@[simp] theorem returns_ofResult {x : Except ε α} {s s' : σ} {a : α} :
    Returns (ofResult x : Prog σ ε α) s a s' ↔ x = .ok a ∧ s = s' := by
  cases x <;> simp [ofResult]

/-- A load: a part of the state, where it is defined. -/
theorem returns_read {e : ε} {f : σ → Option α} {s s' : σ} {a : α} :
    Returns (do let s ← get; ofOption e (f s) : Prog σ ε α) s a s' ↔ f s = some a ∧ s = s' := by
  rw [returns_bind]
  constructor
  · rintro ⟨_, _, hget, h⟩
    obtain ⟨rfl, rfl⟩ := returns_get.mp hget
    exact returns_ofOption.mp h
  · rintro h
    exact ⟨s, s, returns_get.mpr ⟨rfl, rfl⟩, returns_ofOption.mpr h⟩

theorem returns_ite {p : Prop} [Decidable p] {c d : Prog σ ε α} {s s' : σ} {a : α} :
    Returns (if p then c else d) s a s' ↔ p ∧ Returns c s a s' ∨ ¬ p ∧ Returns d s a s' := by
  by_cases h : p <;> simp [h]

@[simp] theorem returns_require {p : Prop} [Decidable p] {e : ε} {s s' : σ} {u : Unit} :
    Returns (require p e : Prog σ ε Unit) s u s' ↔ p ∧ s = s' := by
  by_cases h : p <;> simp [require, h]

theorem returns_when {p : Prop} [Decidable p] {c : Prog σ ε Unit} {s s' : σ} {u : Unit} :
    Returns (when p c) s u s' ↔ p ∧ Returns c s u s' ∨ ¬ p ∧ s = s' := by
  by_cases h : p <;> simp [when, h]

@[simp] theorem returns_when_true {p : Prop} [Decidable p] (h : p) {c : Prog σ ε Unit}
    {s s' : σ} {u : Unit} : Returns (when p c) s u s' ↔ Returns c s u s' := by
  simp [when, h]

@[simp] theorem returns_when_false {p : Prop} [Decidable p] (h : ¬ p) {c : Prog σ ε Unit}
    {s s' : σ} {u : Unit} : Returns (when p c) s u s' ↔ s = s' := by
  simp [when, h]

@[simp] theorem returns_zoom {read : τ → σ} {put : σ → τ → τ} {c : Prog σ ε α} {t t' : τ} {a : α} :
    Returns (zoom read put c) t a t' ↔ ∃ s', Returns c (read t) a s' ∧ put s' t = t' := by
  show ((c (read t)).lift (put · t)).result = _ ↔ ∃ s', (c (read t)).result = _ ∧ _
  rcases c (read t) with ⟨tr, e | ⟨b, s⟩⟩
  · simp [Outcome.lift]
  · simp only [Outcome.lift, Except.ok.injEq, Prod.mk.injEq]
    constructor
    · rintro ⟨rfl, rfl⟩; exact ⟨s, ⟨rfl, rfl⟩, rfl⟩
    · rintro ⟨_, ⟨rfl, rfl⟩, rfl⟩; exact ⟨rfl, rfl⟩

/-! ## Loops -/

@[simp] theorem returns_forM_nil {f : α → Prog σ ε PUnit} {s s' : σ} {u : PUnit} :
    Returns (List.forM [] f) s u s' ↔ s = s' := by
  show Returns (pure PUnit.unit : Prog σ ε PUnit) s u s' ↔ _
  simp

@[simp] theorem returns_forM_cons {f : α → Prog σ ε PUnit} {x : α} {l : List α} {s s'' : σ}
    {u : PUnit} :
    Returns (List.forM (x :: l) f) s u s'' ↔
      ∃ s', Returns (f x) s ⟨⟩ s' ∧ Returns (List.forM l f) s' u s'' := by
  show Returns (f x >>= fun _ => List.forM l f) s u s'' ↔ _
  rw [returns_bind]
  exact ⟨fun ⟨_, t, h⟩ => ⟨t, h⟩, fun ⟨t, h⟩ => ⟨⟨⟩, t, h⟩⟩

/-- The invariant rule of a list loop: `P d` holds when the elements of `d` are behind. -/
theorem Returns.forM_induct {f : α → Prog σ ε PUnit} {P : List α → σ → Prop} :
    ∀ {l d : List α} {s s' : σ} {u : PUnit}, P d s →
      (∀ pre x post s s', d ++ l = pre ++ x :: post → P pre s → Returns (f x) s ⟨⟩ s' →
        P (pre ++ [x]) s') →
      Returns (List.forM l f) s u s' → P (d ++ l) s' := by
  intro l
  induction l with
  | nil =>
    intro d s s' u h0 _ h
    rw [returns_forM_nil] at h
    subst h
    simpa using h0
  | cons x l ih =>
    intro d s s' u h0 hstep h
    obtain ⟨t, hx, hl⟩ := returns_forM_cons.mp h
    have h1 : P (d ++ [x]) t := hstep d x l s t rfl h0 hx
    have := ih h1 (fun pre y post s s' e => hstep pre y post s s' (by rw [← e]; simp)) hl
    simpa using this

/-- The invariant rule of a loop over the numbers below `n`. -/
theorem Returns.forM_range_induct {f : ℕ → Prog σ ε PUnit} {Q : ℕ → σ → Prop} :
    ∀ {n : ℕ} {s s' : σ} {u : PUnit}, Q 0 s →
      (∀ k < n, ∀ t t', Q k t → Returns (f k) t ⟨⟩ t' → Q (k + 1) t') →
      Returns (List.forM (List.range n) f) s u s' → Q n s' := by
  intro n s s' u h0 hstep hr
  have h := Returns.forM_induct (P := fun d t => Q d.length t) (d := []) h0
    (fun pre x post t t' hpre hQ ht => ?_) hr
  · rwa [List.nil_append, List.length_range] at h
  · rw [List.nil_append] at hpre
    have hlen := congrArg List.length hpre
    rw [List.length_range, List.length_append, List.length_cons] at hlen
    obtain rfl : x = pre.length := by
      have hx := congrArg (·[pre.length]?) hpre
      simpa [List.getElem?_range, show pre.length < n by omega] using hx.symm
    rw [List.length_append, List.length_singleton]
    exact hstep pre.length (by omega) t t' hQ ht

/-- A list loop returns if its rounds do. -/
theorem exists_returns_forM {f : α → Prog σ ε PUnit} {l : List α}
    (h : ∀ x ∈ l, ∀ s, ∃ s', Returns (f x) s ⟨⟩ s') (s : σ) :
    ∃ s', Returns (List.forM l f) s ⟨⟩ s' := by
  induction l generalizing s with
  | nil => exact ⟨s, returns_forM_nil.mpr rfl⟩
  | cons x l ih =>
    obtain ⟨t, ht⟩ := h x (by simp) s
    obtain ⟨s', hs'⟩ := ih (fun y hy => h y (by simp [hy])) t
    exact ⟨s', returns_forM_cons.mpr ⟨t, ht, hs'⟩⟩

/-- The invariant rule of a counting loop. `Q i` holds whenever the test is about to be made. -/
theorem Returns.upTo_induct {e : ε} {size : Prog σ ε ℕ} {body : ℕ → Prog σ ε Unit}
    {Q : ℕ → σ → Prop}
    (hbody : ∀ i s n s' t, Q i s → Returns size s n s' → i < n → Returns (body i) s' () t →
      Q (i + 1) t) :
    ∀ {fuel i : ℕ} {s s' : σ}, Q i s → Returns (upTo e size body fuel i) s () s' →
      ∃ j n t, Q j t ∧ Returns size t n s' ∧ ¬ j < n ∧ i ≤ j := by
  intro fuel
  induction fuel with
  | zero => intro i s s' _ h; simp [upTo] at h
  | succ fuel ih =>
    intro i s s' hQ h
    rw [upTo, returns_bind] at h
    obtain ⟨n, t, hn, h⟩ := h
    by_cases hi : i < n
    · rw [if_pos hi, returns_bind] at h
      obtain ⟨_, t', hb, h⟩ := h
      obtain ⟨j, m, t'', hj, hm, hlt, hle⟩ := ih (hbody i s n t t' hQ hn hi hb) h
      exact ⟨j, m, t'', hj, hm, hlt, by omega⟩
    · rw [if_neg hi, returns_pure] at h
      obtain ⟨-, rfl⟩ := h
      exact ⟨i, n, s, hQ, hn, hi, Nat.le_refl i⟩

/-! ## Pure results -/

theorem bind_eq_ok {x : Except ε α} {f : α → Except ε β} {b : β} :
    x >>= f = .ok b ↔ ∃ a, x = .ok a ∧ f a = .ok b := by
  cases x with
  | error e => simp [bind, Except.bind]
  | ok a => simp [bind, Except.bind]

/-- What every round of a fold keeps, the fold keeps. -/
theorem foldlM_induct {f : β → α → Except ε β} {P : β → Prop} {l : List α}
    (hstep : ∀ b a b', a ∈ l → P b → f b a = .ok b' → P b') {b b' : β} (hb : P b)
    (h : l.foldlM f b = .ok b') : P b' := by
  induction l generalizing b with
  | nil => cases h; exact hb
  | cons a l ih =>
    rw [List.foldlM_cons, bind_eq_ok] at h
    obtain ⟨c, hc, h⟩ := h
    exact ih (fun b a b' ha => hstep b a b' (by simp [ha])) (hstep b a c (by simp) hb hc) h

theorem bind_ne_error {x : Except ε α} {f : α → Except ε β} {e : ε} (hx : x ≠ .error e)
    (hf : ∀ a, f a ≠ .error e) : x >>= f ≠ .error e := by
  cases x with
  | error e' => exact fun h => hx (congrArg Except.error (Except.error.inj h))
  | ok a => exact hf a

theorem foldlM_ne_error {f : β → α → Except ε β} {e : ε} (hf : ∀ b a, f b a ≠ .error e) {l : List α}
    {b : β} : l.foldlM f b ≠ .error e := by
  induction l generalizing b with
  | nil => exact fun h => nomatch h
  | cons a l ih =>
    rw [List.foldlM_cons]
    exact bind_ne_error (hf b a) fun _ => ih

/-! ## Relations kept by every returning run -/

/-- Every returning run of `c` moves along `R`. -/
def Keeps (R : σ → σ → Prop) (c : Prog σ ε α) : Prop := ∀ ⦃s a s'⦄, Returns c s a s' → R s s'

section Keeps

variable {R : σ → σ → Prop}

theorem Keeps.mono {R' : σ → σ → Prop} {c : Prog σ ε α} (h : Keeps R c)
    (hR : ∀ s s', R s s' → R' s s') : Keeps R' c := fun _ _ _ hc => hR _ _ (h hc)

theorem keeps_fail {e : ε} : Keeps R (fail e : Prog σ ε α) := fun _ _ _ h => (returns_fail h).elim

theorem Keeps.modify {f : σ → σ} (h : ∀ s, R s (f s)) : Keeps R (modify f : Prog σ ε Unit) := by
  intro s _ s' hc
  rw [← returns_modify.mp hc]
  exact h s

theorem Keeps.store {f : σ → σ} (h : ∀ s, R s (f s)) : Keeps R (store f : Prog σ ε Unit) := by
  intro s _ s' hc
  rw [← returns_store.mp hc]
  exact h s

theorem Keeps.ite {p : Prop} [Decidable p] {c d : Prog σ ε α} (hc : Keeps R c) (hd : Keeps R d) :
    Keeps R (if p then c else d) := by
  by_cases h : p
  · simpa [h] using hc
  · simpa [h] using hd

theorem Keeps.bind [IsTrans σ R] {c : Prog σ ε α} {f : α → Prog σ ε β} (hc : Keeps R c)
    (hf : ∀ a, Keeps R (f a)) : Keeps R (c >>= f) := by
  intro s b s'' h
  obtain ⟨a, s', h1, h2⟩ := returns_bind.mp h
  exact IsTrans.trans _ _ _ (hc h1) (hf a h2)

variable [Std.Refl R]

theorem keeps_pure {a : α} : Keeps R (pure a : Prog σ ε α) := by
  intro s _ s' h
  rw [← (returns_pure.mp h).2]
  exact Std.Refl.refl s

theorem keeps_get : Keeps R (get : Prog σ ε σ) := by
  intro s _ s' h
  rw [← (returns_get.mp h).2]
  exact Std.Refl.refl s

theorem keeps_ofOption {e : ε} {o : Option α} : Keeps R (ofOption e o : Prog σ ε α) := by
  cases o
  · exact keeps_fail
  · exact keeps_pure

theorem keeps_ofResult {x : Except ε α} : Keeps R (ofResult x : Prog σ ε α) := by
  cases x
  · exact keeps_fail
  · exact keeps_pure

theorem keeps_require {p : Prop} [Decidable p] {e : ε} :
    Keeps R (require p e : Prog σ ε Unit) := keeps_pure.ite keeps_fail

theorem Keeps.when {p : Prop} [Decidable p] {c : Prog σ ε Unit} (h : Keeps R c) :
    Keeps R (when p c) := h.ite keeps_pure

variable [IsTrans σ R]

theorem Keeps.forM {f : α → Prog σ ε PUnit} {l : List α} (h : ∀ x ∈ l, Keeps R (f x)) :
    Keeps R (List.forM l f) := by
  intro s u s' hr
  induction l generalizing s with
  | nil => rw [← returns_forM_nil.mp hr]; exact Std.Refl.refl s
  | cons x l ih =>
    obtain ⟨t, hx, hl⟩ := returns_forM_cons.mp hr
    exact IsTrans.trans _ _ _ (h x (by simp) hx) (ih (fun y hy => h y (by simp [hy])) hl)

theorem Keeps.upTo {e : ε} {size : Prog σ ε ℕ} {body : ℕ → Prog σ ε Unit} (hs : Keeps R size)
    (hb : ∀ i, Keeps R (body i)) : ∀ fuel i, Keeps R (upTo e size body fuel i)
  | 0, _ => keeps_fail
  | fuel + 1, i => hs.bind fun _ =>
      Keeps.ite ((hb i).bind fun _ => Keeps.upTo hs hb fuel (i + 1)) keeps_pure

end Keeps

/-! ## Runs that stop -/

/-- `c` started in `s` stops with the fault `e`. -/
def Stops (c : Prog σ ε α) (s : σ) (e : ε) : Prop := (c s).result = .error e

variable {e e' : ε} {s : σ}

@[simp] theorem not_stops_pure {a : α} : ¬ Stops (pure a : Prog σ ε α) s e := by
  show ¬ (Except.ok (a, s) : Except ε (α × σ)) = .error e
  simp

@[simp] theorem stops_fail : Stops (fail e : Prog σ ε α) s e' ↔ e = e' := by
  simp [Stops, Prog.fail]

@[simp] theorem not_stops_get : ¬ Stops (get : Prog σ ε σ) s e := by
  simp [Stops, Prog.get]

@[simp] theorem not_stops_modify {f : σ → σ} : ¬ Stops (modify f : Prog σ ε Unit) s e := by
  simp [Stops, Prog.modify]

@[simp] theorem not_stops_store {f : σ → σ} : ¬ Stops (store f : Prog σ ε Unit) s e := by
  simp [Stops, Prog.store]

theorem stops_bind {c : Prog σ ε α} {f : α → Prog σ ε β} :
    Stops (c >>= f) s e ↔ Stops c s e ∨ ∃ a s', Returns c s a s' ∧ Stops (f a) s' e := by
  show (Prog.bind c f s).result = _ ↔ _
  unfold Prog.bind Stops Returns
  rcases c s with ⟨tr, e | ⟨a, t⟩⟩
  · simp
  · simp only [reduceCtorEq, Except.ok.injEq, Prod.mk.injEq, false_or]
    constructor
    · intro h; exact ⟨a, t, ⟨rfl, rfl⟩, h⟩
    · rintro ⟨_, _, ⟨rfl, rfl⟩, h⟩; exact h

@[simp] theorem stops_ofOption {o : Option α} :
    Stops (ofOption e o : Prog σ ε α) s e' ↔ o = none ∧ e = e' := by
  cases o <;> simp [ofOption]

@[simp] theorem stops_ofResult {x : Except ε α} :
    Stops (ofResult x : Prog σ ε α) s e ↔ x = .error e := by
  cases x <;> simp [ofResult]

@[simp] theorem stops_require {p : Prop} [Decidable p] :
    Stops (require p e : Prog σ ε Unit) s e' ↔ ¬ p ∧ e = e' := by
  by_cases h : p <;> simp [require, h]

theorem Stops.not_returns {c : Prog σ ε α} (h : Stops c s e) {a : α} {s' : σ} :
    ¬ Returns c s a s' := by
  unfold Stops at h
  unfold Returns
  rw [h]
  exact fun h' => nomatch h'

theorem Stops.unique {c : Prog σ ε α} (h : Stops c s e) (h' : Stops c s e') : e = e' := by
  unfold Stops at h h'
  rw [h] at h'
  exact Except.error.inj h'

/-- Whatever follows a run that stops. -/
theorem Stops.bind {c : Prog σ ε α} (h : Stops c s e) (f : α → Prog σ ε β) : Stops (c >>= f) s e :=
  stops_bind.mpr (.inl h)

theorem Returns.stops_bind {c : Prog σ ε α} {f : α → Prog σ ε β} {a : α} {s' : σ}
    (h : Returns c s a s') (h' : Stops (f a) s' e) : Stops (c >>= f) s e :=
  Recorded.stops_bind.mpr (.inr ⟨a, s', h, h'⟩)

/-- `c` never stops with `e`. -/
def Avoids (e : ε) (c : Prog σ ε α) : Prop := ∀ s, ¬ Stops c s e

section Avoids

theorem avoids_pure {a : α} : Avoids e (pure a : Prog σ ε α) := fun _ => not_stops_pure

theorem avoids_get : Avoids e (get : Prog σ ε σ) := fun _ => not_stops_get

theorem avoids_modify {f : σ → σ} : Avoids e (modify f : Prog σ ε Unit) := fun _ => not_stops_modify

theorem avoids_store {f : σ → σ} : Avoids e (store f : Prog σ ε Unit) := fun _ => not_stops_store

theorem avoids_fail (h : e' ≠ e) : Avoids e (fail e' : Prog σ ε α) := fun _ hs =>
  h (stops_fail.mp hs)

theorem avoids_ofOption {o : Option α} (h : e' ≠ e) : Avoids e (ofOption e' o : Prog σ ε α) :=
  fun _ hs => h (stops_ofOption.mp hs).2

theorem avoids_ofResult {x : Except ε α} (h : x ≠ .error e) : Avoids e (ofResult x : Prog σ ε α) :=
  fun _ hs => h (stops_ofResult.mp hs)

theorem avoids_require {p : Prop} [Decidable p] (h : e' ≠ e) :
    Avoids e (require p e' : Prog σ ε Unit) := fun _ hs => h (stops_require.mp hs).2

theorem Avoids.bind {c : Prog σ ε α} {f : α → Prog σ ε β} (hc : Avoids e c)
    (hf : ∀ a, Avoids e (f a)) : Avoids e (c >>= f) := fun s hs => by
  rcases Recorded.stops_bind.mp hs with h | ⟨a, s', -, h⟩
  · exact hc s h
  · exact hf a s' h

theorem Avoids.map {c : Prog σ ε α} {f : α → β} (hc : Avoids e c) : Avoids e (f <$> c) :=
  hc.bind fun _ => avoids_pure

theorem Avoids.ite {p : Prop} [Decidable p] {c d : Prog σ ε α} (hc : Avoids e c) (hd : Avoids e d) :
    Avoids e (if p then c else d) := by
  by_cases h : p
  · simpa [h] using hc
  · simpa [h] using hd

theorem Avoids.when {p : Prop} [Decidable p] {c : Prog σ ε Unit} (h : Avoids e c) :
    Avoids e (when p c) := h.ite avoids_pure

theorem Avoids.forM {f : α → Prog σ ε PUnit} {l : List α} (h : ∀ x ∈ l, Avoids e (f x)) :
    Avoids e (List.forM l f) := by
  induction l with
  | nil => exact avoids_pure
  | cons x l ih => exact (h x (by simp)).bind fun _ => ih fun y hy => h y (by simp [hy])

theorem Avoids.mapM {f : α → Prog σ ε β} {l : List α} (h : ∀ x ∈ l, Avoids e (f x)) :
    Avoids e (l.mapM f) := by
  induction l with
  | nil => exact avoids_pure
  | cons x l ih =>
    rw [List.mapM_cons]
    exact (h x (by simp)).bind fun _ => (ih fun y hy => h y (by simp [hy])).bind fun _ => avoids_pure

end Avoids

end Recorded

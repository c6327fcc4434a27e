import LibPM.Recorded.Basic

/-!
# Every way a program can end

`Ends E c s Q` says that `c` started in `s` stops only with a fault in `E`, and that what it returns is
within `Q`: with `E` empty it returns. `Total c s` says only that it returns; what it returns is left to
the inversion lemmas for `Returns`. The rules follow the syntax.
-/

namespace Recorded

open Prog

variable {σ ε α β : Type} {E : ε → Prop} {s : σ} {Q : α → σ → Prop}

/-- `c` started in `s` returns within `Q`, or stops with a fault of `E`. -/
def Ends (E : ε → Prop) (c : Prog σ ε α) (s : σ) (Q : α → σ → Prop) : Prop :=
  (∃ a s', Returns c s a s' ∧ Q a s') ∨ ∃ e, Stops c s e ∧ E e

theorem Ends.mono {c : Prog σ ε α} {Q' : α → σ → Prop} (h : Ends E c s Q) (hQ : ∀ a s', Q a s' → Q' a s') :
    Ends E c s Q' :=
  h.imp (fun ⟨a, s', hr, hq⟩ => ⟨a, s', hr, hQ a s' hq⟩) id

theorem Ends.imp {c : Prog σ ε α} {E' : ε → Prop} (h : Ends E c s Q) (hE : ∀ e, E e → E' e) : Ends E' c s Q :=
  Or.imp id (fun ⟨e, he, hE'⟩ => ⟨e, he, hE e hE'⟩) h

theorem Ends.of_returns {c : Prog σ ε α} {a : α} {s' : σ} (h : Ends E c s Q) (hr : Returns c s a s') :
    Q a s' := by
  rcases h with ⟨b, t, ht, hQ⟩ | ⟨e, he, -⟩
  · obtain ⟨rfl, rfl⟩ := ht.unique hr
    exact hQ
  · exact absurd hr he.not_returns

theorem Ends.of_stops {c : Prog σ ε α} {e : ε} (h : Ends E c s Q) (hs : Stops c s e) : E e := by
  rcases h with ⟨a, t, ht, -⟩ | ⟨e', he, hE⟩
  · exact absurd ht hs.not_returns
  · rwa [hs.unique he]

/-- With no fault allowed, a program returns. -/
theorem Ends.exists_returns {c : Prog σ ε α} (h : Ends (fun _ => False) c s Q) :
    ∃ a s', Returns c s a s' ∧ Q a s' := by
  rcases h with h | ⟨e, -, he⟩
  · exact h
  · exact he.elim

theorem Returns.ends {c : Prog σ ε α} {a : α} {s' : σ} (hr : Returns c s a s') (hQ : Q a s') : Ends E c s Q :=
  .inl ⟨a, s', hr, hQ⟩

theorem ends_pure {a : α} (h : Q a s) : Ends E (pure a) s Q :=
  Returns.ends (returns_pure.mpr ⟨rfl, rfl⟩) h

theorem ends_fail {e : ε} (h : E e) : Ends E (fail e) s Q := .inr ⟨e, stops_fail.mpr rfl, h⟩

theorem Ends.bind {c : Prog σ ε α} {f : α → Prog σ ε β} {R : β → σ → Prop} (h : Ends E c s Q)
    (hf : ∀ a s', Q a s' → Ends E (f a) s' R) : Ends E (c >>= f) s R := by
  rcases h with ⟨a, s', hr, hQ⟩ | ⟨e, he, hE⟩
  · rcases hf a s' hQ with ⟨b, t, hb, hR⟩ | ⟨e, he, hE⟩
    · exact .inl ⟨b, t, hr.bind hb, hR⟩
    · exact .inr ⟨e, hr.stops_bind he, hE⟩
  · exact .inr ⟨e, he.bind f, hE⟩

/-- A first step that returns. -/
theorem Returns.ends_bind {c : Prog σ ε α} {f : α → Prog σ ε β} {R : β → σ → Prop} {a : α} {s' : σ}
    (hr : Returns c s a s') (h : Ends E (f a) s' R) : Ends E (c >>= f) s R :=
  @Ends.bind _ _ _ _ _ _ (fun b t => b = a ∧ t = s') _ _ _ (hr.ends ⟨rfl, rfl⟩) fun _ _ ⟨hb, ht⟩ => by
    rw [hb, ht]
    exact h

theorem ends_ofOption {e : ε} {o : Option α} (hE : o = none → E e) (hQ : ∀ a, o = some a → Q a s) :
    Ends E (ofOption e o) s Q := by
  cases o with
  | none => exact ends_fail (hE rfl)
  | some a => exact ends_pure (hQ a rfl)

/-- The invariant rule of a loop over the numbers below `n`: `J k` holds before round `k`. -/
theorem Ends.forM_range {f : ℕ → Prog σ ε PUnit} {J : ℕ → σ → Prop} {n : ℕ} (h0 : J 0 s)
    (hstep : ∀ k < n, ∀ t, J k t → Ends E (f k) t fun _ => J (k + 1)) :
    Ends E (List.forM (List.range n) f) s fun _ => J n := by
  have hrun : ∀ m k t, k + m = n → J k t →
      Ends E (List.forM (List.range' k m) f) t fun _ => J n := by
    intro m
    induction m with
    | zero =>
      intro k t hk hJ
      obtain rfl : k = n := hk
      exact ends_pure hJ
    | succ m ih =>
      intro k t hk hJ
      exact (hstep k (by omega) t hJ).bind fun _ t' hJ' => ih (k + 1) t' (by omega) hJ'
  rw [List.range_eq_range']
  exact hrun n 0 s (Nat.zero_add n) h0

/-! ## Programs that return -/

/-- `c` started in `s` returns. -/
def Total (c : Prog σ ε α) (s : σ) : Prop := ∃ a s', Returns c s a s'

section Total

variable {c : Prog σ ε α} {f : α → Prog σ ε β} {a : α} {s' : σ}

theorem Returns.total (h : Returns c s a s') : Total c s := ⟨a, s', h⟩

theorem Total.bind (h : Total c s) (hf : ∀ a s', Returns c s a s' → Total (f a) s') :
    Total (c >>= f) s := by
  obtain ⟨a, s', hr⟩ := h
  obtain ⟨b, t, ht⟩ := hf a s' hr
  exact ⟨b, t, hr.bind ht⟩

theorem Returns.total_bind (h : Returns c s a s') (hf : Total (f a) s') : Total (c >>= f) s := by
  obtain ⟨b, t, ht⟩ := hf
  exact ⟨b, t, h.bind ht⟩

theorem Total.map (h : Total c s) (g : α → β) : Total (g <$> c) s := by
  obtain ⟨a, s', hr⟩ := h
  exact ⟨g a, s', returns_map.mpr ⟨a, hr, rfl⟩⟩

theorem total_pure : Total (pure a : Prog σ ε α) s := ⟨a, s, returns_pure.mpr ⟨rfl, rfl⟩⟩

theorem total_get : Total (get : Prog σ ε σ) s := ⟨s, s, returns_get.mpr ⟨rfl, rfl⟩⟩

theorem total_modify {g : σ → σ} : Total (modify g : Prog σ ε Unit) s :=
  ⟨(), g s, returns_modify.mpr rfl⟩

theorem total_ofOption {e : ε} {o : Option α} (h : o = some a) : Total (ofOption e o) s :=
  ⟨a, s, returns_ofOption.mpr ⟨h, rfl⟩⟩

theorem total_require {p : Prop} [Decidable p] {e : ε} (h : p) :
    Total (require p e : Prog σ ε Unit) s := ⟨(), s, returns_require.mpr ⟨h, rfl⟩⟩

theorem Total.when {p : Prop} [Decidable p] {d : Prog σ ε Unit} (h : p → Total d s) :
    Total (when p d) s := by
  by_cases hp : p
  · obtain ⟨u, s', hr⟩ := h hp
    exact ⟨u, s', returns_when.mpr (.inl ⟨hp, hr⟩)⟩
  · exact ⟨(), s, returns_when.mpr (.inr ⟨hp, rfl⟩)⟩

theorem Total.ite {p : Prop} [Decidable p] {c d : Prog σ ε α} (hc : p → Total c s)
    (hd : ¬ p → Total d s) : Total (if p then c else d) s := by
  split_ifs with hp
  · exact hc hp
  · exact hd hp

/-- The invariant rule of a loop over the numbers below `n`. -/
theorem Total.forM_range {f : ℕ → Prog σ ε PUnit} {J : ℕ → σ → Prop} {n : ℕ} (h0 : J 0 s)
    (hstep : ∀ k < n, ∀ t, J k t →
      Total (f k) t ∧ ∀ t', Returns (f k) t ⟨⟩ t' → J (k + 1) t') :
    Total (List.forM (List.range n) f) s := by
  have hends : Ends (fun _ => False) (List.forM (List.range n) f) s fun _ => J n := by
    refine Ends.forM_range h0 fun k hk t hJ => ?_
    obtain ⟨⟨u, t', hr⟩, hnext⟩ := hstep k hk t hJ
    exact hr.ends (hnext t' hr)
  obtain ⟨u, s', hr, -⟩ := hends.exists_returns
  exact hr.total

/-- A first step that only reads the state. -/
theorem bind_read (h : c s = (pure a : Prog σ ε α) s) : (c >>= f) s = f a s := by
  have hbind : Prog.bind c f s = Prog.bind (Prog.pure a) f s := by
    unfold Prog.bind
    rw [h]
    rfl
  exact hbind.trans (congrFun (pure_bind_eq a f) s)

theorem read_eq {e : ε} {g : σ → Option α} (h : g s = some a) :
    (do let s ← get; ofOption e (g s) : Prog σ ε α) s = (pure a : Prog σ ε α) s := by
  have hget : (get : Prog σ ε σ) s = (pure s : Prog σ ε σ) s := rfl
  refine (bind_read hget).trans ?_
  rw [h]
  rfl

theorem require_eq {p : Prop} [Decidable p] {e : ε} (h : p) :
    (require p e : Prog σ ε Unit) s = (pure () : Prog σ ε Unit) s := by
  unfold require
  rw [if_pos h]

theorem Total.congr {d : Prog σ ε α} (h : Total c s) (heq : d s = c s) : Total d s := by
  obtain ⟨a, s', hr⟩ := h
  refine ⟨a, s', ?_⟩
  unfold Returns at hr ⊢
  rw [heq, hr]

theorem Stops.congr {d : Prog σ ε α} {e : ε} (h : Stops c s e) (heq : d s = c s) : Stops d s e := by
  unfold Stops at h ⊢
  rw [heq, h]

theorem Total.not_stops (h : Total c s) {e : ε} : ¬ Stops c s e := by
  obtain ⟨a, s', hr⟩ := h
  exact fun hs => hs.not_returns hr

end Total

/-- From every state of `P` the program returns to a state of `P`. -/
structure Steady (P : σ → Prop) (c : Prog σ ε α) : Prop where
  total : ∀ s, P s → Total c s
  stays : ∀ s a s', P s → Returns c s a s' → P s'

section Steady

variable {P : σ → Prop} {c : Prog σ ε α} {f : α → Prog σ ε β}

theorem Steady.bind (hc : Steady P c) (hf : ∀ a, Steady P (f a)) : Steady P (c >>= f) := by
  refine ⟨fun s hs => (hc.total s hs).bind fun a s' hr => (hf a).total s' (hc.stays s a s' hs hr),
    fun s b s'' hs hr => ?_⟩
  obtain ⟨a, s', h₁, h₂⟩ := returns_bind.mp hr
  exact (hf a).stays s' b s'' (hc.stays s a s' hs h₁) h₂

/-- The rest may use what the first step returned. -/
theorem Steady.total_bind (hc : Steady P c) (hs : P s)
    (hf : ∀ a s', Returns c s a s' → P s' → Total (f a) s') : Total (c >>= f) s :=
  (hc.total s hs).bind fun a s' hr => hf a s' hr (hc.stays s a s' hs hr)

theorem Steady.when {p : Prop} [Decidable p] {d : Prog σ ε Unit} (h : Steady P d) :
    Steady P (when p d) := by
  refine ⟨fun s hs => Total.when fun _ => h.total s hs, fun s u s' hs hr => ?_⟩
  rcases returns_when.mp hr with ⟨-, hr⟩ | ⟨-, rfl⟩
  · exact h.stays s u s' hs hr
  · exact hs

end Steady

/-! ## The same program several times -/

section Rounds

variable {c : Prog σ ε α} {J : ℕ → List α → σ → Prop} {n k : ℕ} {l : List α} {s' : σ}

end Rounds

end Recorded

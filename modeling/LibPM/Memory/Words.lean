import LibPM.Model.Slab
import LibPM.Memory.Access

/-!
# Bytes and words of the container

A load reads the page behind its address; the word at an address is made of its eight bytes.
-/

namespace LibPM

open Recorded Recorded.Prog

variable {s s' : Pm} {a v : ℕ}

/-- The byte at an address. -/
def Pm.byteAt (s : Pm) (a : ℕ) : Option UInt8 :=
  (s.pageAt (roundDwnPg a)).map fun p => s.bytesOf p (a % pageSize)

@[simp] theorem returns_loadByte {b : UInt8} :
    Returns (loadByte a) s b s' ↔ s.byteAt a = some b ∧ s = s' := by
  unfold loadByte Pm.byteAt
  simp only [returns_bind, returns_get, returns_ofOption, returns_pure, Option.map_eq_some_iff]
  constructor
  · rintro ⟨_, _, ⟨rfl, rfl⟩, p, _, ⟨hp, rfl⟩, hb, rfl⟩
    exact ⟨⟨p, hp, hb⟩, rfl⟩
  · rintro ⟨⟨p, hp, hb⟩, rfl⟩
    exact ⟨s, s, ⟨rfl, rfl⟩, p, s, ⟨hp, rfl⟩, hb, rfl⟩

/-- The number with these bytes, the lowest first. -/
def wordOf (bs : List UInt8) : ℕ := bs.foldr (fun b n => b.toNat + 256 * n) 0

theorem returns_mapM_loadByte {l : List ℕ} {bs : List UInt8} :
    Returns (l.mapM loadByte) s bs s' ↔ l.mapM s.byteAt = some bs ∧ s = s' := by
  induction l generalizing s s' bs with
  | nil =>
    rw [List.mapM_nil, List.mapM_nil]
    exact returns_pure.trans (and_congr_left fun _ => Option.some_inj.symm)
  | cons x l ih =>
    rw [List.mapM_cons, List.mapM_cons]
    simp only [returns_bind, returns_loadByte, ih, returns_pure, Option.bind_eq_bind,
      Option.bind_eq_some_iff, Option.pure_def, Option.some.injEq]
    constructor
    · rintro ⟨b, _, ⟨hb, rfl⟩, bs', _, ⟨hbs, rfl⟩, rfl, rfl⟩
      exact ⟨⟨b, hb, bs', hbs, rfl⟩, rfl⟩
    · rintro ⟨⟨b, hb, bs', hbs, rfl⟩, rfl⟩
      exact ⟨b, s, ⟨hb, rfl⟩, bs', s, ⟨hbs, rfl⟩, rfl, rfl⟩

/-- The word at an address. -/
def Pm.wordAt (s : Pm) (a : ℕ) : Option ℕ := ((List.range' a 8).mapM s.byteAt).map wordOf

theorem returns_loadWord : Returns (loadWord a) s v s' ↔ s.wordAt a = some v ∧ s = s' := by
  unfold loadWord Pm.wordAt
  simp only [returns_bind, returns_mapM_loadByte, returns_pure, Option.map_eq_some_iff]
  constructor
  · rintro ⟨bs, _, ⟨hbs, rfl⟩, hv, rfl⟩
    exact ⟨⟨bs, hbs, hv⟩, rfl⟩
  · rintro ⟨⟨bs, hbs, hv⟩, rfl⟩
    exact ⟨bs, s, ⟨hbs, rfl⟩, hv, rfl⟩

/-- The word depends on its bytes only. -/
theorem wordAt_congr (h : ∀ x, a ≤ x → x < a + 8 → s'.byteAt x = s.byteAt x) :
    s'.wordAt a = s.wordAt a := by
  have hbytes : ∀ l : List ℕ, (∀ x ∈ l, s'.byteAt x = s.byteAt x) →
      l.mapM s'.byteAt = l.mapM s.byteAt := by
    intro l
    induction l with
    | nil => exact fun _ => rfl
    | cons x l ih =>
      intro hl
      rw [List.mapM_cons, List.mapM_cons, hl x List.mem_cons_self,
        ih fun y hy => hl y (List.mem_cons_of_mem x hy)]
  unfold Pm.wordAt
  rw [hbytes]
  intro x hx
  obtain ⟨hle, hlt⟩ := List.mem_range'_1.mp hx
  exact h x hle hlt

end LibPM

import LibPM.Session.Fault
import LibPM.Memory.Bitmap

/-!
# The objects of an entry

Which objects of an entry are in use, as the bitmap says: it is in the data page for small objects and in
the entry for large ones. The searches of the bitmap, and the store that marks an object, are described by
this.
-/

namespace LibPM

open Recorded Recorded.Prog

namespace Pm

/-! ## The bitmap -/

/-- Byte `k` of the bitmap of entry `i`. -/
def mapByte (s : Pm) (v : View) (i k : ℕ) : UInt8 :=
  if (v.entry i).seSize ≥ slabLargeAlloc then (v.entry i).dataCurrent.bitmap
  else s.restBytes v.n (pageNo v.base (v.entry i).dataCurrent.maddr) k

/-- The object `k` of entry `i` is in use. -/
def inUse (s : Pm) (v : View) (i k : ℕ) : Bool := bitTest (s.mapByte v i (k / 8)) (k % 8)

/-- All objects of entry `i` are in use. -/
def Full (s : Pm) (v : View) (i : ℕ) : Prop :=
  ∀ k < slabEntryCapacity (v.entry i).seSize, s.inUse v i k = true

variable {s s' : Pm} {v v' : View} {lost lost' : Multiset ℕ} {i j k n p : ℕ} {b : UInt8} {u : Unit}

/-- An address in a page. -/
theorem Shows.addr_add (h : s.Shows v) (p : ℕ) (hk : k < pageSize) :
    roundDwnPg (v.addr p + k) = v.addr p ∧ (v.addr p + k) % pageSize = k := by
  have hmod : v.addr p % pageSize = 0 := by
    rw [h.addr_eq]
    exact h.space.addr_mod p
  unfold roundDwnPg pageSize at *
  omega

theorem Holds.loadByte_data (h : s.Holds v lost) (hi : i < v.used) (hk : k < pageSize)
    (hr : Returns (loadByte ((v.entry i).dataCurrent.maddr + k)) s b s') :
    s = s' ∧ b = s.restBytes v.n (pageNo v.base (v.entry i).dataCurrent.maddr) k := by
  obtain ⟨p, hp, -, hlt, -⟩ := h.data hi
  obtain ⟨hround, hoff⟩ := h.shows.addr_add p hk
  unfold loadByte at hr
  rw [hp, hround, hoff] at hr
  simp only [returns_bind, returns_get, returns_ofOption, returns_pure] at hr
  obtain ⟨_, _, ⟨rfl, rfl⟩, x, _, ⟨hx, rfl⟩, rfl, rfl⟩ := hr
  rw [h.shows.pageAt hlt, Option.some.injEq] at hx
  refine ⟨rfl, ?_⟩
  unfold Pm.restBytes Pm.filePage
  rw [hp, show pageNo v.base (v.addr p) = p from pageNo_add v.base p, if_pos hlt, ← hx]
  rfl

theorem Holds.loadBitmap (h : s.Holds v lost) (hi : i < v.used) (hk : k < pageSize)
    (hr : Returns (loadBitmap (v.ref i) k) s b s') : s = s' ∧ b = s.mapByte v i k := by
  unfold LibPM.loadBitmap at hr
  rw [returns_bind] at hr
  obtain ⟨e, s₁, h₁, hr⟩ := hr
  obtain ⟨rfl, rfl⟩ := h.shows.loadEntry (h.lt_cap hi) h₁
  unfold mapByte
  by_cases hlarge : (v.entry i).seSize ≥ slabLargeAlloc
  · rw [if_pos hlarge] at hr ⊢
    simp only [returns_bind, returns_require, returns_pure] at hr
    obtain ⟨_, _, ⟨-, rfl⟩, rfl, rfl⟩ := hr
    exact ⟨rfl, rfl⟩
  · rw [if_neg hlarge] at hr ⊢
    exact h.loadByte_data hi hk hr

theorem Holds.entryCapacity (h : s.Holds v lost) (hi : i < v.used)
    (hr : Returns (entryCapacity (v.ref i)) s n s') :
    s = s' ∧ n = slabEntryCapacity (v.entry i).seSize ∧ (v.entry i).seSize ≠ 0 := by
  unfold LibPM.entryCapacity at hr
  simp only [returns_bind, returns_require, returns_pure] at hr
  obtain ⟨e, s₁, h₁, _, _, ⟨hne, rfl⟩, rfl, rfl⟩ := hr
  obtain ⟨rfl, rfl⟩ := h.shows.loadEntry (h.lt_cap hi) h₁
  exact ⟨rfl, rfl, hne⟩

theorem Holds.countSet (h : s.Holds v lost) (hi : i < v.used) {m c : ℕ} (hm : k + m ≤ pageSize)
    (hr : Returns (countSet (v.ref i) m k) s c s') :
    s = s' ∧ c ≤ m ∧ (c = m ↔ ∀ l, k ≤ l → l < k + m → s.inUse v i l = true) := by
  induction m generalizing k c with
  | zero =>
    obtain ⟨rfl, rfl⟩ := returns_pure.mp hr
    exact ⟨rfl, Nat.le_refl _, iff_of_true rfl fun l hl hl' => absurd hl' (Nat.not_lt.mpr hl)⟩
  | succ m ih =>
    unfold LibPM.countSet at hr
    simp only [returns_bind, returns_pure] at hr
    obtain ⟨b, s₁, h₁, c', s₂, h₂, rfl, rfl⟩ := hr
    obtain ⟨rfl, rfl⟩ := h.loadBitmap hi (by omega) h₁
    obtain ⟨rfl, hle, hiff⟩ := ih (by omega) h₂
    have hbit : bitTest (s.mapByte v i (k / 8)) (k % 8) = s.inUse v i k := rfl
    rw [hbit]
    refine ⟨rfl, by split_ifs <;> omega, ?_⟩
    by_cases hk : s.inUse v i k = true
    · rw [if_pos hk, Nat.succ_inj, hiff]
      refine ⟨fun hall l hl hl' => ?_, fun hall l hl hl' => hall l (by omega) (by omega)⟩
      rcases Nat.eq_or_lt_of_le hl with rfl | hlt
      · exact hk
      · exact hall l hlt (by omega)
    · rw [if_neg hk]
      refine iff_of_false (by omega) fun hall => hk (hall k (Nat.le_refl _) (by omega))

theorem Holds.slabEntryFull (h : s.Holds v lost) (hi : i < v.used) {x : Bool}
    (hr : Returns (slabEntryFull (v.ref i)) s x s') :
    s = s' ∧ (x = true ↔ s.Full v i) ∧ (v.entry i).seSize ≠ 0 := by
  unfold LibPM.slabEntryFull at hr
  simp only [returns_bind, returns_pure] at hr
  obtain ⟨n, s₁, h₁, c, s₂, h₂, rfl, rfl⟩ := hr
  obtain ⟨rfl, rfl, hne⟩ := h.entryCapacity hi h₁
  obtain ⟨rfl, -, hiff⟩ := h.countSet hi (by
    rw [Nat.zero_add]
    exact slabEntryCapacity_le _) h₂
  refine ⟨rfl, ?_, hne⟩
  rw [beq_iff_eq, hiff]
  unfold Full
  simp only [Nat.zero_le, Nat.zero_add, forall_const]

/-! ## The first free object -/

theorem Holds.bitFfcFrom (h : s.Holds v lost) (hi : i < v.used) {m : ℕ} {x : Option ℕ}
    (hm : k + m ≤ pageSize) (hr : Returns (bitFfcFrom (v.ref i) m k) s x s') :
    s = s' ∧ (x = none ∧ (∀ l, 8 * k ≤ l → l < 8 * (k + m) → s.inUse v i l = true) ∨
      ∃ f, x = some f ∧ 8 * k ≤ f ∧ s.inUse v i f = false ∧
        ∀ l, 8 * k ≤ l → l < f → s.inUse v i l = true) := by
  induction m generalizing k with
  | zero =>
    obtain ⟨rfl, rfl⟩ := returns_pure.mp hr
    exact ⟨rfl, .inl ⟨rfl, fun l hl hl' => absurd hl' (Nat.not_lt.mpr hl)⟩⟩
  | succ m ih =>
    unfold LibPM.bitFfcFrom at hr
    rw [returns_bind] at hr
    obtain ⟨b, s₁, h₁, hr⟩ := hr
    obtain ⟨rfl, rfl⟩ := h.loadBitmap hi (by omega) h₁
    have hbit : ∀ l, l < 8 → s.inUse v i (8 * k + l) = bitTest (s.mapByte v i k) l := by
      intro l hl
      unfold inUse
      rw [Nat.mul_add_div (by decide), Nat.div_eq_of_lt hl, Nat.add_zero, Nat.mul_add_mod,
        Nat.mod_eq_of_lt hl]
    cases hc : lowestClear (s.mapByte v i k) with
    | some f =>
      rw [hc] at hr
      obtain ⟨rfl, rfl⟩ := returns_pure.mp hr
      obtain ⟨hf, hclear, hmin⟩ := lowestClear_eq_some hc
      refine ⟨rfl, .inr ⟨8 * k + f, rfl, by omega, by rw [hbit f hf, hclear], fun l hl hl' => ?_⟩⟩
      have hl₁ := hbit (l - 8 * k) (by omega)
      rw [show 8 * k + (l - 8 * k) = l by omega, hmin _ (by omega)] at hl₁
      exact hl₁
    | none =>
      rw [hc] at hr
      have hall : ∀ l, 8 * k ≤ l → l < 8 * (k + 1) → s.inUse v i l = true := by
        intro l hl hl'
        have hl₁ := hbit (l - 8 * k) (by omega)
        rw [show 8 * k + (l - 8 * k) = l by omega, lowestClear_eq_none hc (by omega)] at hl₁
        exact hl₁
      obtain ⟨rfl, ⟨rfl, hrest⟩ | ⟨f, rfl, hf, hclear, hmin⟩⟩ := ih (by omega) hr
      · refine ⟨rfl, .inl ⟨rfl, fun l hl hl' => ?_⟩⟩
        by_cases hlt : l < 8 * (k + 1)
        · exact hall l hl hlt
        · exact hrest l (Nat.not_lt.mp hlt) (by omega)
      · refine ⟨rfl, .inr ⟨f, rfl, by omega, hclear, fun l hl hl' => ?_⟩⟩
        by_cases hlt : l < 8 * (k + 1)
        · exact hall l hl hlt
        · exact hmin l (Nat.not_lt.mp hlt) hl'

/-- `bit_ffc` over the objects of an entry. -/
theorem Holds.bitFfc (h : s.Holds v lost) (hi : i < v.used) {x : Option ℕ} (hn : n ≤ pageSize)
    (hr : Returns (bitFfc (v.ref i) n) s x s') :
    s = s' ∧ (x = none ∧ (∀ l < n, s.inUse v i l = true) ∨
      ∃ f, x = some f ∧ f < n ∧ s.inUse v i f = false ∧ ∀ l < f, s.inUse v i l = true) := by
  have hbytes : n ≤ 8 * bitstrSize n ∧ bitstrSize n ≤ pageSize := by
    unfold bitstrSize pageSize at *
    omega
  unfold LibPM.bitFfc at hr
  simp only [returns_bind, returns_pure] at hr
  obtain ⟨y, s₁, h₁, rfl, rfl⟩ := hr
  obtain ⟨rfl, ⟨rfl, hall⟩ | ⟨f, rfl, -, hclear, hmin⟩⟩ := h.bitFfcFrom hi (by omega) h₁
  · exact ⟨rfl, .inl ⟨rfl, fun l hl => hall l (by omega) (by omega)⟩⟩
  · refine ⟨rfl, ?_⟩
    by_cases hf : f < n
    · exact .inr ⟨f, Option.filter_eq_some_iff.mpr ⟨rfl, by simpa using hf⟩, hf, hclear,
        fun l hl => hmin l (by omega) hl⟩
    · refine .inl ⟨?_, fun l hl => hmin l (by omega) (by omega)⟩
      simp only [Option.filter_eq_none_iff]
      rintro a ⟨⟩
      simpa using hf

end Pm

end LibPM

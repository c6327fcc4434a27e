import LibPM.Model.Cont
import Mathlib

/-!
# Where the file is mapped (map_hint of fixmapper.c)

`map_hint` goes through the lines of /proc/self/maps and looks for the first gap from one terabyte on
that is long enough. Addresses are 64-bit words: the rounding to the next gigabyte wraps around.
-/

namespace LibPM

def gigabyte : ℕ := 2 ^ 30
def terabyte : ℕ := 2 ^ 40
def uintptrMax : ℕ := 2 ^ 64 - 1

/-- `ROUND2GB`. -/
def round2Gb (x : ℕ) : ℕ := (x + (gigabyte - 1)) % 2 ^ 64 / gigabyte * gigabyte

/-- A line of the file that is a range: the addresses from `lo` to `hi`, without `hi`. -/
structure MapRange where
  lo : ℕ
  hi : ℕ
  le : lo ≤ hi
  lt : hi < 2 ^ 64

/-- The loop of `map_hint`: the candidate `raddr` after the ranges. The difference of two pointers is
signed, but it is not negative where it is compared with `len`. -/
def mapHintLoop (len : ℕ) : List MapRange → ℕ → ℕ
  | [], raddr => raddr
  | m :: l, raddr =>
    if raddr < m.lo ∧ len ≤ m.lo - raddr then raddr
    else
      let raddr := if raddr < m.hi then round2Gb m.hi else raddr
      if raddr = 0 then raddr else mapHintLoop len l raddr

/-- `map_hint`; zero stands for `NULL`. -/
def mapHint (len : ℕ) (maps : List MapRange) : ℕ :=
  let raddr := mapHintLoop len maps terabyte
  if raddr ≠ 0 ∧ uintptrMax - raddr < len then 0 else raddr

/-! ## Rounding -/

/-- Rounding up gives a multiple of a gigabyte, or zero if the next one is past the last address. -/
theorem round2Gb_cases {x : ℕ} (hx : x < 2 ^ 64) :
    round2Gb x = 0 ∨ x ≤ round2Gb x ∧ round2Gb x % gigabyte = 0 ∧ round2Gb x < 2 ^ 64 := by
  unfold round2Gb gigabyte
  by_cases hwrap : x + (2 ^ 30 - 1) < 2 ^ 64
  · right
    rw [Nat.mod_eq_of_lt hwrap]
    omega
  · left
    omega

/-! ## The loop -/

/-- The candidate `r` and the `len` addresses from it are clear of the range `m`. -/
def MapRange.Clear (m : MapRange) (len r : ℕ) : Prop := m.hi ≤ r ∨ r + len ≤ m.lo

/-- What holds of the candidate `raddr` before each line. -/
structure IsCandidate (raddr : ℕ) : Prop where
  ge : terabyte ≤ raddr
  aligned : raddr % gigabyte = 0
  lt : raddr < 2 ^ 64

theorem isCandidate_terabyte : IsCandidate terabyte := ⟨le_rfl, by decide, by decide⟩

/-- One line that is no gap: the candidate stays or moves behind the range. -/
theorem IsCandidate.next {raddr : ℕ} (h : IsCandidate raddr) (m : MapRange) :
    (if raddr < m.hi then round2Gb m.hi else raddr) = 0 ∨
      IsCandidate (if raddr < m.hi then round2Gb m.hi else raddr) ∧
        raddr ≤ (if raddr < m.hi then round2Gb m.hi else raddr) ∧
        m.hi ≤ (if raddr < m.hi then round2Gb m.hi else raddr) := by
  have hge := h.ge
  split_ifs with hhi
  · rcases round2Gb_cases m.lt with h0 | ⟨hle, hal, hlt⟩
    · exact .inl h0
    · exact .inr ⟨⟨by omega, hal, hlt⟩, by omega, hle⟩
  · exact .inr ⟨h, le_rfl, by omega⟩

/-- **The loop ends with a gap**, or with no candidate at all. -/
theorem mapHintLoop_cases {len : ℕ} {maps : List MapRange} (hmaps : maps.Pairwise fun m m' => m.hi ≤ m'.lo)
    {raddr : ℕ} (h : IsCandidate raddr) :
    mapHintLoop len maps raddr = 0 ∨
      IsCandidate (mapHintLoop len maps raddr) ∧ raddr ≤ mapHintLoop len maps raddr ∧
        ∀ m ∈ maps, m.Clear len (mapHintLoop len maps raddr) := by
  induction maps generalizing raddr with
  | nil => exact .inr ⟨h, le_rfl, by simp⟩
  | cons m l ih =>
    obtain ⟨hm, hl⟩ := List.pairwise_cons.mp hmaps
    unfold mapHintLoop
    by_cases hgap : raddr < m.lo ∧ len ≤ m.lo - raddr
    · -- the gap before `m` is before all later ranges too
      rw [if_pos hgap]
      refine .inr ⟨h, le_rfl, fun m' hm' => .inr ?_⟩
      rcases List.mem_cons.mp hm' with rfl | hm'
      · omega
      · have := hm m' hm'
        have := m.le
        omega
    · rw [if_neg hgap]
      dsimp only
      rcases h.next m with h0 | ⟨hnext, hle, hhi⟩
      · rw [if_pos h0]
        exact .inl h0
      · have hne := hnext.ge
        rw [if_neg fun h0 => by rw [h0] at hne; exact absurd hne (by decide)]
        rcases ih hl hnext with h0 | ⟨hr, hle', hclear⟩
        · exact .inl h0
        · refine .inr ⟨hr, by omega, fun m' hm' => ?_⟩
          rcases List.mem_cons.mp hm' with rfl | hm'
          · exact .inl (by omega)
          · exact hclear m' hm'

/-! ## The hint -/

/-- The `len` addresses from `r` on can be used: they are high enough, do not wrap and are free. -/
structure HintFits (len : ℕ) (maps : List MapRange) (r : ℕ) : Prop where
  ge : terabyte ≤ r
  aligned : r % gigabyte = 0
  nowrap : r + len < 2 ^ 64
  free : ∀ m ∈ maps, Disjoint (Set.Ico r (r + len)) (Set.Ico m.lo m.hi)

theorem MapRange.Clear.disjoint {m : MapRange} {len r : ℕ} (h : m.Clear len r) :
    Disjoint (Set.Ico r (r + len)) (Set.Ico m.lo m.hi) := by
  rw [Set.disjoint_left]
  intro x hx hx'
  have hin := Set.mem_Ico.mp hx
  have hin' := Set.mem_Ico.mp hx'
  rcases h with h | h <;> omega

/-- **The hint never overlaps a mapping.** -/
theorem mapHint_fits (len : ℕ) (maps : List MapRange) (hmaps : maps.Pairwise fun m m' => m.hi ≤ m'.lo) :
    mapHint len maps = 0 ∨ HintFits len maps (mapHint len maps) := by
  unfold mapHint
  dsimp only
  rcases mapHintLoop_cases hmaps isCandidate_terabyte with h0 | ⟨hr, -, hclear⟩
  · rw [if_neg fun h => h.1 h0]
    exact .inl h0
  · by_cases hlast : uintptrMax - mapHintLoop len maps terabyte < len
    · have hne : mapHintLoop len maps terabyte ≠ 0 := fun h0 => by
        have := hr.ge
        rw [h0] at this
        exact absurd this (by decide)
      rw [if_pos ⟨hne, hlast⟩]
      exact .inl rfl
    · rw [if_neg fun h => hlast h.2]
      have hlt := hr.lt
      unfold uintptrMax at hlast
      exact .inr ⟨hr.ge, hr.aligned, by omega, fun m hm => (hclear m hm).disjoint⟩

/-- A range across one terabyte, then gaps that are too short and one of exactly the length. -/
def someMaps : List MapRange :=
  [⟨2 ^ 40 - 4096, 2 ^ 40 + 4096, by decide, by decide⟩,
    ⟨2 ^ 40 + 2 ^ 30 + 4096, 2 ^ 40 + 2 ^ 31, by decide, by decide⟩,
    ⟨2 ^ 40 + 2 ^ 31 + 8192, 2 ^ 64 - 4096, by decide, by decide⟩]

/-- In a gap of exactly the length, and with no room left. -/
theorem mapHint_fits_someMaps :
    HintFits 8192 someMaps (2 ^ 40 + 2 ^ 31) ∧ mapHint 8193 someMaps = 0 := by
  have h := (mapHint_fits 8192 someMaps (by simp [someMaps])).resolve_left (by decide)
  exact ⟨h, by decide⟩

/-- What a process takes for granted of its hint. -/
theorem mapHint_env (len : ℕ) (maps : List MapRange)
    (hmaps : maps.Pairwise fun m m' => m.hi ≤ m'.lo) :
    mapHint len maps % 2 ^ 30 = 0 ∧ (mapHint len maps = 0 ∨ 2 ^ 40 ≤ mapHint len maps) := by
  rcases mapHint_fits len maps hmaps with h0 | h
  · rw [h0]
    exact ⟨rfl, .inl rfl⟩
  · exact ⟨h.aligned, .inr h.ge⟩

end LibPM

import Mathlib.Algebra.Group.Nat.Defs
import Mathlib.Tactic.Common
import Mathlib.Data.Nat.Notation

/-!
# Little-endian numbers in memory

A number of `n` bytes is read from and written to a function from offsets to bytes. What is read back is
what was written (`num_put_self`), and other numbers are where they were (`num_put_of_disjoint`). A `Layout`
places the fields of a structure; its fields are then independent cells (`Layout.read_write`).
-/

namespace LittleEndian

variable {b b' : ℕ → UInt8} {off off' n m v : ℕ}

/-- The number in the `n` bytes from `off`. -/
def num (b : ℕ → UInt8) (off : ℕ) : ℕ → ℕ
  | 0 => 0
  | n + 1 => (b off).toNat + 256 * num b (off + 1) n

/-- The bytes with `v` in the `n` bytes from `off`. -/
def put (b : ℕ → UInt8) (off n v : ℕ) : ℕ → UInt8 := fun i =>
  if off ≤ i ∧ i < off + n then UInt8.ofNat (v / 256 ^ (i - off)) else b i

theorem num_congr (h : ∀ i, off ≤ i → i < off + n → b i = b' i) : num b off n = num b' off n := by
  induction n generalizing off with
  | zero => rfl
  | succ n ih =>
    unfold num
    rw [h off (Nat.le_refl _) (by omega), ih fun i hi hi' => h i (by omega) (by omega)]

theorem num_lt (b : ℕ → UInt8) (off n : ℕ) : num b off n < 256 ^ n := by
  induction n generalizing off with
  | zero => exact Nat.one_pos
  | succ n ih =>
    have := ih (off + 1)
    have := (b off).toNat_lt
    unfold num
    rw [Nat.pow_succ]
    omega

/-- A number that was written is read back. -/
theorem num_put_self (b : ℕ → UInt8) (off n v : ℕ) : num (put b off n v) off n = v % 256 ^ n := by
  induction n generalizing b off v with
  | zero => rw [Nat.pow_zero, Nat.mod_one]; rfl
  | succ n ih =>
    have htail : num (put b off (n + 1) v) (off + 1) n = num (put b (off + 1) n (v / 256)) (off + 1) n := by
      refine num_congr fun i hi hi' => ?_
      unfold put
      rw [if_pos (by omega), if_pos (by omega), Nat.div_div_eq_div_mul, ← Nat.pow_succ',
        show (i - (off + 1)).succ = i - off by omega]
    have hhead : (put b off (n + 1) v off).toNat = v % 256 := by
      unfold put
      rw [if_pos (by omega), Nat.sub_self, Nat.pow_zero, Nat.div_one, UInt8.toNat_ofNat']
    unfold num
    rw [htail, ih, hhead, Nat.pow_succ', Nat.mod_mul]

theorem num_put_eq (h : v < 256 ^ n) : num (put b off n v) off n = v := by
  rw [num_put_self, Nat.mod_eq_of_lt h]

/-- A number elsewhere stays. -/
theorem num_put_of_disjoint (h : off' + m ≤ off ∨ off + n ≤ off') :
    num (put b off n v) off' m = num b off' m := by
  refine num_congr fun i hi hi' => ?_
  unfold put
  rw [if_neg (by omega)]

/-! ## Structures -/

/-- Where the fields of a structure lie. They do not overlap. -/
structure Layout (F : Type) where
  off : F → ℕ
  size : F → ℕ
  disjoint : ∀ f g, f ≠ g → off f + size f ≤ off g ∨ off g + size g ≤ off f

namespace Layout

variable {F : Type} (L : Layout F) {f g : F}

/-- The number in a field. -/
def read (b : ℕ → UInt8) (f : F) : ℕ := num b (L.off f) (L.size f)

/-- The bytes with `v` in a field. -/
def write (b : ℕ → UInt8) (f : F) (v : ℕ) : ℕ → UInt8 := put b (L.off f) (L.size f) v

theorem read_write_self (h : v < 256 ^ L.size f) : L.read (L.write b f v) f = v := num_put_eq h

theorem read_write_of_ne (h : g ≠ f) : L.read (L.write b f v) g = L.read b g :=
  num_put_of_disjoint (L.disjoint g f h)

theorem read_write [DecidableEq F] (h : v < 256 ^ L.size f) :
    L.read (L.write b f v) g = if g = f then v else L.read b g := by
  by_cases hg : g = f
  · rw [if_pos hg, hg, L.read_write_self h]
  · rw [if_neg hg, L.read_write_of_ne hg]

theorem read_lt (b : ℕ → UInt8) (f : F) : L.read b f < 256 ^ L.size f := num_lt b _ _

end Layout

end LittleEndian

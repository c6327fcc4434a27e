import LibPM.Memory.Spared
import LibPM.Memory.Stores
import LibPM.Model.Alloc
import Mathlib.Data.List.Find

/-!
# The bitmap of an entry

`slab_entry_full` counts the bits one by one, `bit_ffc` looks for a byte that is not `0xff` and then for
a bit in it. Both describe the same bits: an entry is full when no bit below its capacity is clear, and
otherwise `slab_entry_alloc_mem` takes the lowest one (`bitmapScans_agree`). The store may fault, as the
bitmap of small objects is in the data page.
-/

namespace LibPM

open Recorded Recorded.Prog

/-! ## Bits of a byte -/

theorem bitTest_bitSet (b : UInt8) {i j : ℕ} (hi : i < 8) :
    bitTest (bitSet b i) j = (decide (j = i) || bitTest b j) := by
  have hlt : b.toNat ||| 2 ^ i < 2 ^ 8 :=
    Nat.or_lt_two_pow b.toNat_lt (Nat.pow_lt_pow_right (by decide) hi)
  unfold bitTest bitSet
  rw [UInt8.toNat_ofNat', Nat.mod_eq_of_lt hlt, Nat.testBit_or, Nat.testBit_two_pow, Bool.or_comm]
  simp only [eq_comm]

theorem lowestClear_eq_some {b : UInt8} {i : ℕ} (h : lowestClear b = some i) :
    i < 8 ∧ bitTest b i = false ∧ ∀ j < i, bitTest b j = true := by
  unfold lowestClear at h
  rw [List.find?_range_eq_some] at h
  obtain ⟨hi, hmem, hmin⟩ := h
  refine ⟨List.mem_range.mp hmem, by simpa using hi, fun j hj => ?_⟩
  simpa using hmin j hj

theorem lowestClear_eq_none {b : UInt8} (h : lowestClear b = none) {j : ℕ} (hj : j < 8) :
    bitTest b j = true := by
  unfold lowestClear at h
  rw [List.find?_eq_none] at h
  simpa using h j (List.mem_range.mpr hj)

/-- A large entry has at most eight objects. -/
theorem slabEntryCapacity_large {size : ℕ} (h : slabLargeAlloc ≤ size) : slabEntryCapacity size ≤ 8 := by
  unfold slabEntryCapacity
  rw [if_neg (Nat.not_lt.mpr h)]
  exact Nat.div_le_of_le_mul (Nat.mul_le_mul_right 8 h)

/-! ## Bits of a bitmap -/

/-- Bit `i` of the bytes `f`. -/
def bitOf (f : ℕ → UInt8) (i : ℕ) : Bool := bitTest (f (i / 8)) (i % 8)

theorem bitOf_byte (f : ℕ → UInt8) (k : ℕ) {i : ℕ} (hi : i < 8) :
    bitOf f (8 * k + i) = bitTest (f k) i := by
  unfold bitOf
  rw [Nat.mul_add_div (by decide), Nat.div_eq_of_lt hi, Nat.add_zero, Nat.mul_add_mod,
    Nat.mod_eq_of_lt hi]

/-- A bit is set in its byte. -/
theorem bitOf_update (f : ℕ → UInt8) (k i : ℕ) :
    bitOf (Function.update f (k / 8) (bitSet (f (k / 8)) (k % 8))) i =
      (decide (i = k) || bitOf f i) := by
  unfold bitOf
  by_cases hb : i / 8 = k / 8
  · rw [hb, Function.update_self,
      bitTest_bitSet _ (Nat.mod_lt _ (by decide))]
    congr 1
    exact decide_eq_decide.mpr ⟨fun hm => by omega, fun hik => by rw [hik]⟩
  · rw [Function.update_of_ne hb, decide_eq_false fun hik => hb (by rw [hik]), Bool.false_or]

/-- The lowest clear bit among the first `n`. -/
def firstClear (f : ℕ → UInt8) (n : ℕ) : Option ℕ := (List.range n).find? fun i => !bitOf f i

theorem firstClear_eq_some {f : ℕ → UInt8} {n k : ℕ} :
    firstClear f n = some k ↔ k < n ∧ bitOf f k = false ∧ ∀ i < k, bitOf f i = true := by
  unfold firstClear
  rw [List.find?_range_eq_some, List.mem_range]
  simp only [Bool.not_eq_eq_eq_not, Bool.not_true, Bool.not_false]
  tauto

theorem firstClear_eq_none {f : ℕ → UInt8} {n : ℕ} :
    firstClear f n = none ↔ ∀ i < n, bitOf f i = true := by
  unfold firstClear
  simp

/-! ## The scans -/

variable {s s' : Pm} {se : EntryRef} {f : ℕ → UInt8} {m k n : ℕ}

/-- The first `m` bytes of the bitmap of `se` can be read, and are those of `f`. -/
def Pm.ShowsBitmap (s : Pm) (se : EntryRef) (f : ℕ → UInt8) (m : ℕ) : Prop :=
  ∀ k < m, ∀ b s', Returns (loadBitmap se k) s b s' ↔ b = f k ∧ s = s'

theorem Pm.ShowsBitmap.countSet (h : s.ShowsBitmap se f m) {c : ℕ} (hk : k + n ≤ 8 * m) :
    Returns (countSet se n k) s c s' ↔
      c = (List.range' k n).countP (fun i => bitOf f i) ∧ s = s' := by
  induction n generalizing k c s' with
  | zero => exact returns_pure.trans (and_congr_left fun _ => eq_comm)
  | succ n ih =>
    unfold LibPM.countSet
    have hload := h (k / 8) (by omega)
    simp only [returns_bind, returns_pure, hload]
    rw [List.range'_succ, List.countP_cons]
    have hbit : bitTest (f (k / 8)) (k % 8) = bitOf f k := rfl
    constructor
    · rintro ⟨_, _, ⟨rfl, rfl⟩, c', _, hc, rfl, rfl⟩
      obtain ⟨rfl, rfl⟩ := (ih (by omega)).mp hc
      rw [hbit]
      refine ⟨?_, rfl⟩
      split_ifs <;> rfl
    · rintro ⟨rfl, rfl⟩
      refine ⟨_, _, ⟨rfl, rfl⟩, _, _, (ih (by omega)).mpr ⟨rfl, rfl⟩, ?_, rfl⟩
      rw [hbit]
      split_ifs <;> rfl

theorem Pm.ShowsBitmap.bitFfcFrom (h : s.ShowsBitmap se f m) {o : Option ℕ} (hk : k + n ≤ m) :
    Returns (bitFfcFrom se n k) s o s' ↔
      o = (List.range' (8 * k) (8 * n)).find? (fun i => !bitOf f i) ∧ s = s' := by
  induction n generalizing k o s' with
  | zero => exact returns_pure.trans (and_congr_left fun _ => eq_comm)
  | succ n ih =>
    unfold LibPM.bitFfcFrom
    have hload := h k (by omega)
    have hbyte : ∀ i, i < 8 → bitOf f (8 * k + i) = bitTest (f k) i := fun i hi => bitOf_byte f k hi
    have hsplit : List.range' (8 * k) (8 * (n + 1)) =
        List.range' (8 * k) 8 ++ List.range' (8 * (k + 1)) (8 * n) := by
      rw [show 8 * (n + 1) = 8 + 8 * n by omega, ← List.range'_append_1]
      rfl
    have hfirst : (List.range' (8 * k) 8).find? (fun i => !bitOf f i) =
        (lowestClear (f k)).map (8 * k + ·) := by
      unfold lowestClear
      rw [List.range'_eq_map_range, List.find?_map]
      refine congrArg _ (List.find?_congr fun i hi => ?_)
      show (!bitOf f (8 * k + i)) = _
      rw [hbyte i (List.mem_range.mp hi)]
    rw [hsplit, List.find?_append, hfirst, returns_bind]
    simp only [hload]
    cases hc : lowestClear (f k) with
    | some i =>
      simp only [Option.map_some, Option.some_or]
      constructor
      · rintro ⟨_, _, ⟨rfl, rfl⟩, hr⟩
        rw [hc] at hr
        exact (returns_pure.mp hr).imp Eq.symm id
      · rintro ⟨rfl, rfl⟩
        refine ⟨_, _, ⟨rfl, rfl⟩, ?_⟩
        rw [hc]
        exact returns_pure.mpr ⟨rfl, rfl⟩
    | none =>
      simp only [Option.map_none, Option.none_or]
      rw [← ih (show k + 1 + n ≤ m by omega)]
      constructor
      · rintro ⟨_, _, ⟨rfl, rfl⟩, hr⟩
        rwa [hc] at hr
      · intro hr
        refine ⟨_, _, ⟨rfl, rfl⟩, ?_⟩
        rwa [hc]

/-- `bit_ffc` finds the lowest clear bit. -/
theorem Pm.ShowsBitmap.bitFfc (h : s.ShowsBitmap se f m) {o : Option ℕ} (hn : bitstrSize n ≤ m) :
    Returns (bitFfc se n) s o s' ↔ o = firstClear f n ∧ s = s' := by
  have hle : n ≤ 8 * bitstrSize n := by
    unfold bitstrSize
    omega
  have hfilter : ((List.range' (8 * 0) (8 * bitstrSize n)).find? (fun i => !bitOf f i)).filter
      (· < n) = firstClear f n := by
    rw [Nat.mul_zero, ← List.range_eq_range']
    cases hc : firstClear f n with
    | some k =>
      obtain ⟨hk, hclear, hmin⟩ := firstClear_eq_some.mp hc
      have : firstClear f (8 * bitstrSize n) = some k :=
        firstClear_eq_some.mpr ⟨hk.trans_le hle, hclear, hmin⟩
      unfold firstClear at this
      rw [this, Option.filter_some, if_pos (by simpa using hk)]
    | none =>
      rw [Option.filter_eq_none_iff]
      intro k hk hkn
      have := (firstClear_eq_some (n := 8 * bitstrSize n)).mp hk
      rw [firstClear_eq_none] at hc
      rw [hc k (by simpa using hkn)] at this
      exact absurd this.2.1 (by decide)
  unfold LibPM.bitFfc
  simp only [returns_bind, returns_pure, h.bitFfcFrom (show 0 + bitstrSize n ≤ m by omega)]
  rw [← hfilter]
  constructor
  · rintro ⟨_, _, ⟨rfl, rfl⟩, rfl, rfl⟩
    exact ⟨rfl, rfl⟩
  · rintro ⟨rfl, rfl⟩
    exact ⟨_, _, ⟨rfl, rfl⟩, rfl, rfl⟩

/-- `slab_entry_full` tells whether a bit is clear. -/
theorem Pm.ShowsBitmap.slabEntryFull (h : s.ShowsBitmap se f m) {e : SlabEntry}
    (he : s.readEntry se = some e) (h0 : e.seSize ≠ 0) (hm : slabEntryCapacity e.seSize ≤ 8 * m)
    {full : Bool} : Returns (slabEntryFull se) s full s' ↔
      full = (firstClear f (slabEntryCapacity e.seSize)).isNone ∧ s = s' := by
  have hcap : ∀ {n s'}, Returns (entryCapacity se) s n s' ↔ n = slabEntryCapacity e.seSize ∧ s = s' := by
    intro n s'
    unfold entryCapacity
    simp only [returns_bind, returns_loadEntry, returns_require, returns_pure]
    constructor
    · rintro ⟨e', _, ⟨he', rfl⟩, _, _, ⟨-, rfl⟩, rfl, rfl⟩
      rw [Option.some.inj (he.symm.trans he')]
      exact ⟨rfl, rfl⟩
    · rintro ⟨rfl, rfl⟩
      exact ⟨e, s, ⟨he, rfl⟩, (), s, ⟨h0, rfl⟩, rfl, rfl⟩
  have hcount : ((List.range' 0 (slabEntryCapacity e.seSize)).countP (fun i => bitOf f i) ==
      slabEntryCapacity e.seSize) = (firstClear f (slabEntryCapacity e.seSize)).isNone := by
    rw [Bool.eq_iff_iff, beq_iff_eq, Option.isNone_iff_eq_none, firstClear_eq_none]
    have hall := @List.countP_eq_length _ (List.range' 0 (slabEntryCapacity e.seSize))
      (fun i => bitOf f i)
    rw [List.length_range'] at hall
    rw [hall]
    simp
  unfold LibPM.slabEntryFull
  rw [← hcount]
  simp only [returns_bind, returns_pure, hcap]
  constructor
  · rintro ⟨_, _, ⟨rfl, rfl⟩, c, _, hc, rfl, rfl⟩
    obtain ⟨rfl, rfl⟩ := (h.countSet (by omega)).mp hc
    exact ⟨rfl, rfl⟩
  · rintro ⟨rfl, rfl⟩
    exact ⟨_, s, ⟨rfl, rfl⟩, _, s, (h.countSet (by omega)).mpr ⟨rfl, rfl⟩, rfl, rfl⟩

/-- The address of object `k` of an entry. -/
def SlabEntry.objectAt (e : SlabEntry) (k : ℕ) : ℕ :=
  e.dataCurrent.maddr + slabEntryDataoffset e.seSize + k * e.seSize

/-- `slab_entry_alloc_mem` marks the lowest clear bit. -/
theorem Pm.ShowsBitmap.slabEntryAllocMem (h : s.ShowsBitmap se f m) {e : SlabEntry}
    (he : s.readEntry se = some e) (h0 : e.seSize ≠ 0) (hmaddr : e.dataCurrent.maddr ≠ 0)
    (hm : bitstrSize (slabEntryCapacity e.seSize) ≤ m) {a : ℕ} :
    Returns (slabEntryAllocMem se) s a s' ↔
      match firstClear f (slabEntryCapacity e.seSize) with
      | none => a = 0 ∧ s = s'
      | some k => a = e.objectAt k ∧
        Returns (storeBitmap se (k / 8) (bitSet (f (k / 8)) (k % 8))) s () s' := by
  unfold LibPM.slabEntryAllocMem entryCapacity
  simp only [returns_bind, returns_loadEntry, returns_require, returns_pure]
  constructor
  · rintro ⟨_, _, ⟨e₁, _, ⟨he₁, rfl⟩, _, _, ⟨-, rfl⟩, rfl, rfl⟩, e₂, _, ⟨he₂, rfl⟩, _, _, ⟨-, rfl⟩, o, _,
      ho, hr⟩
    obtain rfl := Option.some.inj (he.symm.trans he₁)
    obtain rfl := Option.some.inj (he.symm.trans he₂)
    obtain ⟨rfl, rfl⟩ := (h.bitFfc hm).mp ho
    cases hc : firstClear f (slabEntryCapacity e.seSize) with
    | none =>
      rw [hc] at hr
      exact (returns_pure.mp hr).imp Eq.symm id
    | some k =>
      rw [hc] at hr
      simp only [returns_bind, returns_pure] at hr
      obtain ⟨b, _, hb, ⟨⟩, _, hst, rfl, rfl⟩ := hr
      have hk := (firstClear_eq_some.mp hc).1
      obtain ⟨rfl, rfl⟩ := (h (k / 8) (by unfold bitstrSize at hm; omega) _ _).mp hb
      exact ⟨rfl, hst⟩
  · intro hr
    refine ⟨_, s, ⟨e, s, ⟨he, rfl⟩, (), s, ⟨h0, rfl⟩, rfl, rfl⟩, e, s, ⟨he, rfl⟩, (), s, ⟨hmaddr, rfl⟩, _,
      s, (h.bitFfc hm).mpr ⟨rfl, rfl⟩, ?_⟩
    cases hc : firstClear f (slabEntryCapacity e.seSize) with
    | none =>
      rw [hc] at hr
      exact returns_pure.mpr (hr.imp Eq.symm id)
    | some k =>
      rw [hc] at hr
      have hk := (firstClear_eq_some.mp hc).1
      simp only [returns_bind, returns_pure]
      exact ⟨_, s, (h (k / 8) (by unfold bitstrSize at hm; omega) _ _).mpr ⟨rfl, rfl⟩, (), s', hr.2,
        hr.1.symm, rfl⟩

/-! ## The bitmap in memory -/

variable {free : List ℕ} {cont sd q : ℕ} {e : SlabEntry}

/-- The bitmap of an entry. -/
def Pm.bitmap (s : Pm) (e : SlabEntry) (k : ℕ) : UInt8 :=
  if e.seSize ≥ slabLargeAlloc then e.dataCurrent.bitmap
  else (s.byteAt (e.dataCurrent.maddr + k)).getD 0

/-- The bytes of a bitmap: one in the entry, or those of the data page. -/
def bitmapBytes (size : ℕ) : ℕ := if size ≥ slabLargeAlloc then 1 else pageSize

/-- The bitmap of objects has enough bytes. -/
theorem bitstrSize_capacity_le (size : ℕ) :
    bitstrSize (slabEntryCapacity size) ≤ bitmapBytes size := by
  unfold bitmapBytes
  split_ifs with hlarge
  · have := slabEntryCapacity_large hlarge
    unfold bitstrSize
    omega
  · have := slabEntryCapacity_le size
    unfold bitstrSize pageSize at *
    omega

/-- Entry `se` of a container is `e`, for objects of at least eight bytes. Its data page is page `q`. -/
structure Pm.HasObjects (s : Pm) (n : ℕ) (free : List ℕ) (cont sd : ℕ) (se : EntryRef) (e : SlabEntry)
    (q : ℕ) : Prop where
  space : s.Space n free
  home : s.Home n free cont sd
  entry : s.EntryInUse n free se e
  size : 8 ≤ e.seSize
  lt : q < n
  used : q ∉ free
  maddr : e.dataCurrent.maddr = s.addr q
  data : ∃ b, s.page q = .data b

namespace Pm.HasObjects

theorem maddr_ne (h : s.HasObjects n free cont sd se e q) : e.dataCurrent.maddr ≠ 0 := by
  rw [h.maddr]
  exact h.space.addr_ne_zero q

/-- The bytes of the data page. -/
theorem byteAt (h : s.HasObjects n free cont sd se e q) {b : ℕ → UInt8} (hb : s.page q = .data b)
    (hk : k < pageSize) : s.byteAt (e.dataCurrent.maddr + k) = some (b k) := by
  have hmod := h.space.addr_mod q
  have hround : roundDwnPg (s.addr q + k) = s.addr q := by
    unfold roundDwnPg pageSize at *
    omega
  have hoff : (s.addr q + k) % pageSize = k := by
    unfold pageSize at *
    omega
  unfold Pm.byteAt
  rw [h.maddr, hround, hoff, h.space.pageAt h.lt, hb]
  rfl

theorem showsBitmap (h : s.HasObjects n free cont sd se e q) :
    s.ShowsBitmap se (s.bitmap e) (bitmapBytes e.seSize) := by
  intro k hk b s'
  unfold loadBitmap Pm.bitmap
  unfold bitmapBytes at hk
  rw [returns_bind]
  simp only [returns_loadEntry]
  have hload : (∃ e' t, (s.readEntry se = some e' ∧ s = t) ∧
      Returns (if e'.seSize ≥ slabLargeAlloc then do
        require (k = 0) .outOfBounds
        return e'.dataCurrent.bitmap
      else loadByte (e'.dataCurrent.maddr + k)) t b s') ↔
      Returns (if e.seSize ≥ slabLargeAlloc then do
        require (k = 0) .outOfBounds
        return e.dataCurrent.bitmap
      else loadByte (e.dataCurrent.maddr + k)) s b s' := by
    constructor
    · rintro ⟨e', _, ⟨he', rfl⟩, hr⟩
      rwa [Option.some.inj (h.entry.read.symm.trans he')]
    · exact fun hr => ⟨e, s, ⟨h.entry.read, rfl⟩, hr⟩
  rw [hload]
  by_cases hlarge : e.seSize ≥ slabLargeAlloc
  · rw [if_pos hlarge] at hk ⊢
    rw [if_pos hlarge]
    simp only [returns_bind, returns_require, returns_pure]
    constructor
    · rintro ⟨_, _, ⟨-, rfl⟩, rfl, rfl⟩
      exact ⟨rfl, rfl⟩
    · rintro ⟨rfl, rfl⟩
      exact ⟨(), s, ⟨by omega, rfl⟩, rfl, rfl⟩
  · rw [if_neg hlarge] at hk ⊢
    rw [if_neg hlarge]
    obtain ⟨y, hy⟩ := h.data
    rw [returns_loadByte, h.byteAt hy hk, Option.getD_some, Option.some.injEq, eq_comm]

theorem seSize_ne (h : s.HasObjects n free cont sd se e q) : e.seSize ≠ 0 := by
  have := h.size
  omega

/-- A store to a page in use keeps the objects. -/
theorem retains (h : s.HasObjects n free cont sd se e q) {n' : ℕ} {free' : List ℕ}
    (hsp : s.Retains n free s' n' free') :
    ∃ e', s'.HasObjects n' free' cont sd se e' q ∧ e.SamePlace e' := by
  obtain ⟨e', he', hsame⟩ := h.entry.retains h.space hsp
  have hb' := hsp.page q h.lt h.used
  obtain ⟨b, hb⟩ := h.data
  rw [hb] at hb'
  exact ⟨e', ⟨hsp.space, h.home.retains h.space hsp, he', hsame.size.symm ▸ h.size,
    h.lt.trans_le hsp.le, hsp.used q h.lt h.used, by rw [hsame.maddr, h.maddr, hsp.addr], hb'⟩, hsame⟩

/-- The fault handler keeps the bitmap as well. -/
theorem spares (h : s.HasObjects n free cont sd se e q) {n' : ℕ} {free' : List ℕ}
    (hsp : s.Spares n free s' n' free') :
    ∃ e', s'.HasObjects n' free' cont sd se e' q ∧ e.SamePlace e' ∧
      ∀ k < bitmapBytes e.seSize, s'.bitmap e' k = s.bitmap e k := by
  obtain ⟨e', h', hsame⟩ := h.retains hsp.retains
  obtain ⟨e₁, he₁, hdata⟩ := h.entry.spares h.space hsp
  obtain rfl := Option.some.inj (h'.entry.read.symm.trans he₁.read)
  obtain ⟨b, hb⟩ := h.data
  have hb' := hsp.page_data h.lt h.used hb
  refine ⟨e', h', hsame, fun k hk => ?_⟩
  unfold bitmapBytes at hk
  unfold Pm.bitmap
  rw [hsame.size]
  split_ifs with hlarge
  · exact hdata.bitmap
  · rw [if_neg hlarge] at hk
    rw [h.byteAt hb hk, h'.byteAt hb' hk]

/-- **A byte of the bitmap is stored.** -/
theorem storeBitmap (h : s.HasObjects n free cont sd se e q) {v : UInt8} {u : Unit}
    (hk : k < bitmapBytes e.seSize) (hr : Returns (storeBitmap se k v) s u s') :
    ∃ n' free' e', s'.HasObjects n' free' cont sd se e' q ∧ e.SamePlace e' ∧
      ∀ j < bitmapBytes e.seSize,
        s'.bitmap e' j = Function.update (s.bitmap e) k v j := by
  unfold LibPM.storeBitmap at hr
  simp only [returns_bind, returns_loadEntry] at hr
  obtain ⟨e₀, _, ⟨he₀, rfl⟩, hr⟩ := hr
  obtain rfl := Option.some.inj (h.entry.read.symm.trans he₀)
  by_cases hlarge : e.seSize ≥ slabLargeAlloc
  · -- the byte is in the entry
    rw [if_pos hlarge] at hr
    simp only [returns_bind, returns_require] at hr
    obtain ⟨_, _, ⟨-, rfl⟩, hr⟩ := hr
    unfold updateEntry updatePage at hr
    rw [returns_bind] at hr
    obtain ⟨_, t, hw, hput⟩ := hr
    obtain ⟨n', free', hsp⟩ := Pm.Spares.makeWritable h.space h.home hw
    obtain ⟨e₁, h₁, hplace, -⟩ := h.spares hsp
    have hret := Pm.Retains.put h₁.space hput fun p p' hp => by
      cases p with
      | bucket b =>
        unfold Page.onEntry at hp
        split_ifs at hp
        cases hp
        refine ⟨_, rfl, fun l => ?_⟩
        by_cases hl : l = se.idx
        · rw [hl]
          dsimp only
          rw [Function.update_self]
          exact ⟨rfl, rfl⟩
        · dsimp only
          rw [Function.update_of_ne hl]
          exact ⟨rfl, rfl⟩
      | _ => cases hp
    obtain ⟨e₂, h₂, hplace₂⟩ := h₁.retains hret
    refine ⟨n', free', e₂, h₂, ⟨hplace₂.size.trans hplace.size, hplace₂.maddr.trans hplace.maddr⟩,
      fun j hj => ?_⟩
    have hmod : se.sb % pageSize = 0 := by
      obtain ⟨-, b, hb, -⟩ := readEntry_eq_some.mp h.entry.read
      exact (pageAt_eq_some.mp (readBucket_eq_some.mp hb)).1
    obtain ⟨e₃, -, hread⟩ := h₁.space.putEntry hput hmod
    obtain rfl := Option.some.inj (h₂.entry.read.symm.trans hread)
    unfold bitmapBytes at hj hk
    rw [if_pos hlarge] at hj hk
    obtain rfl : j = k := by omega
    rw [Function.update_self]
    unfold Pm.bitmap
    rw [if_pos (by rw [hplace₂.size, hplace.size]; exact hlarge)]
  · -- the byte is in the data page
    rw [if_neg hlarge] at hr
    unfold bitmapBytes at hk ⊢
    rw [if_neg hlarge] at hk ⊢
    unfold storeByte updatePage at hr
    rw [returns_bind] at hr
    obtain ⟨_, t, hw, hput⟩ := hr
    obtain ⟨n', free', hsp⟩ := Pm.Spares.makeWritable h.space h.home hw
    obtain ⟨e₁, h₁, hplace, hmap⟩ := h.spares hsp
    obtain ⟨e₂, h₂, hplace₂⟩ := h₁.retains (Pm.Retains.put h₁.space hput fun p p' hp => by
      cases p with
      | data b =>
        cases hp
        exact ⟨_, rfl⟩
      | _ => cases hp)
    refine ⟨n', free', e₂, h₂, ⟨hplace₂.size.trans hplace.size, hplace₂.maddr.trans hplace.maddr⟩,
      fun j hj => ?_⟩
    obtain ⟨b, hb⟩ := h₁.data
    have hmod := h.space.addr_mod q
    have hround : roundDwnPg (e.dataCurrent.maddr + k) = t.addr q := by
      rw [hsp.addr, h.maddr]
      unfold roundDwnPg pageSize at *
      omega
    have hoff : (e.dataCurrent.maddr + k) % pageSize = k := by
      rw [h.maddr]
      unfold pageSize at *
      omega
    rw [hround, hoff] at hput
    obtain ⟨i, hi, p, hv, hp, hpage⟩ := h₁.space.put hput
    rw [h₁.space.vpage h₁.lt] at hv
    obtain rfl := Option.some.inj hv
    rw [hb] at hp
    cases hp
    have hq₂ := hpage q h₁.lt
    rw [if_pos rfl] at hq₂
    have hsize₁ : ¬ e₁.seSize ≥ slabLargeAlloc := by rwa [hplace.size]
    have hsize₂ : ¬ e₂.seSize ≥ slabLargeAlloc := by rwa [hplace₂.size]
    have hold := hmap j (by unfold bitmapBytes; rwa [if_neg hlarge])
    unfold Pm.bitmap at hold
    rw [if_neg hsize₁, if_neg hlarge, h₁.byteAt hb hj, Option.getD_some] at hold
    unfold Pm.bitmap
    rw [if_neg hsize₂, h₂.byteAt hq₂ hj, Option.getD_some]
    by_cases hjk : j = k
    · rw [hjk, Function.update_self, Function.update_self]
    · rw [Function.update_of_ne hjk, Function.update_of_ne hjk, if_neg hlarge, hold]

/-- `slab_entry_full` answers in the state it is asked in. -/
theorem returns_slabEntryFull (h : s.HasObjects n free cont sd se e q) {full : Bool} :
    Returns (slabEntryFull se) s full s' ↔
      full = (firstClear (s.bitmap e) (slabEntryCapacity e.seSize)).isNone ∧ s = s' := by
  have hcap := bitstrSize_capacity_le e.seSize
  exact h.showsBitmap.slabEntryFull h.entry.read h.seSize_ne (by unfold bitstrSize at hcap; omega)

theorem returns_slabEntryAllocMem (h : s.HasObjects n free cont sd se e q) {a : ℕ} :
    Returns (slabEntryAllocMem se) s a s' ↔
      match firstClear (s.bitmap e) (slabEntryCapacity e.seSize) with
      | none => a = 0 ∧ s = s'
      | some k => a = e.objectAt k ∧
        Returns (LibPM.storeBitmap se (k / 8) (bitSet (s.bitmap e (k / 8)) (k % 8))) s () s' :=
  h.showsBitmap.slabEntryAllocMem h.entry.read h.seSize_ne h.maddr_ne (bitstrSize_capacity_le _)

theorem objectAt_ne (h : s.HasObjects n free cont sd se e q) (k : ℕ) : e.objectAt k ≠ 0 := by
  have := h.maddr_ne
  unfold SlabEntry.objectAt
  omega

/-- An object is taken: bit `k` is set and no other. -/
theorem slabEntryAllocMem (h : s.HasObjects n free cont sd se e q) {a : ℕ}
    (hk : firstClear (s.bitmap e) (slabEntryCapacity e.seSize) = some k)
    (hr : Returns (LibPM.slabEntryAllocMem se) s a s') :
    a = e.objectAt k ∧ ∃ n' free' e', s'.HasObjects n' free' cont sd se e' q ∧ e.SamePlace e' ∧
      ∀ i < 8 * bitmapBytes e.seSize,
        bitOf (s'.bitmap e') i = (decide (i = k) || bitOf (s.bitmap e) i) := by
  rw [h.returns_slabEntryAllocMem, hk] at hr
  have hcap := bitstrSize_capacity_le e.seSize
  have hlt := (firstClear_eq_some.mp hk).1
  obtain ⟨n', free', e', h', hplace, hmap⟩ :=
    h.storeBitmap (show k / 8 < _ by unfold bitstrSize at hcap; omega) hr.2
  refine ⟨hr.1, n', free', e', h', hplace, fun i hi => ?_⟩
  rw [← bitOf_update]
  unfold bitOf
  rw [hmap (i / 8) (by omega)]

end Pm.HasObjects

/-! ## Successive allocations -/

/-- `m` calls of `slab_entry_alloc_mem`, and what they return. -/
def allocObjects (se : EntryRef) : ℕ → PmProg (List ℕ)
  | 0 => pure []
  | m + 1 => do
    let a ← slabEntryAllocMem se
    let l ← allocObjects se m
    return a :: l

/-- Where the `i`-th object of an entry is, and `NULL` when there are not so many. -/
def SlabEntry.nth (e : SlabEntry) (i : ℕ) : ℕ :=
  if i < slabEntryCapacity e.seSize then e.objectAt i else 0

/-- The first `c` bits are set, as far as there are objects. -/
def UsedUpTo (f : ℕ → UInt8) (size c : ℕ) : Prop :=
  ∀ i < slabEntryCapacity size, bitOf f i = decide (i < c)

theorem UsedUpTo.firstClear {size c : ℕ} (h : UsedUpTo f size c) :
    firstClear f (slabEntryCapacity size) = if c < slabEntryCapacity size then some c else none := by
  split_ifs with hc
  · refine firstClear_eq_some.mpr ⟨hc, ?_, fun i hi => ?_⟩
    · rw [h c hc, decide_eq_false (Nat.lt_irrefl c)]
    · rw [h i (hi.trans hc), decide_eq_true hi]
  · refine firstClear_eq_none.mpr fun i hi => ?_
    rw [h i hi, decide_eq_true (hi.trans_le (Nat.not_lt.mp hc))]

/-- From `c` objects on, the calls take the objects in order. -/
theorem Pm.HasObjects.allocObjects {c : ℕ} {l : List ℕ} (h : s.HasObjects n free cont sd se e q)
    (hc : UsedUpTo (s.bitmap e) e.seSize c) (hr : Returns (LibPM.allocObjects se m) s l s') :
    l = (List.range' c m).map e.nth := by
  induction m generalizing s n free e c l with
  | zero => exact (returns_pure.mp hr).1.symm
  | succ m ih =>
    unfold LibPM.allocObjects at hr
    simp only [returns_bind, returns_pure] at hr
    obtain ⟨a, s₁, h₁, l', s₂, h₂, rfl, rfl⟩ := hr
    rw [List.range'_succ, List.map_cons]
    by_cases hlt : c < slabEntryCapacity e.seSize
    · -- object `c` is taken
      have hfirst := hc.firstClear
      rw [if_pos hlt] at hfirst
      obtain ⟨rfl, n', free', e', h', hplace, hbits⟩ := h.slabEntryAllocMem hfirst h₁
      have hobj : e'.nth = e.nth := by
        funext i
        unfold SlabEntry.nth SlabEntry.objectAt
        rw [hplace.size, hplace.maddr]
      have hc' : UsedUpTo (s₁.bitmap e') e'.seSize (c + 1) := by
        intro i hi
        rw [hplace.size] at hi
        have hcap := bitstrSize_capacity_le e.seSize
        rw [hbits i (by unfold bitstrSize at hcap; omega), hc i hi, ← Bool.decide_or]
        exact decide_eq_decide.mpr (by omega)
      rw [ih h' hc' h₂, hobj]
      unfold SlabEntry.nth
      rw [if_pos hlt]
    · -- no object is left
      have hfirst := hc.firstClear
      rw [if_neg hlt] at hfirst
      rw [h.returns_slabEntryAllocMem, hfirst] at h₁
      obtain ⟨rfl, rfl⟩ := h₁
      have hc' : UsedUpTo (s.bitmap e) e.seSize (c + 1) := by
        intro i hi
        rw [hc i hi]
        exact decide_eq_decide.mpr (by omega)
      rw [ih h hc' h₂]
      unfold SlabEntry.nth
      rw [if_neg hlt]

/-- **The two scans agree.** An entry is full if and only if an allocation returns `NULL`; otherwise the
lowest clear bit below the capacity is set and no other. From an empty bitmap the allocations take the
objects in order. -/
theorem bitmapScans_agree (h : s.HasObjects n free cont sd se e q) :
    ∃ full, Returns (slabEntryFull se) s full s ∧
      (∀ a s', Returns (slabEntryAllocMem se) s a s' → (full = true ↔ a = 0)) ∧
      (full = true → Returns (slabEntryAllocMem se) s 0 s) ∧
      (full = false → ∃ k < slabEntryCapacity e.seSize, bitOf (s.bitmap e) k = false ∧
        (∀ i < k, bitOf (s.bitmap e) i = true) ∧
        (∀ a s', Returns (slabEntryAllocMem se) s a s' ↔ a = e.objectAt k ∧
          Returns (storeBitmap se (k / 8) (bitSet (s.bitmap e (k / 8)) (k % 8))) s () s') ∧
        ∀ a s', Returns (slabEntryAllocMem se) s a s' →
          ∃ n' free' e', s'.HasObjects n' free' cont sd se e' q ∧ e.SamePlace e' ∧
            ∀ i < 8 * bitmapBytes e.seSize,
              bitOf (s'.bitmap e') i = (decide (i = k) || bitOf (s.bitmap e) i)) ∧
      ((∀ i < slabEntryCapacity e.seSize, bitOf (s.bitmap e) i = false) →
        ∀ m l s', Returns (allocObjects se m) s l s' → l = (List.range m).map e.nth) := by
  refine ⟨_, h.returns_slabEntryFull.mpr ⟨rfl, rfl⟩, fun a s' hr => ?_, fun hfull => ?_,
    fun hfull => ?_, fun hempty m l s' hr => ?_⟩
  · rw [h.returns_slabEntryAllocMem] at hr
    cases hc : firstClear (s.bitmap e) (slabEntryCapacity e.seSize) with
    | none =>
      rw [hc] at hr
      exact iff_of_true rfl hr.1
    | some k =>
      rw [hc] at hr
      exact iff_of_false (by simp) (hr.1 ▸ h.objectAt_ne k)
  · rw [h.returns_slabEntryAllocMem, Option.isNone_iff_eq_none.mp hfull]
    exact ⟨rfl, rfl⟩
  · cases hc : firstClear (s.bitmap e) (slabEntryCapacity e.seSize) with
    | none =>
      rw [hc] at hfull
      cases hfull
    | some k =>
      obtain ⟨hk, hclear, hmin⟩ := firstClear_eq_some.mp hc
      refine ⟨k, hk, hclear, hmin, fun a s' => ?_, fun a s' hr => (h.slabEntryAllocMem hc hr).2⟩
      rw [h.returns_slabEntryAllocMem, hc]
  · have hc : UsedUpTo (s.bitmap e) e.seSize 0 := fun i hi => by
      rw [hempty i hi, decide_eq_false (Nat.not_lt_zero i)]
    rw [h.allocObjects hc hr, List.range_eq_range']

/-- An entry of objects of 512 bytes, none of them in use. -/
def largeEntry : SlabEntry :=
  let data : DataVersion := ⟨2 ^ 40 + 3 * pageSize, 3 * pageSize, 0⟩
  { SlabEntry.zero with seSize := 512, dataCurrent := data, dataSnapshot := data }

def largeEntryState : Pm :=
  { Pm.boot (Env.standard .fixedMapper) (4 * pageSize) (fun _ => Page.zero) 0 with
    pa := .fixed ⟨4 * pageSize, 2 ^ 40, 0, [], none, fun i => some ⟨i, paProtRnw⟩⟩
    prot := fun _ => paProtRnw
    containers := some (2 ^ 40)
    file := fun i =>
      match i with
      | 0 => .container ⟨0, ⟨2 ^ 40 + pageSize, pageSize⟩, ⟨0, 0⟩, 0⟩
      | 1 => .dir { dirOfBytes (fun _ => 0) with sdMaddrRoot := [⟨2 ^ 40 + 2 * pageSize, 0⟩] }
      | 2 => .bucket { bucketOfBytes (fun _ => 0) with sbEntries := fun _ => largeEntry }
      | _ => Page.zero }

theorem hasObjects_largeEntry : largeEntryState.HasObjects 4 [] (2 ^ 40) (2 ^ 40 + pageSize)
    ⟨2 ^ 40 + 2 * pageSize, 0⟩ largeEntry 3 := by
  have hsp : largeEntryState.Space 4 [] :=
    ⟨⟨⟨by decide, rfl, by decide, fun i _ => ⟨_, rfl⟩, List.nodup_nil, by simp, rfl, rfl⟩, rfl, rfl, rfl⟩,
      by decide, fun _ _ _ _ h => h, fun _ h => h⟩
  have hentry : largeEntryState.EntryInUse 4 [] ⟨2 ^ 40 + 2 * pageSize, 0⟩ largeEntry :=
    ⟨hsp.readEntry_iff.mpr ⟨by decide, 2, by decide, rfl, _, rfl, rfl⟩, fun _ _ _ => List.not_mem_nil⟩
  have hsd : largeEntryState.addr 1 = 2 ^ 40 + pageSize := by decide
  refine ⟨hsp, ⟨rfl, ⟨0, by decide, List.not_mem_nil, rfl, _, rfl, rfl⟩, ⟨1, by decide,
    List.not_mem_nil, hsd.symm, _, rfl, fun r hr => ?_⟩⟩, hentry, by decide, by decide,
    List.not_mem_nil, rfl, _, rfl⟩
  obtain rfl := List.mem_singleton.mp hr
  exact ⟨largeEntry, hentry, by decide⟩

/-- With an empty entry of eight objects. -/
theorem bitmapScans_agree_largeEntry :
    ∃ full, Returns (slabEntryFull ⟨2 ^ 40 + 2 * pageSize, 0⟩) largeEntryState full largeEntryState ∧
      ∀ a s', Returns (slabEntryAllocMem ⟨2 ^ 40 + 2 * pageSize, 0⟩) largeEntryState a s' →
        (full = true ↔ a = 0) := by
  obtain ⟨full, hfull, halloc, -⟩ := bitmapScans_agree hasObjects_largeEntry
  exact ⟨full, hfull, halloc⟩

end LibPM

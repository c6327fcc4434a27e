import LibPM.Overlay.Basic
import LibPM.Memory.Words
import LibPM.Allocator.Space

/-!
# Stores to data pages

A store to a data page that can be written leaves every other kind of page alone (`Pm.SameButData`),
and the bytes of the container are a memory in which it is a store (`byteAt_putWord`).
-/

namespace LibPM

open Recorded Recorded.Prog

variable {s s' s'' : Pm} {a x : ℕ} {p : Page}

/-! ## The other pages -/

/-- The same page but for the bytes of a data page. -/
def Page.SameButData : Page → Page → Prop
  | .data _, .data _ => True
  | p, p' => p' = p

theorem Page.SameButData.refl (p : Page) : p.SameButData p := by
  cases p with
  | data b => trivial
  | _ => rfl

theorem Page.SameButData.trans {p p' p'' : Page} (h : p.SameButData p') (h' : p'.SameButData p'') :
    p.SameButData p'' := by
  cases p with
  | data b =>
    cases p' with
    | data b' =>
      cases p'' with
      | data b'' => trivial
      | _ => cases h'
    | _ => cases h
  | _ =>
    obtain rfl : p' = _ := h
    exact h'

theorem Page.SameButData.symm {p p' : Page} (h : p.SameButData p') : p'.SameButData p := by
  cases p with
  | data b =>
    cases p' with
    | data b' => trivial
    | _ => cases h
  | _ =>
    obtain rfl : p' = _ := h
    exact .refl _

theorem Page.SameButData.eq {p p' : Page} (h : p.SameButData p') (hp : ∀ b, p ≠ .data b) : p' = p := by
  cases p with
  | data b => exact (hp b rfl).elim
  | _ => exact h

theorem Page.SameButData.data {b : ℕ → UInt8} {p' : Page} (h : (Page.data b).SameButData p') :
    ∃ b', p' = .data b' := by
  cases p' with
  | data b' => exact ⟨b', rfl⟩
  | _ => cases h

/-- Only bytes of data pages differ. -/
def Pm.SameButData (s s' : Pm) : Prop :=
  ∃ file, s' = { s with file := file } ∧ ∀ i, (s.file i).SameButData (file i)

namespace Pm.SameButData

theorem refl (s : Pm) : s.SameButData s := ⟨s.file, rfl, fun _ => .refl _⟩

theorem trans (h : s.SameButData s') (h' : s'.SameButData s'') : s.SameButData s'' := by
  obtain ⟨f, rfl, hf⟩ := h
  obtain ⟨f', rfl, hf'⟩ := h'
  exact ⟨f', rfl, fun i => (hf i).trans (hf' i)⟩

theorem symm (h : s.SameButData s') : s'.SameButData s := by
  obtain ⟨f, rfl, hf⟩ := h
  exact ⟨s.file, rfl, fun i => (hf i).symm⟩

theorem setPage {i : ℕ} (h : (s.file i).SameButData p) : s.SameButData (s.setPage i p) := by
  refine ⟨_, rfl, fun j => ?_⟩
  by_cases hj : j = i
  · rw [hj, Function.update_self]
    exact h
  · rw [Function.update_of_ne hj]
    exact .refl _

theorem containers (h : s.SameButData s') : s'.containers = s.containers := by
  obtain ⟨f, rfl, -⟩ := h
  rfl

theorem vpage (h : s.SameButData s') (a : ℕ) : s'.vpage a = s.vpage a := by
  obtain ⟨f, rfl, -⟩ := h
  rfl

theorem pageAt (h : s.SameButData s') (hp : s.pageAt a = some p) :
    ∃ p', s'.pageAt a = some p' ∧ p.SameButData p' := by
  obtain ⟨f, rfl, hf⟩ := h
  obtain ⟨hmod, i, hi, rfl⟩ := pageAt_eq_some.mp hp
  exact ⟨_, pageAt_eq_some.mpr ⟨hmod, i, hi, rfl⟩, hf _⟩

theorem pageAt_of_ne (h : s.SameButData s') (hne : ∀ b, p ≠ .data b) (hp : s.pageAt a = some p) :
    s'.pageAt a = some p := by
  obtain ⟨p', hp', hsame⟩ := h.pageAt hp
  rw [hp', hsame.eq hne]

theorem readContainer (h : s.SameButData s') {c : Container} (hc : s.readContainer a = some c) :
    s'.readContainer a = some c :=
  readContainer_eq_some.mpr (h.pageAt_of_ne (by simp) (readContainer_eq_some.mp hc))

theorem readDir (h : s.SameButData s') {d : SlabDir} (hd : s.readDir a = some d) :
    s'.readDir a = some d :=
  readDir_eq_some.mpr (h.pageAt_of_ne (by simp) (readDir_eq_some.mp hd))

theorem readOuter (h : s.SameButData s') {o : SlabOuter} (ho : s.readOuter a = some o) :
    s'.readOuter a = some o :=
  readOuter_eq_some.mpr (h.pageAt_of_ne (by simp) (readOuter_eq_some.mp ho))

theorem readInner (h : s.SameButData s') {n : SlabInner} (hn : s.readInner a = some n) :
    s'.readInner a = some n :=
  readInner_eq_some.mpr (h.pageAt_of_ne (by simp) (readInner_eq_some.mp hn))

theorem readPtrs (h : s.SameButData s') {q : ℕ → SlabPtrRec} (hq : s.readPtrs a = some q) :
    s'.readPtrs a = some q :=
  readPtrs_eq_some.mpr (h.pageAt_of_ne (by simp) (readPtrs_eq_some.mp hq))

theorem readEntry (h : s.SameButData s') {r : EntryRef} {e : SlabEntry} (he : s.readEntry r = some e) :
    s'.readEntry r = some e := by
  obtain ⟨hidx, b, hb, hbe⟩ := readEntry_eq_some.mp he
  exact readEntry_eq_some.mpr ⟨hidx, b, readBucket_eq_some.mpr
    (h.pageAt_of_ne (by simp) (readBucket_eq_some.mp hb)), hbe⟩

end Pm.SameButData

/-! ## One byte -/

/-- The mapping starts at a page and shows no page of the file twice. -/
structure Pm.MapsOnce (s : Pm) : Prop where
  start : s.startAddr ≠ 0
  aligned : s.startAddr % pageSize = 0
  inj : ∀ a b i j, s.vpage a = some i → s.vpage b = some j → s.vmap i = s.vmap j → i = j

theorem Pm.Space.mapsOnce {n : ℕ} {free : List ℕ} (h : s.Space n free) : s.MapsOnce :=
  ⟨h.start_ne, h.aligned, fun _ _ i j hi hj hv =>
    h.inj i j (h.exists_of_vpage hi).1 (h.exists_of_vpage hj).1 hv⟩

/-- Two addresses in one page of the mapping. -/
theorem Pm.MapsOnce.roundDwnPg_eq (h : s.MapsOnce) {b i : ℕ} (ha : s.vpage a = some i)
    (hb : s.vpage b = some i) : roundDwnPg a = roundDwnPg b := by
  have hst := h.aligned
  unfold Pm.vpage at ha hb
  split_ifs at ha hb with hain hbin
  have ha := Option.some.inj ha
  have hb := Option.some.inj hb
  unfold roundDwnPg pageSize at *
  omega

theorem Pm.SameButData.mapsOnce (h : s.SameButData s') (hs : s.MapsOnce) : s'.MapsOnce := by
  obtain ⟨f, rfl, -⟩ := h
  exact ⟨hs.start, hs.aligned, hs.inj⟩

theorem roundDwnPg_mod (x : ℕ) : roundDwnPg x % pageSize = 0 := Nat.mul_mod_left ..

theorem roundDwnPg_idem (x : ℕ) : roundDwnPg (roundDwnPg x) = roundDwnPg x := by
  unfold roundDwnPg
  rw [Nat.mul_div_cancel _ pageSize_pos]

theorem roundDwnPg_add_mod (x : ℕ) : roundDwnPg x + x % pageSize = x := by
  unfold roundDwnPg pageSize
  omega

/-- The byte at `x` is in a data page and can be stored to. -/
def Pm.Writable (s : Pm) (x : ℕ) : Prop :=
  ∃ i b, s.vpage (roundDwnPg x) = some i ∧ (s.prot i).write = true ∧ s.file (s.vmap i) = .data b

theorem Pm.SameButData.writable (h : s.SameButData s') (hx : s.Writable x) : s'.Writable x := by
  obtain ⟨f, rfl, hf⟩ := h
  obtain ⟨i, b, hi, hw, hb⟩ := hx
  have hsame := hf (s.vmap i)
  rw [hb] at hsame
  obtain ⟨b', hb'⟩ := hsame.data
  exact ⟨i, b', hi, hw, hb'⟩

/-- The state with another byte at `x`. -/
def Pm.putByte (s : Pm) (x : ℕ) (v : UInt8) : Pm :=
  match s.vpage (roundDwnPg x) with
  | none => s
  | some i => s.setPage (s.vmap i) ((Page.onByte (x % pageSize) v (s.file (s.vmap i))).getD
      (s.file (s.vmap i)))

theorem Pm.sameButData_putByte (s : Pm) (x : ℕ) (v : UInt8) : s.SameButData (s.putByte x v) := by
  unfold Pm.putByte
  cases s.vpage (roundDwnPg x) with
  | none => exact .refl s
  | some i =>
    refine .setPage ?_
    cases s.file (s.vmap i) with
    | data b => trivial
    | _ => rfl

theorem returns_storeByte (h : s.Writable x) (v : UInt8) :
    Returns (storeByte x v) s () (s.putByte x v) := by
  obtain ⟨i, b, hi, hw, hb⟩ := h
  unfold storeByte updatePage Pm.putByte
  rw [hi]
  exact (returns_makeWritable.mpr ⟨i, hi, .inl ⟨hw, rfl⟩⟩).seq
    (returns_putPage.mpr ⟨i, _, hi, hw, by rw [hb]; rfl, rfl⟩)

theorem byteAt_eq {i : ℕ} (hi : s.vpage (roundDwnPg x) = some i) :
    s.byteAt x = some (s.bytesOf (s.file (s.vmap i)) (x % pageSize)) := by
  unfold Pm.byteAt
  rw [pageAt_eq_some.mpr ⟨roundDwnPg_mod x, i, hi, rfl⟩]
  rfl

theorem byteAt_eq_none (h : s.vpage (roundDwnPg x) = none) : s.byteAt x = none := by
  unfold Pm.byteAt Pm.pageAt Pm.fpage
  rw [h, Option.map_none, Option.map_none, if_pos (roundDwnPg_mod x)]
  rfl

theorem byteAt_putByte (hs : s.MapsOnce) (h : s.Writable x) (v : UInt8) (y : ℕ) :
    (s.putByte x v).byteAt y = if y = x then some v else s.byteAt y := by
  obtain ⟨i, b, hi, -, hb⟩ := h
  have hput : s.putByte x v =
      s.setPage (s.vmap i) (.data (Function.update b (x % pageSize) v)) := by
    unfold Pm.putByte
    rw [hi]
    dsimp only
    rw [hb]
    rfl
  rw [hput]
  cases hj : s.vpage (roundDwnPg y) with
  | none =>
    have hne : y ≠ x := fun he => by rw [he, hi] at hj; cases hj
    rw [if_neg hne, byteAt_eq_none hj]
    exact byteAt_eq_none hj
  | some j =>
    rw [byteAt_eq hj, byteAt_eq (s := s.setPage _ _) hj]
    unfold Pm.setPage
    dsimp only
    by_cases hv : s.vmap j = s.vmap i
    · obtain rfl := hs.inj _ _ _ _ hj hi hv
      have hround := hs.roundDwnPg_eq hj hi
      rw [roundDwnPg_idem, roundDwnPg_idem] at hround
      rw [Function.update_self, hb]
      show some (Function.update b _ v _) = _
      have hoff : y = x ↔ y % pageSize = x % pageSize := by
        have := roundDwnPg_add_mod y
        have := roundDwnPg_add_mod x
        constructor
        · rintro rfl; rfl
        · intro he; omega
      by_cases hyx : y = x
      · rw [if_pos hyx, hyx, Function.update_self]
      · rw [if_neg hyx, Function.update_of_ne fun he => hyx (hoff.mpr he)]
        rfl
    · have hne : y ≠ x := fun he => hv (by rw [he, hi] at hj; rw [Option.some.inj hj])
      rw [if_neg hne, Function.update_of_ne hv]
      rfl

/-! ## Words -/

/-- The state with the bytes `bs` from `a` on. -/
def Pm.putBytes (s : Pm) (a : ℕ) : List UInt8 → Pm
  | [] => s
  | b :: bs => (s.putByte a b).putBytes (a + 1) bs

def Pm.putWord (s : Pm) (a v : ℕ) : Pm := s.putBytes a (wordBytes v)

theorem Pm.sameButData_putBytes (s : Pm) (a : ℕ) (bs : List UInt8) :
    s.SameButData (s.putBytes a bs) := by
  induction bs generalizing s a with
  | nil => exact .refl s
  | cons b bs ih => exact (s.sameButData_putByte a b).trans (ih ..)

theorem Pm.sameButData_putWord (s : Pm) (a v : ℕ) : s.SameButData (s.putWord a v) :=
  s.sameButData_putBytes a _

theorem length_wordBytes (v : ℕ) : (wordBytes v).length = 8 := rfl

theorem returns_storeBytes {bs : List UInt8} (h : ∀ i < bs.length, s.Writable (a + i)) :
    Returns ((bs.zipIdx a).forM fun p => storeByte p.2 p.1) s () (s.putBytes a bs) := by
  induction bs generalizing s a with
  | nil => exact returns_forM_nil.mpr rfl
  | cons b bs ih =>
    rw [List.zipIdx_cons, returns_forM_cons]
    refine ⟨_, returns_storeByte (h 0 (by simp)) b, ih fun i hi => ?_⟩
    refine (s.sameButData_putByte a b).writable ?_
    rw [Nat.add_assoc, Nat.add_comm 1 i]
    exact h (i + 1) (by rw [List.length_cons]; omega)

/-- The word at `a` is in data pages and can be stored to. -/
def Pm.WritableWord (s : Pm) (a : ℕ) : Prop := ∀ i < 8, s.Writable (a + i)

theorem Pm.SameButData.writableWord (h : s.SameButData s') (ha : s.WritableWord a) :
    s'.WritableWord a := fun i hi => h.writable (ha i hi)

theorem returns_storeWord (h : s.WritableWord a) (v : ℕ) :
    Returns (storeWord a v) s () (s.putWord a v) := returns_storeBytes h

theorem byteAt_putBytes (hs : s.MapsOnce) {bs : List UInt8} (h : ∀ i < bs.length, s.Writable (a + i))
    (y : ℕ) : (s.putBytes a bs).byteAt y =
      if a ≤ y ∧ y < a + bs.length then bs[y - a]? else s.byteAt y := by
  induction bs generalizing s a with
  | nil =>
    rw [if_neg (by rw [List.length_nil]; omega)]
    rfl
  | cons b bs ih =>
    have hsame := s.sameButData_putByte a b
    have ha : s.Writable a := h 0 (by simp)
    show ((s.putByte a b).putBytes (a + 1) bs).byteAt y = _
    rw [ih (hsame.mapsOnce hs) fun i hi => hsame.writable
      (by rw [Nat.add_assoc, Nat.add_comm 1 i]; exact h (i + 1) (by rw [List.length_cons]; omega)),
      byteAt_putByte hs ha, List.length_cons]
    by_cases hya : y = a
    · rw [if_neg (by omega), if_pos hya, if_pos (by omega), hya, Nat.sub_self]
      rfl
    · by_cases hin : a + 1 ≤ y ∧ y < a + 1 + bs.length
      · rw [if_pos hin, if_pos (by omega), show y - a = y - (a + 1) + 1 by omega]
        rfl
      · rw [if_neg hin, if_neg hya, if_neg (by omega)]

/-- The bytes of the word `v`, as part of a memory. -/
def wordBlock (v : ℕ) (i : ℕ) : Option UInt8 := some (UInt8.ofNat (v / 256 ^ i))

/-- **A word is stored.** -/
theorem byteAt_putWord (hs : s.MapsOnce) (h : s.WritableWord a) (v : ℕ) :
    (s.putWord a v).byteAt = Overlay.store s.byteAt (Overlay.block 8 a (wordBlock v)) := by
  funext y
  have hput := byteAt_putBytes hs (show ∀ i < (wordBytes v).length, s.Writable (a + i) from h) y
  unfold Pm.putWord Overlay.store Overlay.block
  rw [hput, length_wordBytes]
  by_cases hin : a ≤ y ∧ y < a + 8
  · rw [if_pos hin, if_pos hin, Option.getD_some]
    unfold wordBytes wordBlock
    rw [List.getElem?_map, List.getElem?_range (by omega)]
    rfl
  · rw [if_neg hin, if_neg hin, Option.getD_none]

/-- A word is made of its bytes. -/
theorem wordAt_of_byteAt {v : ℕ} (hv : v < 2 ^ 64) (h : ∀ i < 8, s.byteAt (a + i) = wordBlock v i) :
    s.wordAt a = some v := by
  have hbytes : (List.range' a 8).mapM s.byteAt = some (wordBytes v) := by
    have hl : List.range' a 8 = [a, a + 1, a + 2, a + 3, a + 4, a + 5, a + 6, a + 7] := rfl
    have h0 := h 0 (by decide)
    have h1 := h 1 (by decide)
    have h2 := h 2 (by decide)
    have h3 := h 3 (by decide)
    have h4 := h 4 (by decide)
    have h5 := h 5 (by decide)
    have h6 := h 6 (by decide)
    have h7 := h 7 (by decide)
    rw [Nat.add_zero] at h0
    unfold wordBlock at h0 h1 h2 h3 h4 h5 h6 h7
    rw [hl]
    simp only [List.mapM_cons, List.mapM_nil, h0, h1, h2, h3, h4, h5, h6, h7]
    rfl
  have hword : wordOf (wordBytes v) = v := by
    unfold wordOf wordBytes
    simp only [List.range_succ, List.range_zero, List.nil_append, List.cons_append, List.map_cons,
      List.map_nil, List.foldr_cons, List.foldr_nil, UInt8.toNat_ofNat']
    omega
  unfold Pm.wordAt
  rw [hbytes, Option.map_some, hword]

end LibPM

import LibPM.Session.Nodes

/-!
# Growth of the tree

When the free list is empty the tree gets a new bucket, and a new inner node if the last one is full. The
inner node or the outer node that gets a child is copied to the snapshot slot of its parent before that,
unless it was already.
-/

namespace LibPM

open Recorded Recorded.Prog

namespace View

variable {v : View} {lost : Multiset ℕ} {p l j : ℕ}

/-! ## Snapshots in slots -/

/-- The slot `j` of the outer node has its snapshot on page `p`. -/
def snapInner (v : View) (j p l : ℕ) : View :=
  { v with outer := { v.outer with
      soSnapshot := Function.update v.outer.soSnapshot j ⟨v.addr p, l⟩ } }

/-- The slot of the outer node in the directory has its snapshot on page `p`. -/
def snapOuter (v : View) (p l : ℕ) : View :=
  { v with dir := { v.dir with
      sdSnapshot := Function.update v.dir.sdSnapshot 0 ⟨v.addr p, l⟩ } }

theorem Linked.snapInner (h : v.Linked) (hp : ¬ v.IsMeta p) (hj : j < v.outer.soIndex) (l : ℕ) :
    (v.snapInner j p l).Linked := by
  refine ⟨h.current, h.committed, h.sdIndex, h.sdCurrent, h.sdOther, h.sdSnapshot, h.sdSame,
    h.soIndex, h.inners, h.soCurrent, fun k hk => ?_, fun k hk heq => ?_, h.linked, h.buckets,
    h.siIndex, h.siCurrent, h.siSnapshot, h.siOther, h.sbId⟩
  · show IsPage v.base (Function.update v.outer.soSnapshot j ⟨v.addr p, l⟩ k).maddr
    rw [Function.update_apply]
    split_ifs
    · exact ⟨p, rfl⟩
    · exact h.soSnapshot k hk
  · have hkj : k ≠ j := by
      rintro rfl
      replace heq : (Function.update v.outer.soSnapshot k ⟨v.addr p, l⟩ k).maddr =
        (v.outer.soCurrent k).maddr := heq
      rw [Function.update_self, h.soCurrent k hk] at heq
      exact hp ⟨.inner k, hk.trans_le h.soIndex, (v.addr_injective heq).symm⟩
    replace heq : (Function.update v.outer.soSnapshot j ⟨v.addr p, l⟩ k).maddr =
      (v.outer.soCurrent k).maddr := heq
    show Function.update v.outer.soSnapshot j ⟨v.addr p, l⟩ k = _
    rw [Function.update_of_ne hkj] at heq ⊢
    exact h.soSame k hk heq

theorem Balanced.snapInner (h : v.Balanced (lost + {p})) (hl : v.Linked) (hj : j < v.outer.soIndex)
    (hsame : (v.outer.soSnapshot j).maddr = (v.outer.soCurrent j).maddr) (l : ℕ) :
    (v.snapInner j p l).Balanced lost := by
  have hne : v.addr p ≠ (v.outer.soCurrent j).maddr := by
    rw [hl.soCurrent j hj]
    intro heq
    refine h.lost_notMeta (Multiset.mem_add.mpr (.inr (Multiset.mem_singleton_self p))) ?_
    exact ⟨.inner j, hj.trans_le hl.soIndex, (v.addr_injective heq).symm⟩
  rw [← add_zero lost]
  refine h.move (hl.innerSlot_mem hj) ?_ (fun y _ hy => ?_) rfl rfl
  · unfold held View.snapInner
    dsimp only
    rw [if_pos hj, if_pos hj, Function.update_self, oldPages_of_ne hne, hsame, oldPages_self, add_zero,
      zero_add]
    exact congrArg _ (pageNo_add v.base p)
  · cases y with
    | innerSlot k =>
      have hkj : k ≠ j := fun hk => hy (congrArg _ hk)
      unfold held View.snapInner
      dsimp only
      rw [Function.update_of_ne hkj]
    | _ => rfl

theorem Paired.snapInner (h : v.Paired) (hp : v.addr p = v.base + l) (j : ℕ) :
    (v.snapInner j p l).Paired := by
  refine ⟨h.cont, h.sdCurrent, h.sdSnapshot, h.soCurrent, fun k hk => ?_, h.siCurrent, h.siSnapshot,
    h.entry⟩
  show (Function.update v.outer.soSnapshot j ⟨v.addr p, l⟩ k).Paired v.base
  rw [Function.update_apply]
  split_ifs
  · exact .inr hp
  · exact h.soSnapshot k hk

theorem Linked.snapOuter (h : v.Linked) (hp : ¬ v.IsMeta p) (l : ℕ) : (v.snapOuter p l).Linked := by
  refine ⟨h.current, h.committed, h.sdIndex, h.sdCurrent, h.sdOther, ?_, fun heq => ?_, h.soIndex,
    h.inners, h.soCurrent, h.soSnapshot, h.soSame, h.linked, h.buckets, h.siIndex, h.siCurrent,
    h.siSnapshot, h.siOther, h.sbId⟩
  · show IsPage v.base (Function.update v.dir.sdSnapshot 0 ⟨v.addr p, l⟩ 0).maddr
    rw [Function.update_self]
    exact ⟨p, rfl⟩
  · replace heq : (Function.update v.dir.sdSnapshot 0 ⟨v.addr p, l⟩ 0).maddr =
      (v.dir.sdCurrent 0).maddr := heq
    rw [Function.update_self, h.sdCurrent] at heq
    exact (hp ⟨.outer, trivial, (v.addr_injective heq).symm⟩).elim

theorem Balanced.snapOuter (h : v.Balanced (lost + {p})) (hl : v.Linked)
    (hsame : (v.dir.sdSnapshot 0).maddr = (v.dir.sdCurrent 0).maddr) (l : ℕ) :
    (v.snapOuter p l).Balanced lost := by
  have hne : v.addr p ≠ (v.dir.sdCurrent 0).maddr := by
    rw [hl.sdCurrent]
    intro heq
    refine h.lost_notMeta (Multiset.mem_add.mpr (.inr (Multiset.mem_singleton_self p))) ?_
    exact ⟨.outer, trivial, (v.addr_injective heq).symm⟩
  rw [← add_zero lost]
  refine h.move outerSlot_mem ?_ (fun y _ hy => ?_) rfl rfl
  · unfold held View.snapOuter
    dsimp only
    rw [Function.update_self, oldPages_of_ne hne, hsame, oldPages_self, add_zero, zero_add]
    exact congrArg _ (pageNo_add v.base p)
  · cases y with
    | outerSlot => exact (hy rfl).elim
    | _ => rfl

theorem Paired.snapOuter (h : v.Paired) (hp : v.addr p = v.base + l) : (v.snapOuter p l).Paired := by
  refine ⟨h.cont, h.sdCurrent, ?_, h.soCurrent, h.soSnapshot, h.siCurrent, h.siSnapshot, h.entry⟩
  show (Function.update v.dir.sdSnapshot 0 ⟨v.addr p, l⟩ 0).Paired v.base
  rw [Function.update_self]
  exact .inr hp

/-! ## Links to new nodes -/

/-- The next slot of the outer node leads to the inner node there, on page `p`. -/
def linkInner (v : View) (p l : ℕ) : View :=
  { v with outer := {
      soIndex := v.outer.soIndex + 1
      soCurrent := Function.update v.outer.soCurrent v.outer.soIndex ⟨v.addr p, l⟩
      soSnapshot := Function.update v.outer.soSnapshot v.outer.soIndex ⟨v.addr p, l⟩ } }

theorem Linked.linkInner (h : v.Linked) (hlt : v.outer.soIndex < v.inners) (l : ℕ) :
    (v.linkInner (v.innerPage v.outer.soIndex) l).Linked := by
  have hset : ∀ t : ℕ → Slot, ∀ k < v.outer.soIndex,
      Function.update t v.outer.soIndex ⟨v.addr (v.innerPage v.outer.soIndex), l⟩ k = t k :=
    fun t k hk => Function.update_of_ne (Nat.ne_of_lt hk) ..
  refine ⟨h.current, h.committed, h.sdIndex, h.sdCurrent, h.sdOther, h.sdSnapshot, h.sdSame, hlt,
    h.inners, fun k hk => ?_, fun k hk => ?_, fun k hk heq => ?_, h.linked,
    h.buckets.trans (Nat.mul_le_mul_left _ (Nat.le_succ _)), h.siIndex, h.siCurrent, h.siSnapshot,
    h.siOther, h.sbId⟩
  · show (Function.update v.outer.soCurrent _ _ k).maddr = v.addr (v.innerPage k)
    rcases Nat.lt_succ_iff_lt_or_eq.mp hk with hk | rfl
    · rw [hset _ k hk]
      exact h.soCurrent k hk
    · rw [Function.update_self]
  · show IsPage v.base (Function.update v.outer.soSnapshot _ _ k).maddr
    rcases Nat.lt_succ_iff_lt_or_eq.mp hk with hk | rfl
    · rw [hset _ k hk]
      exact h.soSnapshot k hk
    · rw [Function.update_self]
      exact ⟨_, rfl⟩
  · replace heq : (Function.update v.outer.soSnapshot _ _ k).maddr =
      (Function.update v.outer.soCurrent _ _ k).maddr := heq
    show Function.update v.outer.soSnapshot _ _ k = Function.update v.outer.soCurrent _ _ k
    rcases Nat.lt_succ_iff_lt_or_eq.mp hk with hk | rfl
    · rw [hset _ k hk, hset _ k hk] at heq ⊢
      exact h.soSame k hk heq
    · rw [Function.update_self, Function.update_self]

theorem Balanced.linkInner (h : v.Balanced lost) (p l : ℕ) : (v.linkInner p l).Balanced lost := by
  refine h.same (fun y _ => ?_) rfl rfl
  cases y with
  | innerSlot k =>
    unfold held View.linkInner
    dsimp only
    by_cases hk : k = v.outer.soIndex
    · rw [hk, if_pos (Nat.lt_succ_self _), if_neg (Nat.lt_irrefl _), Function.update_self,
        Function.update_self, oldPages_self]
    · rw [Function.update_of_ne hk, Function.update_of_ne hk]
      have hiff : k < v.outer.soIndex + 1 ↔ k < v.outer.soIndex := by omega
      simp only [hiff]
  | _ => rfl

theorem Paired.linkInner (h : v.Paired) (hp : v.addr p = v.base + l) : (v.linkInner p l).Paired := by
  refine ⟨h.cont, h.sdCurrent, h.sdSnapshot, fun k hk => ?_, fun k hk => ?_, h.siCurrent,
    h.siSnapshot, h.entry⟩
  · show (Function.update v.outer.soCurrent v.outer.soIndex ⟨v.addr p, l⟩ k).Paired v.base
    rcases Nat.lt_succ_iff_lt_or_eq.mp hk with hk | rfl
    · rw [Function.update_of_ne (Nat.ne_of_lt hk)]
      exact h.soCurrent k hk
    · rw [Function.update_self]
      exact .inr hp
  · show (Function.update v.outer.soSnapshot v.outer.soIndex ⟨v.addr p, l⟩ k).Paired v.base
    rcases Nat.lt_succ_iff_lt_or_eq.mp hk with hk | rfl
    · rw [Function.update_of_ne (Nat.ne_of_lt hk)]
      exact h.soSnapshot k hk
    · rw [Function.update_self]
      exact .inr hp

/-! ## Slots of buckets -/

theorem siCurrent_setInner (v : View) (j : ℕ) (x : SlabInner) (b : ℕ) :
    (v.setInner j x).siCurrent b =
      if b / slabInnerEntries = j then x.siCurrent (b % slabInnerEntries) else v.siCurrent b := by
  unfold View.siCurrent
  split_ifs with hb
  · rw [hb, setInner_inner]
  · rw [setInner_inner_of_ne _ _ hb]

theorem siSnapshot_setInner (v : View) (j : ℕ) (x : SlabInner) (b : ℕ) :
    (v.setInner j x).siSnapshot b =
      if b / slabInnerEntries = j then x.siSnapshot (b % slabInnerEntries) else v.siSnapshot b := by
  unfold View.siSnapshot
  split_ifs with hb
  · rw [hb, setInner_inner]
  · rw [setInner_inner_of_ne _ _ hb]

theorem eq_of_div_mod {b c : ℕ} (hd : b / slabInnerEntries = c / slabInnerEntries)
    (hm : b % slabInnerEntries = c % slabInnerEntries) : b = c := by
  rw [← Nat.div_add_mod b slabInnerEntries, ← Nat.div_add_mod c slabInnerEntries, hd, hm]

/-- The slot `b` of the inner nodes changes, and the index of its node. -/
def putSlot (v : View) (b i : ℕ) (cur snap : Slot) : View :=
  v.setInner (b / slabInnerEntries) {
    siIndex := i
    siCurrent := Function.update (v.inner (b / slabInnerEntries)).siCurrent (b % slabInnerEntries) cur
    siSnapshot :=
      Function.update (v.inner (b / slabInnerEntries)).siSnapshot (b % slabInnerEntries) snap }

/-- The slot `b` of the inner nodes changes. -/
def setSlot (v : View) (b : ℕ) (cur snap : Slot) : View :=
  v.putSlot b (v.inner (b / slabInnerEntries)).siIndex cur snap

variable {b c : ℕ} {cur snap : Slot}

theorem putSlot_siCurrent (v : View) (b i : ℕ) (cur snap : Slot) (c : ℕ) :
    (v.putSlot b i cur snap).siCurrent c = if c = b then cur else v.siCurrent c := by
  unfold putSlot
  rw [siCurrent_setInner]
  dsimp only
  by_cases hcb : c = b
  · rw [if_pos (by rw [hcb]), if_pos hcb, hcb, Function.update_self]
  · rw [if_neg hcb]
    split_ifs with hd
    · rw [Function.update_of_ne fun hm => hcb (eq_of_div_mod hd hm)]
      unfold View.siCurrent
      rw [hd]
    · rfl

theorem putSlot_siSnapshot (v : View) (b i : ℕ) (cur snap : Slot) (c : ℕ) :
    (v.putSlot b i cur snap).siSnapshot c = if c = b then snap else v.siSnapshot c := by
  unfold putSlot
  rw [siSnapshot_setInner]
  dsimp only
  by_cases hcb : c = b
  · rw [if_pos (by rw [hcb]), if_pos hcb, hcb, Function.update_self]
  · rw [if_neg hcb]
    split_ifs with hd
    · rw [Function.update_of_ne fun hm => hcb (eq_of_div_mod hd hm)]
      unfold View.siSnapshot
      rw [hd]
    · rfl

theorem setSlot_siCurrent (v : View) (b : ℕ) (cur snap : Slot) (c : ℕ) :
    (v.setSlot b cur snap).siCurrent c = if c = b then cur else v.siCurrent c :=
  putSlot_siCurrent ..

theorem setSlot_siSnapshot (v : View) (b : ℕ) (cur snap : Slot) (c : ℕ) :
    (v.setSlot b cur snap).siSnapshot c = if c = b then snap else v.siSnapshot c :=
  putSlot_siSnapshot ..

theorem setSlot_siIndex (v : View) (b : ℕ) (cur snap : Slot) (j : ℕ) :
    ((v.setSlot b cur snap).inner j).siIndex = (v.inner j).siIndex := by
  unfold setSlot putSlot
  by_cases hj : j = b / slabInnerEntries
  · rw [hj, setInner_inner]
  · rw [setInner_inner_of_ne _ _ hj]

theorem Linked.setSlot (h : v.Linked) (hcur : cur.maddr = (v.siCurrent b).maddr)
    (hsnap : b < v.linked → IsPage v.base snap.maddr) : (v.setSlot b cur snap).Linked := by
  refine ⟨h.current, h.committed, h.sdIndex, h.sdCurrent, h.sdOther, h.sdSnapshot, h.sdSame,
    h.soIndex, h.inners, h.soCurrent, h.soSnapshot, h.soSame, h.linked, h.buckets, fun j hj => ?_,
    fun c hc => ?_, fun c hc => ?_, fun j hj k hk hk' => ?_, h.sbId⟩
  · rw [setSlot_siIndex]
    exact h.siIndex j hj
  · rw [setSlot_siCurrent]
    split_ifs with hcb
    · rw [hcur, ← hcb]
      exact h.siCurrent c hc
    · exact h.siCurrent c hc
  · rw [setSlot_siSnapshot]
    split_ifs with hcb
    · exact hsnap (hcb ▸ hc)
    · exact h.siSnapshot c hc
  · rw [setSlot_siIndex] at hk
    have h0 := h.siOther j hj k hk hk'
    unfold View.setSlot View.putSlot
    by_cases hjb : j = b / slabInnerEntries
    · rw [hjb, setInner_inner]
      dsimp only
      rw [Function.update_apply]
      split_ifs with hkb
      · rw [hcur]
        unfold View.siCurrent
        rw [← hjb, ← hkb]
        exact h0
      · rw [← hjb]
        exact h0
    · rw [setInner_inner_of_ne _ _ hjb]
      exact h0

/-- The slot of a bucket takes up the pages `add` and leaves the pages `drop`. -/
theorem Balanced.setSlot {add drop : Multiset ℕ} (h : v.Balanced (lost + add)) (hl : v.Linked)
    (hb : b < v.linked) (hpages : oldPages v.base cur.maddr snap.maddr + drop =
      oldPages v.base (v.siCurrent b).maddr (v.siSnapshot b).maddr + add) :
    (v.setSlot b cur snap).Balanced (lost + drop) := by
  refine h.move (hl.bucketSlot_mem hb) ?_ (fun y _ hy => ?_) rfl rfl
  · unfold held
    dsimp only
    rw [setSlot_siCurrent, setSlot_siSnapshot, if_pos rfl, if_pos rfl, if_pos hb]
    rw [if_pos (show b < (v.setSlot b cur snap).linked from hb)]
    exact hpages
  · cases y with
    | bucketSlot c =>
      have hcb : c ≠ b := fun hc => hy (congrArg _ hc)
      unfold held
      dsimp only
      rw [setSlot_siCurrent, setSlot_siSnapshot, if_neg hcb, if_neg hcb]
      rfl
    | _ => rfl

/-- A slot that is not in use holds nothing. -/
theorem Balanced.setSlot_unused (h : v.Balanced lost) (hb : v.linked ≤ b) :
    (v.setSlot b cur snap).Balanced lost := by
  refine h.same (fun y _ => ?_) rfl rfl
  cases y with
  | bucketSlot c =>
    unfold held
    dsimp only
    by_cases hc : c < v.linked
    · have hcb : c ≠ b := by omega
      rw [setSlot_siCurrent, setSlot_siSnapshot, if_neg hcb, if_neg hcb]
      rfl
    · rw [if_neg hc]
      exact if_neg hc
  | _ => rfl

theorem Paired.setSlot (h : v.Paired) (hcur : b < v.linked → cur.Paired v.base)
    (hsnap : b < v.linked → snap.Paired v.base) : (v.setSlot b cur snap).Paired := by
  refine ⟨h.cont, h.sdCurrent, h.sdSnapshot, h.soCurrent, h.soSnapshot, fun c hc => ?_,
    fun c hc => ?_, h.entry⟩
  · rw [setSlot_siCurrent]
    split_ifs with hcb
    · exact hcur (hcb ▸ hc)
    · exact h.siCurrent c hc
  · rw [setSlot_siSnapshot]
    split_ifs with hcb
    · exact hsnap (hcb ▸ hc)
    · exact h.siSnapshot c hc

/-- The next slot of the inner nodes leads to the next bucket. -/
def linkBucket (v : View) (l : ℕ) : View :=
  { v.putSlot v.linked (v.linked % slabInnerEntries + 1) ⟨v.addr (v.bucketPage v.linked), l⟩
      ⟨v.addr (v.bucketPage v.linked), l⟩ with
    linked := v.linked + 1 }

theorem linkBucket_siCurrent (v : View) (l c : ℕ) : (v.linkBucket l).siCurrent c =
    if c = v.linked then ⟨v.addr (v.bucketPage v.linked), l⟩ else v.siCurrent c :=
  putSlot_siCurrent v v.linked _ ⟨v.addr (v.bucketPage v.linked), l⟩ _ c

theorem linkBucket_siSnapshot (v : View) (l c : ℕ) : (v.linkBucket l).siSnapshot c =
    if c = v.linked then ⟨v.addr (v.bucketPage v.linked), l⟩ else v.siSnapshot c :=
  putSlot_siSnapshot v v.linked _ _ ⟨v.addr (v.bucketPage v.linked), l⟩ c

theorem Linked.siIndex_linked (h : v.Linked) (hlt : v.linked < v.buckets) :
    (v.inner (v.linked / slabInnerEntries)).siIndex = v.linked % slabInnerEntries := by
  rw [h.siIndex _ (h.has_inner hlt)]
  simp only [slabInnerEntries_eq]
  omega

theorem Linked.linkBucket (h : v.Linked) (hlt : v.linked < v.buckets) (l : ℕ) :
    (v.linkBucket l).Linked := by
  refine ⟨h.current, h.committed, h.sdIndex, h.sdCurrent, h.sdOther, h.sdSnapshot, h.sdSame,
    h.soIndex, h.inners, h.soCurrent, h.soSnapshot, h.soSame, hlt, h.buckets, fun j hj => ?_,
    fun c hc => ?_, fun c hc => ?_, fun j hj k hk hk' => ?_, h.sbId⟩
  · have hi := h.siIndex j hj
    show ((v.setInner _ _).inner j).siIndex = min slabInnerEntries (v.linked + 1 - _)
    by_cases hjl : j = v.linked / slabInnerEntries
    · rw [hjl, setInner_inner]
      simp only [slabInnerEntries_eq]
      omega
    · rw [setInner_inner_of_ne _ _ hjl, hi]
      simp only [slabInnerEntries_eq] at hjl ⊢
      omega
  · rw [linkBucket_siCurrent]
    split_ifs with hcl
    · rw [hcl]
      rfl
    · exact h.siCurrent c (by
        have hc : c < v.linked + 1 := hc
        omega)
  · rw [linkBucket_siSnapshot]
    split_ifs with hcl
    · exact ⟨_, rfl⟩
    · exact h.siSnapshot c (by
        have hc : c < v.linked + 1 := hc
        omega)
  · replace hk : ((v.setInner _ _).inner j).siIndex ≤ k := hk
    show (((v.setInner _ _).inner j).siCurrent k).maddr = 0
    by_cases hjl : j = v.linked / slabInnerEntries
    · rw [hjl, setInner_inner] at hk ⊢
      dsimp only at hk ⊢
      rw [Function.update_of_ne (by omega)]
      refine h.siOther _ (hjl ▸ hj) k ?_ hk'
      rw [h.siIndex_linked hlt]
      omega
    · rw [setInner_inner_of_ne _ _ hjl] at hk ⊢
      exact h.siOther j hj k hk hk'

theorem Balanced.linkBucket (h : v.Balanced lost) (l : ℕ) : (v.linkBucket l).Balanced lost := by
  refine h.same (fun y _ => ?_) rfl rfl
  cases y with
  | bucketSlot c =>
    unfold held
    dsimp only
    rw [linkBucket_siCurrent, linkBucket_siSnapshot]
    show (if c < v.linked + 1 then _ else _) = _
    by_cases hc : c = v.linked
    · rw [if_pos hc, if_pos hc, oldPages_self, hc, if_neg (Nat.lt_irrefl _), if_pos (Nat.lt_succ_self _)]
    · have hiff : c < v.linked + 1 ↔ c < v.linked := by omega
      simp only [hiff, if_neg hc]
      rfl
  | _ => rfl

theorem Paired.linkBucket (h : v.Paired)
    (hp : v.addr (v.bucketPage v.linked) = v.base + l) : (v.linkBucket l).Paired := by
  refine ⟨h.cont, h.sdCurrent, h.sdSnapshot, h.soCurrent, h.soSnapshot, fun c hc => ?_,
    fun c hc => ?_, h.entry⟩
  · rw [linkBucket_siCurrent]
    split_ifs with hcl
    · exact .inr hp
    · exact h.siCurrent c (by
        have hc : c < v.linked + 1 := hc
        omega)
  · rw [linkBucket_siSnapshot]
    split_ifs with hcl
    · exact .inr hp
    · exact h.siSnapshot c (by
        have hc : c < v.linked + 1 := hc
        omega)

end View

end LibPM

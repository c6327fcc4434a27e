import LibPM.Session.Pages

/-!
# Write faults

The handler makes a snapshot of an entry: the new page becomes its snapshot page, and the page that
was there before, if it is not the current one, is lost. With committed pointer records it also copies
their page and does not record the offset of the copy.
-/

namespace LibPM

open Recorded Recorded.Prog

/-! ## Views after a fault -/

namespace View

/-- The entry `i` joins the dirty entries. -/
def markDirty (v : View) (i heap : ℕ) : View :=
  { v with dir := { v.dir with
      sdVector := v.dir.sdVector.append (v.ref i)
      sdVectorHeap := heap } }

def setTorn (v : View) (t : Set ℕ) : View := { v with torn := t }

/-- The view after a snapshot of entry `i`, which is `e` now. -/
def faulted (v : View) (n : ℕ) (free : List ℕ) (i heap : ℕ) (t : Set ℕ) (e : SlabEntry) : View :=
  (((v.sized n free).markDirty i heap).setTorn t).setEntry i e

theorem Linked.setDir {v : View} (h : v.Linked) {d : SlabDir} (hi : d.sdIndex = v.dir.sdIndex)
    (hc : d.sdCurrent = v.dir.sdCurrent) (hs : d.sdSnapshot = v.dir.sdSnapshot) :
    ({ v with dir := d } : View).Linked := by
  refine ⟨h.current, h.committed, hi.trans h.sdIndex, ?_, fun i hpos => ?_, ?_, ?_, h.soIndex,
    h.inners, h.soCurrent, h.soSnapshot, h.soSame, h.linked, h.buckets, h.siIndex, h.siCurrent,
    h.siSnapshot, h.siOther, h.sbId⟩
  · show (d.sdCurrent 0).maddr = v.addr 2
    rw [hc]
    exact h.sdCurrent
  · show (d.sdCurrent i).maddr = 0
    rw [hc]
    exact h.sdOther i hpos
  · show IsPage v.base (d.sdSnapshot 0).maddr
    rw [hs]
    exact h.sdSnapshot
  · show (d.sdSnapshot 0).maddr = (d.sdCurrent 0).maddr → d.sdSnapshot 0 = d.sdCurrent 0
    rw [hc, hs]
    exact h.sdSame

theorem Paired.setDir {v : View} (h : v.Paired) {d : SlabDir}
    (hc : d.sdCurrent = v.dir.sdCurrent) (hs : d.sdSnapshot = v.dir.sdSnapshot) :
    ({ v with dir := d } : View).Paired := by
  refine ⟨h.cont, ?_, ?_, h.soCurrent, h.soSnapshot, h.siCurrent, h.siSnapshot, h.entry⟩
  · show (d.sdCurrent 0).Paired v.base
    rw [hc]
    exact h.sdCurrent
  · show (d.sdSnapshot 0).Paired v.base
    rw [hs]
    exact h.sdSnapshot

theorem Balanced.setDir {v : View} {lost : Multiset ℕ} (h : v.Balanced lost) {d : SlabDir}
    (hc : d.sdCurrent = v.dir.sdCurrent) (hs : d.sdSnapshot = v.dir.sdSnapshot) :
    ({ v with dir := d } : View).Balanced lost := by
  refine h.same (fun y _ => ?_) rfl rfl
  cases y with
  | outerSlot =>
    show oldPages v.base (d.sdCurrent 0).maddr (d.sdSnapshot 0).maddr = _
    rw [hc, hs]
    rfl
  | _ => rfl

/-- The pointer pages of a torn entry may be anywhere. -/
theorem Paired.setTorn {v : View} (h : v.Paired) {t : Set ℕ} (ht : v.torn ⊆ t) :
    (v.setTorn t).Paired :=
  ⟨h.cont, h.sdCurrent, h.sdSnapshot, h.soCurrent, h.soSnapshot, h.siCurrent, h.siSnapshot,
    fun i hi => ⟨(h.entry i hi).dataCurrent, (h.entry i hi).dataSnapshot,
      fun hn => (h.entry i hi).ptrCurrent fun hmem => hn (ht hmem),
      fun hn => (h.entry i hi).ptrSnapshot fun hmem => hn (ht hmem)⟩⟩

end View

namespace Pm

variable {s s' : Pm} {v v' : View} {lost : Multiset ℕ} {i p q : ℕ} {u : Unit} {e e' : SlabEntry}

theorem Shows.setTorn (h : s.Shows v) (t : Set ℕ) : s.Shows (v.setTorn t) :=
  ⟨h.space, h.start, h.containers, fun x hx => by cases x <;> exact h.page _ hx, h.sizes, h.wf⟩

/-- A store to the directory that keeps its links. -/
theorem Holds.setDir (h : s.Holds v lost) {d : SlabDir} (hs : s'.Shows { v with dir := d })
    (hm : s.SameData v.toPlaces s') (hi : d.sdIndex = v.dir.sdIndex)
    (hc : d.sdCurrent = v.dir.sdCurrent) (hsn : d.sdSnapshot = v.dir.sdSnapshot)
    (hroot : d.sdMaddrRoot = v.dir.sdMaddrRoot)
    (hok : ∀ r ∈ d.sdVector.items, ∃ i < v.used, r = v.ref i)
    (hvec : ∀ r ∈ v.dir.sdVector.items, r ∈ d.sdVector.items) :
    s'.Holds { v with dir := d } lost ∧ s.Evolves v ∅ s' { v with dir := d } := by
  refine h.update hs hm rfl rfl (h.linked.setDir hi hc hsn) ?_ (h.balanced.setDir hc hsn)
    (fun _ _ => rfl) (fun _ _ => rfl) (fun _ _ _ _ _ => rfl) (fun _ _ => rfl)
    (fun _ ht => .inl ht) hvec
    (fun _ hp => hp.setDir hc hsn) h.laddr
  refine ⟨h.ok.used, h.ok.taken, fun r => ?_, h.ok.entry, h.ok.seId, h.ok.blank, h.ok.first,
    h.ok.last, h.ok.size, hok⟩
  show r ∈ d.sdMaddrRoot ↔ _
  rw [hroot]
  exact h.ok.root r

theorem Holds.setTorn (h : s.Holds v lost) {t : Set ℕ} (ht : v.torn ⊆ t) {W : Set ℕ}
    (hnew : ∀ i ∈ t, i ∈ v.torn ∨ i < v.used ∧ (v.entry i).ptrSnapshot.maddr ≠ 0 ∧
      ∃ p ∈ W, (v.entry i).dataCurrent.maddr = v.addr p ∧ ¬ s.Open v.n p) :
    s.Holds (v.setTorn t) lost ∧ s.Evolves v W s (v.setTorn t) := by
  refine h.update (h.shows.setTorn t) (.refl _ s) rfl rfl ?_ ?_ ?_ (fun _ _ => rfl)
    (fun _ _ => rfl) (fun _ _ _ _ _ => rfl) (fun _ _ => rfl) hnew (fun _ hr => hr) (fun _ hp => hp.setTorn ht)
    h.laddr
  · exact ⟨h.linked.current, h.linked.committed, h.linked.sdIndex, h.linked.sdCurrent,
      h.linked.sdOther, h.linked.sdSnapshot, h.linked.sdSame, h.linked.soIndex, h.linked.inners,
      h.linked.soCurrent, h.linked.soSnapshot, h.linked.soSame, h.linked.linked, h.linked.buckets,
      h.linked.siIndex, h.linked.siCurrent, h.linked.siSnapshot, h.linked.siOther, h.linked.sbId⟩
  · exact ⟨h.ok.used, h.ok.taken, h.ok.root, h.ok.entry, h.ok.seId, h.ok.blank, h.ok.first,
      h.ok.last, h.ok.size, h.ok.vector⟩
  · exact h.balanced.same (fun y _ => by cases y <;> rfl) rfl rfl

/-- The directory remembers a dirty entry. -/
theorem Holds.appendDirty (h : s.Holds v lost) (hi : i < v.used)
    (hr : Returns (appendDirty (v.addr 1) (v.ref i)) s u s') :
    s'.Holds (v.markDirty i s.heap) lost ∧ s.Evolves v ∅ s' (v.markDirty i s.heap) ∧
      s.SameData v.toPlaces s' := by
  unfold LibPM.appendDirty at hr
  simp only [returns_bind, returns_get, returns_require] at hr
  obtain ⟨d, _, hd, _, _, ⟨rfl, rfl⟩, _, _, ⟨-, rfl⟩, hput⟩ := hr
  obtain ⟨rfl, rfl⟩ := h.shows.loadDir hd
  obtain ⟨hs, hm⟩ := h.shows.putDir hput
  have hdirty : ∀ r ∈ (v.dir.sdVector.append (v.ref i)).items, ∃ i < v.used, r = v.ref i := by
    intro r hr
    rcases List.mem_append.mp hr with hr | hr
    · exact h.ok.vector r hr
    · exact ⟨i, hi, List.mem_singleton.mp hr⟩
  obtain ⟨hh, hv⟩ := h.setDir hs hm rfl rfl rfl rfl hdirty fun r hr => List.mem_append.mpr (.inl hr)
  exact ⟨hh, hv, hm⟩

end Pm

/-! ## The pages of an entry with a new snapshot -/

/-- The pages no one holds after a snapshot of the entry: the versions it takes the place of. -/
def SlabEntry.dropped (base : ℕ) (e : SlabEntry) : Multiset ℕ :=
  oldPages base e.dataCurrent.maddr e.dataSnapshot.maddr +
    if e.ptrSnapshot.maddr = 0 then 0
    else oldPages base e.ptrSnapshot.maddr e.ptrCurrent.maddr

section

variable {e e' : SlabEntry} {base p q : ℕ}

theorem SlabEntry.Ok.dropped_eq_zero (he : e.Ok base)
    (h : e.dataSnapshot.maddr = e.dataCurrent.maddr) : e.dropped base = 0 := by
  unfold SlabEntry.dropped oldPages
  rw [if_pos h, zero_add]
  rcases he.clean h with h0 | heq
  · rw [if_pos h0]
  · split_ifs with h0 h1
    · rfl
    · rfl
    · exact (h1 heq.symm).elim

theorem SlabEntry.dropped_of_ptr (h : e.ptrSnapshot.maddr = 0) :
    e.dropped base = oldPages base e.dataCurrent.maddr e.dataSnapshot.maddr := by
  unfold SlabEntry.dropped
  rw [if_pos h, add_zero]

theorem SlabEntry.dropped_of_ptr_ne (h : e.ptrSnapshot.maddr ≠ 0) :
    e.dropped base = oldPages base e.dataCurrent.maddr e.dataSnapshot.maddr +
      oldPages base e.ptrSnapshot.maddr e.ptrCurrent.maddr := by
  unfold SlabEntry.dropped
  rw [if_neg h]

/-- `e'` is `e` with the page `p` for its committed data. -/
structure SlabEntry.Snapped (base p : ℕ) (e e' : SlabEntry) : Prop where
  new : base + p * pageSize ≠ e.dataCurrent.maddr
  cur : e'.dataCurrent.maddr = e.dataCurrent.maddr
  bitmap : e'.dataCurrent.bitmap = e.dataCurrent.bitmap
  snap : e'.dataSnapshot.maddr = base + p * pageSize
  size : e'.seSize = e.seSize
  id : e'.seId = e.seId
  ptrSnapshot : e'.ptrSnapshot = e.ptrSnapshot
  link : e'.seList = e.seList

theorem SlabEntry.Snapped.ok (h : e.Snapped base p e') (he : e.Ok base)
    (hptr : e'.ptrCurrent = e.ptrCurrent ∨
      e.ptrSnapshot.maddr ≠ 0 ∧ IsPage base e'.ptrCurrent.maddr) : e'.Ok base := by
  have hne : e'.dataSnapshot.maddr ≠ e'.dataCurrent.maddr := by
    rw [h.snap, h.cur]
    exact h.new
  refine ⟨h.cur ▸ he.cur, ⟨p, h.snap⟩, fun heq => (hne heq).elim, h.size ▸ he.size, ?_,
    fun heq => (hne heq).elim⟩
  rw [h.ptrSnapshot]
  rcases hptr with hptr | ⟨hs, hptr⟩
  · rw [hptr]
    exact he.ptr
  · rcases he.ptr with ⟨-, h0, -⟩ | ⟨-, h0⟩
    · exact (hs h0).elim
    · exact .inr ⟨hptr, h0⟩

theorem SlabEntry.Snapped.pages (h : e.Snapped base p e') (hptr : e'.ptrCurrent = e.ptrCurrent) :
    e'.pages base + oldPages base e.dataCurrent.maddr e.dataSnapshot.maddr =
      e.pages base + {p} := by
  have hv := versionPages_newSnapshot e.dataSnapshot.maddr h.new
  unfold SlabEntry.pages
  rw [h.cur, h.snap, hptr, h.ptrSnapshot, add_right_comm, hv]
  abel

theorem SlabEntry.Snapped.pages_ptr (h : e.Snapped base p e')
    (hb : base ≠ 0) (hptr : e'.ptrCurrent.maddr = base + q * pageSize)
    (hq : base + q * pageSize ≠ e.ptrSnapshot.maddr) (hc : e.ptrCurrent.maddr ≠ 0)
    (hs : e.ptrSnapshot.maddr ≠ 0) :
    e'.pages base + (oldPages base e.dataCurrent.maddr e.dataSnapshot.maddr +
      oldPages base e.ptrSnapshot.maddr e.ptrCurrent.maddr) = e.pages base + ({p} + {q}) := by
  have hv := versionPages_newSnapshot e.dataSnapshot.maddr h.new
  have hw := @versionPages_newCurrent base e.ptrCurrent.maddr e.ptrSnapshot.maddr q hq
  have hq0 : base + q * pageSize ≠ 0 := fun h0 => hb (Nat.eq_zero_of_add_eq_zero_right h0)
  unfold SlabEntry.pages ptrPages
  rw [h.cur, h.snap, hptr, h.ptrSnapshot, if_neg hc, if_neg hs, if_neg hq0, if_neg hs,
    add_add_add_comm, hv, hw]
  abel

theorem SlabEntry.Ok.ptrCurrent_ne (he : e.Ok base) (hb : base ≠ 0)
    (hs : e.ptrSnapshot.maddr ≠ 0) : e.ptrCurrent.maddr ≠ 0 := by
  rcases he.ptr with ⟨-, h0, -⟩ | ⟨⟨q, hq⟩, -⟩
  · exact (hs h0).elim
  · rw [hq]
    exact fun h0 => hb (Nat.eq_zero_of_add_eq_zero_right h0)

end

/-! ## Snapshots of entries -/

namespace Pm

variable {s s' : Pm} {v v' : View} {lost : Multiset ℕ} {i p q a : ℕ} {u : Unit} {e e' : SlabEntry}

/-- No version of an entry is on a page that no one holds. -/
theorem Holds.ne_of_lost (h : s.Holds v lost) (hi : i < v.used) (hp : p ∈ lost)
    (ha : pageNo v.base a ∈ (v.entry i).pages v.base) : v.base + p * pageSize ≠ a := by
  rintro rfl
  rw [pageNo_add, ← View.Ok.held_entry hi] at ha
  exact h.balanced.notMem_lost (h.holder_mem hi) ha hp

/-- A further store to an entry. -/
theorem Shows.putEntry_again (h : s.Shows (v.setEntry i e)) (hi : i < v.cap)
    {f : SlabEntry → SlabEntry} (hr : Returns (LibPM.putEntry (v.ref i) f) s u s') :
    s'.Shows (v.setEntry i (f e)) ∧ s.SameData v.toPlaces s' := by
  have hput := @Pm.Shows.putEntry _ _ (v.setEntry i e) _ h i hi f hr
  rw [View.setEntry_entry, View.setEntry_setEntry] at hput
  exact hput

/-- The entry `i` was copied: it is `e` now, and `t` are the torn entries. -/
structure Faulted (s : Pm) (v : View) (lost : Multiset ℕ) (i : ℕ) (s' : Pm) (n : ℕ)
    (free : List ℕ) (p : ℕ) (t : Set ℕ) (e : SlabEntry) : Prop where
  snapped : (v.entry i).Snapped v.base p e
  torn : t = if (v.entry i).ptrSnapshot.maddr = 0 then v.torn else insert i v.torn
  holds : s'.Holds (v.faulted n free i s.heap t e) (lost + (v.entry i).dropped v.base)
  evolves : ∀ q, (v.entry i).dataCurrent.maddr = v.addr q →
    s.Evolves v {q} s' (v.faulted n free i s.heap t e)
  bytes : ∀ q, v.IsData q → s'.restBytes n q = s.restBytes v.n q

/-- A fault that leaves no entry torn. -/
theorem Faulted.of_evolves {n : ℕ} {free : List ℕ} {t : Set ℕ}
    (hsn : (v.entry i).Snapped v.base p e)
    (ht : t = if (v.entry i).ptrSnapshot.maddr = 0 then v.torn else insert i v.torn)
    (hh : s'.Holds (v.faulted n free i s.heap t e) (lost + (v.entry i).dropped v.base))
    (hv : s.Evolves v ∅ s' (v.faulted n free i s.heap t e)) :
    s.Faulted v lost i s' n free p t e :=
  ⟨hsn, ht, hh, fun q _ => hv.mono (Set.empty_subset {q}),
    fun q hq => hv.bytes q (.inr (.inr (hv.isData hq))) (Set.notMem_empty q)⟩

theorem Holds.slabEntrySnapshot (h : s.Holds v lost) (hi : i < v.used)
    (hclosed : ∀ q, (v.entry i).dataCurrent.maddr = v.addr q → ¬ s.Open v.n q)
    (hr : Returns (LibPM.slabEntrySnapshot (v.ref i)) s u s') :
    ∃ n free p t e, s.Faulted v lost i s' n free p t e := by
  have he := h.ok.entry i hi
  have hcap := h.lt_cap hi
  have hb : v.base ≠ 0 := h.shows.base_ne
  unfold LibPM.slabEntrySnapshot at hr
  rw [returns_bind] at hr
  obtain ⟨⟨dataMaddr, dataLaddr⟩, s₁, h₁, hr⟩ := hr
  obtain ⟨p, n₁, free₁, hg₁⟩ := h.getpage h₁
  obtain ⟨rfl, hh₁, hv₁⟩ := And.intro hg₁.maddr (And.intro hg₁.holds hg₁.evolves)
  -- the copy, and the list of dirty entries
  simp only [returns_bind] at hr
  obtain ⟨e, s₂, h₂, _, s₃, h₃, sd, s₄, h₄, _, s₅, h₅, e', s₆, h₆, _, s₇, h₇, _, s₈, h₈, h₉⟩ := hr
  obtain ⟨rfl, rfl⟩ := hh₁.shows.loadEntry hcap h₂
  obtain ⟨hs₃, hh₃, hv₃⟩ := hh₁.pmemcpyPages (by simp) he.size h₃
  obtain ⟨rfl, rfl⟩ := hh₃.currentSlab h₄
  obtain ⟨hheap₃, hfix₃, hprot⟩ : s₃.heap = s.heap ∧ (s₃.IsFixed ↔ s.IsFixed) ∧ s₃.prot = s₁.prot := by
    rcases hs₃ with rfl | ⟨x, rfl⟩ <;> exact ⟨hg₁.heap, hg₁.kind, rfl⟩
  obtain ⟨hh₅, hv₅, hm₅⟩ := hh₃.appendDirty hi h₅
  have hfix₅ : s₅.IsFixed ↔ s.IsFixed := hm₅.isFixed.trans hfix₃
  rw [hheap₃] at hh₅ hv₅
  obtain ⟨rfl, rfl⟩ := hh₅.shows.loadEntry hcap h₆
  replace hv₅ := hh₃.trans (hh₁.trans hv₁ hv₃ (Nat.le_refl _)) hv₅ (Nat.le_refl _)
  have hlin : s.IsFixed → v.addr p = v.base + dataLaddr := by
    intro hf
    rw [hg₁.laddr_of_isFixed hf]
    rfl
  have hp : v.base + p * pageSize ≠ (v.entry i).dataCurrent.maddr :=
    hh₅.ne_of_lost hi (by simp) ((v.entry i).data_mem v.base).1
  rw [returns_when] at h₇
  rcases h₇ with ⟨hs0, h₇⟩ | ⟨hs0, rfl⟩
  · -- there are committed pointer records
    simp only [returns_bind] at h₇
    obtain ⟨⟨ptrMaddr, ptrLaddr⟩, t₁, g₁, e'', t₂, g₂, _, t₃, g₃, _, t₄, g₄, g₅⟩ := h₇
    obtain ⟨q, n₂, free₂, hg₂⟩ := hh₅.getpage g₁
    obtain ⟨rfl, hh₆, hv₆⟩ := And.intro hg₂.maddr (And.intro hg₂.holds hg₂.evolves)
    obtain ⟨rfl, rfl⟩ := hh₆.shows.loadEntry hcap g₂
    obtain ⟨gs₃, gh₃, gv₃⟩ := hh₆.pmemcpyPages (by simp) he.size g₃
    obtain ⟨hfix₃, hprot₃⟩ : (t₃.IsFixed ↔ s.IsFixed) ∧ t₃.prot = t₁.prot := by
      rw [← hfix₅, ← hg₂.kind]
      rcases gs₃ with rfl | ⟨x, rfl⟩ <;> exact ⟨Iff.rfl, rfl⟩
    -- the page of the entry is still read only
    obtain ⟨r, hr, -, hrn, -, -, hrlost⟩ := h.data hi
    have hclosed₃ : ¬ t₃.Open n₂ r := by
      rintro ⟨-, hw⟩
      rw [hprot₃] at hw
      have hlt := hrn.trans_le hg₁.took.takes.le
      have hd : ((v.sized n₁ free₁).markDirty i s.heap).IsData r := ⟨i, hi, hr⟩
      replace hw := hg₂.took.write_of hh₅ hlt (hg₂.took.ne_of_data hh₅ hd).2 hw
      rw [hm₅.prot, hprot] at hw
      exact hclosed r hr ⟨hrn, hg₁.took.write_of h hrn (hg₁.took.ne_of_data h ⟨i, hi, hr⟩).2 hw⟩
    have htorn : ∀ j ∈ insert i v.torn, j ∈ v.torn ∨ j < v.used ∧ (v.entry j).ptrSnapshot.maddr ≠ 0 ∧
        ∃ q ∈ ({r} : Set ℕ), (v.entry j).dataCurrent.maddr = v.addr q ∧ ¬ t₃.Open n₂ q := by
      rintro j (rfl | hj)
      · exact .inr ⟨hi, hs0, r, rfl, hr, hclosed₃⟩
      · exact .inl hj
    obtain ⟨gh, gv⟩ := gh₃.setTorn (Set.subset_insert i v.torn) htorn
    obtain ⟨gs₄, gm₄⟩ := gh.shows.putEntry hcap g₄
    obtain ⟨gs₅, gm₅⟩ := gs₄.putEntry_again hcap g₅
    obtain ⟨hs₈, hm₈⟩ := gs₅.putEntry_again hcap h₈
    obtain ⟨hs₉, hm₉⟩ := hs₈.putEntry_again hcap h₉
    have hsn : (v.entry i).Snapped v.base p { v.entry i with
        dataSnapshot := ⟨v.addr p, dataLaddr, (v.entry i).dataSnapshot.bitmap⟩
        ptrCurrent := ⟨(v.entry i).ptrSnapshot.idx, v.addr q, (v.entry i).ptrCurrent.laddr⟩ } :=
      ⟨hp, rfl, rfl, rfl, rfl, rfl, rfl, rfl⟩
    have hc0 := he.ptrCurrent_ne hb hs0
    have hq : v.base + q * pageSize ≠ (v.entry i).ptrSnapshot.maddr :=
      hh₆.ne_of_lost hi (by simp) ((SlabEntry.ptr_mem hc0).2 hs0)
    rw [add_assoc] at gh
    obtain ⟨hh, hv⟩ := gh.setEntry hs₉ (gm₄.trans (gm₅.trans (hm₈.trans hm₉))) hi
      (hsn.ok he (.inr ⟨hs0, q, rfl⟩)) rfl rfl rfl (W := {r}) (fun _ _ _ => rfl) rfl
      (fun hf hpair => ⟨hpair.dataCurrent, .inr (hlin (hfix₃.mp hf)),
        fun hn => (hn (Set.mem_insert i _)).elim, fun hn => (hn (Set.mem_insert i _)).elim⟩)
      (hsn.pages_ptr hb rfl hq hc0 hs0)
    have hm := gm₄.trans (gm₅.trans (hm₈.trans hm₉))
    have hv₃ := hh₅.trans hv₅ (hh₆.trans hv₆ gv₃ (Nat.le_refl _)) (Nat.le_refl _)
    refine ⟨n₂, free₂, p, insert i v.torn, _, hsn, (if_neg hs0).symm, ?_, ?_, fun q' hq' => ?_⟩
    · rw [@SlabEntry.dropped_of_ptr_ne (v.entry i) v.base hs0]
      exact hh
    · intro r' hr'
      obtain rfl : r = r' := v.addr_injective (hr.symm.trans hr')
      have gv₆ := gh₃.trans (gv₃.mono (Set.empty_subset {r}))
        (gh.trans gv hv (Nat.le_refl _)) (Nat.le_refl _)
      exact hh₅.trans (hv₅.mono (Set.empty_subset _))
        (hh₆.trans (hv₆.mono (Set.empty_subset _)) gv₆ (Nat.le_refl _)) (Nat.le_refl _)
    · have hrests := gh₃.rests_notMeta (.inr (.inr (hv₃.isData hq')))
      rw [← hv₃.bytes q' (.inr (.inr (hv₃.isData hq'))) (Set.notMem_empty q')]
      exact (hm.restBytes hrests).2
  · have hs0 : (v.entry i).ptrSnapshot.maddr = 0 := not_not.mp hs0
    obtain ⟨hs₈, hm₈⟩ := hh₅.shows.putEntry hcap h₈
    obtain ⟨hs₉, hm₉⟩ := hs₈.putEntry_again hcap h₉
    have hsn : (v.entry i).Snapped v.base p { v.entry i with
        dataSnapshot := ⟨v.addr p, dataLaddr, (v.entry i).dataSnapshot.bitmap⟩ } :=
      ⟨hp, rfl, rfl, rfl, rfl, rfl, rfl, rfl⟩
    obtain ⟨hh, hv⟩ := hh₅.setEntry hs₉ (hm₈.trans hm₉) hi (hsn.ok he (.inl rfl)) rfl rfl rfl
      (W := ∅) (fun _ _ _ => rfl) rfl
      (fun hf hpair => ⟨hpair.dataCurrent, .inr (hlin (hfix₅.mp hf)), hpair.ptrCurrent,
        hpair.ptrSnapshot⟩)
      (hsn.pages rfl)
    refine ⟨n₁, free₁, p, v.torn, _, .of_evolves hsn (if_pos hs0).symm ?_
      (hh₅.trans hv₅ hv (Nat.le_refl _))⟩
    rw [@SlabEntry.dropped_of_ptr (v.entry i) v.base hs0]
    exact hh

/-- The mapping of a page is exchanged with itself. -/
theorem Holds.swapSelf {g : ℕ} (h : s.Holds v lost) (hp : p < v.n) (hpf : p ∉ v.free)
    (hr : Returns (pageAllocatorSwapMappings (v.addr p) g (v.addr p) (s.vmap p * pageSize)) s u s') :
    s'.Holds v lost ∧ s.Evolves v ∅ s' v ∧ ¬ s.IsFixed ∧ s'.heap = s.heap := by
  obtain ⟨nlm, hpa, i, j, -, -, hs'⟩ := returns_swapMappings hr
  have hfix : ¬ s.IsFixed := not_isFixed hpa
  have hfix' : ¬ s'.IsFixed := by
    rw [hs']
    exact not_isFixed rfl
  have hprot : s'.prot = s.prot := by rw [hs']
  rw [h.shows.addr_eq] at hr
  obtain ⟨hspace, hstart, hvmap, pa, vmap, hsame⟩ :=
    h.shows.space.swap hp hp hpf hpf (fun hne => (hne rfl).elim) hr
  rw [swapVmap_self] at hvmap
  have hpage : s'.page = s.page := by
    funext q
    unfold Pm.page
    rw [hvmap, hsame]
  have hrest : s'.restBytes v.n = s.restBytes v.n := by
    funext q
    unfold Pm.restBytes Pm.filePage
    rw [hvmap, hsame]
    rfl
  refine ⟨⟨⟨hspace, hstart.trans h.shows.start, ?_, fun x hx => ?_, ?_, h.shows.wf⟩, h.linked, h.ok,
    ⟨fun q hq => ?_, fun q _ _ hf => (hfix' hf).elim, fun q _ hres => hfix' hres.isFixed⟩, h.balanced,
    fun hf => (hfix' hf).elim, fun b hb => ?_, ?_, ?_⟩,
    { Evolves.refl s v ∅ with
      filePage := fun q _ => ?_
      bytes := fun q _ _ => congrFun hrest q
      closed := fun q _ hopen => .inl ?_
      opened := fun q _ hopen => ?_
      kept := fun q _ hopen => .inl ?_ }, hfix, by rw [hsame]⟩
  · rw [hsame]
    exact h.shows.containers
  · rw [hpage]
    exact h.shows.page x hx
  · rw [hsame]
    exact h.shows.sizes
  · rw [hprot]
    exact h.guarded.metadata q hq
  · rw [hvmap]
    exact h.laddr b hb
  · rw [hsame]
    exact h.nextBucket
  · rw [hsame]
    exact h.nextEntry
  · unfold Pm.filePage
    rw [hvmap]
  · unfold Open at hopen ⊢
    rwa [hprot] at hopen
  · unfold Open at hopen ⊢
    rwa [hprot]
  · unfold Open at hopen ⊢
    rwa [hprot]

theorem Holds.slabEntryCopynswap (h : s.Holds v lost) (hi : i < v.used)
    (hr : Returns (LibPM.slabEntryCopynswap (v.ref i)) s u s') :
    ∃ n free p t e, s.Faulted v lost i s' n free p t e := by
  have he := h.ok.entry i hi
  have hcap := h.lt_cap hi
  unfold LibPM.slabEntryCopynswap at hr
  rw [returns_bind] at hr
  obtain ⟨⟨dataMaddr, dataLaddr⟩, s₁, h₁, hr⟩ := hr
  obtain ⟨p, n₁, free₁, hg₁⟩ := h.getpage h₁
  obtain ⟨rfl, hh₁, hv₁⟩ := And.intro hg₁.maddr (And.intro hg₁.holds hg₁.evolves)
  have hmem : p ∈ lost + {p} := by simp
  simp only [returns_bind, returns_require] at hr
  obtain ⟨e, s₂, h₂, _, s₃, h₃, _, s₄, h₄, _, s₅, h₅, e', s₆, h₆, _, s₇, h₇, sd, s₈, h₈, _, s₉, h₉,
    e'', s₁₀, h₁₀, hs0, rfl⟩ := hr
  obtain ⟨rfl, rfl⟩ := hh₁.shows.loadEntry hcap h₂
  obtain ⟨hs₃, hh₃, hv₃⟩ := hh₁.pmemcpyPages hmem he.size h₃
  obtain ⟨hheap₃, hvmap₃⟩ : s₃.heap = s.heap ∧ s₃.vmap = s₁.vmap := by
    rcases hs₃ with rfl | ⟨x, rfl⟩ <;> exact ⟨hg₁.heap, rfl⟩
  obtain ⟨hs₄, hm₄⟩ := hh₃.shows.putEntry hcap h₄
  obtain ⟨hs₅, hm₅⟩ := hs₄.putEntry_again hcap h₅
  have hm := hm₄.trans hm₅
  obtain ⟨he', rfl⟩ := hs₅.loadEntry hcap h₆
  rw [View.setEntry_entry] at he'
  subst he'
  have hp : v.base + p * pageSize ≠ (v.entry i).dataCurrent.maddr :=
    hh₃.ne_of_lost hi hmem ((v.entry i).data_mem v.base).1
  have hsn : (v.entry i).Snapped v.base p { v.entry i with
      dataCurrent := ⟨(v.entry i).dataCurrent.maddr, dataLaddr, (v.entry i).dataCurrent.bitmap⟩
      dataSnapshot := ⟨v.addr p, (v.entry i).dataSnapshot.laddr, (v.entry i).dataSnapshot.bitmap⟩ } :=
    ⟨hp, rfl, rfl, rfl, rfl, rfl, rfl, rfl⟩
  have hnot : ¬ s₃.IsFixed := by
    obtain ⟨nlm, hpa, -⟩ := returns_swapMappings h₇
    rw [← hm.isFixed]
    exact not_isFixed hpa
  obtain ⟨hh₅, hv₅⟩ := hh₃.setEntry hs₅ hm hi (hsn.ok he (.inl rfl)) rfl rfl rfl
    (W := ∅) (fun _ _ _ => rfl) rfl
    (fun hf _ => (hnot hf).elim) (hsn.pages rfl)
  -- the two exchanges of the new page with itself
  rw [hg₁.took.laddr, ← hvmap₃, ← hm.vmap] at h₇
  obtain ⟨hh₇, hv₇, -, hheap₇⟩ := hh₅.swapSelf (hh₃.lost_lt hmem)
    (hh₃.balanced.lost_notMem_free hmem) h₇
  obtain ⟨rfl, rfl⟩ := hh₇.currentSlab h₈
  obtain ⟨hh₉, hv₉, -⟩ := hh₇.appendDirty hi h₉
  rw [hheap₇, hm.heap, hheap₃] at hh₉ hv₉
  obtain ⟨rfl, rfl⟩ := hh₉.shows.loadEntry hcap h₁₀
  have hs0 : (v.entry i).ptrSnapshot.maddr = 0 :=
    (congrArg (·.ptrSnapshot.maddr) (View.setEntry_entry (v.sized n₁ free₁) i _)).symm.trans hs0
  have hv := hh₅.trans hv₅ (hh₇.trans hv₇ hv₉ (Nat.le_refl _)) (Nat.le_refl _)
  replace hv := hh₁.trans hv₁ (hh₃.trans hv₃ hv (Nat.le_refl _)) (Nat.le_refl _)
  refine ⟨n₁, free₁, p, v.torn, _, .of_evolves hsn (if_pos hs0).symm ?_ hv⟩
  rw [@SlabEntry.dropped_of_ptr (v.entry i) v.base hs0]
  exact hh₉

/-- The protection of the data page of an entry is free to change. -/
theorem Holds.protect (h : s.Holds v lost) (hq : v.IsData q) (flags : Prot) :
    Pm.Holds { s with prot := Function.update s.prot q flags } v lost := by
  have hdata := h.ok.isData_facts h.linked h.balanced hq
  refine ⟨⟨⟨h.shows.space.serves, h.shows.space.aligned, h.shows.space.inj, h.shows.space.maps⟩,
      h.shows.start, h.shows.containers, fun x hx => h.shows.page x hx, h.shows.sizes, h.shows.wf⟩,
    h.linked, h.ok, ⟨fun r hr => ?_, fun r hr hd hf => ?_, h.guarded.data⟩, h.balanced, h.paired,
    h.laddr, h.nextBucket, h.nextEntry⟩
  · show (Function.update s.prot q flags r).write = true
    rw [Function.update_of_ne]
    · exact h.guarded.metadata r hr
    · rintro rfl
      exact hdata.2.2.1 hr
  · show (Function.update s.prot q flags r).write = true ↔ _
    rw [Function.update_of_ne]
    · exact h.guarded.synced r hr hd hf
    · rintro rfl
      exact hd hq

/-- The data page of a dirty entry is opened. -/
theorem Evolves.protect {W : Set ℕ} (h : s.Evolves v W s' v') (hq : v'.Dirty q) :
    s.Evolves v W { s' with prot := Function.update s'.prot q paProtRnw } v' := by
  have hkeep : ∀ r, s'.Open v'.n r →
      Pm.Open { s' with prot := Function.update s'.prot q paProtRnw } v'.n r := by
    rintro r ⟨hlt, hw⟩
    refine ⟨hlt, ?_⟩
    dsimp only
    rw [Function.update_apply]
    split_ifs
    · rfl
    · exact hw
  refine { h with
    filePage := h.filePage, bytes := h.bytes
    closed := fun r hr hopen => ?_
    opened := fun r hr hopen => hkeep r (h.opened r hr hopen)
    kept := fun r hr hopen => (h.kept r hr hopen).imp_left (hkeep r) }
  by_cases hrq : r = q
  · exact .inr (hrq ▸ hq)
  · refine h.closed r hr ⟨hopen.1, ?_⟩
    have hw := hopen.2
    dsimp only at hw
    rwa [Function.update_of_ne hrq] at hw

/-- **The write-fault handler** copies the entry with the page at the address. -/
theorem Holds.handleMemoryUpdate (h : s.Holds v lost)
    (hclosed : ∀ q, roundDwnPg a = v.addr q → ¬ s.Open v.n q)
    (hr : Returns (LibPM.handleMemoryUpdate a) s u s') :
    ∃ i n free p t e, i < v.used ∧ (v.entry i).dataCurrent.maddr = roundDwnPg a ∧
      s.Faulted v lost i s' n free p t e := by
  unfold LibPM.handleMemoryUpdate at hr
  rw [returns_bind] at hr
  obtain ⟨sd, s₁, h₁, hr⟩ := hr
  obtain ⟨rfl, rfl⟩ := h.currentSlab h₁
  rw [returns_bind] at hr
  obtain ⟨o, s₂, h₂, hr⟩ := hr
  obtain ⟨rfl, ⟨i, hi, rfl, hp⟩ | ⟨rfl, -⟩⟩ := h.usedFind h₂
  swap
  · exact (returns_fail hr).elim
  have hp : (v.entry i).dataCurrent.maddr = roundDwnPg a := beq_iff_eq.mp hp
  rw [← hp] at hclosed
  simp only [returns_bind, returns_pageAllocatorMprotect] at hr
  obtain ⟨_, s₃, h₃, e', s₄, h₄, j, hj, rfl⟩ := hr
  obtain ⟨n, free, p, t, e, hf⟩ : ∃ n free p t e, s.Faulted v lost i s₃ n free p t e := by
    unfold funcSlabEntrySnapshot at h₃
    rw [returns_bind] at h₃
    obtain ⟨_, _, hget, h₃⟩ := h₃
    obtain ⟨rfl, rfl⟩ := returns_get.mp hget
    split at h₃
    · exact h.slabEntryCopynswap hi h₃
    · exact h.slabEntrySnapshot hi hclosed h₃
  obtain ⟨he', rfl⟩ := hf.holds.shows.loadEntry (h.lt_cap hi) h₄
  unfold View.faulted at he'
  rw [View.setEntry_entry] at he'
  subst he'
  obtain ⟨q, hq, -, hqn, -⟩ := h.data hi
  have hq' : e.dataCurrent.maddr = v.addr q := hf.snapped.cur.trans hq
  have hmaddr : ((v.faulted n free i s.heap t e).entry i).dataCurrent.maddr = v.addr q := by
    unfold View.faulted
    rw [View.setEntry_entry]
    exact hq'
  have hvpage : s₃.vpage (v.addr q) = some q :=
    hf.holds.shows.vpage (hqn.trans_le (hf.evolves q hq).n)
  rw [hq', hvpage, Option.some.injEq] at hj
  subst hj
  have hdata : (v.faulted n free i s.heap t e).IsData q := ⟨i, hi, hmaddr⟩
  have hdirty : (v.faulted n free i s.heap t e).Dirty q :=
    ⟨i, hi, hmaddr, List.mem_append.mpr (.inr (List.mem_singleton.mpr rfl))⟩
  exact ⟨i, n, free, p, t, e, hi, hp, hf.snapped, hf.torn, hf.holds.protect hdata _,
    fun q' hq' => (hf.evolves q' hq').protect hdirty, hf.bytes⟩

/-! ## Stores to data pages -/

/-- Page `p` can be stored to in the state `t`: it could before, or the fault was handled. -/
inductive MadeWritable (s : Pm) (v : View) (lost : Multiset ℕ) (p : ℕ) :
    Pm → View → Multiset ℕ → Prop
  | open : (s.prot p).write = true → MadeWritable s v lost p s v lost
  | fault {t : Pm} {i n q : ℕ} {free : List ℕ} {torn : Set ℕ} {e : SlabEntry} :
      (s.prot p).write = false → i < v.used → (v.entry i).dataCurrent.maddr = v.addr p →
      s.Faulted v lost i t n free q torn e →
      MadeWritable s v lost p t (v.faulted n free i s.heap torn e)
        (lost + (v.entry i).dropped v.base)

variable {t : Pm} {lost' : Multiset ℕ}

theorem Holds.makeWritable (h : s.Holds v lost) (hp : p < v.n)
    (hr : Returns (LibPM.makeWritable (v.addr p)) s u t) :
    ∃ v' lost', MadeWritable s v lost p t v' lost' := by
  obtain ⟨j, hj, hw⟩ := returns_makeWritable.mp hr
  rw [h.shows.vpage hp, Option.some.injEq] at hj
  subst hj
  rcases hw with ⟨hw, rfl⟩ | ⟨hw, hfault⟩
  · exact ⟨v, lost, .open hw⟩
  · have hclosed : ∀ q, roundDwnPg (v.addr p) = v.addr q → ¬ s.Open v.n q := by
      intro q hq hopen
      rw [h.shows.roundDwnPg_addr] at hq
      rw [v.addr_injective hq, hopen.2] at hw
      cases hw
    obtain ⟨i, n, free, q, torn, e, hi, hmaddr, hf⟩ := h.handleMemoryUpdate hclosed hfault
    rw [h.shows.roundDwnPg_addr] at hmaddr
    exact ⟨_, _, .fault hw hi hmaddr hf⟩

namespace MadeWritable

variable (hw : MadeWritable s v lost p t v' lost') (h : s.Holds v lost)

include hw

theorem holds (h : s.Holds v lost) : t.Holds v' lost' := by
  cases hw with
  | «open» _ => exact h
  | fault _ _ _ hf => exact hf.holds

theorem evolves : s.Evolves v {p} t v' := by
  cases hw with
  | «open» _ => exact .refl s v {p}
  | fault _ _ hmaddr hf => exact hf.evolves p hmaddr

theorem cap : v'.cap = v.cap := by cases hw <;> rfl

/-- The fault itself changes no data. -/
theorem bytes {q : ℕ} (hq : v.IsData q) : t.restBytes v'.n q = s.restBytes v.n q := by
  cases hw with
  | «open» _ => rfl
  | fault _ _ _ hf => exact hf.bytes q hq

theorem isMeta (q : ℕ) : v'.IsMeta q ↔ v.IsMeta q := by cases hw <;> rfl

end MadeWritable

theorem Holds.updateData (h : s.Holds v lost) (hp : p < v.n) (hm : ¬ v.IsMeta p)
    {g : Page → Option Page} (hr : Returns (updatePage (v.addr p) g) s u s') :
    ∃ t v' lost' x, MadeWritable s v lost p t v' lost' ∧ t.Open v'.n p ∧ g (t.page p) = some x ∧
      s' = t.setPage (t.vmap p) x ∧ s'.Holds v' lost' ∧ s.Evolves v {p} s' v' := by
  unfold updatePage at hr
  rw [returns_bind] at hr
  obtain ⟨_, t, hmake, hput⟩ := hr
  obtain ⟨v', lost', hw⟩ := h.makeWritable hp hmake
  have ht := hw.holds h
  have hev := hw.evolves
  have haddr : v.addr p = v'.addr p := by
    unfold Places.addr
    rw [hev.base]
  obtain ⟨j, x, hj, hopen, hx, rfl⟩ := returns_putPage.mp hput
  have hp' : p < v'.n := hp.trans_le hev.n
  rw [haddr, ht.shows.vpage hp', Option.some.injEq] at hj
  subst hj
  obtain ⟨hh, hv⟩ := ht.setPage hp' (fun hmeta => hm ((hw.isMeta p).mp hmeta)) x
    (W := {p}) fun _ => rfl
  exact ⟨t, v', lost', x, hw, ⟨hp', hopen⟩, hx, rfl, hh, ht.trans hev hv hw.cap.ge⟩

theorem roundDwnPg_roundDwnPg (a : ℕ) : roundDwnPg (roundDwnPg a) = roundDwnPg a := by
  unfold roundDwnPg
  rw [Nat.mul_div_cancel _ pageSize_pos]

/-- **A store of one byte.** It changes a page of data, after the fault on it was handled. -/
theorem Holds.storeByte (h : s.Holds v lost) {b : UInt8}
    (hr : Returns (LibPM.storeByte a b) s u s') :
    ∃ p t v' lost' y, roundDwnPg a = v.addr p ∧ p < v.n ∧ ¬ v.IsMeta p ∧
      MadeWritable s v lost p t v' lost' ∧ t.Open v'.n p ∧ t.page p = .data y ∧
      s' = t.setPage (t.vmap p) (.data (Function.update y (a % pageSize) b)) ∧
      s'.Holds v' lost' ∧ s.Evolves v {p} s' v' := by
  unfold LibPM.storeByte at hr
  obtain ⟨p, hp, hround⟩ : ∃ p, p < v.n ∧ roundDwnPg a = v.addr p := by
    unfold updatePage at hr
    simp only [returns_bind, returns_makeWritable] at hr
    obtain ⟨_, _, ⟨j, hj, -⟩, -⟩ := hr
    obtain ⟨hlt, heq⟩ := h.shows.exists_of_vpage hj
    rw [roundDwnPg_roundDwnPg] at heq
    exact ⟨j, hlt, heq⟩
  rw [hround] at hr
  by_cases hm : v.IsMeta p
  · obtain ⟨x, hx, rfl⟩ := hm
    obtain ⟨y, hy, -⟩ := h.shows.updatePage_node h.quiet hx hr
    cases x <;> cases hy
  · obtain ⟨t, v', lost', x, hw, hopen, hx, hs', hh, hv⟩ := h.updateData hp hm hr
    unfold Page.onByte at hx
    split at hx
    · next y hy =>
      cases hx
      exact ⟨p, t, v', lost', y, hround, hp, hm, hw, hopen, hy, hs', hh, hv⟩
    · cases hx

end Pm

end LibPM

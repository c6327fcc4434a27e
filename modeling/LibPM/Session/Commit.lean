import LibPM.Model.Checkpoint
import LibPM.Session.Steps

/-!
# Committing entries

`slab_cpoint` gives back the pages of the old versions and makes every snapshot link equal to the current one. Its stores
and the pages it gives back are taken together for one link, since the state in between is none of the session.
-/

namespace LibPM

open Recorded Recorded.Prog

/-! ## Pages given back among stores -/

/-- Only metadata pages, the lists of sizes and the list of free pages may differ. -/
structure Pm.SameMapping (l : Places) (s s' : Pm) : Prop where
  same : ∃ pa file sizes, s' = { s with pa := pa, file := file, sizes := sizes }
  kind : s'.IsFixed ↔ s.IsFixed
  resets : ∀ p, s'.Resets p ↔ s.Resets p
  page : ∀ p < l.n, ¬ l.IsMeta p → s'.page p = s.page p

/-- The places of `v`, with another list of free pages. -/
structure View.Placed (v v' : View) : Prop where
  places : v'.toPlaces = { v.toPlaces with free := v'.free }

namespace View.Placed

variable {v v' v'' : View}

theorem refl (v : View) : v.Placed v := ⟨rfl⟩

theorem trans (h : v.Placed v') (h' : v'.Placed v'') : v.Placed v'' := ⟨by rw [h'.places, h.places]⟩

theorem base (h : v.Placed v') : v'.base = v.base := by rw [h.places]

theorem n (h : v.Placed v') : v'.n = v.n := by rw [h.places]

theorem inners (h : v.Placed v') : v'.inners = v.inners := by rw [h.places]

theorem innerPage (h : v.Placed v') : v'.innerPage = v.innerPage := by rw [h.places]

theorem buckets (h : v.Placed v') : v'.buckets = v.buckets := by rw [h.places]

theorem bucketPage (h : v.Placed v') : v'.bucketPage = v.bucketPage := by rw [h.places]

theorem cap (h : v.Placed v') : v'.cap = v.cap := by rw [h.places]; rfl

theorem ref (h : v.Placed v') (i : ℕ) : v'.ref i = v.ref i := by rw [h.places]; rfl

theorem addr (h : v.Placed v') (p : ℕ) : v'.addr p = v.addr p := by rw [h.places]; rfl

theorem isMeta (h : v.Placed v') (p : ℕ) : v'.IsMeta p ↔ v.IsMeta p := by rw [h.places]; exact Iff.rfl

theorem isData (h : v.Placed v') (hused : v'.used = v.used)
    (hmaddr : ∀ i < v.used, (v'.entry i).dataCurrent.maddr = (v.entry i).dataCurrent.maddr) (p : ℕ) :
    v'.IsData p ↔ v.IsData p := by
  unfold View.IsData
  rw [hused, h.addr]
  exact exists_congr fun i => and_congr_right fun hi => by rw [hmaddr i hi]

end View.Placed

namespace Pm

variable {s s' t : Pm} {v v' v'' : View} {lost lost' : Multiset ℕ} {a b i j k n p : ℕ} {u : Unit}

theorem SameMapping.refl (l : Places) (s : Pm) : s.SameMapping l s :=
  ⟨⟨s.pa, s.file, s.sizes, rfl⟩, Iff.rfl, fun _ => Iff.rfl, fun _ _ _ => rfl⟩

theorem SameMapping.trans {l : Places} (h : s.SameMapping l t) (h' : t.SameMapping l s') : s.SameMapping l s' := by
  refine ⟨?_, h'.kind.trans h.kind, fun p => (h'.resets p).trans (h.resets p), fun p hp hm =>
    (h'.page p hp hm).trans (h.page p hp hm)⟩
  obtain ⟨pa, file, sizes, rfl⟩ := h.same
  obtain ⟨pa', file', sizes', rfl⟩ := h'.same
  exact ⟨pa', file', sizes', rfl⟩

theorem SameData.sameMapping {l : Places} (h : s.SameData l s') : s.SameMapping l s' := by
  obtain ⟨file, sizes, hs⟩ := h.same
  refine ⟨⟨s.pa, file, sizes, hs⟩, h.isFixed, fun p => ?_, h.page⟩
  unfold Resets
  rw [h.pa]

/-- A page that is given back joins the end of the free list. -/
theorem Shows.freepages (h : s.Shows v) (hp : p < v.n) (hr : Returns (pageAllocatorFreepages (v.addr p)) s u s') :
    s'.Shows (v.sized v.n (v.free ++ [p])) ∧ s.SameMapping v.toPlaces s' := by
  rw [h.addr_eq] at hr
  obtain ⟨-, hspace, hstart, ⟨hfix, hres⟩, pa, hs'⟩ := h.space.freepages hp hr
  refine ⟨⟨hspace, hstart.trans h.start, ?_, fun x hx => ?_, ?_, ⟨h.wf.lt, h.wf.inj⟩⟩,
    ⟨pa, s.file, s.sizes, hs'⟩, hfix, hres, fun q _ _ => ?_⟩
  · rw [hs']
    exact h.containers
  · rw [hs']
    exact h.page x hx
  · rw [hs']
    exact h.sizes
  · rw [hs']
    rfl

/-- Stores to metadata pages and pages given back, which keep the entries in use and their data pages. -/
theorem Holds.recommit (h : s.Holds v lost) (hs : s'.Shows v') (hm : s.SameMapping v.toPlaces s') (hplaces : v.Placed v')
    (hused : v'.used = v.used) (hl : v'.Linked) (hok : v'.Ok) (hb : v'.Balanced lost')
    (hmaddr : ∀ i < v.used, (v'.entry i).dataCurrent.maddr = (v.entry i).dataCurrent.maddr)
    (hpaired : v.Paired → v'.Paired)
    (hladdr : ∀ b < v'.linked, (v'.siCurrent b).laddr = s.vmap (v.bucketPage b) * pageSize) : s'.Holds v' lost' := by
  have hdata := hplaces.isData hused hmaddr
  obtain ⟨pa, file, sizes, hs'⟩ := hm.same
  have hprot : s'.prot = s.prot := by rw [hs']
  have hvmap : s'.vmap = s.vmap := by rw [hs']
  refine ⟨hs, hl, hok, ⟨fun p hp => ?_, fun p hp hd hf => ?_, fun p hd => ?_⟩, hb,
    fun hf => hpaired (h.paired (hm.kind.mp hf)), fun b hb => ?_, ?_, ?_⟩
  · rw [hprot]
    exact h.guarded.metadata p ((hplaces.isMeta p).mp hp)
  · rw [hprot, hm.resets]
    exact h.guarded.synced p (hplaces.n ▸ hp) (fun hd' => hd ((hdata p).mpr hd')) (hm.kind.mp hf)
  · rw [hm.resets]
    exact h.guarded.data p ((hdata p).mp hd)
  · rw [hladdr b hb, hvmap, hplaces.bucketPage]
  · rw [hs', hplaces.buckets]
    exact h.nextBucket
  · rw [hs', hused]
    exact h.nextEntry

end Pm

/-! ## Entries -/

/-- The entry after `slab_cpoint`: its current pages are the committed ones. The number of the committed records stays
as it was. -/
def SlabEntry.committed (e : SlabEntry) : SlabEntry :=
  { e with
    dataSnapshot := ⟨e.dataCurrent.maddr, e.dataCurrent.laddr, e.dataSnapshot.bitmap⟩
    ptrSnapshot := if e.ptrCurrent.maddr = 0 then e.ptrSnapshot
      else ⟨e.ptrSnapshot.idx, e.ptrCurrent.maddr, e.ptrCurrent.laddr⟩ }

/-- The page of the old records, if there are new ones. -/
def oldPtrPages (base cur snap : ℕ) : Multiset ℕ := if cur ≠ 0 ∧ snap ≠ 0 then oldPages base cur snap else 0

namespace SlabEntry

variable {base : ℕ} {e : SlabEntry}

theorem Ok.committed (h : e.Ok base) (hb : base ≠ 0) : e.committed.Ok base := by
  have hptr : e.committed.ptrSnapshot = if e.ptrCurrent.maddr = 0 then e.ptrSnapshot
      else ⟨e.ptrSnapshot.idx, e.ptrCurrent.maddr, e.ptrCurrent.laddr⟩ := rfl
  refine ⟨h.cur, h.cur, fun _ => rfl, h.size, ?_, fun _ => ?_⟩
  · rcases h.ptr with ⟨h0, hs, hl⟩ | ⟨hc, -⟩
    · rw [hptr, if_pos h0]
      exact .inl ⟨h0, hs, hl⟩
    · rw [hptr, if_neg]
      · exact .inr ⟨hc, .inr hc⟩
      · obtain ⟨p, hp⟩ := hc
        omega
  · rcases h.ptr with ⟨h0, hs, -⟩ | ⟨hc, -⟩
    · rw [hptr, if_pos h0]
      exact .inl hs
    · rw [hptr, if_neg]
      · exact .inr rfl
      · obtain ⟨p, hp⟩ := hc
        omega

theorem Paired.committed {torn : Prop} (h : e.Paired base torn) : e.committed.Paired base torn := by
  refine ⟨h.dataCurrent, h.dataCurrent, h.ptrCurrent, fun ht => ?_⟩
  unfold SlabEntry.committed
  dsimp only
  split_ifs
  · exact h.ptrSnapshot ht
  · exact h.ptrCurrent ht

/-- The pages of the entry are those it keeps and those of the old versions. -/
theorem pages_committed (base : ℕ) (e : SlabEntry) : e.committed.pages base +
    (oldPages base e.dataCurrent.maddr e.dataSnapshot.maddr +
      oldPtrPages base e.ptrCurrent.maddr e.ptrSnapshot.maddr) = e.pages base := by
  unfold SlabEntry.pages oldPtrPages SlabEntry.committed ptrPages versionPages
  dsimp only
  rw [oldPages_self, add_zero]
  by_cases h0 : e.ptrCurrent.maddr = 0
  · simp only [h0, if_true, ne_eq, not_true_eq_false, false_and, if_false, add_zero]
  · simp only [if_neg h0]
    by_cases hs : e.ptrSnapshot.maddr = 0
    · simp only [hs, oldPages_self, add_zero, if_true, ne_eq, not_true_eq_false, and_false, if_false]
      rw [add_right_comm]
    · simp only [oldPages_self, add_zero, ne_eq, h0, hs, not_false_eq_true, and_self, if_true, if_false]
      rw [add_assoc, add_assoc, add_left_comm {_} (oldPages _ _ _)]

end SlabEntry

/-! ## Stores and pages given back -/

/-- The pages `L` were given back, and the stores left `w`. -/
structure Pm.Dropped (s : Pm) (v w : View) (L : List ℕ) (t : Pm) : Prop where
  shows : t.Shows (w.sized v.n (v.free ++ L))
  same : s.SameMapping v.toPlaces t
  places : w.toPlaces = v.toPlaces
  quiet : w.Quiet

namespace View

variable {v w : View} {lost : Multiset ℕ} {i : ℕ}

theorem setEntry_self (v : View) (i : ℕ) : v.setEntry i (v.entry i) = v := by
  have hb : ({ v.bucket (i / slabBucketEntries) with
      sbEntries := Function.update (v.bucket (i / slabBucketEntries)).sbEntries (i % slabBucketEntries)
        (v.entry i) } : SlabBucket) = v.bucket (i / slabBucketEntries) := by
    unfold View.entry
    rw [Function.update_eq_self]
  unfold View.setEntry View.setBucket
  rw [hb, Function.update_eq_self]

/-- Pages were given back. -/
theorem Balanced.gaveAll (L : List ℕ) : ∀ {v : View}, v.Balanced (lost + L) → (v.sized v.n (v.free ++ L)).Balanced lost := by
  induction L with
  | nil =>
    intro v h
    rw [Multiset.coe_nil, add_zero] at h
    rw [List.append_nil]
    exact h
  | cons p L ih =>
    intro v h
    rw [← Multiset.cons_coe, ← Multiset.singleton_add, ← add_assoc, add_right_comm] at h
    have h' := ih (v := v.sized v.n (v.free ++ [p])) h.gave
    unfold View.sized at h' ⊢
    dsimp only at h'
    rwa [List.append_assoc, List.singleton_append] at h'

end View

namespace Pm

variable {s s' t : Pm} {v w : View} {lost : Multiset ℕ} {L : List ℕ} {b i j k n p : ℕ} {u : Unit}

theorem Holds.dropped (h : s.Holds v lost) : s.Dropped v v [] s := by
  refine ⟨?_, .refl v.toPlaces s, rfl, h.quiet⟩
  rw [List.append_nil]
  exact h.shows

namespace Dropped

theorem give (h : s.Dropped v w L t) (hp : p < v.n) (hr : Returns (pageAllocatorFreepages (v.addr p)) t u s') :
    s.Dropped v w (L ++ [p]) s' := by
  have haddr : (w.sized v.n (v.free ++ L)).addr p = v.addr p := by
    show w.base + p * pageSize = v.base + p * pageSize
    rw [h.places]
  rw [← haddr] at hr
  obtain ⟨hs, hm⟩ := h.shows.freepages hp hr
  refine ⟨?_, h.same.trans ⟨hm.same, hm.kind, hm.resets, fun q hq hmeta => hm.page q hq fun hx => hmeta ?_⟩, h.places,
    h.quiet⟩
  · rw [← List.append_assoc]
    exact hs
  · rw [← h.places]
    exact hx

/-- A store to a metadata page. -/
theorem store {w' : View} (h : s.Dropped v w L t) (hs : s'.Shows (w'.sized v.n (v.free ++ L)))
    (hm : t.SameData (w.sized v.n (v.free ++ L)).toPlaces s') (hplaces : w'.toPlaces = w.toPlaces) (hq : w'.Quiet) :
    s.Dropped v w' L s' := by
  have hsame := hm.sameMapping
  refine ⟨hs, h.same.trans ⟨hsame.same, hsame.kind, hsame.resets, fun q hq hmeta => hsame.page q hq fun hx => hmeta ?_⟩,
    hplaces.trans h.places, hq⟩
  rw [← h.places]
  exact hx

theorem cap (h : s.Dropped v w L t) : w.cap = v.cap := by
  unfold Places.cap
  rw [h.places]

theorem ref (h : s.Dropped v w L t) (i : ℕ) : w.ref i = v.ref i := by
  unfold Places.ref Places.addr
  rw [h.places]

theorem updateEntry (h : s.Dropped v w L t) (hi : i < v.cap) {f : SlabEntry → SlabEntry}
    (hf : (f (w.entry i)).dataCurrent.maddr = (w.entry i).dataCurrent.maddr)
    (hr : Returns (LibPM.updateEntry (v.ref i) f) t u s') : s.Dropped v (w.setEntry i (f (w.entry i))) L s' := by
  rw [← h.ref] at hr
  obtain ⟨hs, hm⟩ := Shows.updateEntry (v := w.sized v.n (v.free ++ L)) h.shows h.quiet (h.cap.symm ▸ hi) hr
  exact h.store hs hm rfl (h.quiet.setEntry hf)

theorem loadEntry (h : s.Dropped v w L t) (hi : i < v.cap) {e : SlabEntry} (hr : Returns (LibPM.loadEntry (v.ref i)) t e s') :
    w.entry i = e ∧ t = s' := by
  rw [← h.ref] at hr
  exact Shows.loadEntry (v := w.sized v.n (v.free ++ L)) h.shows (h.cap.symm ▸ hi) hr

theorem updateInner (h : s.Dropped v w L t) (hj : j < v.inners) {f : SlabInner → SlabInner}
    (hr : Returns (updatePage (v.addr (v.innerPage j)) (Page.onInner f)) t u s') :
    s.Dropped v (w.setInner j (f (w.inner j))) L s' := by
  have haddr : v.addr (v.innerPage j) = (w.sized v.n (v.free ++ L)).addr ((w.sized v.n (v.free ++ L)).innerPage j) := by
    show v.base + v.innerPage j * pageSize = w.base + w.innerPage j * pageSize
    rw [h.places]
  have hin : j < (w.sized v.n (v.free ++ L)).inners := by
    show j < w.inners
    rwa [h.places]
  rw [haddr] at hr
  obtain ⟨hs, hm⟩ := h.shows.updateInner h.quiet hin hr
  exact h.store hs hm rfl h.quiet

theorem loadInner (h : s.Dropped v w L t) (hj : j < v.inners) {x : SlabInner}
    (hr : Returns (LibPM.loadInner (v.addr (v.innerPage j))) t x s') : w.inner j = x ∧ t = s' := by
  have haddr : v.addr (v.innerPage j) = (w.sized v.n (v.free ++ L)).addr ((w.sized v.n (v.free ++ L)).innerPage j) := by
    show v.base + v.innerPage j * pageSize = w.base + w.innerPage j * pageSize
    rw [h.places]
  have hin : j < (w.sized v.n (v.free ++ L)).inners := by
    show j < w.inners
    rwa [h.places]
  rw [haddr] at hr
  exact h.shows.loadInner hin hr

theorem updateOuter (h : s.Dropped v w L t) {f : SlabOuter → SlabOuter}
    (hr : Returns (updatePage (v.addr 2) (Page.onOuter f)) t u s') :
    s.Dropped v { w with outer := f w.outer } L s' := by
  have haddr : v.addr 2 = (w.sized v.n (v.free ++ L)).addr 2 := by
    show v.base + 2 * pageSize = w.base + 2 * pageSize
    rw [h.places]
  rw [haddr] at hr
  obtain ⟨hs, hm⟩ := h.shows.updateOuter h.quiet hr
  exact h.store hs hm rfl h.quiet

theorem updateDir (h : s.Dropped v w L t) {f : SlabDir → SlabDir} (hf : (f w.dir).sdMaddrRoot = w.dir.sdMaddrRoot)
    (hr : Returns (updatePage (v.addr 1) (Page.onDir f)) t u s') : s.Dropped v { w with dir := f w.dir } L s' := by
  have haddr : v.addr 1 = (w.sized v.n (v.free ++ L)).addr 1 := by
    show v.base + 1 * pageSize = w.base + 1 * pageSize
    rw [h.places]
  rw [haddr] at hr
  obtain ⟨hs, hm⟩ := h.shows.updateDir h.quiet hr
  refine h.store hs hm rfl (h.quiet.imp_right fun ⟨hsd, hroot⟩ => ⟨hsd, fun r hr => hroot r ?_⟩)
  rwa [hf] at hr

/-- What the stores left is a state of the session, without the pages given back. -/
theorem holds (hc : s.Dropped v w L t) (h : s.Holds v lost) (hused : w.used = v.used) (hl : w.Linked) (hok : w.Ok)
    (hb : w.Balanced (lost + L)) (hmaddr : ∀ i < v.used, (w.entry i).dataCurrent.maddr = (v.entry i).dataCurrent.maddr)
    (hpaired : v.Paired → w.Paired) (hlinked : w.linked = v.linked)
    (hladdr : ∀ b < v.linked, (w.siCurrent b).laddr = (v.siCurrent b).laddr) :
    t.Holds (w.sized v.n (v.free ++ L)) lost := by
  have hn : w.n = v.n := by rw [hc.places]
  have hfree : w.free = v.free := by rw [hc.places]
  have hbal := hb.gaveAll
  rw [hn, hfree] at hbal
  refine h.recommit hc.shows hc.same ⟨?_⟩ hused (hl.sized _ _) (hok.sized _ _) hbal hmaddr
    (fun hp => (hpaired hp).sized _ _) fun b hb => ?_
  · show ({ w.toPlaces with n := v.n, free := v.free ++ L } : Places) = { v.toPlaces with free := v.free ++ L }
    rw [hc.places]
  · have hbl : b < v.linked := by
      rw [← hlinked]
      exact hb
    exact (hladdr b hbl).trans (h.laddr b hbl)

end Dropped

/-! ## Entries -/

/-- The first part of `slab_bucket_cpoint` for an entry: the data page. -/
theorem Holds.commitData (h : s.Holds v lost) (hi : i < v.used) (hr : Returns (when ((v.entry i).dataCurrent.maddr ≠
    (v.entry i).dataSnapshot.maddr) do
      updateEntry (v.ref i) fun e => { e with dataSnapshot.laddr := e.dataCurrent.laddr }
      pageAllocatorFreepages (v.entry i).dataSnapshot.maddr
      updateEntry (v.ref i) fun e => { e with dataSnapshot.maddr := e.dataCurrent.maddr }) s u t) :
    ∃ L : List ℕ, s.Dropped v (v.setEntry i { v.entry i with
      dataSnapshot := ⟨(v.entry i).dataCurrent.maddr, (v.entry i).dataCurrent.laddr, (v.entry i).dataSnapshot.bitmap⟩ }) L t ∧
      (L : Multiset ℕ) = oldPages v.base (v.entry i).dataCurrent.maddr (v.entry i).dataSnapshot.maddr := by
  have he := h.ok.entry i hi
  have hcap := h.lt_cap hi
  rcases returns_when.mp hr with ⟨hne, hr⟩ | ⟨heq, rfl⟩
  · obtain ⟨p, hp, -, hlt, -⟩ := h.ok.dataSnapshot h.linked h.balanced hi
    simp only [returns_bind] at hr
    obtain ⟨_, t₁, h₁, _, t₂, h₂, h₃⟩ := hr
    rw [hp] at h₂
    have hc := ((h.dropped.updateEntry hcap rfl h₁).give hlt h₂).updateEntry hcap
      (f := fun e => { e with dataSnapshot.maddr := e.dataCurrent.maddr }) rfl h₃
    rw [View.setEntry_entry, View.setEntry_setEntry] at hc
    refine ⟨[p], hc, ?_⟩
    rw [oldPages_of_ne (Ne.symm hne), hp]
    exact congrArg ({·}) (pageNo_add v.base p).symm
  · have heq := (not_not.mp heq).symm
    refine ⟨[], ?_, ?_⟩
    · rw [← he.laddr heq, ← heq]
      exact (v.setEntry_self i).symm ▸ h.dropped
    · rw [heq, oldPages_self]
      rfl

/-- The second part: the page of the records. -/
theorem Dropped.commitPtr (hc : s.Dropped v w L t) (hw : (w.entry i).ptrSnapshot.maddr = 0 ∨
      IsPage v.base (w.entry i).ptrSnapshot.maddr) (hi : i < v.cap)
    (hlt : ∀ p, (w.entry i).ptrSnapshot.maddr = v.addr p → p < v.n)
    (hr : Returns (when ((w.entry i).ptrCurrent.maddr ≠ 0) do
      when ((w.entry i).ptrSnapshot.maddr ≠ 0 ∧ (w.entry i).ptrSnapshot.maddr ≠ (w.entry i).ptrCurrent.maddr)
        (pageAllocatorFreepages (w.entry i).ptrSnapshot.maddr)
      LibPM.updateEntry (v.ref i) fun e => { e with ptrSnapshot.laddr := e.ptrCurrent.laddr }
      LibPM.updateEntry (v.ref i) fun e => { e with ptrSnapshot.maddr := e.ptrCurrent.maddr }) t u s') :
    ∃ L' : List ℕ, s.Dropped v (w.setEntry i { w.entry i with
      ptrSnapshot := if (w.entry i).ptrCurrent.maddr = 0 then (w.entry i).ptrSnapshot
        else ⟨(w.entry i).ptrSnapshot.idx, (w.entry i).ptrCurrent.maddr, (w.entry i).ptrCurrent.laddr⟩ }) (L ++ L') s' ∧
      (L' : Multiset ℕ) = oldPtrPages v.base (w.entry i).ptrCurrent.maddr (w.entry i).ptrSnapshot.maddr := by
  unfold oldPtrPages
  rcases returns_when.mp hr with ⟨hne, hr⟩ | ⟨heq, rfl⟩
  · simp only [returns_bind] at hr
    obtain ⟨_, t₁, h₁, _, t₂, h₂, h₃⟩ := hr
    obtain ⟨L', hc₁, hL⟩ : ∃ L' : List ℕ, s.Dropped v w (L ++ L') t₁ ∧
        (L' : Multiset ℕ) = if (w.entry i).ptrCurrent.maddr ≠ 0 ∧ (w.entry i).ptrSnapshot.maddr ≠ 0 then
          oldPages v.base (w.entry i).ptrCurrent.maddr (w.entry i).ptrSnapshot.maddr else 0 := by
      rcases returns_when.mp h₁ with ⟨⟨hs, hsc⟩, h₁⟩ | ⟨hs, rfl⟩
      · obtain ⟨p, hp⟩ : IsPage v.base (w.entry i).ptrSnapshot.maddr := hw.resolve_left hs
        have hp : (w.entry i).ptrSnapshot.maddr = v.addr p := hp
        rw [hp] at h₁
        refine ⟨[p], hc.give (hlt p hp) h₁, ?_⟩
        rw [if_pos ⟨hne, hs⟩, oldPages_of_ne hsc, hp]
        exact congrArg ({·}) (pageNo_add v.base p).symm
      · refine ⟨[], (L.append_nil).symm ▸ hc, ?_⟩
        by_cases h0 : (w.entry i).ptrSnapshot.maddr = 0
        · rw [if_neg fun hh => hh.2 h0]
          rfl
        · have hsc : (w.entry i).ptrSnapshot.maddr = (w.entry i).ptrCurrent.maddr := by
            by_contra hsc
            exact hs ⟨h0, hsc⟩
          rw [if_pos ⟨hne, h0⟩, hsc, oldPages_self]
          rfl
    have hc₂ := (hc₁.updateEntry hi (f := fun e => { e with ptrSnapshot.laddr := e.ptrCurrent.laddr }) rfl h₂).updateEntry hi
      (f := fun e => { e with ptrSnapshot.maddr := e.ptrCurrent.maddr }) rfl h₃
    rw [View.setEntry_entry, View.setEntry_setEntry] at hc₂
    rw [if_neg hne]
    exact ⟨L', hc₂, hL⟩
  · have heq := not_not.mp heq
    refine ⟨[], ?_, ?_⟩
    · rw [if_pos heq, List.append_nil]
      exact (w.setEntry_self i).symm ▸ hc
    · rw [if_neg fun hh => hh.1 heq]
      rfl

/-- The page of the old records of an entry is in the mapping. -/
theorem Holds.ptrSnapshot_lt (h : s.Holds v lost) (hi : i < v.used) (hp : (v.entry i).ptrSnapshot.maddr = v.addr p) :
    p < v.n := by
  have hsnap : (v.entry i).ptrSnapshot.maddr ≠ 0 := by
    rw [hp]
    exact h.shows.addr_ne_zero p
  have hcur : (v.entry i).ptrCurrent.maddr ≠ 0 := by
    rcases (h.ok.entry i hi).ptr with ⟨-, h0, -⟩ | ⟨⟨q, hq⟩, -⟩
    · exact absurd h0 hsnap
    · rw [hq]
      exact h.shows.addr_ne_zero q
  have hmem : pageNo v.base (v.entry i).ptrSnapshot.maddr ∈ (v.entry i).pages v.base := (SlabEntry.ptr_mem hcur).2 hsnap
  rw [hp] at hmem
  rw [show pageNo v.base (v.addr p) = p from pageNo_add v.base p] at hmem
  refine h.balanced.lt_n (h.holder_mem hi) ?_
  rwa [View.Ok.held_entry hi]

end Pm

/-! ## What is committed -/

/-- Only metadata, protections and what the allocator keeps may differ. -/
structure Pm.SameContents (l : Places) (s s' : Pm) : Prop where
  same : ∃ pa prot file sizes, s' = { s with pa := pa, prot := prot, file := file, sizes := sizes }
  kind : s'.IsFixed ↔ s.IsFixed
  page : ∀ p < l.n, ¬ l.IsMeta p → s'.page p = s.page p

/-- The entries of `E`, the slots of the buckets of `B` and the slots of the inner nodes of `J` are committed, and nothing
else is changed. -/
structure View.Commits (v : View) (E B J : Set ℕ) (v' : View) : Prop where
  placed : v.Placed v'
  linked : v'.linked = v.linked
  taken : v'.taken = v.taken
  used : v'.used = v.used
  torn : v'.torn = v.torn
  cont : v'.cont = v.cont
  sizes : v'.sizes = v.sizes
  dir : v'.dir = v.dir
  outer : ∃ t, v'.outer = { v.outer with soSnapshot := t }
  inner : ∀ j, ∃ t, v'.inner j = { v.inner j with siSnapshot := t }
  done : ∀ i ∈ E, v'.entry i = (v.entry i).committed
  rest : ∀ i, i ∉ E → v'.entry i = v.entry i
  slot : ∀ b ∈ B, v'.siSnapshot b = v.siCurrent b ∧ (v'.bucket b).sbHasSnapshot = 0
  others : ∀ b, b ∉ B → v'.siSnapshot b = v.siSnapshot b ∧ (v'.bucket b).sbHasSnapshot = (v.bucket b).sbHasSnapshot
  link : ∀ j ∈ J, v'.outer.soSnapshot j = v.outer.soCurrent j
  links : ∀ j, j ∉ J → v'.outer.soSnapshot j = v.outer.soSnapshot j

theorem SlabEntry.committed_committed (e : SlabEntry) : e.committed.committed = e.committed := by
  unfold SlabEntry.committed
  dsimp only
  split_ifs <;> rfl

namespace View.Commits

variable {v v' v'' : View} {E E' B B' J J' : Set ℕ} {i b : ℕ} {free : List ℕ}

theorem refl (v : View) : v.Commits ∅ ∅ ∅ v :=
  ⟨.refl v, rfl, rfl, rfl, rfl, rfl, rfl, rfl, ⟨_, rfl⟩, fun _ => ⟨_, rfl⟩, fun _ hi => hi.elim, fun _ _ => rfl,
    fun _ hb => hb.elim, fun _ _ => ⟨rfl, rfl⟩, fun _ hj => hj.elim, fun _ _ => rfl⟩

theorem siCurrent (h : v.Commits E B J v') (b : ℕ) : v'.siCurrent b = v.siCurrent b := by
  obtain ⟨t, ht⟩ := h.inner (b / slabInnerEntries)
  unfold View.siCurrent
  rw [ht]

theorem siIndex (h : v.Commits E B J v') (j : ℕ) : (v'.inner j).siIndex = (v.inner j).siIndex := by
  obtain ⟨t, ht⟩ := h.inner j
  rw [ht]

theorem soCurrent (h : v.Commits E B J v') : v'.outer.soCurrent = v.outer.soCurrent := by
  obtain ⟨t, ht⟩ := h.outer
  rw [ht]

theorem soIndex (h : v.Commits E B J v') : v'.outer.soIndex = v.outer.soIndex := by
  obtain ⟨t, ht⟩ := h.outer
  rw [ht]

theorem trans (h : v.Commits E B J v') (h' : v'.Commits E' B' J' v'') : v.Commits (E ∪ E') (B ∪ B') (J ∪ J') v'' := by
  refine ⟨h.placed.trans h'.placed, h'.linked.trans h.linked, h'.taken.trans h.taken, h'.used.trans h.used,
    h'.torn.trans h.torn, h'.cont.trans h.cont, h'.sizes.trans h.sizes, h'.dir.trans h.dir, ?_, fun j => ?_,
    fun i hi => ?_, fun i hi => ?_, fun b hb => ?_, fun b hb => ?_, fun j hj => ?_, fun j hj => ?_⟩
  · obtain ⟨t, ht⟩ := h.outer
    obtain ⟨t', ht'⟩ := h'.outer
    exact ⟨t', by rw [ht', ht]⟩
  · obtain ⟨t, ht⟩ := h.inner j
    obtain ⟨t', ht'⟩ := h'.inner j
    exact ⟨t', by rw [ht', ht]⟩
  · by_cases hi' : i ∈ E'
    · rw [h'.done i hi']
      by_cases he : i ∈ E
      · rw [h.done i he, SlabEntry.committed_committed]
      · rw [h.rest i he]
    · rw [h'.rest i hi', h.done i (hi.resolve_right hi')]
  · rw [h'.rest i fun he => hi (.inr he), h.rest i fun he => hi (.inl he)]
  · by_cases hb' : b ∈ B'
    · rw [← h.siCurrent]
      exact h'.slot b hb'
    · obtain ⟨hs, hf⟩ := h'.others b hb'
      rw [hs, hf]
      exact h.slot b (hb.resolve_right hb')
  · obtain ⟨hs, hf⟩ := h'.others b fun he => hb (.inr he)
    rw [hs, hf]
    exact h.others b fun he => hb (.inl he)
  · by_cases hj' : j ∈ J'
    · rw [h'.link j hj', h.soCurrent]
    · rw [h'.links j hj', h.link j (hj.resolve_right hj')]
  · rw [h'.links j fun he => hj (.inr he), h.links j fun he => hj (.inl he)]

theorem dataCurrent (h : v.Commits E B J v') (i : ℕ) : (v'.entry i).dataCurrent = (v.entry i).dataCurrent := by
  by_cases hi : i ∈ E
  · rw [h.done i hi]
    rfl
  · rw [h.rest i hi]

theorem congr (h : v.Commits E B J v') (hE : ∀ i, i ∈ E' ↔ i ∈ E) (hB : ∀ b, b ∈ B' ↔ b ∈ B)
    (hJ : ∀ j, j ∈ J' ↔ j ∈ J) : v.Commits E' B' J' v' := by
  obtain rfl : E' = E := Set.ext hE
  obtain rfl : B' = B := Set.ext hB
  obtain rfl : J' = J := Set.ext hJ
  exact h

/-- One entry. -/
theorem setEntry (v : View) (i : ℕ) (free : List ℕ) :
    v.Commits {i} ∅ ∅ ((v.setEntry i (v.entry i).committed).sized v.n free) := by
  refine ⟨⟨rfl⟩, rfl, rfl, rfl, rfl, rfl, rfl, rfl, ⟨_, rfl⟩, fun _ => ⟨_, rfl⟩, fun j hj => ?_, fun j hj => ?_,
    fun _ hb => hb.elim, fun b _ => ⟨rfl, v.setEntry_sbHasSnapshot i _ b⟩, fun _ hj => hj.elim, fun _ _ => rfl⟩
  · obtain rfl : j = i := hj
    exact v.setEntry_entry j _
  · exact v.setEntry_entry_of_ne _ hj

end View.Commits

namespace Pm

variable {s s' t : Pm} {v v' w : View} {lost : Multiset ℕ} {L : List ℕ} {b i j k n p : ℕ} {u : Unit} {type : CpointType}

theorem SameContents.refl (l : Places) (s : Pm) : s.SameContents l s :=
  ⟨⟨s.pa, s.prot, s.file, s.sizes, rfl⟩, Iff.rfl, fun _ _ _ => rfl⟩

theorem SameContents.trans {l : Places} (h : s.SameContents l t) (h' : t.SameContents l s') : s.SameContents l s' := by
  refine ⟨?_, h'.kind.trans h.kind, fun p hp hm => (h'.page p hp hm).trans (h.page p hp hm)⟩
  obtain ⟨pa, prot, file, sizes, rfl⟩ := h.same
  obtain ⟨pa', prot', file', sizes', rfl⟩ := h'.same
  exact ⟨pa', prot', file', sizes', rfl⟩

theorem SameContents.congr (h : s.SameContents v'.toPlaces s') (hp : v.Placed v') : s.SameContents v.toPlaces s' :=
  ⟨h.same, h.kind, fun p hlt hm => h.page p (hp.n.symm ▸ hlt) fun hx => hm ((hp.isMeta p).mp hx)⟩

theorem SameMapping.sameContents {l : Places} (h : s.SameMapping l s') : s.SameContents l s' := by
  obtain ⟨pa, file, sizes, hs⟩ := h.same
  exact ⟨⟨pa, s.prot, file, sizes, hs⟩, h.kind, h.page⟩

/-- A regular checkpoint closes the data pages of the entries of `E`. No other page is protected in another way. -/
structure Shuts (s : Pm) (type : CpointType) (v : View) (E : Set ℕ) (s' : Pm) : Prop where
  shut : type = .regular → ∀ i ∈ E, ∀ p, (v.entry i).dataCurrent.maddr = v.addr p → s'.prot p = paProtRead
  rest : ∀ p, s'.prot p = s.prot p ∨ s'.prot p = paProtRead ∧ ∃ i ∈ E, (v.entry i).dataCurrent.maddr = v.addr p

theorem Shuts.of_prot (h : s'.prot = s.prot) : s.Shuts type v ∅ s' :=
  ⟨fun _ _ hi => hi.elim, fun p => .inl (congrFun h p)⟩

theorem Shuts.trans {E E' : Set ℕ} (h : s.Shuts type v E t) (h' : t.Shuts type w E' s')
    (hw : ∀ i p, (w.entry i).dataCurrent.maddr = w.addr p ↔ (v.entry i).dataCurrent.maddr = v.addr p) :
    s.Shuts type v (E ∪ E') s' := by
  refine ⟨fun hreg i hi p hp => ?_, fun p => ?_⟩
  · rcases hi with hi | hi
    · rcases h'.rest p with hrest | ⟨hrest, -⟩
      · exact hrest.trans (h.shut hreg i hi p hp)
      · exact hrest
    · exact h'.shut hreg i hi p ((hw i p).mpr hp)
  · rcases h'.rest p with hrest | ⟨hrest, i, hi, hp⟩
    · rw [hrest]
      exact (h.rest p).imp_right fun ⟨hread, i, hi, hp⟩ => ⟨hread, i, .inl hi, hp⟩
    · exact .inr ⟨hrest, i, .inr hi, (hw i p).mp hp⟩

theorem Shuts.of_eq {E : Set ℕ} (h : s.Shuts type v E t) (hp : s'.prot = t.prot) : s.Shuts type v E s' := by
  refine ⟨?_, ?_⟩ <;> rw [hp]
  · exact h.shut
  · exact h.rest

theorem SameMapping.prot {l : Places} (h : s.SameMapping l s') : s'.prot = s.prot := by
  obtain ⟨pa, file, sizes, rfl⟩ := h.same
  rfl

/-- `s'` is `s` after a part of `slab_cpoint` that commits `E`, `B` and `J`. -/
structure Checkpointed (s : Pm) (type : CpointType) (v : View) (lost : Multiset ℕ) (E B J : Set ℕ) (s' : Pm) (v' : View) :
    Prop where
  holds : s'.Holds v' lost
  commits : v.Commits E B J v'
  same : s.SameContents v.toPlaces s'
  shuts : s.Shuts type v E s'

theorem Checkpointed.refl (h : s.Holds v lost) : s.Checkpointed type v lost ∅ ∅ ∅ s v :=
  ⟨h, .refl v, .refl _ s, .of_prot rfl⟩

theorem Checkpointed.trans {E E' B B' J J' : Set ℕ} (h : s.Checkpointed type v lost E B J t w)
    (h' : t.Checkpointed type w lost E' B' J' s' v') : s.Checkpointed type v lost (E ∪ E') (B ∪ B') (J ∪ J') s' v' :=
  ⟨h'.holds, h.commits.trans h'.commits, h.same.trans (h'.same.congr h.commits.placed), h.shuts.trans h'.shuts fun i p => by
    rw [h.commits.dataCurrent, h.commits.placed.addr]⟩

theorem Checkpointed.congr {E E' B B' J J' : Set ℕ} (h : s.Checkpointed type v lost E B J s' v') (hE : ∀ i, i ∈ E' ↔ i ∈ E)
    (hB : ∀ b, b ∈ B' ↔ b ∈ B) (hJ : ∀ j, j ∈ J' ↔ j ∈ J) : s.Checkpointed type v lost E' B' J' s' v' := by
  obtain rfl : E' = E := Set.ext hE
  exact ⟨h.holds, h.commits.congr (fun _ => Iff.rfl) hB hJ, h.same, h.shuts⟩

/-- **One round of `slab_bucket_cpoint`.** -/
theorem Holds.slabEntryCpoint (h : s.Holds v lost) (hi : i < v.used) (hr : Returns (slabEntryCpoint (v.ref i) type) s u s') :
    ∃ v', s.Checkpointed type v lost {i} ∅ ∅ s' v' := by
  have he := h.ok.entry i hi
  have hcap := h.lt_cap hi
  unfold LibPM.slabEntryCpoint at hr
  rw [returns_bind] at hr
  obtain ⟨e₀, s₀, h₀, hr⟩ := hr
  obtain ⟨rfl, rfl⟩ := h.shows.loadEntry hcap h₀
  rw [returns_bind] at hr
  obtain ⟨_, s₁, h₁, hr⟩ := hr
  obtain ⟨L, hc₁, hL⟩ := h.commitData hi h₁
  rw [returns_bind] at hr
  obtain ⟨e₁, s₂, h₂, hr⟩ := hr
  obtain ⟨rfl, rfl⟩ := hc₁.loadEntry hcap h₂
  rw [returns_bind] at hr
  obtain ⟨_, s₃, h₃, hr⟩ := hr
  have hw : ((v.setEntry i { v.entry i with dataSnapshot :=
      ⟨(v.entry i).dataCurrent.maddr, (v.entry i).dataCurrent.laddr, (v.entry i).dataSnapshot.bitmap⟩ }).entry i).ptrSnapshot =
      (v.entry i).ptrSnapshot := by rw [View.setEntry_entry]
  obtain ⟨L', hc₂, hL'⟩ := hc₁.commitPtr (by
    rw [View.setEntry_entry]
    rcases he.ptr with ⟨-, h0, -⟩ | ⟨-, hsnap⟩
    · exact .inl h0
    · exact hsnap) hcap
    (fun p hp => h.ptrSnapshot_lt hi (by rwa [hw] at hp)) h₃
  rw [View.setEntry_entry, View.setEntry_setEntry] at hc₂
  rw [View.setEntry_entry] at hL'
  -- the entry is committed, and its old pages are free
  have hpages := SlabEntry.pages_committed v.base (v.entry i)
  rw [← hL, ← hL', Multiset.coe_add] at hpages
  have hbal : (v.setEntry i (v.entry i).committed).Balanced (lost + ↑(L ++ L')) := by
    have hb := h.balanced
    rw [← add_zero lost] at hb
    exact hb.setEntry hi (h.holder_mem hi) (hpages.trans (add_zero _).symm)
  have hmaddr : ∀ j < v.used, ((v.setEntry i (v.entry i).committed).entry j).dataCurrent.maddr =
      (v.entry j).dataCurrent.maddr := fun j _ => View.setEntry_cases
    (e := (v.entry i).committed) (P := fun j x => x.dataCurrent.maddr = (v.entry j).dataCurrent.maddr) rfl
    (fun _ _ => rfl) j
  have hh : s₃.Holds ((v.setEntry i (v.entry i).committed).sized v.n (v.free ++ (L ++ L'))) lost :=
    Dropped.holds hc₂ h rfl (h.linked.setEntry i _) (h.ok.setEntry hi (he.committed h.shows.base_ne) (h.ok.seId i hi) rfl)
      hbal hmaddr (fun hp => hp.setEntry (hp.entry i hi).committed) rfl fun _ _ => rfl
  have hprot : s₃.prot = s.prot := hc₂.same.prot
  rcases returns_when.mp hr with ⟨-, hr⟩ | ⟨hreg, rfl⟩
  · simp only [returns_bind, returns_pageAllocatorMprotect] at hr
    obtain ⟨e₂, s₄, h₄, q, hq, rfl⟩ := hr
    obtain ⟨rfl, rfl⟩ := hc₂.loadEntry hcap h₄
    rw [View.setEntry_entry] at hq
    obtain ⟨hlt, haddr⟩ := hh.shows.exists_of_vpage hq
    obtain ⟨p, hp, -⟩ := h.data hi
    replace haddr : roundDwnPg (v.entry i).dataCurrent.maddr = v.addr q := haddr
    rw [hp, h.shows.roundDwnPg_addr] at haddr
    obtain rfl : p = q := v.addr_injective haddr
    refine ⟨_, hh.protect ⟨i, hi, (hmaddr i hi).trans hp⟩ _, .setEntry v i _, hc₂.same.sameContents.trans ?_,
      fun _ j hj r hjr => ?_, fun r => ?_⟩
    · exact ⟨⟨_, _, _, _, rfl⟩, Iff.rfl, fun _ _ _ => rfl⟩
    · obtain rfl : j = i := hj
      obtain rfl : p = r := v.addr_injective (hp.symm.trans hjr)
      exact Function.update_self ..
    · by_cases hrp : r = p
      · subst hrp
        exact .inr ⟨Function.update_self .., i, rfl, hp⟩
      · exact .inl ((Function.update_of_ne hrp ..).trans (congrFun hprot r))
  · exact ⟨_, hh, .setEntry v i _, hc₂.same.sameContents, fun hr => absurd hr hreg, fun q => .inl (congrFun hprot q)⟩

/-- **`slab_bucket_cpoint`.** -/
theorem Holds.slabBucketCpoint (h : s.Holds v lost) (hb : b < v.buckets)
    (hr : Returns (slabBucketCpoint (v.addr (v.bucketPage b)) type) s u s') :
    ∃ v', s.Checkpointed type v lost {i | i < v.used ∧ i / slabBucketEntries = b} ∅ ∅ s' v' := by
  unfold LibPM.slabBucketCpoint at hr
  have hloop := Returns.forM_range_induct (Q := fun k t => ∃ w, s.Checkpointed type v lost
    {i | i < v.used ∧ i / slabBucketEntries = b ∧ i % slabBucketEntries < k} ∅ ∅ t w) ?_ ?_ hr
  · obtain ⟨v', hc⟩ := hloop
    refine ⟨v', hc.congr (fun i => ?_) (fun _ => Iff.rfl) fun _ => Iff.rfl⟩
    exact and_congr_right fun _ => (and_iff_left (Places.mod_lt i)).symm
  · exact ⟨v, (Checkpointed.refl h).congr (fun i => iff_of_false (fun hi => Nat.not_lt_zero _ hi.2.2) id)
      (fun _ => Iff.rfl) fun _ => Iff.rfl⟩
  · intro k hk t t' ⟨w, hc⟩ hr
    rw [returns_bind] at hr
    obtain ⟨e, t₁, h₁, hr⟩ := hr
    -- the entry `k` of the bucket has a number
    have hdiv : (b * slabBucketEntries + k) / slabBucketEntries = b := by
      rw [Nat.mul_comm, Nat.mul_add_div (by decide), Nat.div_eq_of_lt hk, Nat.add_zero]
    have hmod : (b * slabBucketEntries + k) % slabBucketEntries = k := by
      rw [Nat.mul_comm, Nat.mul_add_mod, Nat.mod_eq_of_lt hk]
    have hcap : b * slabBucketEntries + k < w.cap := by
      rw [hc.commits.placed.cap]
      unfold Places.cap
      calc b * slabBucketEntries + k < b * slabBucketEntries + slabBucketEntries := by omega
        _ = (b + 1) * slabBucketEntries := (Nat.succ_mul _ _).symm
        _ ≤ v.buckets * slabBucketEntries := Nat.mul_le_mul_right _ hb
    have href : (⟨v.addr (v.bucketPage b), k⟩ : EntryRef) = w.ref (b * slabBucketEntries + k) := by
      rw [hc.commits.placed.ref]
      unfold Places.ref
      rw [hdiv, hmod]
    rw [href] at h₁ hr
    obtain ⟨rfl, rfl⟩ := hc.holds.shows.loadEntry hcap h₁
    have hnum : ∀ i, i / slabBucketEntries = b → i % slabBucketEntries = k → i = b * slabBucketEntries + k := by
      rintro i rfl rfl
      rw [Nat.mul_comm, Nat.div_add_mod]
    rcases returns_when.mp hr with ⟨hinit, hr⟩ | ⟨hinit, rfl⟩
    · have hi := (hc.holds.isInit_iff hcap).mp hinit
      obtain ⟨w', hc'⟩ := hc.holds.slabEntryCpoint hi hr
      refine ⟨w', (hc.trans hc').congr (fun i => ⟨?_, ?_⟩) (fun _ => or_self_iff.symm) fun _ => or_self_iff.symm⟩
      · rintro ⟨hu, hib, hik⟩
        rcases Nat.lt_succ_iff_lt_or_eq.mp hik with hik | hik
        · exact .inl ⟨hu, hib, hik⟩
        · exact .inr (hnum i hib hik)
      · rintro (⟨hu, hib, hik⟩ | rfl)
        · exact ⟨hu, hib, Nat.lt_succ_of_lt hik⟩
        · exact ⟨hc.commits.used ▸ hi, hdiv, by rw [hmod]; exact Nat.lt_succ_self k⟩
    · refine ⟨w, hc.congr (fun i => ⟨?_, ?_⟩) (fun _ => Iff.rfl) fun _ => Iff.rfl⟩
      · rintro ⟨hu, hib, hik⟩
        refine ⟨hu, hib, (Nat.lt_succ_iff_lt_or_eq.mp hik).resolve_right fun hik => hinit ?_⟩
        have hi := hnum i hib hik
        exact (hc.holds.isInit_iff hcap).mpr (hi ▸ hc.commits.used.symm ▸ hu)
      · rintro ⟨hu, hib, hik⟩
        exact ⟨hu, hib, Nat.lt_succ_of_lt hik⟩

end Pm

end LibPM

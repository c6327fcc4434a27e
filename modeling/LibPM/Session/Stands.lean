import LibPM.Recorded.Ends
import LibPM.Session.Lists

/-!
# Stores that return

A state stands when its metadata pages are where a list of places says and can be written. A store to a
node, to an entry or to the head of a queue returns there, and the state still stands.
-/

namespace LibPM

open Recorded Recorded.Prog

/-- The metadata pages are at `l` and can be written, and the queue `q` exists. -/
def Pm.Stands (l : Places) (q : Queue) (s : Pm) : Prop :=
  ∃ v : View, v.toPlaces = l ∧ s.Shows v ∧ v.Quiet ∧ v.HasQueue q ∧
    ∀ p, l.IsMeta p → (s.prot p).write = true

/-- A new content of an entry that leaves its data page where it is. -/
theorem View.Quiet.setEntry {v : View} {i : ℕ} {e : SlabEntry} (h : v.Quiet)
    (he : e.dataCurrent.maddr = (v.entry i).dataCurrent.maddr) : (v.setEntry i e).Quiet := by
  refine h.imp_right fun ⟨hsd, hroot⟩ => ⟨hsd, fun r hr => ?_⟩
  obtain ⟨j, p, rfl, hj, hp, haddr⟩ := hroot r hr
  refine ⟨j, p, rfl, hj, hp, ?_⟩
  by_cases hji : j = i
  · subst hji
    rw [View.setEntry_entry, he]
    exact haddr
  · rw [View.setEntry_entry_of_ne _ _ hji]
    exact haddr

namespace Pm

variable {s s' : Pm} {v : View} {l : Places} {q : Queue} {i j : ℕ}

/-- A store to a metadata page that does not fault. -/
theorem Shows.total_update (h : s.Shows v) {x : Node} (hx : v.Has x)
    (hw : (s.prot (v.pageOf x)).write = true) {g : Page → Option Page} {p : Page}
    (hg : g (v.content x) = some p) : Total (updatePage (v.addr (v.pageOf x)) g) s := by
  have hv := h.vpage (h.wf.lt x hx)
  refine Returns.total_bind (a := ()) (returns_makeWritable.mpr ⟨_, hv, .inl ⟨hw, rfl⟩⟩) ?_
  refine Returns.total (a := ()) (returns_putPage.mpr ⟨_, p, hv, hw, ?_, rfl⟩)
  rw [← hg, ← h.page x hx]
  rfl

theorem Stands.has (h : s.Stands l q) {x : Node} (hx : l.Has x) {g : Page → Option Page}
    (hg : ∀ v : View, v.toPlaces = l → ∃ p, g (v.content x) = some p) :
    Total (updatePage (l.addr (l.pageOf x)) g) s := by
  obtain ⟨v, rfl, hs, -, -, hw⟩ := h
  obtain ⟨p, hp⟩ := hg v rfl
  exact hs.total_update hx (hw _ ⟨x, hx, rfl⟩) hp

/-- What a store to a node leaves. -/
theorem Stands.of_sameData {v' : View} (hs : s'.Shows v') (hl : v'.toPlaces = l) (hq : v'.Quiet)
    (hh : v'.HasQueue q) (hw : ∀ p, l.IsMeta p → (s.prot p).write = true) (hm : s.SameData l s') :
    s'.Stands l q :=
  ⟨v', hl, hs, hq, hh, fun p hp => by
    rw [hm.prot]
    exact hw p hp⟩

theorem steady_updateDir {f : SlabDir → SlabDir} (hf : ∀ d, (f d).sdMaddrRoot = d.sdMaddrRoot) :
    Steady (Pm.Stands l q) (updatePage (l.addr 1) (Page.onDir f)) := by
  refine ⟨fun s hs => hs.has (x := .dir) trivial fun v _ => ⟨.dir (f v.dir), rfl⟩, ?_⟩
  rintro s u s' ⟨v, rfl, hs, hq, hh, hw⟩ hr
  obtain ⟨hs', hm⟩ := hs.updateDir hq hr
  refine .of_sameData hs' rfl ?_ ?_ hw hm
  · refine hq.imp_right fun ⟨hsd, hroot⟩ => ⟨hsd, fun r hmem => ?_⟩
    exact hroot r (hf v.dir ▸ hmem)
  · cases q <;> exact hh

theorem steady_updateOuter (f : SlabOuter → SlabOuter) :
    Steady (Pm.Stands l q) (updatePage (l.addr 2) (Page.onOuter f)) := by
  refine ⟨fun s hs => hs.has (x := .outer) trivial fun v _ => ⟨.outer (f v.outer), rfl⟩, ?_⟩
  rintro s u s' ⟨v, rfl, hs, hq, hh, hw⟩ hr
  obtain ⟨hs', hm⟩ := hs.updateOuter hq hr
  exact .of_sameData hs' rfl hq (by cases q <;> exact hh) hw hm

theorem steady_updateInner (hj : j < l.inners) (f : SlabInner → SlabInner) :
    Steady (Pm.Stands l q) (updatePage (l.addr (l.innerPage j)) (Page.onInner f)) := by
  refine ⟨fun s hs => hs.has (x := .inner j) hj fun v _ => ⟨.inner (f (v.inner j)), rfl⟩, ?_⟩
  rintro s u s' ⟨v, rfl, hs, hq, hh, hw⟩ hr
  obtain ⟨hs', hm⟩ := hs.updateInner hq hj hr
  exact .of_sameData hs' rfl hq (by cases q <;> exact hh) hw hm

theorem steady_updateEntry (hi : i < l.cap) {f : SlabEntry → SlabEntry}
    (hf : ∀ e, (f e).dataCurrent.maddr = e.dataCurrent.maddr) :
    Steady (Pm.Stands l q) (updateEntry (l.ref i) f) := by
  refine ⟨fun s hs => hs.has (x := .bucket (i / slabBucketEntries)) (Places.div_lt hi) fun v _ => ?_, ?_⟩
  · exact ⟨_, if_pos (Places.mod_lt i)⟩
  · rintro s u s' ⟨v, rfl, hs, hq, hh, hw⟩ hr
    obtain ⟨hs', hm⟩ := hs.updateEntry hq hi hr
    exact .of_sameData hs' rfl (hq.setEntry (hf _)) (by cases q <;> exact hh) hw hm

/-! ## Queues -/

theorem steady_head : Steady (Pm.Stands l q) (q.at l.base).head := by
  refine ⟨?_, ?_⟩
  · rintro s ⟨v, rfl, hs, -, hh, -⟩
    cases q with
    | free => exact (Returns.total (returns_loadDir.mpr ⟨hs.readDir, rfl⟩)).map _
    | size n =>
      obtain ⟨es, hes⟩ := Option.isSome_iff_exists.mp hh
      rw [← hs.sizes] at hes
      exact total_get.bind fun t t' ht => by
        obtain ⟨rfl, rfl⟩ := returns_get.mp ht
        exact (total_ofOption hes).bind fun _ _ _ => total_pure
  · rintro s x s' ⟨v, rfl, hs, hq, hh, hw⟩ hr
    obtain ⟨rfl, -⟩ := hs.queueHead hr
    exact ⟨v, rfl, hs, hq, hh, hw⟩

theorem steady_setFirst (r : Option EntryRef) : Steady (Pm.Stands l q) ((q.at l.base).setFirst r) := by
  refine ⟨?_, ?_⟩
  · intro s hs
    cases q with
    | free =>
      exact (steady_updateDir (f := fun d => { d with sdFreeList.first := r }) fun _ => rfl).total s hs
    | size n => exact total_modify
  · rintro s u s' ⟨v, rfl, hs, hq, hh, hw⟩ hr
    obtain ⟨hs', hm⟩ := hs.setFirst hq hr
    have hre := View.relinked_onQueue v q fun x => { x with first := r }
    exact .of_sameData hs' hre.places (hre.quiet hq) ((View.hasQueue_onQueue q).mpr hh) hw hm

theorem steady_setLast (r : Option EntryRef) : Steady (Pm.Stands l q) ((q.at l.base).setLast r) := by
  refine ⟨?_, ?_⟩
  · intro s hs
    cases q with
    | free =>
      exact (steady_updateDir (f := fun d => { d with sdFreeList.last := r }) fun _ => rfl).total s hs
    | size n => exact total_modify
  · rintro s u s' ⟨v, rfl, hs, hq, hh, hw⟩ hr
    obtain ⟨hs', hm⟩ := hs.setLast hq hr
    have hre := View.relinked_onQueue v q fun x => { x with last := r }
    exact .of_sameData hs' hre.places (hre.quiet hq) ((View.hasQueue_onQueue q).mpr hh) hw hm

/-- A store to the link of an entry. -/
theorem steady_setLink (hi : i < l.cap) (r : Option EntryRef) :
    Steady (Pm.Stands l q) (updateEntry (l.ref i) fun e => { e with seList := r }) :=
  steady_updateEntry hi fun _ => rfl

theorem steady_insertHead (hi : i < l.cap) :
    Steady (Pm.Stands l q) (stailqInsertHead (q.at l.base) (l.ref i)) :=
  steady_head.bind fun _ => (steady_setLink hi _).bind fun _ =>
    (steady_setLast _).when.bind fun _ => steady_setFirst _

/-- `STAILQ_INSERT_TAIL`, where the tail pointer leads to an entry. -/
theorem Shows.total_insertTail (h : s.Shows v) (hst : s.Stands v.toPlaces q) (hq : v.Quiet)
    (hi : i < v.cap) (hlast : ∀ r ∈ (v.queue q).last, ∃ j < v.cap, r = v.ref j) :
    Total (stailqInsertTail (q.at v.base) (v.ref i)) s := by
  refine (steady_setLink hi none).total_bind hst fun _ t h₁ ht => ?_
  refine steady_head.total_bind ht fun hd t' h₂ ht' => ?_
  obtain ⟨rfl, rfl, -⟩ := ((Pm.Requeues.refl h q).setLink hq hi h₁).head h₂
  cases hl : (v.queue q).last with
  | none => exact ((steady_setFirst _).bind fun _ => steady_setLast _).total t ht
  | some r =>
    obtain ⟨k, hk, rfl⟩ := hlast r hl
    exact ((steady_setLink hk _).bind fun _ => steady_setLast _).total t ht

/-- `STAILQ_REMOVE_HEAD`, where the queue has an entry. -/
theorem Shows.total_removeHead (h : s.Shows v) (hst : s.Stands v.toPlaces q) (hi : i < v.cap)
    (hfirst : (v.queue q).first = some (v.ref i)) : Total (stailqRemoveHead (q.at v.base)) s := by
  refine steady_head.total_bind hst fun hd t h₁ ht => ?_
  obtain ⟨rfl, rfl, -⟩ := h.queueHead h₁
  refine (total_ofOption hfirst).bind fun r t' h₂ => ?_
  obtain ⟨hr, rfl⟩ := returns_ofOption.mp h₂
  obtain rfl : v.ref i = r := Option.some.inj (hfirst.symm.trans hr)
  refine Returns.total_bind (returns_loadEntry.mpr ⟨h.readEntry hi, rfl⟩) ?_
  exact ((steady_setFirst _).bind fun _ => (steady_setLast _).when).total s ht

end Pm

end LibPM

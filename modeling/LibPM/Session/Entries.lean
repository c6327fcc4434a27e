import LibPM.Session.Objects

/-!
# New entries

`slab_entry_init` gives an entry that has left the free list its data page, and the entry joins the tree of
data pages in use. The page is not cleared. It is read only, unless it was writable in the free list.
-/

namespace LibPM

open Recorded Recorded.Prog

/-- The entry after `slab_entry_init`. -/
def SlabEntry.initial (e : SlabEntry) (maddr laddr size id : ℕ) : SlabEntry where
  seId := id
  seSize := size
  dataCurrent := ⟨maddr, laddr, e.dataCurrent.bitmap⟩
  dataSnapshot := ⟨maddr, laddr, e.dataSnapshot.bitmap⟩
  ptrCurrent := ⟨0, 0, 0⟩
  ptrSnapshot := ⟨0, 0, 0⟩
  seList := e.seList

/-- The next entry is initialised. -/
def View.addEntry (v : View) (e : SlabEntry) : View :=
  { v.setEntry v.used e with
    used := v.used + 1
    dir := { v.dir with sdMaddrRoot := v.ref v.used :: v.dir.sdMaddrRoot } }

namespace View

variable {v : View} {lost : Multiset ℕ} {i p l size id : ℕ} {e : SlabEntry}

theorem addEntry_entry (v : View) (e : SlabEntry) : (v.addEntry e).entry v.used = e :=
  setEntry_entry v v.used e

theorem addEntry_entry_of_ne (v : View) (e : SlabEntry) (h : i ≠ v.used) :
    (v.addEntry e).entry i = v.entry i := setEntry_entry_of_ne v e h

theorem Linked.addEntry (h : v.Linked) (e : SlabEntry) : (v.addEntry e).Linked :=
  ⟨h.current, h.committed, h.sdIndex, h.sdCurrent, h.sdOther, h.sdSnapshot, h.sdSame, h.soIndex,
    h.inners, h.soCurrent, h.soSnapshot, h.soSame, h.linked, h.buckets, h.siIndex, h.siCurrent,
    h.siSnapshot, h.siOther, (h.setEntry v.used e).sbId⟩

theorem Ok.addEntry (h : v.Ok) (hlt : v.used < v.taken) (he : e.Ok v.base) (hid : e.seId = v.used)
    (hfirst : ∀ n, (v.queue (.size n)).first = some (v.ref v.used) → e.seSize = n) :
    (v.addEntry e).Ok := by
  have hcase : ∀ {j}, j < v.used + 1 → j = v.used ∨ j < v.used := fun hj => by omega
  refine ⟨hlt, h.taken, fun r => ?_, fun j hj => ?_, fun j hj => ?_, fun j hj hc => ?_, h.first, h.last,
    fun n j hf hj => ?_, fun r hr => ?_⟩
  · show r ∈ v.ref v.used :: v.dir.sdMaddrRoot ↔ ∃ j < v.used + 1, r = v.ref j
    rw [List.mem_cons, h.root]
    constructor
    · rintro (rfl | ⟨j, hj, rfl⟩)
      · exact ⟨v.used, Nat.lt_succ_self _, rfl⟩
      · exact ⟨j, Nat.lt_succ_of_lt hj, rfl⟩
    · rintro ⟨j, hj, rfl⟩
      rcases hcase hj with rfl | hj
      · exact .inl rfl
      · exact .inr ⟨j, hj, rfl⟩
  · rcases hcase hj with rfl | hj
    · rw [addEntry_entry]
      exact he
    · rw [addEntry_entry_of_ne _ _ (Nat.ne_of_lt hj)]
      exact h.entry j hj
  · rcases hcase hj with rfl | hj
    · rw [addEntry_entry]
      exact hid
    · rw [addEntry_entry_of_ne _ _ (Nat.ne_of_lt hj)]
      exact h.seId j hj
  · have hj : v.used < j := hj
    rw [addEntry_entry_of_ne _ _ (Nat.ne_of_gt hj)]
    exact h.blank j hj.le hc
  · rcases hcase hj with rfl | hj
    · rw [addEntry_entry]
      exact hfirst n hf
    · rw [addEntry_entry_of_ne _ _ (Nat.ne_of_lt hj)]
      exact h.size n j hf hj
  · obtain ⟨j, hj, hr⟩ := h.vector r hr
    exact ⟨j, Nat.lt_succ_of_lt hj, hr⟩

/-- The new entry holds the page that no one held. -/
theorem Balanced.addEntry (h : v.Balanced (lost + {p})) (hx : .entry v.used ∈ holders)
    (he : e.pages v.base = {p}) : (v.addEntry e).Balanced lost := by
  rw [← add_zero lost]
  refine h.move hx ?_ (fun y _ hy => ?_) rfl rfl
  · unfold held
    dsimp only
    rw [if_neg (Nat.lt_irrefl _), if_pos (show v.used < (v.addEntry e).used from Nat.lt_succ_self _),
      addEntry_entry]
    show e.pages v.base + 0 = 0 + {p}
    rw [he, add_zero, zero_add]
  · cases y with
    | entry j =>
      have hj : j ≠ v.used := fun hj => hy (congrArg _ hj)
      have hiff : j < (v.addEntry e).used ↔ j < v.used := by
        show j < v.used + 1 ↔ j < v.used
        omega
      unfold held
      dsimp only
      rw [addEntry_entry_of_ne _ _ hj]
      simp only [hiff]
      rfl
    | _ => rfl

theorem Paired.addEntry (h : v.Paired) (he : e.Paired v.base (v.used ∈ v.torn)) :
    (v.addEntry e).Paired := by
  refine ⟨h.cont, h.sdCurrent, h.sdSnapshot, h.soCurrent, h.soSnapshot, h.siCurrent, h.siSnapshot,
    fun j hj => ?_⟩
  have hj : j < v.used + 1 := hj
  by_cases hju : j = v.used
  · rw [hju, addEntry_entry]
    exact he
  · rw [addEntry_entry_of_ne _ _ hju]
    exact h.entry j (by omega)

theorem steady_addEntry (hlt : v.used < v.taken) (e : SlabEntry) : v.Steady (v.addEntry e) :=
  ⟨rfl, rfl, rfl, rfl, rfl, rfl, rfl, rfl, fun j hj _ => by
    rw [addEntry_entry_of_ne _ _ (by omega)]⟩

end View

section Initial

variable {base : ℕ} {e : SlabEntry} {p l size id : ℕ}

theorem SlabEntry.initial_ok (hs : size ≤ pageSize) :
    (e.initial (base + p * pageSize) l size id).Ok base :=
  ⟨⟨p, rfl⟩, ⟨p, rfl⟩, fun _ => rfl, hs, .inl ⟨rfl, rfl, rfl⟩, fun _ => .inl rfl⟩

theorem SlabEntry.initial_pages : (e.initial (base + p * pageSize) l size id).pages base = {p} := by
  unfold SlabEntry.pages versionPages ptrPages SlabEntry.initial
  dsimp only
  rw [oldPages_self, pageNo_add, if_pos rfl, add_zero, add_zero]

end Initial

namespace View

variable {v : View} {lost : Multiset ℕ} {i p n l size id : ℕ} {free : List ℕ} {e : SlabEntry}

theorem addEntry_isData {q : ℕ} (he : e.dataCurrent.maddr = v.addr p) :
    (v.addEntry e).IsData q ↔ v.IsData q ∨ q = p := by
  constructor
  · rintro ⟨j, hj, hmaddr⟩
    rcases Nat.lt_succ_iff_lt_or_eq.mp hj with hj | rfl
    · rw [addEntry_entry_of_ne _ _ (Nat.ne_of_lt hj)] at hmaddr
      exact .inl ⟨j, hj, hmaddr⟩
    · rw [addEntry_entry, he] at hmaddr
      exact .inr (v.addr_injective hmaddr).symm
  · rintro (⟨j, hj, hmaddr⟩ | rfl)
    · refine ⟨j, Nat.lt_succ_of_lt hj, ?_⟩
      rw [addEntry_entry_of_ne _ _ (Nat.ne_of_lt hj)]
      exact hmaddr
    · refine ⟨v.used, Nat.lt_succ_self _, ?_⟩
      rw [addEntry_entry]
      exact he

/-- An entry that the directory does not list may change. -/
theorem Quiet.setEntry_free (h : v.Quiet) (hfree : v.ref i ∉ v.dir.sdMaddrRoot) (e : SlabEntry) : (v.setEntry i e).Quiet := by
  refine h.imp_right fun ⟨hsd, hroot⟩ => ⟨hsd, fun r hr => ?_⟩
  obtain ⟨j, p, rfl, hj, hp, haddr⟩ := hroot r hr
  refine ⟨j, p, rfl, hj, hp, ?_⟩
  rw [setEntry_entry_of_ne]
  · exact haddr
  · rintro rfl
    exact hfree hr

end View

namespace Pm

variable {s s' s₁ : Pm} {v : View} {lost : Multiset ℕ} {maddr laddr p n size : ℕ} {free : List ℕ}

theorem SameData.setNextEntry {l : Places} {t : Pm} (h : s.SameData l t) (k : ℕ) :
    Pm.SameData l { s with nextSlabEntryId := k } { t with nextSlabEntryId := k } := by
  obtain ⟨⟨file, sizes, rfl⟩, hpage, hbeyond⟩ := h
  exact ⟨⟨file, sizes, rfl⟩, hpage, hbeyond⟩

theorem Shows.setNextEntry (h : s.Shows v) (k : ℕ) : Pm.Shows { s with nextSlabEntryId := k } v :=
  ⟨⟨h.space.serves, h.space.aligned, h.space.inj, h.space.maps⟩, h.start, h.containers,
    fun y hy => h.page y hy, h.sizes, h.wf⟩

section AddEntry

variable (ht : s.Took s₁ paProtRead maddr laddr p v.n v.free n free) (h : s.Holds v lost)

include ht h

/-- The page was not metadata, and no data page either. -/
theorem Took.notMeta : ¬ v.IsMeta p := fun hm => (ht.ne_of_meta h hm).2 rfl

theorem Took.notData : ¬ v.IsData p := fun hd => (ht.ne_of_data h hd).2 rfl

omit h in
theorem Took.rested : v.Rests p := by
  rcases ht.takes.cases with ⟨-, hfree⟩ | ⟨-, -, hrange⟩
  · exact .inl (by rw [hfree]; exact List.mem_cons_self ..)
  · have hmem : p ∈ List.range' v.n v.n := by
      rw [← hrange]
      exact List.mem_cons_self ..
    exact .inr (.inl (List.mem_range'_1.mp hmem).1)

/-- The entry with its new data page. -/
theorem Took.initial_paired (hf : s₁.IsFixed) (torn : Prop) :
    ((v.entry v.used).initial (v.addr p) laddr size v.used).Paired v.base torn := by
  have hdata : LibPM.Paired v.base (v.addr p) laddr := by
    rw [ht.laddr, (ht.shows h.shows).vmap_of_isFixed hf]
    exact paired_page v.base p
  exact ⟨hdata, hdata, fun _ => .inl ⟨rfl, rfl⟩, fun _ => .inl ⟨rfl, rfl⟩⟩

variable {e : SlabEntry} (he : e = (v.entry v.used).initial (v.addr p) laddr size v.used)
  (hlt : v.used < v.taken) (hs : s'.Shows ((v.sized n free).addEntry e))
  (hm : Pm.SameData (v.sized n free).toPlaces
    { s₁.setPage (s₁.vmap p) (.data (s₁.bytesOf (s₁.page p))) with nextSlabEntryId := v.used + 1 } s')

include he hlt hs hm

omit ht h hlt hs hm in
theorem addEntry_isData_iff (q : ℕ) :
    ((v.sized n free).addEntry e).IsData q ↔ v.IsData q ∨ q = p :=
  View.addEntry_isData (v := v.sized n free) (by rw [he]; rfl)

theorem Took.addEntry_holds (hsize : size ≤ pageSize)
    (hfirst : ∀ k, (v.queue (.size k)).first = some (v.ref v.used) → size = k) :
    s'.Holds ((v.sized n free).addEntry e) lost := by
  have hmem : Holder.entry v.used ∈ View.holders :=
    h.linked.entry_mem (hlt.trans_le h.ok.taken)
  have hpages : e.pages v.base = {p} := by
    rw [he]
    exact SlabEntry.initial_pages
  have hok : e.Ok v.base := by
    rw [he]
    exact SlabEntry.initial_ok hsize
  have hfix : s'.IsFixed → s₁.IsFixed := hm.isFixed.mp
  refine ⟨hs, (h.linked.sized n free).addEntry e, (h.ok.sized n free).addEntry hlt hok ?_ ?_,
    ⟨fun q hq => ?_, fun q hq hd hf => ?_, fun q hd hres => ?_⟩, (ht.balanced h).addEntry hmem hpages,
    fun hf => ?_, fun b hb => ?_, ?_, ?_⟩
  · rw [he]
    rfl
  · intro k hk
    rw [he]
    exact hfirst k hk
  · rw [hm.prot]
    exact ht.metadata h hq
  · rw [addEntry_isData_iff he, not_or] at hd
    rw [hm.prot]
    unfold Resets
    rw [hm.pa]
    exact ht.synced h hq hd.2 hd.1 (hfix hf)
  · unfold Resets at hres
    rw [hm.pa] at hres
    rcases (addEntry_isData_iff he q).mp hd with hd | rfl
    · exact ht.notResets h hd hres
    · obtain ⟨fm, hfm, hw⟩ := hres
      rw [ht.prot.taken fm hfm] at hw
      exact Bool.false_ne_true hw
  · refine ((h.paired (ht.prot.kind.mp (hfix hf))).sized n free).addEntry ?_
    rw [he]
    exact ht.initial_paired h (hfix hf) _
  · rw [hm.vmap]
    exact ht.laddr_bucket h hb
  · obtain ⟨file, sizes, rfl⟩ := hm.same
    exact (ht.next h).1
  · obtain ⟨file, sizes, rfl⟩ := hm.same
    rfl

omit hlt hs in
theorem Took.addEntry_evolves : s.Evolves v ∅ s' ((v.sized n free).addEntry e) := by
  have hbase := ht.evolves h
  have hentry : ∀ j, j < v.used → ((v.sized n free).addEntry e).entry j = v.entry j := fun j hj =>
    View.addEntry_entry_of_ne (v.sized n free) e (Nat.ne_of_lt hj)
  have hrests : ∀ q, ((v.sized n free).addEntry e).Rests q → (v.sized n free).Rests q ∨ q = p := by
    rintro q (hfree | hn | hd)
    · exact .inl (.inl hfree)
    · exact .inl (.inr (.inl hn))
    · exact ((addEntry_isData_iff he q).mp hd).imp_left fun hd => .inr (.inr hd)
  have hmeta : ∀ q, ((v.sized n free).addEntry e).Rests q → q < n → ¬ (v.sized n free).IsMeta q := by
    intro q hq hlt
    rcases hrests q hq with (hfree | hn | hd) | rfl
    · exact (ht.balanced h).free_notMeta hfree
    · exact absurd hlt (Nat.not_lt.mpr hn)
    · exact (h.ok.isData_facts h.linked h.balanced hd).2.2.1
    · exact ht.notMeta h
  have hbytes : ∀ q, ((v.sized n free).addEntry e).Rests q → s'.restBytes n q = s.restBytes v.n q := by
    intro q hq
    refine (hm.restBytes (v := v.sized n free) (hmeta q hq)).2.trans ?_
    show (s₁.setPage (s₁.vmap p) (.data (s₁.bytesOf (s₁.page p)))).restBytes n q = _
    by_cases hqp : q = p
    · rw [hqp]
      exact ((ht.shows h.shows).restBytes_setPage ht.takes.lt _).trans ht.bytes
    · rw [ht.space.restBytes_setPage ht.takes.lt hqp]
      exact hbase.bytes q ((hrests q hq).resolve_right hqp) (Set.notMem_empty q)
  have hopen : ∀ q, s'.Open n q ↔ s₁.Open n q := fun q => by
    unfold Open
    rw [hm.prot]
    rfl
  refine ⟨rfl, ht.takes.le, Nat.le_succ _, fun _ _ => rfl, fun j hj => by rw [hentry j hj],
    fun j hj => by rw [hentry j hj], fun j hj _ _ _ => by rw [hentry j hj], fun j hj => by rw [hentry j hj],
    fun j hj hj' => ?_, fun _ hj => .inl hj, fun _ hr => hr, hbase.free, fun q hq => ?_, fun q hq => ?_,
    fun q hq _ => hbytes q hq, fun q hq ho => ?_, fun q hq ho => (hopen q).mpr (hbase.opened q hq ho),
    fun q hq ho => (hbase.kept q hq ho).imp_left (hopen q).mpr⟩
  · obtain rfl : j = v.used := by
      have hj' : j < v.used + 1 := hj'
      omega
    rw [show ((v.sized n free).addEntry e).entry v.used = e from
      View.addEntry_entry (v.sized n free) e, he]
    rfl
  · rcases hrests q hq with hq | rfl
    · exact hbase.rests q hq
    · exact ht.rested
  · rw [← ht.filePage q]
    show s'.filePage n q = s₁.filePage n q
    unfold Pm.filePage
    rw [hm.vmap]
    rfl
  · rcases hrests q hq with hq | rfl
    · refine (hbase.closed q hq ((hopen q).mp ho)).imp_right fun ⟨j, hj, hmaddr, hvec⟩ => ?_
      refine ⟨j, Nat.lt_succ_of_lt hj, ?_, hvec⟩
      rw [hentry j hj]
      exact hmaddr
    · exact .inl (ht.prot.readOnly rfl ((hopen q).mp ho).2)

end AddEntry

/-! ## The programs -/

variable {t : Pm} {i : ℕ} {e : SlabEntry} {u : Unit}

/-- A store to an entry the directory does not list. -/
theorem Shows.updateFree (hs : t.Shows (v.setEntry i e)) (hq : v.Quiet) (hi : i < v.cap)
    (hfree : v.ref i ∉ v.dir.sdMaddrRoot) {f : SlabEntry → SlabEntry}
    (hr : Returns (LibPM.updateEntry (v.ref i) f) t u s') :
    ∃ e', e' = f e ∧ s'.Shows (v.setEntry i e') ∧ t.SameData v.toPlaces s' := by
  obtain ⟨hs', hm⟩ := hs.updateEntry (i := i) (hq.setEntry_free hfree e) hi hr
  rw [View.setEntry_setEntry, View.setEntry_entry] at hs'
  exact ⟨f e, rfl, hs', hm⟩

/-- The entry that is next to be initialised is not in the directory. -/
theorem Holds.ref_used_notMem (h : s.Holds v lost) (hlt : v.used < v.cap) :
    v.ref v.used ∉ v.dir.sdMaddrRoot := by
  intro hmem
  obtain ⟨j, hj, heq⟩ := (h.ok.root _).mp hmem
  have := h.shows.wf.ref_inj hlt (hj.trans hlt) heq
  omega

/-- No entry of the directory has the data page of the next entry, so the directory gets it. -/
theorem Shows.insertInitial (hs : t.Shows (v.setEntry v.used e)) (hok : v.Ok) (hq : v.Quiet) (hlt : v.used < v.cap)
    (hfree : v.ref v.used ∉ v.dir.sdMaddrRoot) (he : e.dataCurrent.maddr = v.addr p) (hp : ¬ v.IsData p)
    (hr : Returns (usedInsert (v.addr 1) (v.ref v.used)) t u s') :
    s'.Shows (v.addEntry e) ∧ t.SameData v.toPlaces s' := by
  unfold usedInsert at hr
  simp only [returns_bind] at hr
  obtain ⟨x, t₁, h₁, o, t₂, h₂, h₃⟩ := hr
  obtain ⟨rfl, rfl⟩ := hs.loadEntry (v := v.setEntry v.used e) (i := v.used) hlt h₁
  rw [View.setEntry_entry] at h₂
  obtain ⟨⟨d, hd, hfind⟩, rfl⟩ := returns_usedFind.mp h₂
  have hdir : t.readDir (v.addr 1) = some v.dir := hs.readDir
  rw [hdir, Option.some.injEq] at hd
  subst hd
  have hnone : o = none := by
    cases o with
    | none => rfl
    | some r =>
      obtain ⟨hmem, x, hx, hse⟩ := findEntry_eq_some_some hfind
      obtain ⟨j, hj, rfl⟩ := (hok.root r).mp hmem
      have hread := hs.readEntry (v := v.setEntry v.used e) (hj.trans hlt)
      rw [View.setEntry_entry_of_ne _ _ (Nat.ne_of_lt hj)] at hread
      obtain rfl := Option.some.inj (hread.symm.trans hx)
      unfold searchNormal at hse
      rw [beq_iff_eq, he] at hse
      exact (hp ⟨j, hj, hse⟩).elim
  rw [returns_when_true hnone] at h₃
  obtain ⟨hs', hm⟩ := hs.updateDir (v := v.setEntry v.used e) (hq.setEntry_free hfree e) h₃
  exact ⟨⟨hs'.space, hs'.start, hs'.containers, hs'.page, hs'.sizes, hs'.wf⟩, hm⟩

end Pm

end LibPM

import LibPM.Session.Invariant

/-!
# How a state evolves

Between two checkpoints a container only grows: pages are handed out and not given back, initialised
entries keep their data page, and dirty entries stay dirty. `Evolves` says this of two states, and which
pages may have other bytes. The lemmas about `Holds` reduce a store to the part of the metadata it
changes.
-/

namespace LibPM

open Recorded Recorded.Prog

/-! ## Pages at rest -/

/-- A page of data, a free page, or a page the mapping does not have yet. -/
def View.Rests (v : View) (p : ℕ) : Prop := p ∈ v.free ∨ v.n ≤ p ∨ v.IsData p

/-- `p` is the data page of an entry in `sd_vector`. -/
def View.Dirty (v : View) (p : ℕ) : Prop :=
  ∃ i < v.used, (v.entry i).dataCurrent.maddr = v.addr p ∧ v.ref i ∈ v.dir.sdVector.items

namespace Pm

/-- The page of the file behind page `p` of a mapping of `n` pages, or where it will be. -/
def filePage (s : Pm) (n p : ℕ) : ℕ := if p < n then s.vmap p else p

def restBytes (s : Pm) (n p : ℕ) : ℕ → UInt8 := s.bytesOf (s.file (s.filePage n p))

/-- Page `p` is mapped and can be written. -/
def Open (s : Pm) (n p : ℕ) : Prop := p < n ∧ (s.prot p).write = true

/-- `s'` comes after `s`, with no checkpoint in between. Only the pages `W` have other bytes. -/
structure Evolves (s : Pm) (v : View) (W : Set ℕ) (s' : Pm) (v' : View) : Prop where
  base : v'.base = v.base
  n : v.n ≤ v'.n
  used : v.used ≤ v'.used
  ref : ∀ i < v.cap, v'.ref i = v.ref i
  maddr : ∀ i < v.used, (v'.entry i).dataCurrent.maddr = (v.entry i).dataCurrent.maddr
  seSize : ∀ i < v.used, (v'.entry i).seSize = (v.entry i).seSize
  bitmap : ∀ i < v.used, ∀ p, (v.entry i).dataCurrent.maddr = v.addr p → p ∉ W →
    (v'.entry i).dataCurrent.bitmap = (v.entry i).dataCurrent.bitmap
  ptrSnapshot : ∀ i < v.used, (v'.entry i).ptrSnapshot = (v.entry i).ptrSnapshot
  newPtr : ∀ i, v.used ≤ i → i < v'.used → (v'.entry i).ptrSnapshot.maddr = 0
  torn : ∀ i ∈ v'.torn, i ∈ v.torn ∨ i < v.used ∧ (v.entry i).ptrSnapshot.maddr ≠ 0 ∧
    ∃ p ∈ W, (v.entry i).dataCurrent.maddr = v.addr p ∧ (s.Open v.n p → v.n < v'.n)
  vector : ∀ r ∈ v.dir.sdVector.items, r ∈ v'.dir.sdVector.items
  free : ∀ p ∈ v'.free, p ∈ v.free ∨ v.n ≤ p
  rests : ∀ p, v'.Rests p → v.Rests p
  filePage : ∀ p, v'.Rests p → s'.filePage v'.n p = s.filePage v.n p
  bytes : ∀ p, v'.Rests p → p ∉ W → s'.restBytes v'.n p = s.restBytes v.n p
  closed : ∀ p, v'.Rests p → s'.Open v'.n p → s.Open v.n p ∨ v'.Dirty p
  opened : ∀ p ∈ v'.free, s.Open v.n p → s'.Open v'.n p
  kept : ∀ p, v.IsData p → s.Open v.n p → s'.Open v'.n p ∨ v.n < v'.n

theorem Evolves.refl (s : Pm) (v : View) (W : Set ℕ) : s.Evolves v W s v :=
  ⟨rfl, Nat.le_refl _, Nat.le_refl _, fun _ _ => rfl, fun _ _ => rfl, fun _ _ => rfl,
    fun _ _ _ _ _ => rfl, fun _ _ => rfl, fun _ hi hi' => (Nat.not_lt.mpr hi hi').elim,
    fun _ h => .inl h, fun _ h => h, fun _ h => .inl h, fun _ h => h, fun _ _ => rfl,
    fun _ _ _ => rfl, fun _ _ h => .inl h, fun _ _ h => h, fun _ _ h => .inl h⟩

variable {s s' s'' : Pm} {v v' v'' : View} {W W' : Set ℕ}

theorem Evolves.mono (h : s.Evolves v W s' v') (hW : W ⊆ W') : s.Evolves v W' s' v' :=
  { h with
    bitmap := fun i hi p hp hW' => h.bitmap i hi p hp fun hmem => hW' (hW hmem)
    torn := fun i hi => (h.torn i hi).imp_right fun ⟨hlt, hne, p, hp, hmaddr, hopen⟩ =>
      ⟨hlt, hne, p, hW hp, hmaddr, hopen⟩
    bytes := fun p hp hW' => h.bytes p hp fun hmem => hW' (hW hmem) }

theorem Evolves.addr (h : s.Evolves v W s' v') (p : ℕ) : v'.addr p = v.addr p := by
  unfold Places.addr
  rw [h.base]

theorem Evolves.isData (h : s.Evolves v W s' v') {p : ℕ} (hp : v.IsData p) : v'.IsData p := by
  obtain ⟨i, hi, hmaddr⟩ := hp
  exact ⟨i, hi.trans_le h.used, by rw [h.maddr i hi, hmaddr, h.addr]⟩

theorem Evolves.dirty (h : s.Evolves v W s' v') (hcap : v.used ≤ v.cap) {p : ℕ} (hp : v.Dirty p) :
    v'.Dirty p := by
  obtain ⟨i, hi, hmaddr, hmem⟩ := hp
  refine ⟨i, hi.trans_le h.used, ?_, ?_⟩
  · rw [h.maddr i hi, hmaddr, h.addr]
  · rw [h.ref i (hi.trans_le hcap)]
    exact h.vector _ hmem

theorem Evolves.trans (h : s.Evolves v W s' v') (h' : s'.Evolves v' W s'' v'')
    (hcap : v.cap ≤ v'.cap) (hused' : v'.used ≤ v'.cap) :
    s.Evolves v W s'' v'' := by
  refine ⟨h'.base.trans h.base, h.n.trans h'.n, h.used.trans h'.used, fun i hi => ?_, fun i hi => ?_,
    fun i hi => ?_, fun i hi p hp hW => ?_, fun i hi => ?_, fun i hi hi' => ?_, fun i hi => ?_,
    fun r hr => h'.vector r (h.vector r hr), fun p hp => ?_,
    fun p hp => h.rests p (h'.rests p hp), fun p hp => ?_, fun p hp hW => ?_, fun p hp hopen => ?_,
    fun p hp hopen => ?_, fun p hp hopen => ?_⟩
  · rw [h'.ref i (hi.trans_le hcap), h.ref i hi]
  · rw [h'.maddr i (hi.trans_le h.used), h.maddr i hi]
  · rw [h'.seSize i (hi.trans_le h.used), h.seSize i hi]
  · rw [h'.bitmap i (hi.trans_le h.used) p ?_ hW, h.bitmap i hi p hp hW]
    rw [h.maddr i hi, hp, h.addr]
  · rw [h'.ptrSnapshot i (hi.trans_le h.used), h.ptrSnapshot i hi]
  · by_cases hlt : i < v'.used
    · rw [h'.ptrSnapshot i hlt]
      exact h.newPtr i hi hlt
    · exact h'.newPtr i (Nat.not_lt.mp hlt) hi'
  · have hn := h'.n
    rcases h'.torn i hi with hmem | ⟨hlt, hne, p, hp, hmaddr, hopen⟩
    · refine (h.torn i hmem).imp_right fun ⟨hlt, hne, p, hp, hmaddr, hopen⟩ => ?_
      exact ⟨hlt, hne, p, hp, hmaddr, fun ho => (hopen ho).trans_le hn⟩
    · by_cases hlt' : i < v.used
      · rw [h.ptrSnapshot i hlt'] at hne
        rw [h.maddr i hlt', h.addr] at hmaddr
        refine .inr ⟨hlt', hne, p, hp, hmaddr, fun ho => ?_⟩
        rcases h.kept p ⟨i, hlt', hmaddr⟩ ho with ho' | hlt
        · exact h.n.trans_lt (hopen ho')
        · exact hlt.trans_le hn
      · exact (hne (h.newPtr i (Nat.not_lt.mp hlt') hlt)).elim
  · rcases h'.free p hp with hfree | hn
    · exact h.free p hfree
    · exact .inr (h.n.trans hn)
  · rw [h'.filePage p hp, h.filePage p (h'.rests p hp)]
  · rw [h'.bytes p hp hW, h.bytes p (h'.rests p hp) hW]
  · rcases h'.closed p hp hopen with hopen' | hdirty
    · rcases h.closed p (h'.rests p hp) hopen' with hopen'' | hdirty
      · exact .inl hopen''
      · exact .inr (h'.dirty hused' hdirty)
    · exact .inr hdirty
  · rcases h'.free p hp with hfree | hn
    · exact h'.opened p hp (h.opened p hfree hopen)
    · have := hopen.1
      have := h.n
      omega
  · rcases h.kept p hp hopen with hopen' | hlt
    · exact (h'.kept p (h.isData hp) hopen').imp_right fun hlt => h.n.trans_lt hlt
    · exact .inr (hlt.trans_le h'.n)

end Pm

/-! ## Stores to the metadata -/

namespace Pm

variable {s s' : Pm} {v v' : View} {lost lost' add drop : Multiset ℕ} {i p : ℕ} {e : SlabEntry}

theorem Guarded.congr (h : s.Guarded v) (hprot : s'.prot = s.prot) (hpa : s'.pa = s.pa)
    (hplaces : v'.toPlaces = v.toPlaces) (hdata : ∀ p, v'.IsData p ↔ v.IsData p) : s'.Guarded v' := by
  have hres : ∀ p, s'.Resets p ↔ s.Resets p := by
    intro p
    unfold Resets
    rw [hpa]
  have hfix : s'.IsFixed ↔ s.IsFixed := by
    unfold IsFixed
    rw [hpa]
  refine ⟨fun p hp => ?_, fun p hp hd hf => ?_, fun p hp => ?_⟩
  · rw [hplaces] at hp
    rw [hprot]
    exact h.metadata p hp
  · rw [hplaces] at hp
    rw [hdata] at hd
    rw [hprot, hres]
    exact h.synced p hp hd (hfix.mp hf)
  · rw [hres]
    exact h.data p ((hdata p).mp hp)

theorem SameData.restBytes (h : s.SameData v.toPlaces s') {p : ℕ} (hp : p < v.n → ¬ v.IsMeta p) :
    s'.filePage v.n p = s.filePage v.n p ∧ s'.restBytes v.n p = s.restBytes v.n p := by
  obtain ⟨file, sizes, hs'⟩ := h.same
  have hf : s'.filePage v.n p = s.filePage v.n p := by
    unfold Pm.filePage
    rw [h.vmap]
  have hraw : s'.bytesOf = s.bytesOf := by
    rw [hs']
    rfl
  refine ⟨hf, ?_⟩
  unfold Pm.restBytes
  rw [hf, hraw]
  apply congrArg
  unfold Pm.filePage
  by_cases hlt : p < v.n
  · rw [if_pos hlt]
    have := h.page p hlt (hp hlt)
    unfold Pm.page at this
    rwa [h.vmap] at this
  · rw [if_neg hlt]
    exact h.beyond p (Nat.not_lt.mp hlt)

/-- Two steps, with the invariant in between. -/
theorem Holds.trans {s'' : Pm} {v'' : View} {W : Set ℕ} (h : s'.Holds v' lost)
    (h₁ : s.Evolves v W s' v') (h₂ : s'.Evolves v' W s'' v'') (hcap : v.cap ≤ v'.cap) :
    s.Evolves v W s'' v'' :=
  h₁.trans h₂ hcap (h.ok.used.trans h.ok.taken)

/-- A page at rest is no metadata page. -/
theorem Holds.rests_notMeta (h : s.Holds v lost) {p : ℕ} (hp : v.Rests p) (hlt : p < v.n) :
    ¬ v.IsMeta p := by
  rcases hp with hfree | hn | hdata
  · exact h.balanced.free_notMeta hfree
  · omega
  · exact (h.ok.isData_facts h.linked h.balanced hdata).2.2.1

theorem isData_congr (hplaces : v'.toPlaces = v.toPlaces) (hused : v'.used = v.used)
    (hmaddr : ∀ i < v.used, (v'.entry i).dataCurrent.maddr = (v.entry i).dataCurrent.maddr) (p : ℕ) :
    v'.IsData p ↔ v.IsData p := by
  unfold View.IsData
  rw [hused, hplaces]
  exact exists_congr fun i => and_congr_right fun hi => by rw [hmaddr i hi]

/-- Stores to metadata pages that keep the entries in use and their data pages. -/
theorem Holds.rewrite (h : s.Holds v lost) (hs : s'.Shows v') (hm : s.SameData v.toPlaces s')
    (hplaces : v'.toPlaces = v.toPlaces) (hused : v'.used = v.used) (hl : v'.Linked) (hok : v'.Ok) (hb : v'.Balanced lost')
    (hmaddr : ∀ i < v.used, (v'.entry i).dataCurrent.maddr = (v.entry i).dataCurrent.maddr)
    (hpaired : s.IsFixed → v.Paired → v'.Paired)
    (hladdr : ∀ b < v'.linked, (v'.siCurrent b).laddr = s.vmap (v.bucketPage b) * pageSize) :
    s'.Holds v' lost' := by
  obtain ⟨file, sizes, hs'⟩ := hm.same
  refine ⟨hs, hl, hok, h.guarded.congr hm.prot hm.pa hplaces (isData_congr hplaces hused hmaddr), hb,
    fun hf => ?_, fun b hb => ?_, ?_, ?_⟩
  · unfold IsFixed at hf
    rw [hm.pa] at hf
    exact hpaired hf (h.paired hf)
  · rw [hladdr b hb, hm.vmap, hplaces]
  · rw [hs', hplaces]
    exact h.nextBucket
  · rw [hs', hused]
    exact h.nextEntry

/-- Stores to metadata pages that keep what is committed, and the dirty entries. -/
theorem Holds.update (h : s.Holds v lost) (hs : s'.Shows v') (hm : s.SameData v.toPlaces s')
    (hplaces : v'.toPlaces = v.toPlaces) (hused : v'.used = v.used) (hl : v'.Linked) (hok : v'.Ok) (hb : v'.Balanced lost')
    (hmaddr : ∀ i < v.used, (v'.entry i).dataCurrent.maddr = (v.entry i).dataCurrent.maddr)
    (hsize : ∀ i < v.used, (v'.entry i).seSize = (v.entry i).seSize) {W : Set ℕ}
    (hbitmap : ∀ i < v.used, ∀ p, (v.entry i).dataCurrent.maddr = v.addr p → p ∉ W →
      (v'.entry i).dataCurrent.bitmap = (v.entry i).dataCurrent.bitmap)
    (hptr : ∀ i < v.used, (v'.entry i).ptrSnapshot = (v.entry i).ptrSnapshot)
    (htorn : ∀ i ∈ v'.torn, i ∈ v.torn ∨ i < v.used ∧ (v.entry i).ptrSnapshot.maddr ≠ 0 ∧
      ∃ p ∈ W, (v.entry i).dataCurrent.maddr = v.addr p ∧ ¬ s.Open v.n p)
    (hvec : ∀ r ∈ v.dir.sdVector.items, r ∈ v'.dir.sdVector.items)
    (hpaired : s.IsFixed → v.Paired → v'.Paired)
    (hladdr : ∀ b < v'.linked, (v'.siCurrent b).laddr = s.vmap (v.bucketPage b) * pageSize) :
    s'.Holds v' lost' ∧ s.Evolves v W s' v' := by
  have hrests : ∀ p, v'.Rests p ↔ v.Rests p := by
    intro p
    unfold View.Rests
    rw [isData_congr hplaces hused hmaddr, hplaces]
  refine ⟨h.rewrite hs hm hplaces hused hl hok hb hmaddr hpaired hladdr,
    ⟨by rw [hplaces], by rw [hplaces], hused.ge, fun i _ => by rw [hplaces], hmaddr, hsize, hbitmap,
      hptr, fun i hi hi' => (by omega), fun i hi => ?_, hvec,
      fun p hp => .inl (by rwa [hplaces] at hp), fun p => (hrests p).mp, fun p hp => ?_,
      fun p hp _ => ?_, fun p hp hopen => ?_, fun p hp hopen => ?_, fun p hp hopen => .inl ?_⟩⟩
  · refine (htorn i hi).imp_right fun ⟨hlt, hne, p, hp, hmaddr, hopen⟩ => ?_
    exact ⟨hlt, hne, p, hp, hmaddr, fun ho => (hopen ho).elim⟩
  · rw [hplaces]
    exact (hm.restBytes (h.rests_notMeta ((hrests p).mp hp))).1
  · rw [hplaces]
    exact (hm.restBytes (h.rests_notMeta ((hrests p).mp hp))).2
  · left
    unfold Open at hopen ⊢
    rwa [hplaces, hm.prot] at hopen
  · unfold Open at hopen ⊢
    rw [hplaces, hm.prot]
    exact hopen
  · unfold Open at hopen ⊢
    rw [hplaces, hm.prot]
    exact hopen

end Pm

/-! ## Links -/

namespace View

variable {s s' : Pm} {v v' : View} {lost lost' add drop : Multiset ℕ} {i p : ℕ} {e : SlabEntry}

theorem Linked.relink (h : v.Linked) (hr : v.Relinked v') : v'.Linked := by
  obtain ⟨q, hdir⟩ := hr.dir
  have hcur : ∀ b, v'.siCurrent b = v.siCurrent b := fun b => by
    unfold View.siCurrent
    rw [hr.inner]
  have hsnap : ∀ b, v'.siSnapshot b = v.siSnapshot b := fun b => by
    unfold View.siSnapshot
    rw [hr.inner]
  refine ⟨?_, ?_, ?_, ?_, fun i hi => ?_, ?_, ?_, ?_, ?_, fun j hj => ?_, fun j hj => ?_,
    fun j hj => ?_, ?_, ?_, fun j hj => ?_, fun b hb => ?_, fun b hb => ?_, fun j hj => ?_,
    fun b hb => ?_⟩
  · rw [hr.cont, hr.addr]
    exact h.current
  · rw [hr.cont]
    exact h.committed
  · rw [hdir]
    exact h.sdIndex
  · rw [hdir, hr.addr]
    exact h.sdCurrent
  · rw [hdir]
    exact h.sdOther i hi
  · rw [hdir, hr.base]
    exact h.sdSnapshot
  · rw [hdir]
    exact h.sdSame
  · rw [hr.outer, hr.places]
    exact h.soIndex
  · rw [hr.places]
    exact h.inners
  · rw [hr.outer] at hj ⊢
    rw [hr.places]
    exact h.soCurrent j hj
  · rw [hr.outer] at hj ⊢
    rw [hr.base]
    exact h.soSnapshot j hj
  · rw [hr.outer] at hj ⊢
    exact h.soSame j hj
  · rw [hr.linked, hr.places]
    exact h.linked
  · rw [hr.outer, hr.places]
    exact h.buckets
  · rw [hr.places] at hj
    rw [hr.inner, hr.linked]
    exact h.siIndex j hj
  · rw [hr.linked] at hb
    rw [hcur, hr.places]
    exact h.siCurrent b hb
  · rw [hr.linked] at hb
    rw [hsnap, hr.base]
    exact h.siSnapshot b hb
  · rw [hr.places] at hj
    rw [hr.inner]
    exact h.siOther j hj
  · rw [hr.places] at hb
    rw [hr.sbId]
    exact h.sbId b hb

theorem Paired.relink (h : v.Paired) (hr : v.Relinked v') : v'.Paired := by
  obtain ⟨q, hdir⟩ := hr.dir
  refine ⟨?_, ?_, ?_, fun j hj => ?_, fun j hj => ?_, fun b hb => ?_, fun b hb => ?_,
    fun i hi => ?_⟩
  · rw [hr.cont, hr.base]
    exact h.cont
  · rw [hdir, hr.base]
    exact h.sdCurrent
  · rw [hdir, hr.base]
    exact h.sdSnapshot
  · rw [hr.outer] at hj ⊢
    rw [hr.base]
    exact h.soCurrent j hj
  · rw [hr.outer] at hj ⊢
    rw [hr.base]
    exact h.soSnapshot j hj
  · rw [hr.linked] at hb
    unfold View.siCurrent
    rw [hr.inner, hr.base]
    exact h.siCurrent b hb
  · rw [hr.linked] at hb
    unfold View.siSnapshot
    rw [hr.inner, hr.base]
    exact h.siSnapshot b hb
  · rw [hr.used] at hi
    obtain ⟨r, he⟩ := hr.entry i
    rw [he, hr.base, hr.torn]
    have he := h.entry i hi
    exact ⟨he.dataCurrent, he.dataSnapshot, he.ptrCurrent, he.ptrSnapshot⟩

theorem Relinked.pages (h : v.Relinked v') (i : ℕ) :
    (v'.entry i).pages v'.base = (v.entry i).pages v.base := by
  obtain ⟨r, hr⟩ := h.entry i
  rw [hr, h.base]
  rfl

theorem Balanced.relink (h : v.Balanced lost) (hr : v.Relinked v') : v'.Balanced lost := by
  obtain ⟨q, hdir⟩ := hr.dir
  refine h.same (fun y _ => ?_) (by rw [hr.places]) (by rw [hr.places])
  cases y with
  | metadata =>
    show v'.metaPages = v.metaPages
    unfold metaPages
    rw [hr.places]
  | outerSlot =>
    unfold held
    rw [hdir, hr.base]
  | innerSlot j =>
    unfold held
    rw [hr.outer, hr.base]
  | bucketSlot b =>
    unfold held siCurrent siSnapshot
    rw [hr.inner, hr.base, hr.linked]
  | entry i =>
    unfold held
    dsimp only
    rw [hr.pages, hr.used]

theorem Ok.relink (h : v.Ok) (hr : v.Relinked v')
    (hfirst : ∀ n, v.RefsTaken v.taken (v'.queue (.size n)).first)
    (hlast : ∀ n, v.RefsTaken v.taken (v'.queue (.size n)).last)
    (hsize : ∀ n i, (v'.queue (.size n)).first = some (v.ref i) → i < v.used →
      (v.entry i).seSize = n) : v'.Ok := by
  obtain ⟨q, hdir⟩ := hr.dir
  have hrefs : ∀ r, v'.RefsTaken v'.taken r ↔ v.RefsTaken v.taken r := by
    intro r
    unfold RefsTaken
    rw [hr.taken]
    simp only [hr.ref]
  refine ⟨?_, ?_, fun r => ?_, fun i hi => ?_, fun i hi => ?_, fun i hi hc => ?_,
    fun n => (hrefs _).mpr (hfirst n), fun n => (hrefs _).mpr (hlast n), fun n i hf hi => ?_,
    fun r hmem => ?_⟩
  · rw [hr.used, hr.taken]
    exact h.used
  · rw [hr.taken, hr.cap]
    exact h.taken
  · rw [hdir, hr.used]
    simp only [hr.ref]
    exact h.root r
  · rw [hr.used] at hi
    obtain ⟨r, he⟩ := hr.entry i
    rw [he, hr.base]
    have he := h.entry i hi
    exact ⟨he.cur, he.snap, he.laddr, he.size, he.ptr, he.clean⟩
  · rw [hr.used] at hi
    obtain ⟨r, he⟩ := hr.entry i
    rw [he]
    exact h.seId i hi
  · rw [hr.used] at hi
    rw [hr.cap] at hc
    obtain ⟨r, he⟩ := hr.entry i
    rw [he]
    exact h.blank i hi hc
  · rw [hr.ref] at hf
    rw [hr.used] at hi
    obtain ⟨r, he⟩ := hr.entry i
    rw [he]
    exact hsize n i hf hi
  · rw [hdir] at hmem
    rw [hr.used]
    simp only [hr.ref]
    exact h.vector r hmem

/-! ## One entry -/

theorem Linked.setEntry (h : v.Linked) (i : ℕ) (e : SlabEntry) : (v.setEntry i e).Linked :=
  ⟨h.current, h.committed, h.sdIndex, h.sdCurrent, h.sdOther, h.sdSnapshot, h.sdSame, h.soIndex,
    h.inners, h.soCurrent, h.soSnapshot, h.soSame, h.linked, h.buckets, h.siIndex, h.siCurrent, h.siSnapshot,
    h.siOther, fun b hb => by
      rw [setEntry_sbId]
      exact h.sbId b hb⟩

theorem setEntry_cases {P : ℕ → SlabEntry → Prop} (he : P i e)
    (hother : ∀ j, j ≠ i → P j (v.entry j)) (j : ℕ) : P j ((v.setEntry i e).entry j) := by
  by_cases hj : j = i
  · rw [hj, setEntry_entry]
    exact he
  · rw [setEntry_entry_of_ne _ _ hj]
    exact hother j hj

theorem Ok.setEntry (h : v.Ok) (hi : i < v.used) (he : e.Ok v.base) (hid : e.seId = i)
    (hsize : e.seSize = (v.entry i).seSize) : (v.setEntry i e).Ok := by
  refine ⟨h.used, h.taken, h.root, ?_, ?_, ?_, h.first, h.last, ?_, h.vector⟩
  · exact fun j => setEntry_cases (P := fun j x => j < v.used → x.Ok v.base) (fun _ => he)
      (fun j _ => h.entry j) j
  · exact fun j => setEntry_cases (P := fun j x => j < v.used → x.seId = j) (fun _ => hid)
      (fun j _ => h.seId j) j
  · exact fun j => setEntry_cases (P := fun j x => v.used ≤ j → j < v.cap → x.Blank)
      (fun hle => absurd hi (Nat.not_lt.mpr hle)) (fun j _ => h.blank j) j
  · intro n
    exact fun j => setEntry_cases (P := fun j x => (v.queue (.size n)).first = some (v.ref j) →
      j < v.used → x.seSize = n) (fun hf hj => hsize.trans (h.size n i hf hj))
      (fun j _ => h.size n j) j

theorem Paired.setEntry (h : v.Paired) (he : e.Paired v.base (i ∈ v.torn)) :
    (v.setEntry i e).Paired :=
  ⟨h.cont, h.sdCurrent, h.sdSnapshot, h.soCurrent, h.soSnapshot, h.siCurrent, h.siSnapshot,
    fun j => setEntry_cases (P := fun j x => j < v.used → x.Paired v.base (j ∈ v.torn)) (fun _ => he)
      (fun j _ => h.entry j) j⟩

/-- The entry `i` takes up the pages `add` and leaves the pages `drop`. -/
theorem Balanced.setEntry (h : v.Balanced (lost + add)) (hi : i < v.used) (hx : .entry i ∈ holders)
    (he : e.pages v.base + drop = (v.entry i).pages v.base + add) :
    (v.setEntry i e).Balanced (lost + drop) := by
  refine h.move hx ?_ (fun y _ hy => ?_) rfl rfl
  · unfold held
    dsimp only
    rw [if_pos (show i < (v.setEntry i e).used from hi), if_pos hi, setEntry_entry]
    exact he
  · cases y with
    | entry j =>
      have hj : j ≠ i := fun hj => hy (congrArg _ hj)
      unfold held
      dsimp only
      rw [setEntry_entry_of_ne _ _ hj]
      rfl
    | _ => rfl

end View

theorem Pm.Holds.setEntry {s s' : Pm} {v : View} {lost add drop : Multiset ℕ} {i : ℕ} {e : SlabEntry}
    (h : s.Holds v (lost + add)) (hs : s'.Shows (v.setEntry i e)) (hm : s.SameData v.toPlaces s')
    (hi : i < v.used) (he : e.Ok v.base) (hid : e.seId = (v.entry i).seId)
    (hmaddr : e.dataCurrent.maddr = (v.entry i).dataCurrent.maddr)
    (hsize : e.seSize = (v.entry i).seSize) {W : Set ℕ}
    (hbitmap : ∀ p, (v.entry i).dataCurrent.maddr = v.addr p → p ∉ W →
      e.dataCurrent.bitmap = (v.entry i).dataCurrent.bitmap)
    (hptr : e.ptrSnapshot = (v.entry i).ptrSnapshot)
    (hpaired : s.IsFixed → (v.entry i).Paired v.base (i ∈ v.torn) → e.Paired v.base (i ∈ v.torn))
    (hp : e.pages v.base + drop = (v.entry i).pages v.base + add) :
    s'.Holds (v.setEntry i e) (lost + drop) ∧ s.Evolves v W s' (v.setEntry i e) := by
  refine h.update hs hm rfl rfl (h.linked.setEntry i e)
    (h.ok.setEntry hi he (hid.trans (h.ok.seId i hi)) hsize)
    (h.balanced.setEntry hi (h.holder_mem hi) hp) ?_ ?_ ?_ ?_ (fun _ ht => .inl ht) (fun _ hr => hr)
    (fun hf hpair => hpair.setEntry (hpaired hf (hpair.entry i hi))) h.laddr
  · exact fun j _ => View.setEntry_cases
      (P := fun j x => x.dataCurrent.maddr = (v.entry j).dataCurrent.maddr) hmaddr
      (fun _ _ => rfl) j
  · exact fun j _ => View.setEntry_cases (P := fun j x => x.seSize = (v.entry j).seSize) hsize
      (fun _ _ => rfl) j
  · exact fun j _ => View.setEntry_cases (P := fun j x => ∀ p,
      (v.entry j).dataCurrent.maddr = v.addr p → p ∉ W →
        x.dataCurrent.bitmap = (v.entry j).dataCurrent.bitmap) hbitmap (fun _ _ _ _ _ => rfl) j
  · exact fun j _ => View.setEntry_cases (P := fun j x => x.ptrSnapshot = (v.entry j).ptrSnapshot)
      hptr (fun _ _ => rfl) j

theorem Pm.Holds.relink {s s' : Pm} {v v' : View} {lost : Multiset ℕ} (h : s.Holds v lost)
    (hs : s'.Shows v') (hm : s.SameData v.toPlaces s') (hr : v.Relinked v')
    (hfirst : ∀ n, v.RefsTaken v.taken (v'.queue (.size n)).first)
    (hlast : ∀ n, v.RefsTaken v.taken (v'.queue (.size n)).last)
    (hsize : ∀ n i, (v'.queue (.size n)).first = some (v.ref i) → i < v.used →
      (v.entry i).seSize = n) :
    s'.Holds v' lost ∧ s.Evolves v ∅ s' v' := by
  obtain ⟨q, hdir⟩ := hr.dir
  refine h.update hs hm hr.places hr.used (h.linked.relink hr)
    (h.ok.relink hr hfirst hlast hsize) (h.balanced.relink hr) (fun i _ => ?_) (fun i _ => ?_)
    (fun i _ _ _ _ => ?_) (fun i _ => ?_) (fun i hi => .inl (by rwa [hr.torn] at hi)) (fun r hmem => by rwa [hdir])
    (fun _ hpair => hpair.relink hr) (fun b hb => ?_)
  · obtain ⟨r, he⟩ := hr.entry i
    rw [he]
  · obtain ⟨r, he⟩ := hr.entry i
    rw [he]
  · obtain ⟨r, he⟩ := hr.entry i
    rw [he]
  · obtain ⟨r, he⟩ := hr.entry i
    rw [he]
  · rw [hr.linked] at hb
    unfold View.siCurrent
    rw [hr.inner]
    exact h.laddr b hb

end LibPM

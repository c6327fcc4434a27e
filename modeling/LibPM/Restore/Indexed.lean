import LibPM.Restore.Queues

/-!
# The indexes of a mapped tree

`slab_map` builds the tree of entries, the free list and the lists of sizes anew. Each entry has one
link and one place in the tree of entries, so the indexes are right when `index_slab_entry` runs once
on each entry of the current tree (`IndexesExactly.index`).
-/

namespace LibPM

open Recorded Recorded.Prog

/-- An entry with room for an object. -/
def Pm.NotFull (s : Pm) (r : EntryRef) : Prop := Returns (slabEntryFull r) s false s

/-- The tree of entries holds the initialised entries of `T`. -/
structure Pm.RootsExactly (s : Pm) (H : Heads) (T : List EntryRef) : Prop where
  nodup : H.roots.Nodup
  mem : ∀ r, r ∈ H.roots ↔ r ∈ T ∧ ∃ e, s.readEntry r = some e ∧ e.isInit = true

/-- The queue `w` is the list `l` of the entries of `T` that belong there, and one of a size begins
with an entry that is not full if it has any. -/
structure Pm.QueueExactly (s : Pm) (H : Heads) (T : List EntryRef) (w : QueueName)
    (l : List EntryRef) : Prop where
  queue : Tailq.Queue s.link (H.head w).first (H.head w).last l
  mem : ∀ r, r ∈ l ↔ r ∈ T ∧ ∃ e, s.readEntry r = some e ∧ w.Takes e
  notFull : w ≠ .free → ∀ r ∈ l, s.NotFull r → ∃ h, (H.head w).first = some h ∧ s.NotFull h

/-- The indexes of the directory at `sd` hold exactly the entries of `T`. -/
def Pm.IndexesExactly (s : Pm) (sd : ℕ) (T : List EntryRef) : Prop :=
  ∃ H, s.heads sd = some H ∧ s.RootsExactly H T ∧ ∀ w, ∃ l, s.QueueExactly H T w l

section

variable {s s' : Pm} {sd : ℕ} {T l l' : List EntryRef} {r : EntryRef} {e : SlabEntry} {H H' : Heads}
  {w w' : QueueName}

/-! ## Entries that keep all but their links -/

/-- The entry, but for its link, is as it was. -/
def Pm.SameEntry (s s' : Pm) (r : EntryRef) : Prop :=
  (s'.readEntry r).map SlabEntry.unlinked = (s.readEntry r).map SlabEntry.unlinked

theorem Pm.SameEntry.exists (h : s.SameEntry s' r) (he : s.readEntry r = some e) :
    ∃ e', s'.readEntry r = some e' ∧ e'.unlinked = e.unlinked := by
  unfold Pm.SameEntry at h
  rw [he] at h
  exact Option.map_eq_some_iff.mp h

theorem Pm.SameEntry.symm (h : s.SameEntry s' r) : s'.SameEntry s r := Eq.symm h

/-- What holds of the entry, if the link does not matter. -/
theorem Pm.SameEntry.iff (h : s.SameEntry s' r) {P : SlabEntry → Prop}
    (hP : ∀ e e', e'.unlinked = e.unlinked → P e → P e') :
    (∃ e, s'.readEntry r = some e ∧ P e) ↔ ∃ e, s.readEntry r = some e ∧ P e := by
  constructor
  · rintro ⟨e, he, hp⟩
    obtain ⟨e', he', hu⟩ := h.symm.exists he
    exact ⟨e', he', hP e e' hu hp⟩
  · rintro ⟨e, he, hp⟩
    obtain ⟨e', he', hu⟩ := h.exists he
    exact ⟨e', he', hP e e' hu hp⟩

theorem QueueName.Takes.unlinked {e' : SlabEntry} (h : w.Takes e) (hu : e'.unlinked = e.unlinked) :
    w.Takes e' := by
  have hi := isInit_of_unlinked hu
  have hsize : e'.seSize = e.seSize := (congrArg SlabEntry.seSize hu :)
  cases w with
  | free => exact fun h' => h (hi ▸ h')
  | ofSize n => exact ⟨hi.trans h.1, hsize.trans h.2⟩

theorem Pm.Relinks.sameEntry (h : s.Relinks s') (hs : s.Reopened) (r : EntryRef) :
    s.SameEntry s' r := by
  have hs' := h.1.reopened hs
  have hvp := h.1.vpage r.sb
  unfold Pm.SameEntry Pm.readEntry Pm.readBucket Pm.pageAt Pm.fpage
  rw [hvp, hs.vmap, hs'.vmap]
  split_ifs
  · cases hv : s.vpage r.sb with
    | none => rfl
    | some q =>
      have hq := h.2 q
      dsimp only [Option.map_some, id]
      generalize s.file q = p at hq
      generalize s'.file q = p' at hq
      cases p with
      | bucket b =>
        cases p' with
        | bucket b' => exact congrArg some (hq.2.2 r.idx)
        | _ => cases hq
      | dir d =>
        cases p' with
        | dir d' => rfl
        | _ => cases hq
      | _ =>
        obtain rfl : p' = _ := hq
        rfl
  · rfl
  · rfl

/-- An entry has as much room as before if its data page is as before. -/
theorem Pm.SameEntry.notFull_iff (h : s.SameEntry s' r) (hbytes : ∀ e, s.readEntry r = some e →
    ∀ k < pageSize, s'.byteAt (e.dataCurrent.maddr + k) = s.byteAt (e.dataCurrent.maddr + k)) :
    s'.NotFull r ↔ s.NotFull r := by
  have key : ∀ {x y : Pm} {e e' : SlabEntry}, x.readEntry r = some e → y.readEntry r = some e' →
      e'.unlinked = e.unlinked → (∀ k < pageSize, y.byteAt (e.dataCurrent.maddr + k) =
        x.byteAt (e.dataCurrent.maddr + k)) → x.NotFull r → y.NotFull r :=
    fun he he' hu hb hx => (slabEntryFull_congr he he' hu hb hx).2
  cases he : s.readEntry r with
  | none =>
    have he' : s'.readEntry r = none := by
      cases he' : s'.readEntry r with
      | none => rfl
      | some e' =>
        obtain ⟨e, he₁, -⟩ := h.symm.exists he'
        rw [he] at he₁
        cases he₁
    have hno : ∀ {x : Pm}, x.readEntry r = none → ¬ x.NotFull r := by
      intro x hx hn
      unfold Pm.NotFull slabEntryFull entryCapacity at hn
      simp only [returns_bind, returns_loadEntry] at hn
      obtain ⟨_, _, ⟨_, _, ⟨he, -⟩, -⟩, -⟩ := hn
      rw [hx] at he
      cases he
    exact iff_of_false (hno he') (hno he)
  | some e =>
    obtain ⟨e', he', hu⟩ := h.exists he
    have hdc : e'.dataCurrent = e.dataCurrent := (congrArg SlabEntry.dataCurrent hu :)
    refine ⟨key he' he hu.symm fun k hk => ?_, key he he' hu (hbytes e he)⟩
    rw [hdc]
    exact (hbytes e he k hk).symm

/-! ## One entry more -/

theorem Pm.QueueExactly.of_mem (h : s.QueueExactly H T w l) (hr : r ∈ l) :
    r ∈ T ∧ ∃ e, s.readEntry r = some e ∧ w.Takes e := (h.mem r).mp hr

/-- An entry joins `T`, and another queue. -/
theorem Pm.QueueExactly.other (h : s.QueueExactly H T w' l') (hl : s.QueueExactly H T w l)
    (hw : w' ≠ w) (hr : r ∉ T) (he : s.readEntry r = some e) (htakes : w.Takes e)
    (hent : ∀ y, s.SameEntry s' y) (hhead : H'.head w' = H.head w')
    (hlink : ∀ y, y ≠ r → y ∉ l → s'.link y = s.link y)
    (hfull : ∀ y ∈ T, (∃ e, s.readEntry y = some e ∧ e.isInit = true) →
      (s'.NotFull y ↔ s.NotFull y)) : s'.QueueExactly H' (T ++ [r]) w' l' := by
  have htake : ∀ y, (∃ e, s'.readEntry y = some e ∧ w'.Takes e) ↔
      ∃ e, s.readEntry y = some e ∧ w'.Takes e :=
    fun y => (hent y).iff fun _ _ hu ht => ht.unlinked hu
  have hfull' : w' ≠ .free → ∀ y ∈ l', s'.NotFull y ↔ s.NotFull y := by
    intro hfree y hy
    obtain ⟨hyT, ey, hey, hty⟩ := h.of_mem hy
    refine hfull y hyT ⟨ey, hey, ?_⟩
    cases w' with
    | free => exact (hfree rfl).elim
    | ofSize n => exact hty.1
  refine ⟨?_, fun y => ?_, fun hfree y hy hn => ?_⟩
  · rw [hhead]
    refine h.queue.congr fun y hy => hlink y (fun hyr => hr (hyr ▸ (h.of_mem hy).1)) fun hyl => ?_
    obtain ⟨-, ey, hey, hty⟩ := h.of_mem hy
    obtain ⟨-, ey', hey', hty'⟩ := hl.of_mem hyl
    obtain rfl := Option.some.inj (hey.symm.trans hey')
    exact hw (hty.unique hty')
  · rw [h.mem y, htake y, List.mem_append, List.mem_singleton]
    refine ⟨fun hy => ⟨.inl hy.1, hy.2⟩, fun hy => ⟨hy.1.resolve_right fun hyr => ?_, hy.2⟩⟩
    obtain ⟨-, ey, hey, hty⟩ := hy
    rw [hyr, he] at hey
    obtain rfl := Option.some.inj hey
    exact hw (hty.unique htakes)
  · obtain ⟨x, hx, hn'⟩ := h.notFull hfree y hy ((hfull' hfree y hy).mp hn)
    have hxl : x ∈ l' := List.mem_of_mem_head? (Option.mem_def.mpr (h.queue.first_eq.symm.trans hx))
    exact ⟨x, hhead ▸ hx, (hfull' hfree x hxl).mpr hn'⟩

/-- An entry joins `T`, and this queue. -/
theorem Pm.QueueExactly.grown (hl : s.QueueExactly H T w l) (he : s.readEntry r = some e)
    (htakes : w.Takes e) (hent : ∀ y, s.SameEntry s' y)
    (hq : Tailq.Queue s'.link (H'.head w).first (H'.head w).last l') (hmem : ∀ y, y ∈ l' ↔ y ∈ l ∨ y = r)
    (hfirst : w ≠ .free → ∀ y ∈ l', s'.NotFull y → ∃ x, l'.head? = some x ∧ s'.NotFull x) :
    s'.QueueExactly H' (T ++ [r]) w l' := by
  refine ⟨hq, fun y => ?_, fun hfree y hy hn => hq.first_eq ▸ hfirst hfree y hy hn⟩
  rw [hmem y, hl.mem y, (hent y).iff fun _ _ hu ht => ht.unlinked hu, List.mem_append,
    List.mem_singleton]
  constructor
  · rintro (⟨hy, hty⟩ | rfl)
    · exact ⟨.inl hy, hty⟩
    · exact ⟨.inr rfl, e, he, htakes⟩
  · rintro ⟨hy | rfl, hty⟩
    · exact .inl ⟨hy, hty⟩
    · exact .inr rfl

theorem Pm.RootsExactly.same (h : s.RootsExactly H T) (hr : H'.roots = H.roots)
    (he : s.readEntry r = some e) (hi : ¬ e.isInit = true) (hent : ∀ y, s.SameEntry s' y) :
    s'.RootsExactly H' (T ++ [r]) := by
  refine ⟨hr ▸ h.nodup, fun y => ?_⟩
  rw [hr, h.mem y, (hent y).iff fun _ _ hu ht => (isInit_of_unlinked hu).trans ht, List.mem_append,
    List.mem_singleton]
  refine ⟨fun hy => ⟨.inl hy.1, hy.2⟩, fun hy => ⟨hy.1.resolve_right fun hyr => ?_, hy.2⟩⟩
  obtain ⟨-, ey, hey, hty⟩ := hy
  rw [hyr, he] at hey
  exact hi (Option.some.inj hey ▸ hty)

theorem Pm.RootsExactly.cons (h : s.RootsExactly H T) (hr : H'.roots = r :: H.roots) (hrT : r ∉ T)
    (he : s.readEntry r = some e) (hi : e.isInit = true) (hent : ∀ y, s.SameEntry s' y) :
    s'.RootsExactly H' (T ++ [r]) := by
  refine ⟨hr ▸ List.nodup_cons.mpr ⟨fun hy => hrT ((h.mem r).mp hy).1, h.nodup⟩, fun y => ?_⟩
  rw [hr, List.mem_cons, h.mem y, (hent y).iff fun _ _ hu ht => (isInit_of_unlinked hu).trans ht,
    List.mem_append, List.mem_singleton]
  constructor
  · rintro (rfl | hy)
    · exact ⟨.inr rfl, e, he, hi⟩
    · exact ⟨.inl hy.1, hy.2⟩
  · rintro ⟨hy | rfl, hty⟩
    · exact .inr ⟨hy, hty⟩
    · exact .inl rfl

/-- The empty queue at the beginning of a size, and the insertion by room after that. -/
theorem Inserted.bySize {size : ℕ} (hs : s.Reopened) (hH : s.heads sd = some H)
    (hq : s.QueueExactly H T (.ofSize size) l) (hrT : r ∉ T) (he : s.readEntry r = some e) {s₂ : Pm}
    {u : Unit} (hr : Returns (do
      match s.sizes.find? (·.esSize == size) with
      | some _ => do
        let full ← slabEntryFull r
        if full = true then stailqInsertTail (esListAt size) r
        else stailqInsertHead (esListAt size) r
      | none => do
        slabEntrySizeInit size
        stailqInsertTail (esListAt size) r : PmProg Unit) s u s₂) :
    ∃ l', Inserted sd (.ofSize size) r l l' H s s₂ ∧ (∀ y, y ∈ l' ↔ y ∈ l ∨ y = r) ∧
      ∀ y ∈ l', s.NotFull y → ∃ x, l'.head? = some x ∧ s.NotFull x := by
  have hrl : r ∉ l := fun h => hrT (hq.of_mem h).1
  have hread : ∀ y ∈ l, s.readEntry y ≠ none := by
    intro y hy
    obtain ⟨-, ey, hey, -⟩ := hq.of_mem hy
    rw [hey]
    exact Option.some_ne_none _
  cases hfind : s.sizes.find? (·.esSize == size) with
  | none =>
    rw [hfind] at hr
    dsimp only at hr
    obtain ⟨_, s₁, h₁, h₂⟩ := returns_bind.mp hr
    obtain ⟨hs₁, hread₁, H₁, hH₁, hroots₁, hhead₁⟩ := heads_slabEntrySizeInit hs hH hfind h₁
    have hlink₁ : s₁.link = s.link := by
      unfold Pm.link
      rw [hread₁]
    have hempty : l = [] := by
      refine hq.queue.eq_nil_iff.mp ?_
      obtain ⟨d, -, rfl⟩ := Pm.exists_dir hH
      unfold Heads.head headsOf
      dsimp only
      rw [hfind]
      rfl
    have hins := Inserted.insertTail (w := .ofSize size) (l := l) hs₁ hH₁ (hread₁ ▸ he)
      (hread₁ ▸ hread) (by rw [hlink₁, hhead₁]; exact hq.queue) hrl h₂
    obtain ⟨hs₂, ⟨H₂, hH₂, hroots₂, hother₂, hqueue₂⟩, hlink₂⟩ := hins
    refine ⟨l ++ [r], ⟨hs₂, ⟨H₂, hH₂, hroots₂.trans hroots₁, fun w' hw' => ?_, hqueue₂⟩,
      fun y hy hyl => (hlink₂ y hy hyl).trans (congrFun hlink₁ y)⟩, fun y => by simp, ?_⟩
    · rw [hother₂ w' hw', hhead₁]
    · rw [hempty]
      intro y hy hn
      obtain rfl := List.mem_singleton.mp hy
      exact ⟨y, rfl, hn⟩
  | some es =>
    rw [hfind] at hr
    dsimp only at hr
    obtain ⟨full, s₁, h₁, h₂⟩ := returns_bind.mp hr
    obtain rfl : s = s₁ := (slabEntryFull_congr he he rfl (fun _ _ => rfl) h₁).1
    cases full with
    | true =>
      have hfull : ¬ s.NotFull r := fun hn => by
        have := (h₁.unique hn).1
        cases this
      refine ⟨l ++ [r], Inserted.insertTail (w := .ofSize size) hs hH he hread hq.queue hrl h₂,
        fun y => by simp, fun y hy hn => ?_⟩
      rcases List.mem_append.mp hy with hy | hy
      · obtain ⟨x, hx, hnx⟩ := hq.notFull nofun y hy hn
        have hx' : l.head? = some x := hq.queue.first_eq.symm.trans hx
        refine ⟨x, ?_, hnx⟩
        rw [List.head?_append, hx', Option.some_or]
      · exact (hfull (List.mem_singleton.mp hy ▸ hn)).elim
    | false =>
      refine ⟨r :: l, Inserted.insertHead (w := .ofSize size) hs hH he hq.queue hrl h₂, fun y => ?_,
        fun y hy hn => ⟨r, rfl, h₁⟩⟩
      rw [List.mem_cons, or_comm]

/-- **One more entry is indexed.** -/
theorem Pm.IndexesExactly.index (h : s.IndexesExactly sd T) (hs : s.Reopened) (hrT : r ∉ T)
    (he : s.readEntry r = some e)
    (hkey : e.isInit = true → ∀ y ∈ T, ∀ e', s.readEntry y = some e' → e'.isInit = true →
      e'.dataCurrent.maddr ≠ e.dataCurrent.maddr)
    (hent : ∀ y, s.SameEntry s' y)
    (hfull : ∀ y ∈ T ++ [r], (∃ e, s.readEntry y = some e ∧ e.isInit = true) →
      (s'.NotFull y ↔ s.NotFull y)) {u : Unit}
    (hr : Returns (indexSlabEntry sd r) s u s') : s'.IndexesExactly sd (T ++ [r]) := by
  obtain ⟨H, hH, hroots, hqueues⟩ := h
  have hfullT : ∀ y ∈ T, (∃ e, s.readEntry y = some e ∧ e.isInit = true) →
      (s'.NotFull y ↔ s.NotFull y) := fun y hy => hfull y (List.mem_append_left _ hy)
  unfold indexSlabEntry at hr
  rw [returns_bind] at hr
  obtain ⟨e', _, hload, hr⟩ := hr
  obtain ⟨he', rfl⟩ := returns_loadEntry.mp hload
  obtain rfl := Option.some.inj (he.symm.trans he')
  by_cases hi : e.isInit = true
  · rw [if_pos hi] at hr
    rw [returns_bind] at hr
    obtain ⟨_, _, hget, hr⟩ := hr
    obtain ⟨rfl, rfl⟩ := returns_get.mp hget
    -- the insertion in the list, then the one in the tree
    obtain ⟨s₂, h₂, h₃⟩ : ∃ s₂, Returns (do
        match s.sizes.find? (·.esSize == e.seSize) with
        | some _ => do
          let full ← slabEntryFull r
          if full = true then stailqInsertTail (esListAt e.seSize) r
          else stailqInsertHead (esListAt e.seSize) r
        | none => do
          slabEntrySizeInit e.seSize
          stailqInsertTail (esListAt e.seSize) r : PmProg Unit) s () s₂ ∧
        Returns (usedInsert sd r) s₂ u s' := by
      cases hfind : s.sizes.find? (·.esSize == e.seSize) with
      | none =>
        rw [hfind] at hr
        obtain ⟨_, s₁, h₁, hr⟩ := returns_bind.mp hr
        obtain ⟨_, s₂, h₂, hr⟩ := returns_bind.mp hr
        exact ⟨s₂, h₁.bind h₂, hr⟩
      | some es =>
        rw [hfind] at hr
        obtain ⟨full, s₁, h₁, hr⟩ := returns_bind.mp hr
        rcases returns_ite.mp hr with ⟨hf, hr⟩ | ⟨hf, hr⟩
        · obtain ⟨_, s₂, h₂, hr⟩ := returns_bind.mp hr
          exact ⟨s₂, h₁.bind (returns_ite.mpr (.inl ⟨hf, h₂⟩)), hr⟩
        · obtain ⟨_, s₂, h₂, hr⟩ := returns_bind.mp hr
          exact ⟨s₂, h₁.bind (returns_ite.mpr (.inr ⟨hf, h₂⟩)), hr⟩
    obtain ⟨l, hl⟩ := hqueues (.ofSize e.seSize)
    obtain ⟨l', ⟨hs₂, ⟨H₂, hH₂, hroots₂, hother, hqueue⟩, hlink⟩, hmem, hfirst⟩ :=
      Inserted.bySize hs hH hl hrT he h₂
    have hread := readEntry_usedInsert hs₂ hH₂ h₃
    obtain ⟨e₂, he₂, hu₂⟩ := (hent r).exists he
    have hdc₂ : e₂.dataCurrent = e.dataCurrent := (congrArg SlabEntry.dataCurrent hu₂ :)
    obtain ⟨H', hH', hroots', hhead'⟩ := heads_usedInsert hs₂ hH₂ (hread ▸ he₂)
      (fun y hy e' he' => by
        rw [hroots₂, hroots.mem y] at hy
        obtain ⟨hyT, ey, hey, hyi⟩ := hy
        obtain ⟨ey', hey', hu⟩ := (hent y).exists hey
        obtain rfl := Option.some.inj ((hread ▸ hey' : s₂.readEntry y = some ey').symm.trans he')
        have hdc : ey'.dataCurrent = ey.dataCurrent := (congrArg SlabEntry.dataCurrent hu :)
        rw [hdc, hdc₂]
        exact hkey hi y hyT ey hey hyi) h₃
    have hlink' : s'.link = s₂.link := by
      unfold Pm.link
      rw [hread]
    have htakes : (QueueName.ofSize e.seSize).Takes e := ⟨hi, rfl⟩
    refine ⟨H', hH', hroots.cons (hroots'.trans (congrArg (r :: ·) hroots₂)) hrT he hi hent, fun w' => ?_⟩
    by_cases hw : w' = .ofSize e.seSize
    · subst hw
      have hfull' : ∀ y ∈ l', s'.NotFull y ↔ s.NotFull y := by
        intro y hy
        rcases (hmem y).mp hy with hy | rfl
        · obtain ⟨hyT, ey, hey, hty⟩ := hl.of_mem hy
          exact hfullT y hyT ⟨ey, hey, hty.1⟩
        · exact hfull y (by simp) ⟨e, he, hi⟩
      refine ⟨l', hl.grown he htakes hent ?_ hmem fun _ y hy hn => ?_⟩
      · rw [hlink', hhead']
        exact hqueue
      · obtain ⟨x, hx, hnx⟩ := hfirst y hy ((hfull' y hy).mp hn)
        have hxl : x ∈ l' := List.mem_of_mem_head? (Option.mem_def.mpr hx)
        exact ⟨x, hx, (hfull' x hxl).mpr hnx⟩
    · obtain ⟨l₂, hl₂⟩ := hqueues w'
      refine ⟨l₂, hl₂.other hl hw hrT he htakes hent ?_ (fun y hy hyl => ?_) hfullT⟩
      · rw [hhead', hother w' hw]
      · rw [hlink']
        exact hlink y hy hyl
  · rw [if_neg hi] at hr
    obtain ⟨l, hl⟩ := hqueues .free
    have hrl : r ∉ l := fun hm => hrT (hl.of_mem hm).1
    obtain ⟨hs', ⟨H', hH', hroots', hother, hqueue⟩, hlink⟩ := Inserted.insertTail (w := .free) hs hH he
      (fun y hy => by
        obtain ⟨-, ey, hey, -⟩ := hl.of_mem hy
        rw [hey]
        exact Option.some_ne_none _) hl.queue hrl hr
    refine ⟨H', hH', hroots.same hroots' he hi hent, fun w' => ?_⟩
    by_cases hw : w' = .free
    · subst hw
      exact ⟨l ++ [r], hl.grown he hi hent hqueue (fun y => by simp) fun hne => (hne rfl).elim⟩
    · obtain ⟨l', hl'⟩ := hqueues w'
      exact ⟨l', hl'.other hl hw hrT he hi hent (hother w' hw) hlink hfullT⟩

end

end LibPM

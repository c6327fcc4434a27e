import LibPM.Restore.Committed
import LibPM.Memory.Words

/-!
# A second restore of the same file

`slab_map` branches on what it does not change, so it runs on the file it left in the same way
(`Twin`, `Follows`): it returns again, and with the same tree. This is the last part of
`restoresCommitted`.
-/

namespace LibPM

open Recorded Recorded.Prog

/-! ## Two runs side by side -/

/-- The states `x` and `y` of two runs that map the directory at `sd`, the first of which started in
`s`: the pages in `y` are those in `x`, mapped a little further, and the queues are the same. -/
structure Twin (s : Pm) (N : Set ℕ) (sd : ℕ) (x y : Pm) : Prop where
  reopened : x.Reopened
  origin : Pm.Restores .complete Set.univ s x
  restores : Pm.Restores .complete N x y
  sizes : y.sizes = x.sizes
  heads : (y.pageAt sd).bind Page.heads = (x.pageAt sd).bind Page.heads
  roots : ∀ d, x.readDir sd = some d → ∀ r ∈ d.sdMaddrRoot, ∃ e, x.readEntry r = some e ∧
    e.isInit = true ∧ EntryHome .complete x.startAddr e

/-- A run from a twin state goes the same way. -/
def Follows {α : Type} (s : Pm) (N : Set ℕ) (sd : ℕ) (c : PmProg α) : Prop :=
  ∀ ⦃x y a x'⦄, Twin s N sd x y → Returns c x a x' → ∃ y', Returns c y a y' ∧ Twin s N sd x' y' ∧
    Pm.Restores .complete Set.univ x x'

section

variable {s : Pm} {N : Set ℕ} {sd : ℕ} {x y x' : Pm} {α β : Type}

theorem follows_pure {a : α} : Follows s N sd (pure a) := by
  intro x y b x' h hr
  obtain ⟨rfl, rfl⟩ := returns_pure.mp hr
  exact ⟨y, returns_pure.mpr ⟨rfl, rfl⟩, h, .refl x⟩

theorem follows_fail {e : Fault} : Follows (α := α) s N sd (fail e) :=
  fun _ _ _ _ _ hr => (returns_fail hr).elim

theorem Follows.bind {c : PmProg α} {f : α → PmProg β} (hc : Follows s N sd c)
    (hf : ∀ a, Follows s N sd (f a)) : Follows s N sd (c >>= f) := by
  intro x y b x'' h hr
  obtain ⟨a, x', h₁, h₂⟩ := returns_bind.mp hr
  obtain ⟨y', hy₁, h', hx⟩ := hc h h₁
  obtain ⟨y'', hy₂, h'', hx'⟩ := hf a h' h₂
  exact ⟨y'', hy₁.bind hy₂, h'', hx.trans hx'⟩

theorem Follows.ite {p : Prop} [Decidable p] {c d : PmProg α} (hc : Follows s N sd c)
    (hd : Follows s N sd d) : Follows s N sd (if p then c else d) := by
  by_cases h : p
  · rw [if_pos h]
    exact hc
  · rw [if_neg h]
    exact hd

theorem Follows.when {p : Prop} [Decidable p] {c : PmProg Unit} (hc : Follows s N sd c) :
    Follows s N sd (when p c) := hc.ite follows_pure

/-- The pages after a store to one of them. -/
theorem Pm.pageAt_setPage (hv : x.vmap = id) (q : ℕ) (p : Page) (a : ℕ) :
    (x.setPage q p).pageAt a =
      if a % pageSize = 0 ∧ x.vpage a = some q then some p else x.pageAt a := by
  unfold Pm.pageAt Pm.fpage
  rw [show (x.setPage q p).vpage a = x.vpage a from rfl, show (x.setPage q p).vmap = x.vmap from rfl, hv]
  by_cases ha : a % pageSize = 0
  · rw [if_pos ha, if_pos ha]
    cases hq : x.vpage a with
    | none => simp
    | some i =>
      unfold Pm.setPage
      by_cases hi : i = q
      · rw [hi, if_pos ⟨ha, rfl⟩]
        exact congrArg some (Function.update_self ..)
      · rw [if_neg fun h => hi (Option.some.inj h.2)]
        exact congrArg some (Function.update_of_ne hi ..)
  · rw [if_neg ha, if_neg fun h => ha h.1, if_neg ha]

/-- The page behind an address of a linear mapping. -/
theorem Pm.pageAt_of_vpage (hv : x.vmap = id) {a q : ℕ} (ha : a % pageSize = 0)
    (hq : x.vpage a = some q) : x.pageAt a = some (x.file q) :=
  pageAt_eq_some.mpr ⟨ha, q, hq, by rw [hv]; rfl⟩

/-- The entries in the tree of a directory page. -/
def Page.roots (p : Page) : List EntryRef := (p.heads.map Prod.fst).getD []

theorem Twin.vmap (h : Twin s N sd x y) : y.vmap = id := (h.restores.edits.reopened h.reopened).vmap

/-- The stores of both runs change the same page. -/
theorem Twin.setPage (h : Twin s N sd x y) {q : ℕ} {p p' : Page}
    (hp : (x.file q).Restored .complete x.startAddr p) (hpp : p.Restored .complete x.startAddr p')
    (hsame : y.file q = x.file q → p' = p)
    (hheads : (y.file q).heads = (x.file q).heads → p'.heads = p.heads)
    (hroots : ∀ r ∈ p.roots, r ∈ (x.file q).roots ∨
      ∃ e, (x.setPage q p).readEntry r = some e ∧ e.isInit = true ∧
        EntryHome .complete x.startAddr e) :
    Twin s N sd (x.setPage q p) (y.setPage q p') := by
  have hx : Pm.Restores .complete Set.univ x (x.setPage q p) := .setPage trivial hp
  refine ⟨(Pm.Edits.setPage x q p).reopened h.reopened, h.origin.trans hx, ⟨?_, fun i => ?_, fun i hi => ?_⟩,
    h.sizes, ?_, fun d hd r hr => ?_⟩
  · obtain ⟨f, z, hy⟩ := h.restores.edits
    subst hy
    exact ⟨_, z, rfl⟩
  · unfold Pm.setPage
    dsimp only
    by_cases hiq : i = q
    · rw [hiq, Function.update_self, Function.update_self]
      exact hpp
    · rw [Function.update_of_ne hiq, Function.update_of_ne hiq]
      exact h.restores.pages i
  · unfold Pm.setPage
    dsimp only
    by_cases hiq : i = q
    · rw [hiq, Function.update_self, Function.update_self]
      exact hsame (h.restores.frame q (hiq ▸ hi))
    · rw [Function.update_of_ne hiq, Function.update_of_ne hiq]
      exact h.restores.frame i hi
  · have hheads' := h.heads
    rw [Pm.pageAt_setPage h.reopened.vmap, Pm.pageAt_setPage h.vmap, h.restores.edits.vpage]
    by_cases ha : sd % pageSize = 0 ∧ x.vpage sd = some q
    · rw [Pm.pageAt_of_vpage h.reopened.vmap ha.1 ha.2, Pm.pageAt_of_vpage h.vmap ha.1
        ((h.restores.edits.vpage sd).trans ha.2)] at hheads'
      rw [if_pos ha, if_pos ha]
      exact hheads hheads'
    · rw [if_neg ha, if_neg ha]
      exact hheads'
  · have hkeep : ∀ e, x.readEntry r = some e → e.isInit = true → EntryHome .complete x.startAddr e →
        ∃ e', (x.setPage q p).readEntry r = some e' ∧ e'.isInit = true ∧
          EntryHome .complete x.startAddr e' := by
      intro e he hi hh
      obtain ⟨e', he', hr'⟩ := hx.readEntry h.reopened he
      exact ⟨e', he', (hr'.isInit_eq h.reopened.start).trans hi, hh.restored hr'⟩
    have hd' := readDir_eq_some.mp hd
    rw [Pm.pageAt_setPage h.reopened.vmap] at hd'
    split_ifs at hd' with ha
    · obtain rfl := Option.some.inj hd'
      rcases hroots r hr with hr' | hr'
      · have hpage := Pm.pageAt_of_vpage h.reopened.vmap ha.1 ha.2
        cases hf : x.file q with
        | dir d₀ =>
          rw [hf] at hpage hr'
          obtain ⟨e, he, hi, hh⟩ := h.roots d₀ (readDir_eq_some.mpr hpage) r hr'
          exact hkeep e he hi hh
        | _ => rw [hf] at hr'; exact (List.not_mem_nil hr').elim
      · exact hr'
    · obtain ⟨e, he, hi, hh⟩ := h.roots d (readDir_eq_some.mpr hd') r hr
      exact hkeep e he hi hh

/-- A store whose page can be written returns. -/
theorem Pm.returns_updatePage (hv : y.vmap = id) {a q : ℕ} {g : Page → Option Page} {p : Page}
    (hq : y.vpage a = some q) (hw : (y.prot q).write = true) (hg : g (y.file q) = some p) :
    Returns (updatePage a g) y () (y.setPage q p) := by
  unfold updatePage
  refine Returns.seq (returns_makeWritable.mpr ⟨q, hq, .inl ⟨hw, rfl⟩⟩)
    (returns_putPage.mpr ⟨q, p, hq, hw, ?_, ?_⟩)
  · rw [hv]
    exact hg
  · rw [hv]
    rfl

/-- A store of the same function in both runs. -/
theorem Twin.updatePage (h : Twin s N sd x y) {a : ℕ} {g : Page → Option Page} {u : Unit}
    (hr : Returns (LibPM.updatePage a g) x u x') : ∃ q p, x.vpage a = some q ∧
      g (x.file q) = some p ∧ x' = x.setPage q p ∧ (y.prot q).write = true ∧
      ∀ p', g (y.file q) = some p' → Returns (LibPM.updatePage a g) y () (y.setPage q p') := by
  obtain ⟨q, p, hq, hw, hg, rfl⟩ := h.reopened.updatePage hr
  have hw' : (y.prot q).write = true := by
    rw [h.restores.edits.prot]
    exact hw
  exact ⟨q, p, hq, hg, rfl, hw', fun p' hg' =>
    Pm.returns_updatePage h.vmap ((h.restores.edits.vpage a).trans hq) hw' hg'⟩

/-! ## Links and queues -/

theorem Page.SameButLinks.symm {p p' : Page} (h : p.SameButLinks p') : p'.SameButLinks p := by
  cases p with
  | bucket b =>
    cases p' with
    | bucket b' => exact ⟨h.1.symm, h.2.1.symm, fun i => (h.2.2 i).symm⟩
    | _ => cases h
  | dir d =>
    cases p' with
    | dir d' =>
      obtain ⟨root, free, rfl⟩ : ∃ root free, d' = { d with sdMaddrRoot := root, sdFreeList := free } :=
        ⟨_, _, h⟩
      rfl
    | _ => cases h
  | _ =>
    obtain rfl : p' = _ := h
    exact .refl _

/-- What a store to links and heads of queues is like. -/
structure StoresLinks (g : Page → Option Page) : Prop where
  same : ∀ {p p₁}, g p = some p₁ → p.SameButLinks p₁
  total : ∀ {p p' p₁ start}, p.Restored .complete start p' → g p = some p₁ → ∃ p₁', g p' = some p₁'
  heads : ∀ {p p' p₁ p₁'}, g p = some p₁ → g p' = some p₁' → p'.heads = p.heads → p₁'.heads = p₁.heads

/-- Such a store in both runs. -/
theorem Twin.relink (h : Twin s N sd x y) {a : ℕ} {g : Page → Option Page} {u : Unit}
    (hg : StoresLinks g) (hr : Returns (LibPM.updatePage a g) x u x')
    (hroots : ∀ q p₁, g (x.file q) = some p₁ → x' = x.setPage q p₁ → ∀ r ∈ p₁.roots,
      r ∈ (x.file q).roots ∨ ∃ e, x'.readEntry r = some e ∧ e.isInit = true ∧
        EntryHome .complete x.startAddr e) :
    ∃ y', Returns (LibPM.updatePage a g) y () y' ∧ Twin s N sd x' y' ∧
      Pm.Restores .complete Set.univ x x' := by
  obtain ⟨q, p₁, -, hg₁, rfl, -, hret⟩ := h.updatePage hr
  have hpages := h.restores.pages q
  obtain ⟨p₁', hg₁'⟩ := hg.total hpages hg₁
  refine ⟨_, hret p₁' hg₁', h.setPage (hg.same hg₁).restored ?_ (fun he => ?_)
    (hg.heads hg₁ hg₁') (hroots q p₁ hg₁ rfl), .setPage trivial (hg.same hg₁).restored⟩
  · exact (hg.same hg₁).symm.restored.trans (hpages.trans (hg.same hg₁').restored)
  · rw [he] at hg₁'
    exact Option.some.inj (hg₁'.symm.trans hg₁)

theorem follows_relink {a : ℕ} {g : Page → Option Page} (hg : StoresLinks g)
    (hroots : ∀ p p₁, g p = some p₁ → ∀ r ∈ p₁.roots, r ∈ p.roots) :
    Follows s N sd (updatePage a g) := fun _ _ _ _ h hr =>
  h.relink hg hr fun _ p₁ hg₁ _ r hr => .inl (hroots _ p₁ hg₁ r hr)

theorem storesLinks_setLink (r : EntryRef) (z : Option EntryRef) :
    StoresLinks (Page.onEntry r.idx fun e => { e with seList := z }) where
  same {p p₁} h := by
    cases p with
    | bucket b =>
      unfold Page.onEntry at h
      split_ifs at h
      cases h
      refine ⟨rfl, rfl, fun i => ?_⟩
      dsimp only
      by_cases hi : i = r.idx
      · rw [hi, Function.update_self]
        rfl
      · rw [Function.update_of_ne hi]
    | _ => cases h
  total {p p' p₁ start} hr h := by
    cases p with
    | bucket b =>
      cases p' with
      | bucket b' =>
        unfold Page.onEntry at h ⊢
        split_ifs at h with hi
        exact ⟨_, if_pos hi⟩
      | _ => cases hr
    | _ => cases h
  heads {p p' p₁ p₁'} h h' _ := by
    cases p with
    | bucket b =>
      cases p' with
      | bucket b' =>
        unfold Page.onEntry at h h'
        split_ifs at h h'
        cases h
        cases h'
        rfl
      | _ => cases h'
    | _ => cases h

theorem follows_setLink (r : EntryRef) (z : Option EntryRef) :
    Follows s N sd (updateEntry r fun e => { e with seList := z }) := by
  refine follows_relink (storesLinks_setLink r z) fun p p₁ h q hq => ?_
  cases p with
  | bucket b =>
    unfold Page.onEntry at h
    split_ifs at h
    cases h
    exact (List.not_mem_nil hq).elim
  | _ => cases h

theorem storesLinks_onDir {f : SlabDir → SlabDir}
    (hf : ∀ d, f d = { d with
      sdMaddrRoot := (f d).sdMaddrRoot, sdFreeList := (f d).sdFreeList })
    (hheads : ∀ d d', d'.sdMaddrRoot = d.sdMaddrRoot → d'.sdFreeList = d.sdFreeList →
      (f d').sdMaddrRoot = (f d).sdMaddrRoot ∧ (f d').sdFreeList = (f d).sdFreeList) :
    StoresLinks (Page.onDir f) where
  same {p p₁} h := by
    cases p with
    | dir d =>
      cases h
      exact hf d
    | _ => cases h
  total {p p' p₁ start} hr h := by
    cases p with
    | dir d =>
      cases p' with
      | dir d' => exact ⟨_, rfl⟩
      | _ => cases hr
    | _ => cases h
  heads {p p' p₁ p₁'} h h' he := by
    cases p with
    | dir d =>
      cases p' with
      | dir d' =>
        cases h
        cases h'
        have he' := Option.some.inj he
        obtain ⟨hroot, hfree⟩ := hheads d d' (congrArg Prod.fst he') (congrArg Prod.snd he')
        exact congrArg some (Prod.ext hroot hfree)
      | _ => cases h'
    | _ => cases h

/-- A store to the head of the free list. -/
theorem follows_setFree {a : ℕ} (f : Stailq → Stailq) :
    Follows s N sd (updatePage a (Page.onDir fun d => { d with sdFreeList := f d.sdFreeList })) := by
  refine follows_relink (storesLinks_onDir (fun _ => rfl) fun d d' hr hf => ⟨hr, ?_⟩)
    fun p p₁ h q hq => ?_
  · dsimp only
    rw [hf]
  · cases p with
    | dir d =>
      cases h
      exact hq
    | _ => cases h

/-- A change of the nodes of the sizes. -/
theorem follows_modify_sizes (f : List SlabEntrySize → List SlabEntrySize) :
    Follows s N sd (modify fun s => { s with sizes := f s.sizes } : PmProg Unit) := by
  intro x y u x' h hr
  obtain rfl := returns_modify.mp hr
  obtain ⟨g, z, rfl⟩ := h.restores.edits
  have hx : Pm.Restores .complete Set.univ x { x with sizes := f x.sizes } :=
    ⟨⟨x.file, f x.sizes, rfl⟩, fun _ => .refl _, fun _ _ => rfl⟩
  exact ⟨_, returns_modify.mpr rfl, ⟨hx.edits.reopened h.reopened, h.origin.trans hx, ⟨⟨g, f z, rfl⟩, h.restores.pages, h.restores.frame⟩,
    congrArg f h.sizes, h.heads, h.roots⟩, hx⟩

/-- A queue whose head is the same in both runs. -/
structure StailqAt.Follows (q : StailqAt) (s : Pm) (N : Set ℕ) (sd : ℕ) : Prop where
  head : LibPM.Follows s N sd q.head
  setFirst : ∀ z, LibPM.Follows s N sd (q.setFirst z)
  setLast : ∀ z, LibPM.Follows s N sd (q.setLast z)

theorem follows_insertTail {q : StailqAt} (hq : q.Follows s N sd) (r : EntryRef) :
    Follows s N sd (stailqInsertTail q r) := by
  refine (follows_setLink r none).bind fun _ => hq.head.bind fun h => ?_
  cases h.last with
  | none => exact (hq.setFirst _).bind fun _ => hq.setLast _
  | some e => exact (follows_setLink e _).bind fun _ => hq.setLast _

theorem follows_insertHead {q : StailqAt} (hq : q.Follows s N sd) (r : EntryRef) :
    Follows s N sd (stailqInsertHead q r) :=
  hq.head.bind fun _ => (follows_setLink r _).bind fun _ =>
    ((hq.setLast _).ite follows_pure).bind fun _ => hq.setFirst _

/-- The heads of the directory are the same. -/
theorem Twin.dir (h : Twin s N sd x y) {d : SlabDir} (hd : x.readDir sd = some d) :
    ∃ d', y.readDir sd = some d' ∧ d'.sdMaddrRoot = d.sdMaddrRoot ∧ d'.sdFreeList = d.sdFreeList := by
  have hd := readDir_eq_some.mp hd
  obtain ⟨p', hp', hr⟩ := h.restores.pageAt h.reopened hd
  have hheads := h.heads
  rw [hd, hp'] at hheads
  cases p' with
  | dir d' =>
    have he := Option.some.inj hheads
    exact ⟨d', readDir_eq_some.mpr hp', congrArg Prod.fst he, congrArg Prod.snd he⟩
  | _ => cases hr

theorem sdFreeListAt_follows : (sdFreeListAt sd).Follows s N sd where
  head x y a x' h hr := by
    obtain ⟨d, hload, rfl⟩ := returns_map.mp hr
    obtain ⟨hd, rfl⟩ := returns_loadDir.mp hload
    obtain ⟨d', hd', -, hfree⟩ := h.dir hd
    exact ⟨y, returns_map.mpr ⟨d', returns_loadDir.mpr ⟨hd', rfl⟩, hfree⟩, h, .refl x⟩
  setFirst z := follows_setFree fun q => { q with first := z }
  setLast z := follows_setFree fun q => { q with last := z }

theorem esListAt_follows (size : ℕ) : (esListAt size).Follows s N sd where
  head x y a x' h hr := by
    unfold esListAt at hr ⊢
    simp only [returns_bind, returns_get, returns_ofOption, returns_pure] at hr ⊢
    obtain ⟨_, _, ⟨rfl, rfl⟩, es, _, ⟨hes, rfl⟩, rfl, rfl⟩ := hr
    exact ⟨y, ⟨y, y, ⟨rfl, rfl⟩, es, y, ⟨h.sizes ▸ hes, rfl⟩, rfl, rfl⟩, h, .refl x⟩
  setFirst z := follows_modify_sizes fun l => l.map (updateSize size fun q => { q with first := z })
  setLast z := follows_modify_sizes fun l => l.map (updateSize size fun q => { q with last := z })

/-! ## Indexing -/

/-- An entry that leads into the mapping is the same in both runs. -/
theorem Twin.entry (h : Twin s N sd x y) {r : EntryRef} {e : SlabEntry} (he : x.readEntry r = some e)
    (hi : e.isInit = true) (hh : EntryHome .complete x.startAddr e) :
    ∃ e', y.readEntry r = some e' ∧ e'.unlinked = e.unlinked := by
  obtain ⟨e', he', hr⟩ := h.restores.readEntry h.reopened he
  refine ⟨e', he', ?_⟩
  rcases hr with hr | ⟨-, -, hr⟩
  · exact hr
  · exact hr.trans (hh hi).2.symm

/-- The tree of entries is searched with the same result. -/
theorem Twin.findEntry (h : Twin s N sd x y) (m : ℕ) {l : List EntryRef}
    (hl : ∀ r ∈ l, ∃ e, x.readEntry r = some e ∧ e.isInit = true ∧
      EntryHome .complete x.startAddr e) :
    y.findEntry (searchNormal m) l = x.findEntry (searchNormal m) l := by
  induction l with
  | nil => rfl
  | cons r l ih =>
    obtain ⟨e, he, hi, hh⟩ := hl r List.mem_cons_self
    obtain ⟨e', he', hu⟩ := h.entry he hi hh
    have hdc : e'.dataCurrent = e.dataCurrent := (congrArg SlabEntry.dataCurrent hu :)
    have hsearch : searchNormal m e' = searchNormal m e := by
      unfold searchNormal
      rw [hdc]
    unfold Pm.findEntry
    rw [he, he']
    dsimp only
    rw [hsearch, ih fun q hq => hl q (List.mem_cons_of_mem r hq)]

theorem Twin.usedInsert (h : Twin s N sd x y) {r : EntryRef} {e : SlabEntry} {u : Unit}
    (he : x.readEntry r = some e) (hi : e.isInit = true) (hh : EntryHome .complete x.startAddr e)
    (hr : Returns (LibPM.usedInsert sd r) x u x') :
    ∃ y', Returns (LibPM.usedInsert sd r) y () y' ∧ Twin s N sd x' y' ∧
      Pm.Restores .complete Set.univ x x' := by
  obtain ⟨e', he', hu⟩ := h.entry he hi hh
  have hdc : e'.dataCurrent = e.dataCurrent := (congrArg SlabEntry.dataCurrent hu :)
  unfold LibPM.usedInsert at hr ⊢
  simp only [returns_bind, returns_loadEntry, returns_usedFind] at hr ⊢
  obtain ⟨_, _, ⟨he₁, rfl⟩, o, _, ⟨⟨d, hd, hf⟩, rfl⟩, hr⟩ := hr
  obtain rfl := Option.some.inj (he.symm.trans he₁)
  obtain ⟨d', hd', hroot, -⟩ := h.dir hd
  have hf' : y.findEntry (searchNormal e'.dataCurrent.maddr) d'.sdMaddrRoot = some o := by
    rw [hdc, hroot, h.findEntry _ (h.roots d hd)]
    exact hf
  rcases returns_when.mp hr with ⟨ho, hr⟩ | ⟨ho, rfl⟩
  · have hstore : StoresLinks (Page.onDir fun d => { d with sdMaddrRoot := r :: d.sdMaddrRoot }) :=
      storesLinks_onDir (fun _ => rfl) fun d d' hr hf => ⟨congrArg (r :: ·) hr, hf⟩
    have hroots : ∀ q p₁, Page.onDir (fun d => { d with sdMaddrRoot := r :: d.sdMaddrRoot }) (x.file q) =
        some p₁ → x' = x.setPage q p₁ → ∀ r' ∈ p₁.roots, r' ∈ (x.file q).roots ∨
          ∃ e, x'.readEntry r' = some e ∧ e.isInit = true ∧ EntryHome .complete x.startAddr e := by
      rintro q p₁ hp₁ rfl r' hr'
      have hres : Pm.Restores .complete Set.univ x (x.setPage q p₁) :=
        .setPage trivial (hstore.same hp₁).restored
      cases hp : x.file q with
      | dir d₀ =>
        rw [hp] at hp₁
        cases hp₁
        rcases List.mem_cons.mp hr' with rfl | hr'
        · obtain ⟨e₂, he₂, hr₂⟩ := hres.readEntry h.reopened he
          exact .inr ⟨e₂, he₂, (hr₂.isInit_eq h.reopened.start).trans hi, hh.restored hr₂⟩
        · exact .inl hr'
      | _ => rw [hp] at hp₁; cases hp₁
    obtain ⟨y', hy', htwin, hres⟩ := h.relink hstore hr hroots
    exact ⟨y', ⟨e', y, ⟨he', rfl⟩, o, y, ⟨⟨d', hd', hf'⟩, rfl⟩, (returns_when_true ho).mpr hy'⟩, htwin, hres⟩
  · exact ⟨y, ⟨e', y, ⟨he', rfl⟩, o, y, ⟨⟨d', hd', hf'⟩, rfl⟩, (returns_when_false ho).mpr rfl⟩, h, .refl x⟩

/-- The data page of the entry is on no page of a node. -/
def EntryFree (x : Pm) (N : Set ℕ) (e : SlabEntry) : Prop :=
  e.isInit = true → e.dataSnapshot.laddr % pageSize = 0 ∧
    ∀ q, x.vpage (x.startAddr + e.dataSnapshot.laddr) = some q → q ∉ N

/-- The bytes of a page at an offset that is on no page of `N`. -/
theorem Pm.Restores.byteAt {type : CpointType} (h : Pm.Restores type N x y) (hx : x.Reopened) {l k : ℕ}
    (hmod : l % pageSize = 0) (hN : ∀ q, x.vpage (x.startAddr + l) = some q → q ∉ N)
    (hk : k < pageSize) : y.byteAt (x.startAddr + l + k) = x.byteAt (x.startAddr + l + k) := by
  have haligned := hx.aligned
  have hround : roundDwnPg (x.startAddr + l + k) = x.startAddr + l := by
    unfold roundDwnPg
    unfold pageSize at *
    omega
  unfold Pm.byteAt
  rw [hround, h.pageAt_frame hx hN]
  obtain ⟨g, z, rfl⟩ := h.edits
  rfl

/-- The bytes of the data page are the same in both runs. -/
theorem Twin.byteAt (h : Twin s N sd x y) {e : SlabEntry} (hi : e.isInit = true)
    (hh : EntryHome .complete x.startAddr e) (hfree : EntryFree x N e) {k : ℕ} (hk : k < pageSize) :
    y.byteAt (e.dataCurrent.maddr + k) = x.byteAt (e.dataCurrent.maddr + k) := by
  obtain ⟨-, -, haddr⟩ := hh.home hi
  obtain ⟨hmod, hN⟩ := hfree hi
  rw [haddr]
  exact h.restores.byteAt h.reopened hmod hN hk

/-- Whether an entry is full depends on the entry but for its link, and on the bytes of its page. -/
theorem slabEntryFull_congr {r : EntryRef} {e e' : SlabEntry} {b : Bool} (he : x.readEntry r = some e)
    (he' : y.readEntry r = some e') (hu : e'.unlinked = e.unlinked)
    (hbytes : ∀ k < pageSize, y.byteAt (e.dataCurrent.maddr + k) = x.byteAt (e.dataCurrent.maddr + k))
    (hr : Returns (slabEntryFull r) x b x') : x = x' ∧ Returns (slabEntryFull r) y b y := by
  have hdc : e'.dataCurrent = e.dataCurrent := (congrArg SlabEntry.dataCurrent hu :)
  have hsize : e'.seSize = e.seSize := (congrArg SlabEntry.seSize hu :)
  have hbitmap : ∀ {k v t}, k < pageSize → Returns (loadBitmap r k) x v t →
      x = t ∧ Returns (loadBitmap r k) y v y := by
    intro k v t hk hr
    unfold loadBitmap at hr ⊢
    simp only [returns_bind, returns_loadEntry] at hr ⊢
    obtain ⟨_, _, ⟨he₁, rfl⟩, hr⟩ := hr
    obtain rfl := Option.some.inj (he.symm.trans he₁)
    rcases returns_ite.mp hr with ⟨hl, hr⟩ | ⟨hl, hr⟩
    · simp only [returns_bind, returns_require, returns_pure] at hr
      obtain ⟨_, _, ⟨h0, rfl⟩, hv, rfl⟩ := hr
      refine ⟨rfl, e', y, ⟨he', rfl⟩, returns_ite.mpr (.inl ⟨hsize ▸ hl, ?_⟩)⟩
      exact Returns.seq (returns_require.mpr ⟨h0, rfl⟩) (returns_pure.mpr ⟨by rw [hdc]; exact hv, rfl⟩)
    · obtain ⟨hv, rfl⟩ := returns_loadByte.mp hr
      refine ⟨rfl, e', y, ⟨he', rfl⟩, returns_ite.mpr (.inr ⟨hsize ▸ hl, returns_loadByte.mpr ⟨?_, rfl⟩⟩)⟩
      rw [hdc, hbytes k hk]
      exact hv
  have hcount : ∀ n i {v t}, i + n ≤ pageSize → Returns (countSet r n i) x v t →
      x = t ∧ Returns (countSet r n i) y v y := by
    intro n
    induction n with
    | zero =>
      intro i v t _ hr
      obtain ⟨rfl, rfl⟩ := returns_pure.mp hr
      exact ⟨rfl, returns_pure.mpr ⟨rfl, rfl⟩⟩
    | succ n ih =>
      intro i v t hin hr
      unfold countSet at hr ⊢
      simp only [returns_bind, returns_pure] at hr ⊢
      obtain ⟨b, t₁, hb, c, t₂, hc, hv, rfl⟩ := hr
      obtain ⟨rfl, hb'⟩ := hbitmap (Nat.lt_of_le_of_lt (Nat.div_le_self i 8) (by omega)) hb
      obtain ⟨rfl, hc'⟩ := ih (i + 1) (by omega) hc
      exact ⟨rfl, b, y, hb', c, y, hc', hv, rfl⟩
  unfold slabEntryFull entryCapacity at hr ⊢
  simp only [returns_bind, returns_loadEntry, returns_require, returns_pure] at hr ⊢
  obtain ⟨cap, _, ⟨_, _, ⟨he₁, rfl⟩, _, _, ⟨hne, rfl⟩, hcap, rfl⟩, c, _, hc, hb, rfl⟩ := hr
  obtain rfl := Option.some.inj (he.symm.trans he₁)
  obtain ⟨rfl, hc'⟩ := hcount cap 0 (by rw [← hcap, Nat.zero_add]; exact slabEntryCapacity_le _) hc
  exact ⟨rfl, cap, y, ⟨e', y, ⟨he', rfl⟩, (), y, ⟨hsize ▸ hne, rfl⟩, hsize ▸ hcap, rfl⟩, c, y, hc', hb, rfl⟩

/-- An entry is full in both runs or in none. -/
theorem Twin.slabEntryFull (h : Twin s N sd x y) {r : EntryRef} {e : SlabEntry} {b : Bool}
    (he : x.readEntry r = some e) (hi : e.isInit = true) (hh : EntryHome .complete x.startAddr e)
    (hfree : EntryFree x N e) (hr : Returns (LibPM.slabEntryFull r) x b x') :
    x = x' ∧ Returns (LibPM.slabEntryFull r) y b y := by
  obtain ⟨e', he', hu⟩ := h.entry he hi hh
  exact slabEntryFull_congr he he' hu (fun _ hk => h.byteAt hi hh hfree hk) hr

/-- An entry is indexed in the same way. -/
theorem Twin.indexSlabEntry (h : Twin s N sd x y) {r : EntryRef} {e : SlabEntry} {u : Unit}
    (he : x.readEntry r = some e) (hh : EntryHome .complete x.startAddr e)
    (hfree : EntryFree x N e) (hr : Returns (LibPM.indexSlabEntry sd r) x u x') :
    ∃ y', Returns (LibPM.indexSlabEntry sd r) y () y' ∧ Twin s N sd x' y' ∧
      Pm.Restores .complete Set.univ x x' := by
  have hstart := h.reopened.start
  have hins : ∀ {x₁ y₁ x₂ : Pm}, Twin s N sd x₁ y₁ → Pm.Restores .complete Set.univ x x₁ →
      e.isInit = true → Returns (LibPM.usedInsert sd r) x₁ u x₂ →
      ∃ y₂, Returns (LibPM.usedInsert sd r) y₁ () y₂ ∧ Twin s N sd x₂ y₂ ∧
        Pm.Restores .complete Set.univ x x₂ := by
    intro x₁ y₁ x₂ htwin hx₁ hi hr
    obtain ⟨e₁, he₁, hr₁⟩ := hx₁.readEntry h.reopened he
    obtain ⟨y₂, hy₂, htwin₂, hx₂⟩ := htwin.usedInsert he₁ ((hr₁.isInit_eq hstart).trans hi)
      (hx₁.edits.startAddr.symm ▸ hh.restored hr₁) hr
    exact ⟨y₂, hy₂, htwin₂, hx₁.trans hx₂⟩
  unfold LibPM.indexSlabEntry at hr ⊢
  rw [returns_bind] at hr
  obtain ⟨_, _, hload, hr⟩ := hr
  obtain ⟨he₁, rfl⟩ := returns_loadEntry.mp hload
  obtain rfl := Option.some.inj (he.symm.trans he₁)
  rcases returns_ite.mp hr with ⟨hi, hr⟩ | ⟨hi, hr⟩
  · obtain ⟨e', he', hu⟩ := h.entry he hi hh
    have hsize : e'.seSize = e.seSize := (congrArg SlabEntry.seSize hu :)
    have hi' : e'.isInit = true := (isInit_of_unlinked hu).trans hi
    rw [returns_bind] at hr
    obtain ⟨_, _, hget, hr⟩ := hr
    obtain ⟨rfl, rfl⟩ := returns_get.mp hget
    cases hfind : x.sizes.find? (·.esSize == e.seSize) with
    | none =>
      rw [hfind] at hr
      obtain ⟨_, x₁, h₁, hr⟩ := returns_bind.mp hr
      obtain ⟨_, x₂, h₂, hr⟩ := returns_bind.mp hr
      obtain ⟨y₁, hy₁, htwin₁, hx₁⟩ := follows_modify_sizes (⟨e.seSize, Stailq.init⟩ :: ·) h h₁
      obtain ⟨y₂, hy₂, htwin₂, hx₂⟩ := follows_insertTail (esListAt_follows _) r htwin₁ h₂
      obtain ⟨y₃, hy₃, htwin₃, hx₃⟩ := hins htwin₂ (hx₁.trans hx₂) hi hr
      refine ⟨y₃, (returns_loadEntry.mpr ⟨he', rfl⟩).bind ?_, htwin₃, hx₃⟩
      rw [if_pos hi', hsize]
      refine (returns_get.mpr ⟨rfl, rfl⟩).bind ?_
      rw [h.sizes, hfind]
      exact Returns.seq hy₁ (Returns.seq hy₂ hy₃)
    | some es =>
      rw [hfind] at hr
      obtain ⟨b, _, hfull, hr⟩ := returns_bind.mp hr
      obtain ⟨rfl, hfull'⟩ := h.slabEntryFull he hi hh hfree hfull
      rcases returns_ite.mp hr with ⟨hb, hr⟩ | ⟨hb, hr⟩
      · obtain ⟨_, x₁, h₁, hr⟩ := returns_bind.mp hr
        obtain ⟨y₁, hy₁, htwin₁, hx₁⟩ := follows_insertTail (esListAt_follows _) r h h₁
        obtain ⟨y₂, hy₂, htwin₂, hx₂⟩ := hins htwin₁ hx₁ hi hr
        refine ⟨y₂, (returns_loadEntry.mpr ⟨he', rfl⟩).bind ?_, htwin₂, hx₂⟩
        rw [if_pos hi', hsize]
        refine (returns_get.mpr ⟨rfl, rfl⟩).bind ?_
        rw [h.sizes, hfind]
        exact hfull'.bind (returns_ite.mpr (.inl ⟨hb, Returns.seq hy₁ hy₂⟩))
      · obtain ⟨_, x₁, h₁, hr⟩ := returns_bind.mp hr
        obtain ⟨y₁, hy₁, htwin₁, hx₁⟩ := follows_insertHead (esListAt_follows _) r h h₁
        obtain ⟨y₂, hy₂, htwin₂, hx₂⟩ := hins htwin₁ hx₁ hi hr
        refine ⟨y₂, (returns_loadEntry.mpr ⟨he', rfl⟩).bind ?_, htwin₂, hx₂⟩
        rw [if_pos hi', hsize]
        refine (returns_get.mpr ⟨rfl, rfl⟩).bind ?_
        rw [h.sizes, hfind]
        exact hfull'.bind (returns_ite.mpr (.inr ⟨hb, Returns.seq hy₁ hy₂⟩))
  · obtain ⟨e', he', hr'⟩ := h.restores.readEntry h.reopened he
    obtain ⟨y', hy', htwin, hx⟩ := follows_insertTail sdFreeListAt_follows r h hr
    refine ⟨y', returns_bind.mpr ⟨e', y, returns_loadEntry.mpr ⟨he', rfl⟩, ?_⟩, htwin, hx⟩
    rw [if_neg fun h => hi ((hr'.isInit_eq hstart).symm.trans h)]
    exact hy'

/-! ## Entries and buckets -/

theorem Pm.Reopened.exists_updateEntry (hy : y.Reopened) {r : EntryRef} {e : SlabEntry}
    (he : y.readEntry r = some e) (hw : ∀ q, y.vpage r.sb = some q → (y.prot q).write = true)
    (f : SlabEntry → SlabEntry) :
    ∃ y', Returns (LibPM.updateEntry r f) y () y' ∧ y.Sets r e (f e) y' ∧ y'.Reopened ∧
      y'.readEntry r = some (f e) ∧ ∀ q, y'.vpage r.sb = some q → (y'.prot q).write = true := by
  obtain ⟨-, hidx, q, b, hq, hb, -⟩ := hy.readEntry he
  have hret : Returns (LibPM.updateEntry r f) y () (y.setPage q _) :=
    Pm.returns_updatePage hy.vmap hq (hw q hq) (by rw [hb]; exact if_pos hidx)
  have hset := hy.updateEntry he hret
  exact ⟨_, hret, hset, hset.edits.reopened hy, hset.readEntry hy, hw⟩

/-- An entry that meets the assertions can be mapped. -/
theorem Pm.Reopened.exists_slabEntryMap (hy : y.Reopened) {r : EntryRef} {e : SlabEntry}
    (he : y.readEntry r = some e) (hw : ∀ q, y.vpage r.sb = some q → (y.prot q).write = true)
    (hm : Mappable .complete e) :
    ∃ y', Returns (LibPM.slabEntryMap r .complete) y () y' ∧
      y.Sets r e (mapEntry y.startAddr .complete e) y' := by
  obtain ⟨y₁, h₁, -, hy₁, he₁, hw₁⟩ := hy.exists_updateEntry he hw
    fun x => { x with dataCurrent.maddr := y.startAddr + e.dataSnapshot.laddr }
  obtain ⟨y₂, h₂, -, hy₂, he₂, hw₂⟩ := hy₁.exists_updateEntry he₁ hw₁
    fun x => { x with dataSnapshot.maddr := x.dataCurrent.maddr }
  obtain ⟨y₃, h₃, -, hy₃, he₃, hw₃⟩ := hy₂.exists_updateEntry he₂ hw₂
    fun x => { x with dataCurrent.laddr := x.dataSnapshot.laddr }
  obtain ⟨y₄, h₄, -, hy₄, he₄, hw₄⟩ := hy₃.exists_updateEntry he₃ hw₃
    fun x => { x with ptrCurrent.maddr := y₃.startAddr + e.ptrSnapshot.laddr }
  obtain ⟨y₅, h₅, -, hy₅, he₅, hw₅⟩ := hy₄.exists_updateEntry he₄ hw₄
    fun x => { x with ptrSnapshot.maddr := x.ptrCurrent.maddr }
  obtain ⟨y₆, h₆, -, -, -, -⟩ := hy₅.exists_updateEntry he₅ hw₅
    fun x => { x with ptrCurrent.laddr := x.ptrSnapshot.laddr }
  have hret : Returns (LibPM.slabEntryMap r .complete) y () y₆ := by
    unfold LibPM.slabEntryMap
    refine Returns.bind (returns_loadEntry.mpr ⟨he, rfl⟩) ?_
    refine Returns.seq (returns_require.mpr ⟨hm.1, rfl⟩) ?_
    refine Returns.bind (returns_mappage.mpr ⟨rfl, rfl⟩) (Returns.seq h₁ (Returns.seq h₂ (Returns.seq h₃ ?_)))
    refine Returns.bind (returns_loadEntry.mpr ⟨he₃, rfl⟩) ?_
    refine Returns.seq (returns_require.mpr ⟨hm.2, rfl⟩) ?_
    exact Returns.bind (returns_mappage.mpr ⟨rfl, rfl⟩) (Returns.seq h₄ (Returns.seq h₅ h₆))
  obtain ⟨e', he', -, hset⟩ := hy.slabEntryMap hret
  obtain rfl := Option.some.inj (he.symm.trans he')
  exact ⟨y₆, hret, hset⟩

/-- An initialised entry is mapped in both runs. -/
theorem Twin.slabEntryMap (h : Twin s N sd x y) {r : EntryRef} {e : SlabEntry} {u : Unit}
    (he : x.readEntry r = some e) (hi : e.isInit = true)
    (hr : Returns (LibPM.slabEntryMap r .complete) x u x') :
    ∃ y', Returns (LibPM.slabEntryMap r .complete) y () y' ∧ Twin s N sd x' y' ∧
      Pm.Restores .complete Set.univ x x' ∧
      x'.readEntry r = some (mapEntry x.startAddr .complete e) := by
  obtain ⟨e₁, he₁, hm, hset⟩ := h.reopened.slabEntryMap hr
  obtain rfl := Option.some.inj (he.symm.trans he₁)
  obtain ⟨e', he', hre⟩ := h.restores.readEntry h.reopened he
  have hstart := h.restores.edits.startAddr
  have hm' : Mappable .complete e' := by
    rcases hre with hre | ⟨-, -, hre⟩
    · exact mappable_of_unlinked hre.symm hm
    · exact mappable_of_unlinked hre.symm (mappable_mapEntry hm)
  have hy := h.restores.edits.reopened h.reopened
  have hx := hset.restores (fun _ _ => trivial) hi hm
  have hread := hset.readEntry h.reopened
  -- the page can be written, as it was in the first run
  have hw : ∀ q, y.vpage r.sb = some q → (y.prot q).write = true := by
    intro q hq
    unfold LibPM.slabEntryMap at hr
    simp only [returns_bind, returns_loadEntry, returns_require, returns_mappage] at hr
    obtain ⟨_, _, ⟨-, rfl⟩, _, _, ⟨-, rfl⟩, _, _, ⟨-, rfl⟩, _, x₁, h₁, -⟩ := hr
    obtain ⟨q', _, hq', hw, -, -⟩ := h.reopened.updatePage h₁
    rw [h.restores.edits.vpage] at hq
    obtain rfl := Option.some.inj (hq.symm.trans hq')
    rw [h.restores.edits.prot]
    exact hw
  obtain ⟨y', hret, hset'⟩ := hy.exists_slabEntryMap he' hw hm'
  refine ⟨y', hret, ?_, hx, hread⟩
  obtain ⟨q, b, -, -, hq, hb, hbe, rfl⟩ := hset
  obtain ⟨q', b', -, -, hq', hb', hbe', rfl⟩ := hset'
  rw [h.restores.edits.vpage] at hq'
  obtain rfl := Option.some.inj (hq.symm.trans hq')
  have hpages := h.restores.pages q
  rw [hb, hb'] at hpages
  rw [hstart]
  have hstep : (Page.bucket b).Restored .complete x.startAddr (.bucket { b with
      sbEntries := Function.update b.sbEntries r.idx (mapEntry x.startAddr .complete e) }) := by
    have := hx.pages q
    rw [hb] at this
    unfold Pm.setPage at this
    dsimp only at this
    rwa [Function.update_self] at this
  refine h.setPage (hb ▸ hstep) ⟨hpages.1, hpages.2.1, fun i => ?_⟩ (fun hsame => ?_) (fun _ => rfl)
    (fun _ hr => (List.not_mem_nil hr).elim)
  · dsimp only
    by_cases hir : i = r.idx
    · rw [hir, Function.update_self, Function.update_self]
      left
      rcases hre with hre | ⟨-, -, hre⟩
      · exact unlinked_mapEntry hre
      · rw [unlinked_mapEntry hre, mapEntry_mapEntry]
    · rw [Function.update_of_ne hir, Function.update_of_ne hir]
      exact hpages.2.2 i
  · rw [hb, hb'] at hsame
    obtain rfl := Page.bucket.inj hsame
    rw [show e' = e from hbe'.symm.trans hbe]

/-- The data pages of the entries of the bucket at the offset `l` are on no page of a node. -/
def Pm.BucketFree (s : Pm) (N : Set ℕ) (l : ℕ) : Prop :=
  ∀ d ∈ s.bucketData l, d % pageSize = 0 ∧ ∀ q, s.vpage (s.startAddr + d) = some q → q ∉ N

theorem Twin.entryFree (h : Twin s N sd x y) (hs : s.Reopened) {l i : ℕ} (hl : s.BucketFree N l)
    {e : SlabEntry} (he : x.readEntry ⟨s.startAddr + l, i⟩ = some e) : EntryFree x N e := by
  intro hi
  obtain ⟨hidx, b, hb, rfl⟩ := readEntry_eq_some.mp he
  obtain ⟨p, hp, hr⟩ := h.origin.pageAt_rev hs (readBucket_eq_some.mp hb)
  cases p with
  | bucket b₀ =>
    have hre := hr.2.2 i
    obtain ⟨-, -, -, -, hdl, -⟩ := hre.kept
    have hmem : (b₀.sbEntries i).dataSnapshot.laddr ∈ s.bucketData l :=
      List.mem_map.mpr ⟨_, List.mem_filter.mpr ⟨List.mem_filterMap.mpr ⟨⟨s.startAddr + l, i⟩,
        List.mem_map.mpr ⟨i, List.mem_range.mpr hidx, rfl⟩,
        readEntry_eq_some.mpr ⟨hidx, b₀, readBucket_eq_some.mpr hp, rfl⟩⟩,
        (hre.isInit_eq hs.start).symm.trans hi⟩, rfl⟩
    obtain ⟨hmod, hN⟩ := hl _ hmem
    dsimp only
    rw [hdl, h.origin.edits.startAddr]
    exact ⟨hmod, fun q hq => hN q ((h.origin.edits.vpage _).symm.trans hq)⟩
  | _ => cases hr

theorem Follows.forM {f : α → PmProg PUnit} {l : List α} (hf : ∀ a ∈ l, Follows s N sd (f a)) :
    Follows s N sd (List.forM l f) := by
  induction l with
  | nil => exact follows_pure
  | cons a l ih =>
    exact (hf a List.mem_cons_self).bind fun _ => ih fun b hb => hf b (List.mem_cons_of_mem a hb)

theorem follows_mappage {l : ℕ} : Follows s N sd (pageAllocatorMappage l) := by
  intro x y a x' h hr
  obtain ⟨rfl, rfl⟩ := returns_mappage.mp hr
  exact ⟨y, returns_mappage.mpr ⟨by rw [h.restores.edits.startAddr], rfl⟩, h, .refl x⟩

/-- **A bucket is mapped and indexed in the same way.** -/
theorem follows_slabBucketMap (hs : s.Reopened) {l : ℕ} (hl : s.BucketFree N l) :
    Follows s N sd (slabBucketMap sd l .complete true) := by
  intro x y a x' h hr
  unfold slabBucketMap at hr
  rw [returns_bind] at hr
  obtain ⟨_, _, hmap, hr⟩ := hr
  obtain ⟨rfl, rfl⟩ := returns_mappage.mp hmap
  rw [h.origin.edits.startAddr] at hr
  have hbody : Follows s N sd (do
      (List.range slabBucketEntries).forM fun i => do
        let e ← loadEntry ⟨s.startAddr + l, i⟩
        when (e.isInit = true) (LibPM.slabEntryMap ⟨s.startAddr + l, i⟩ .complete)
        when (true = true) (LibPM.indexSlabEntry sd ⟨s.startAddr + l, i⟩)
      return s.startAddr + l) := by
    refine (Follows.forM fun i _ => ?_).bind fun _ => follows_pure
    intro x y u x'' h hr
    simp only [returns_bind, returns_loadEntry] at hr
    obtain ⟨e, _, ⟨he, rfl⟩, _, x₁, hmap, hindex⟩ := hr
    obtain ⟨e', he', hre⟩ := h.restores.readEntry h.reopened he
    have hinit : e'.isInit = e.isInit := hre.isInit_eq h.reopened.start
    -- the entry is mapped
    obtain ⟨y₁, e₁, hy₁, htwin₁, hx₁, he₁, hh₁⟩ : ∃ y₁ e₁,
        Returns (when (e'.isInit = true) (LibPM.slabEntryMap ⟨s.startAddr + l, i⟩ .complete)) y () y₁ ∧
        Twin s N sd x₁ y₁ ∧ Pm.Restores .complete Set.univ x x₁ ∧
        x₁.readEntry ⟨s.startAddr + l, i⟩ = some e₁ ∧ EntryHome .complete x₁.startAddr e₁ := by
      rcases returns_when.mp hmap with ⟨hi, hmap⟩ | ⟨hi, rfl⟩
      · obtain ⟨_, hce, hm, -⟩ := h.reopened.slabEntryMap hmap
        obtain rfl := Option.some.inj (he.symm.trans hce)
        obtain ⟨y₁, hy₁, htwin₁, hx₁, he₁⟩ := h.slabEntryMap he hi hmap
        refine ⟨y₁, _, (returns_when_true (hinit.trans hi)).mpr hy₁, htwin₁, hx₁, he₁, fun _ => ?_⟩
        rw [hx₁.edits.startAddr]
        exact ⟨mappable_mapEntry hm, by rw [mapEntry_mapEntry]⟩
      · exact ⟨y, e, (returns_when_false fun h => hi (hinit.symm.trans h)).mpr rfl, h, .refl x, he,
          fun h => (hi h).elim⟩
    -- and indexed
    rw [returns_when_true rfl] at hindex
    obtain ⟨y₂, hy₂, htwin₂, hx₂⟩ :=
      htwin₁.indexSlabEntry he₁ hh₁ (htwin₁.entryFree hs hl he₁) hindex
    refine ⟨y₂, Returns.bind (returns_loadEntry.mpr ⟨he', rfl⟩) (Returns.seq hy₁ ?_), htwin₂,
      hx₁.trans hx₂⟩
    rw [returns_when_true rfl]
    exact hy₂
  obtain ⟨y', hy', htwin, hx⟩ := hbody h hr
  refine ⟨y', Returns.bind (returns_mappage.mpr ⟨rfl, rfl⟩) ?_, htwin, hx⟩
  rw [h.restores.edits.startAddr, h.origin.edits.startAddr]
  exact hy'

/-! ## Nodes -/

variable {ν : Type} {K : NodeKind ν} {c : ℕ → Bool → PmProg ℕ} {msg : String} {l i : ℕ}

theorem Pm.Reopened.exists_updateNode (hy : y.Reopened) {a : ℕ} {n : ν}
    (hn : y.pageAt a = some (K.page n)) (hw : ∀ q, y.vpage a = some q → (y.prot q).write = true)
    (f : ν → ν) : ∃ y', Returns (LibPM.updatePage a (K.on f)) y () y' ∧ y.SetsNode K a n (f n) y' ∧
      y'.Reopened ∧ y'.pageAt a = some (K.page (f n)) ∧
      ∀ q, y'.vpage a = some q → (y'.prot q).write = true := by
  obtain ⟨-, q, hq, hpage⟩ := pageAt_eq_some.mp hn
  rw [hy.vmap] at hpage
  have hret : Returns (LibPM.updatePage a (K.on f)) y () (y.setPage q (K.page (f n))) :=
    Pm.returns_updatePage hy.vmap hq (hw q hq) (K.on_eq_some.mpr ⟨n, hpage, rfl⟩)
  have hset := hy.updateNode hn hret
  exact ⟨_, hret, hset, hset.edits.reopened hy, hset.pageAt hy, hw⟩

/-- The slots of a node change in both runs. -/
theorem Twin.setsNode (h : Twin s N sd x y) {a : ℕ} {n m : ν} {c t c' t' : ℕ → Slot} {y' : Pm}
    (hx : x.SetsNode K a n (K.put n c t) x') (hy : y.SetsNode K a m (K.put m c' t') y')
    (hslots : SlotsRestored .complete x.startAddr (K.current n) (K.snapshot n) c t)
    (hboth : SlotsRestored .complete x.startAddr c t c' t')
    (hsame : m = n → c' = c ∧ t' = t) : Twin s N sd x' y' := by
  obtain ⟨q, -, hq, hn, rfl⟩ := hx
  obtain ⟨q', -, hq', hm, rfl⟩ := hy
  rw [h.restores.edits.vpage] at hq'
  obtain rfl := Option.some.inj (hq.symm.trans hq')
  have hpages := h.restores.pages q
  rw [hn, hm] at hpages
  refine h.setPage (hn ▸ K.restored_put hslots) (K.restored_put₂ hpages hboth) (fun he => ?_)
    (fun he => ?_) (fun r hr => .inl ?_)
  · rw [hn, hm] at he
    obtain rfl := K.page_inj he
    obtain ⟨rfl, rfl⟩ := hsame rfl
    rfl
  · rw [K.heads_put, K.heads_put, ← hn, ← hm]
    exact he
  · unfold Page.roots at hr ⊢
    rw [K.heads_put] at hr
    rw [hn]
    exact hr

/-- Both versions of a slot are set to the same in both runs. -/
theorem SlotsRestored.home {start a i : ℕ} {cur snap cur' snap' : ℕ → Slot}
    (h : SlotsRestored .complete start cur snap cur' snap') (ha : a = start + (snap i).laddr) :
    SlotsRestored .complete start (setLaddr (setMaddr cur i a) i (snap i).laddr) (setMaddr snap i a)
      (setLaddr (setMaddr cur' i a) i (snap' i).laddr) (setMaddr snap' i a) := by
  have ha' : a = start + (snap' i).laddr := by
    rw [h.snapshot_laddr i]
    exact ha
  intro j
  by_cases hj : j = i
  · subst hj
    rw [current_home ha, snapshot_home ha, current_home ha', snapshot_home ha', h.snapshot_laddr j]
    exact ⟨.inl rfl, .inl rfl⟩
  · rw [setLaddr_of_ne hj, setMaddr_of_ne hj, setMaddr_of_ne hj, setLaddr_of_ne hj, setMaddr_of_ne hj,
      setMaddr_of_ne hj]
    exact h j

/-- A slot is mapped in the same way. -/
theorem follows_mapSlot (hs : s.Reopened)
    (hca : ∀ b z a z', Returns (c b true) z a z' → a = z.startAddr + b) (hc : ∀ b ∈ K.snapshots s l, Follows s N sd (c b true)) {n₀ : ν}
    (hn₀ : s.pageAt (s.startAddr + l) = some (K.page n₀)) (hi : i < K.index n₀) :
    Follows s N sd (mapSlot K msg .complete c (s.startAddr + l) i) := by
  intro x y u x' h hr
  unfold mapSlot at hr ⊢
  rw [returns_bind] at hr
  obtain ⟨n, _, hload, hr⟩ := hr
  obtain ⟨hn, rfl⟩ := K.returns_load.mp hload
  obtain ⟨m, hm, -, hsl⟩ := h.restores.node h.reopened hn
  rw [returns_bind] at hr
  obtain ⟨_, _, hreq, hr⟩ := hr
  obtain ⟨hcons, rfl⟩ := returns_require.mp hreq
  have hcons' : ¬ notCsConsistent (K.current m i).laddr (K.snapshot m i).laddr := by
    unfold notCsConsistent at hcons ⊢
    rw [hsl.zero_iff, hsl.snapshot_laddr]
    exact hcons
  rcases returns_when.mp hr with ⟨h0, hr⟩ | ⟨h0, rfl⟩
  · simp only [returns_bind] at hr
    obtain ⟨a, x₁, h₁, _, x₂, h₂, _, x₃, h₃, h₄⟩ := hr
    -- the child is one of those of the file
    obtain ⟨n', hn', -, hsl₀⟩ := h.origin.node hs hn₀
    obtain rfl := K.page_inj (Option.some.inj (hn.symm.trans hn'))
    have hmem : (K.snapshot n i).laddr ∈ K.snapshots s l := by
      unfold NodeKind.snapshots
      rw [hn₀, Option.bind_some, K.node?_eq_some.mpr rfl, hsl₀.snapshot_laddr i]
      refine List.mem_filter.mpr ⟨List.mem_map.mpr ⟨i, List.mem_range.mpr hi, rfl⟩, ?_⟩
      have hne : (K.snapshot n i).laddr ≠ 0 := fun hz => h0 ((not_not.mp hcons).mpr hz)
      rw [hsl₀.snapshot_laddr i] at hne
      simpa using hne
    obtain ⟨y₁, hy₁, htwin₁, hx₁⟩ := hc _ hmem h h₁
    obtain ⟨n₁, hn₁, -, hslx⟩ := hx₁.node h.reopened hn
    obtain ⟨m₁, hm₁, -, hsly⟩ := htwin₁.restores.node htwin₁.reopened hn₁
    have hstart₁ := hx₁.edits.startAddr
    -- the stores of the first run
    have hset₂ := htwin₁.reopened.updateNode hn₁ h₂
    have hs₂ := hset₂.edits.reopened htwin₁.reopened
    have hset₃ := hset₂.trans (hs₂.updateNode (hset₂.pageAt htwin₁.reopened) h₃)
    have hs₃ := hset₃.edits.reopened htwin₁.reopened
    have hset₄ := hset₃.trans (hs₃.updateNode (hset₃.pageAt htwin₁.reopened) h₄)
    -- and those of the second
    have hw : ∀ q, y₁.vpage (s.startAddr + l) = some q → (y₁.prot q).write = true := by
      intro q hq
      obtain ⟨q', _, hq', hw, -, -⟩ := htwin₁.reopened.updatePage h₂
      rw [htwin₁.restores.edits.vpage] at hq
      obtain rfl := Option.some.inj (hq.symm.trans hq')
      rw [htwin₁.restores.edits.prot]
      exact hw
    have hry₁ := htwin₁.restores.edits.reopened htwin₁.reopened
    obtain ⟨y₂, hy₂, hsy₂, hry₂, hm₂, hw₂⟩ := hry₁.exists_updateNode hm₁ hw
      fun n => K.put n (setMaddr (K.current n) i a) (K.snapshot n)
    obtain ⟨y₃, hy₃, hsy₃, hry₃, hm₃, hw₃⟩ := hry₂.exists_updateNode hm₂ hw₂
      fun n => K.put n (K.current n) (setMaddr (K.snapshot n) i (K.current n i).maddr)
    obtain ⟨y₄, hy₄, hsy₄, -⟩ := hry₃.exists_updateNode hm₃ hw₃
      fun n => K.put n (setLaddr (K.current n) i (K.snapshot n i).laddr) (K.snapshot n)
    have hsy := (hsy₂.trans hsy₃).trans hsy₄
    rw [K.put_put, K.put_put] at hset₄ hsy
    simp only [K.current_put, K.snapshot_put, setMaddr_self] at hset₄ hsy
    have ha : a = x₁.startAddr + (K.snapshot n₁ i).laddr := by
      rw [hstart₁, hslx.snapshot_laddr i]
      exact hca _ _ _ _ h₁
    have hlive : SlotLive (K.current n i) (K.snapshot n i) :=
      ⟨h0, fun hz => h0 ((not_not.mp hcons).mpr hz)⟩
    have hslots := slotsRestored_home ha ((hslx.live i).mpr hlive)
    have hx₄ := hset₄.restores (N := Set.univ) (fun _ _ => trivial) hslots
    refine ⟨y₄, Returns.bind (K.returns_load.mpr ⟨hm, rfl⟩)
      (Returns.seq (returns_require.mpr ⟨hcons', rfl⟩) ?_), ?_, hx₁.trans hx₄⟩
    · have h0' : (K.current m i).laddr ≠ 0 := fun hz => h0 ((hsl.zero_iff i).mp hz)
      rw [returns_when_true h0', hsl.snapshot_laddr i]
      exact hy₁.bind (Returns.seq hy₂ (Returns.seq hy₃ hy₄))
    · refine htwin₁.setsNode hset₄ hsy hslots (hsly.home ha) ?_
      rintro rfl
      exact ⟨rfl, rfl⟩
  · refine ⟨y, Returns.bind (K.returns_load.mpr ⟨hm, rfl⟩)
      (Returns.seq (returns_require.mpr ⟨hcons', rfl⟩) ?_), h, .refl x⟩
    exact (returns_when_false fun hz => h0 fun h => hz ((hsl.zero_iff i).mpr h)).mpr rfl

theorem Follows.forSlots {bound k₀ : ℕ} {index : PmProg ℕ} {body : ℕ → PmProg Unit}
    (hindex : ∀ x y k x', Twin s N sd x y → Returns index x k x' →
      k = k₀ ∧ x = x' ∧ Returns index y k y)
    (hbody : ∀ i < k₀, Follows s N sd (body i)) : Follows s N sd (LibPM.forSlots bound index body) := by
  have hrun : ∀ fuel i, Follows s N sd
      (upTo .outOfBounds index (fun i => do require (i < bound) .outOfBounds; body i) fuel i) := by
    intro fuel
    induction fuel with
    | zero => exact fun i => follows_fail
    | succ fuel ih =>
      intro i x y u x' h hr
      rw [upTo, returns_bind] at hr
      obtain ⟨k, _, hk, hr⟩ := hr
      obtain ⟨rfl, rfl, hk'⟩ := hindex x y k _ h hk
      by_cases hi : i < k
      · rw [if_pos hi] at hr
        have hround : Follows s N sd (do
            (do require (i < bound) .outOfBounds; body i)
            upTo .outOfBounds index (fun i => do require (i < bound) .outOfBounds; body i) fuel (i + 1)) :=
          ((follows_pure.ite follows_fail).bind fun _ => hbody i hi).bind fun _ => ih (i + 1)
        obtain ⟨y', hy', htwin, hx⟩ := hround h hr
        refine ⟨y', ?_, htwin, hx⟩
        rw [upTo]
        refine hk'.bind ?_
        rw [if_pos hi]
        exact hy'
      · rw [if_neg hi] at hr
        obtain ⟨-, rfl⟩ := returns_pure.mp hr
        refine ⟨y, ?_, h, .refl x⟩
        rw [upTo]
        refine hk'.bind ?_
        rw [if_neg hi]
        exact returns_pure.mpr ⟨rfl, rfl⟩
  exact hrun _ _

/-- **The slots of a node are mapped in the same way.** -/
theorem follows_mapSlots (hs : s.Reopened) {bound : ℕ}
    (hca : ∀ b z a z', Returns (c b true) z a z' → a = z.startAddr + b)
    (hc : ∀ b ∈ K.snapshots s l, Follows s N sd (c b true)) :
    Follows s N sd (LibPM.forSlots bound (K.index <$> K.load (s.startAddr + l))
      (mapSlot K msg .complete c (s.startAddr + l))) := by
  intro x y u x' h hr
  -- the first test reads the node
  obtain ⟨n, hn⟩ : ∃ n, x.pageAt (s.startAddr + l) = some (K.page n) := by
    have h := hr
    unfold LibPM.forSlots at h
    rw [upTo, returns_bind] at h
    obtain ⟨k, t, hk, -⟩ := h
    obtain ⟨n, hload, -⟩ := returns_map.mp hk
    exact ⟨n, (K.returns_load.mp hload).1⟩
  obtain ⟨p, hp, hre⟩ := h.origin.pageAt_rev hs hn
  obtain ⟨n₀, rfl⟩ := K.of_restored_rev hre
  have hround : ∀ i < K.index n₀, Follows s N sd (mapSlot K msg .complete c (s.startAddr + l) i) :=
    fun i hi => follows_mapSlot hs hca hc hp hi
  refine Follows.forSlots (fun x y k x' h hk => ?_) hround h hr
  obtain ⟨m, hload, rfl⟩ := returns_map.mp hk
  obtain ⟨hm, rfl⟩ := K.returns_load.mp hload
  obtain ⟨n₁, hn₁, hidx, -⟩ := h.origin.node hs hp
  obtain rfl := K.page_inj (Option.some.inj (hm.symm.trans hn₁))
  obtain ⟨m', hm', hidx', -⟩ := h.restores.node h.reopened hm
  exact ⟨hidx, rfl, returns_map.mpr ⟨m', K.returns_load.mpr ⟨hm', rfl⟩, hidx'⟩⟩

theorem follows_nodeMap (hs : s.Reopened) {bound : ℕ}
    (hca : ∀ b z a z', Returns (c b true) z a z' → a = z.startAddr + b)
    (hc : ∀ b ∈ K.snapshots s l, Follows s N sd (c b true)) :
    Follows s N sd (nodeMap K bound msg .complete c l) := by
  intro x y a x' h hr
  unfold nodeMap at hr
  rw [returns_bind] at hr
  obtain ⟨_, _, hmap, hr⟩ := hr
  obtain ⟨rfl, rfl⟩ := returns_mappage.mp hmap
  rw [h.origin.edits.startAddr] at hr
  have hslots : Follows s N sd (LibPM.forSlots bound (K.index <$> K.load (s.startAddr + l))
      (mapSlot K msg .complete c (s.startAddr + l))) := follows_mapSlots hs hca hc
  obtain ⟨y', hy', htwin, hx⟩ := (hslots.bind fun _ => follows_pure) h hr
  refine ⟨y', Returns.bind (returns_mappage.mpr ⟨rfl, rfl⟩) ?_, htwin, hx⟩
  rw [h.restores.edits.startAddr, h.origin.edits.startAddr]
  exact hy'

theorem nodeMap_address {type : CpointType} {bound a : ℕ} {z z' : Pm}
    (hr : Returns (nodeMap K bound msg type c l) z a z') : a = z.startAddr + l := by
  unfold nodeMap at hr
  simp only [returns_bind, returns_mappage, returns_pure] at hr
  obtain ⟨_, _, ⟨rfl, rfl⟩, _, _, -, rfl, rfl⟩ := hr
  rfl

theorem slabBucketMap_address {type : CpointType} {b : Bool} {a : ℕ} {z z' : Pm}
    (hr : Returns (slabBucketMap sd l type b) z a z') : a = z.startAddr + l := by
  unfold slabBucketMap at hr
  simp only [returns_bind, returns_mappage, returns_pure] at hr
  obtain ⟨_, _, ⟨rfl, rfl⟩, _, _, -, rfl, rfl⟩ := hr
  rfl

theorem follows_slabInnerMap (hs : s.Reopened) (hl : ∀ b ∈ innerKind.snapshots s l, s.BucketFree N b) :
    Follows s N sd (slabInnerMap sd l .complete) := by
  rw [slabInnerMap_eq]
  exact follows_nodeMap hs (fun _ _ _ _ => slabBucketMap_address) fun b hb =>
    follows_slabBucketMap hs (hl b hb)

theorem follows_slabOuterMap (hs : s.Reopened)
    (hl : ∀ a ∈ outerKind.snapshots s l, ∀ b ∈ innerKind.snapshots s a, s.BucketFree N b) :
    Follows s N sd (slabOuterMap sd l .complete) := by
  rw [slabOuterMap_eq]
  refine follows_nodeMap hs (fun _ _ _ _ hr => ?_) fun a ha => follows_slabInnerMap hs (hl a ha)
  rw [slabInnerMap_eq] at hr
  exact nodeMap_address hr

/-! ## The directory -/

/-- The directory at `sd` is on a page that can be written. -/
structure Pm.DirWritable (y : Pm) (sd q : ℕ) : Prop where
  reopened : y.Reopened
  vpage : y.vpage sd = some q
  dir : ∃ d, y.file q = .dir d
  writable : (y.prot q).write = true

theorem Pm.DirWritable.exists_store {q : ℕ} (h : y.DirWritable sd q) (f : SlabDir → SlabDir) :
    ∃ y', Returns (LibPM.updatePage sd (Page.onDir f)) y () y' ∧ y'.DirWritable sd q := by
  obtain ⟨d, hd⟩ := h.dir
  have hret := Pm.returns_updatePage (g := Page.onDir f) (p := .dir (f d)) h.reopened.vmap h.vpage
    h.writable (by rw [hd]; rfl)
  exact ⟨_, hret, (Pm.Edits.setPage y q _).reopened h.reopened, h.vpage, ⟨_, Function.update_self ..⟩,
    h.writable⟩

theorem Pm.DirWritable.exists_clearIndexes {q : ℕ} (h : y.DirWritable sd q) :
    ∃ y', Returns (LibPM.clearIndexes sd) y () y' := by
  obtain ⟨y₁, hy₁, h₁⟩ := h.exists_store fun d => { d with sdMaddrRoot := [] }
  have h₁' : Pm.DirWritable { y₁ with sizes := [] } sd q :=
    ⟨⟨h₁.reopened.vmap, h₁.reopened.start, h₁.reopened.aligned, h₁.reopened.stores⟩, h₁.vpage, h₁.dir,
      h₁.writable⟩
  obtain ⟨y₂, hy₂, h₂⟩ := h₁'.exists_store fun d => { d with sdFreeList.first := none }
  obtain ⟨y₃, hy₃, -⟩ := h₂.exists_store fun d => { d with sdFreeList.last := none }
  exact ⟨y₃, Returns.seq hy₁ (Returns.seq (returns_modify.mpr rfl) (Returns.seq hy₂ hy₃))⟩

/-- The indexes are empty in both runs. -/
theorem Twin.cleared {t t' : Pm} (hs : s.Reopened) (hres : Pm.Restores .complete N s y)
    (hN : EntryRef.In ⟨sd, 0⟩ N s.vpage) (ht : Pm.Cleared sd s t) (ht' : Pm.Cleared sd y t') :
    Twin s N sd t t' := by
  have hy := hres.edits.reopened hs
  have hrt := ht.relinks.1.reopened hs
  have hrt' := ht'.relinks.1.reopened hy
  have hst : Pm.Restores .complete Set.univ s t := ht.restores fun _ _ => trivial
  refine ⟨hrt, hst, ⟨?_, fun i => ?_, fun i hi => ?_⟩, ht'.sizes.trans ht.sizes.symm, ?_, fun d hd r hr => ?_⟩
  · obtain ⟨f, z, rfl⟩ := ht.relinks.1
    obtain ⟨f', z', rfl⟩ := hres.edits
    obtain ⟨f'', z'', rfl⟩ := ht'.relinks.1
    exact ⟨f'', z'', rfl⟩
  · rw [hst.edits.startAddr]
    exact (ht.relinks.2 i).symm.restored.trans ((hres.pages i).trans (ht'.relinks.2 i).restored)
  · have hne : s.vpage sd ≠ some i := fun h => hi (hN i h)
    rw [ht'.frame i (by rw [hres.edits.vpage]; exact hne), hres.frame i hi, ht.frame i hne]
  · obtain ⟨q, d, hq, -, hd⟩ := ht.dir
    obtain ⟨q', d', hq', -, hd'⟩ := ht'.dir
    rw [hres.edits.vpage] at hq'
    obtain rfl := Option.some.inj (hq.symm.trans hq')
    by_cases ha : sd % pageSize = 0
    · rw [Pm.pageAt_of_vpage hrt.vmap ha ((hst.edits.vpage sd).trans hq), hd,
        Pm.pageAt_of_vpage hrt'.vmap ha ((ht'.relinks.1.vpage sd).trans ((hres.edits.vpage sd).trans hq)),
        hd']
      rfl
    · unfold Pm.pageAt
      rw [if_neg ha, if_neg ha]
  · obtain ⟨q, d₀, hq, -, hd₀⟩ := ht.dir
    obtain ⟨-, i, hi, hpage⟩ := pageAt_eq_some.mp (readDir_eq_some.mp hd)
    rw [hst.edits.vpage] at hi
    obtain rfl := Option.some.inj (hq.symm.trans hi)
    rw [hrt.vmap, id, hd₀] at hpage
    obtain rfl := Page.dir.inj hpage
    exact (List.not_mem_nil hr).elim

/-- **`slab_map` returns again.** -/
theorem exists_slabMap_again (hs : s.Reopened) {laddr a : ℕ} (hd : s.DistinctPages laddr)
    (hr : Returns (slabMap laddr .complete) s a x) :
    ∃ y, Returns (slabMap laddr .complete) x a y := by
  obtain ⟨-, hres, -, -⟩ := hs.slabMap_complete hd hr
  have hrx := hres.edits.reopened hs
  have hstart := hres.edits.startAddr
  rw [slabMap_eq] at hr
  obtain ⟨_, _, hmap, hr⟩ := returns_bind.mp hr
  obtain ⟨rfl, rfl⟩ := returns_mappage.mp hmap
  obtain ⟨_, t, hclear, hr⟩ := returns_bind.mp hr
  have ht := hs.clearIndexes hclear
  -- the second run can clear the indexes
  obtain ⟨q, d, hq, hdq, -⟩ := ht.dir
  have hw : (s.prot q).write = true := by
    unfold LibPM.clearIndexes at hclear
    obtain ⟨_, _, h₁, -⟩ := returns_bind.mp hclear
    obtain ⟨q', _, hq', hw, -⟩ := hs.updatePage h₁
    obtain rfl := Option.some.inj (hq.symm.trans hq')
    exact hw
  obtain ⟨d', hd'⟩ : ∃ d', x.file q = .dir d' := by
    have hp := hres.pages q
    rw [hdq] at hp
    obtain ⟨d', hd', -⟩ := dirKind.of_restored hp
    exact ⟨d', hd'⟩
  have hdir : x.DirWritable (s.startAddr + laddr) q :=
    ⟨hrx, (hres.edits.vpage _).trans hq, ⟨d', hd'⟩, by rw [hres.edits.prot]; exact hw⟩
  obtain ⟨t', hclear'⟩ := hdir.exists_clearIndexes
  have ht' := hrx.clearIndexes hclear'
  have htwin := Twin.cleared hs hres (s.pre_nodePages laddr).1 ht ht'
  -- and then goes the same way
  have hfree : ∀ a ∈ dirKind.snapshots s laddr, ∀ b ∈ outerKind.snapshots s a,
      ∀ c ∈ innerKind.snapshots s b, s.BucketFree (s.nodePages laddr) c := by
    intro a ha b hb c hc d hdc
    have hmem : d ∈ s.dataOffsets laddr := List.mem_flatMap.mpr ⟨c, List.mem_flatMap.mpr
      ⟨b, List.mem_flatMap.mpr ⟨a, ha, hb⟩, hc⟩, hdc⟩
    exact ⟨hd.aligned d hmem, fun q hq => hd.data hmem hq⟩
  have hrest : Follows s (s.nodePages laddr) (s.startAddr + laddr) (do
      LibPM.forSlots slabDirEntries (dirKind.index <$> dirKind.load (s.startAddr + laddr))
        (mapSlot dirKind "found inconsistent state while restoring dir" .complete
          (fun l _ => slabOuterMap (s.startAddr + laddr) l .complete) (s.startAddr + laddr))
      return s.startAddr + laddr) := by
    refine (follows_mapSlots hs (fun _ _ _ _ hr => ?_) fun b hb => follows_slabOuterMap hs (hfree b hb)).bind
      fun _ => follows_pure
    rw [slabOuterMap_eq] at hr
    exact nodeMap_address hr
  obtain ⟨_, _, hloop, hret⟩ := returns_bind.mp hr
  obtain ⟨rfl, rfl⟩ := returns_pure.mp hret
  obtain ⟨y, hy, -, -⟩ := hrest htwin hr
  refine ⟨y, ?_⟩
  rw [slabMap_eq]
  refine Returns.bind (returns_mappage.mpr ⟨rfl, rfl⟩) ?_
  rw [hstart]
  exact Returns.seq hclear' hy

/-- **A completed restore.** Memory holds the tree that is reached from the directory by the offsets of
the snapshots, both versions of every slot and entry in use have one offset, the same tree comes of
every file that agrees on its pages, and a second call returns it again. -/
theorem restoresCommitted {s s' : Pm} {laddr a : ℕ} (hs : s.Reopened) (hd : s.DistinctPages laddr)
    (hr : Returns (slabMap laddr .complete) s a s') : a = s.startAddr + laddr ∧
      Way.memory.dirTree s' a = Way.image.dirTree s (s.startAddr + laddr) ∧ s'.Settled a ∧
      (∀ t t' b, t.Reopened → s.AgreesOn t laddr → Returns (slabMap laddr .complete) t b t' →
        Way.memory.dirTree t' b = Way.memory.dirTree s' a) ∧
      ∃ s'', Returns (slabMap laddr .complete) s' a s'' ∧
        Way.memory.dirTree s'' a = Way.memory.dirTree s' a := by
  obtain ⟨rfl, hres, hdone, hpages⟩ := hs.slabMap_complete hd hr
  have htree := Way.dirTree_eq hs hres hdone hpages
  have hstart := hres.edits.startAddr
  have hs' := hres.edits.reopened hs
  refine ⟨rfl, htree .memory, hstart ▸ Level.dir_settled hdone, fun t t' b ht hagree hrt => ?_, ?_⟩
  · obtain ⟨rfl, hrest, hdonet, hpagest⟩ := ht.slabMap_complete (hagree.distinctPages hd) hrt
    calc Way.memory.dirTree t' (t.startAddr + laddr)
      _ = Way.image.dirTree t (t.startAddr + laddr) := Way.dirTree_eq ht hrest hdonet hpagest .memory
      _ = Way.image.dirTree s (s.startAddr + laddr) := Way.dirTree_agree hagree
      _ = Way.memory.dirTree s' (s.startAddr + laddr) := (htree .memory).symm
  · obtain ⟨s'', hr'⟩ := exists_slabMap_again hs hd hr
    refine ⟨s'', hr', ?_⟩
    obtain ⟨-, hres', hdone', hpages'⟩ := hs'.slabMap_complete (hres.distinctPages hs hd) hr'
    calc Way.memory.dirTree s'' (s.startAddr + laddr)
      _ = Way.image.dirTree s' (s.startAddr + laddr) := by
        rw [← hstart]
        exact Way.dirTree_eq hs' hres' hdone' hpages' .memory
      _ = Way.image.dirTree s (s.startAddr + laddr) := htree .image
      _ = Way.memory.dirTree s' (s.startAddr + laddr) := (htree .memory).symm

end

instance (s : Pm) (laddr : ℕ) : Decidable (s.DistinctPages laddr) :=
  decidable_of_iff ((∀ l ∈ s.dataOffsets laddr, l % pageSize = 0) ∧
    ((s.nodeOffsets laddr ++ s.dataOffsets laddr).map (· / pageSize)).Nodup)
    ⟨fun h => ⟨h.1, h.2⟩, fun h => ⟨h.aligned, h.nodup⟩⟩

/-- A session with two objects and a checkpoint, and its tree mapped by another process: the length of
the file, and whether the pages of the tree are distinct. -/
def sessionMapped (env : Env) (type : CpointType) : MachineProg (ℕ × Bool) := do
  let _ ← containerInit env
  [Action.palloc 512, .palloc 64, .cpoint].forM Action.run
  let m ← get
  modify fun m => m.restart env
  onPm (openWritable env.initSize)
  let s ← get
  let _ ← onPm (slabMap pageSize type)
  return (m.pm.fileLen, decide (s.pm.DistinctPages pageSize))

theorem exists_sessionMapped (type : CpointType)
    (hrun : (sessionMapped (Env.standard .fixedMapper) type
      (Machine.fresh (Env.standard .fixedMapper))).value? = some (24 * pageSize, true)) :
    ∃ saved m s s' sd, Session anyAction (Env.standard .fixedMapper) saved m ∧ s.Reopened ∧
      Returns (openWritable (Env.standard .fixedMapper).initSize)
        (m.restart (Env.standard .fixedMapper)).pm () s ∧
      s.DistinctPages pageSize ∧ Returns (slabMap pageSize type) s sd s' := by
  obtain ⟨t, h⟩ := exists_returns_of_value hrun
  unfold sessionMapped onPm at h
  simp only [returns_bind, returns_get, returns_modify, returns_pure, Prod.mk.injEq, returns_zoom,
    decide_eq_true_iff] at h
  obtain ⟨cont, m₀, hinit, _, m₁, hacts, _, _, ⟨rfl, rfl⟩, _, _, rfl, _, _, ⟨s, hopen, rfl⟩, _, _, ⟨rfl, rfl⟩,
    sd, _, ⟨s', hmap, rfl⟩, ⟨hlen, hdist⟩, rfl⟩ := h
  obtain ⟨saved, hs⟩ := (Session.init hinit).forM hacts
  have hlen' : pageSize ≤ m₁.pm.fileLen := by
    rw [hlen]
    decide
  exact ⟨saved, m₁, s, s', sd, hs, .openWritable hlen' hopen, hopen, hdist, hmap⟩

/-- The file of a session with two objects. -/
theorem restoresCommitted_session : ∃ s s' : Pm, ∃ a,
    Way.memory.dirTree s' a = Way.image.dirTree s (s.startAddr + pageSize) ∧ s'.Settled a := by
  obtain ⟨saved, m, s, s', a, -, hs, -, hd, hr⟩ := exists_sessionMapped .complete (by decide +kernel)
  obtain ⟨-, htree, hsettled, -⟩ := restoresCommitted hs hd hr
  exact ⟨s, s', a, htree, hsettled⟩

end LibPM

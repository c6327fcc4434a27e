import LibPM.Allocator.Reopen
import LibPM.Model.Cont
import LibPM.Memory.Access

/-!
# Stores to a file that was opened again

`slab_map` runs on a linear mapping. Its stores either do not fault, because the pages can be
written, or do not come back, because the fixed mapper of a reopened file has no page for the
handler (`Pm.Reopened`). So every store that returns is one store to one page, and what the
functions of restore.c do can be read off their text.

`Pm.Relinks` is what indexing does: it changes links between entries and the heads of lists, and
nothing else in any page.
-/

namespace LibPM

open Recorded Recorded.Prog

variable {s s' : Pm} {u : Unit}

structure Pm.Reopened (s : Pm) : Prop where
  vmap : s.vmap = id
  start : s.startAddr ≠ 0
  aligned : s.startAddr % pageSize = 0
  stores : (∀ i, (s.prot i).write = true) ∨ ∃ fm, s.pa = .fixed fm ∧ fm.Blank

namespace Pm.Reopened

/-- The handler does not come back when there is no page for it. -/
theorem not_returns_handleMemoryUpdate {fm : FixedMapper} {a : ℕ} (hpa : s.pa = .fixed fm)
    (hb : fm.Blank) : ¬ Returns (handleMemoryUpdate a) s u s' := by
  intro h
  unfold handleMemoryUpdate at h
  simp only [returns_bind, returns_currentSlabMaddr, returns_usedFind] at h
  obtain ⟨sd, _, ⟨-, rfl⟩, o, _, ⟨-, rfl⟩, h⟩ := h
  cases o with
  | none => exact (returns_fail h).elim
  | some se =>
    dsimp only at h
    rw [returns_bind] at h
    obtain ⟨_, _, h, -⟩ := h
    unfold funcSlabEntrySnapshot at h
    simp only [returns_bind, returns_get] at h
    obtain ⟨_, _, ⟨rfl, rfl⟩, h⟩ := h
    rw [hpa] at h
    dsimp only at h
    unfold slabEntrySnapshot pageAllocatorGetpage at h
    rw [returns_bind] at h
    obtain ⟨_, _, h, -⟩ := h
    rw [returns_bind] at h
    obtain ⟨_, _, hget, h⟩ := h
    obtain ⟨rfl, rfl⟩ := returns_get.mp hget
    rw [hpa] at h
    exact not_returns_alloc_of_blank hb h

/-- A store that returns changes one page. -/
theorem updatePage (h : s.Reopened) {a : ℕ} {g : Page → Option Page}
    (hr : Returns (LibPM.updatePage a g) s u s') :
    ∃ i p, s.vpage a = some i ∧ (s.prot i).write = true ∧ g (s.file i) = some p ∧
      s' = s.setPage i p := by
  unfold LibPM.updatePage at hr
  obtain ⟨_, t, hm, hp⟩ := returns_bind.mp hr
  obtain ⟨i, hi, hm⟩ := returns_makeWritable.mp hm
  rcases hm with ⟨hw, rfl⟩ | ⟨hw, hm⟩
  · obtain ⟨j, p, hj, -, hg, rfl⟩ := returns_putPage.mp hp
    obtain rfl := Option.some.inj (hi.symm.trans hj)
    rw [h.vmap] at hg ⊢
    exact ⟨i, p, hi, hw, hg, rfl⟩
  · rcases h.stores with hall | ⟨fm, hpa, hb⟩
    · rw [hall i] at hw
      cases hw
    · exact (not_returns_handleMemoryUpdate hpa hb hm).elim

end Pm.Reopened

/-- What `page_allocator_init` of the fixed mapper leaves of the file of an earlier process. -/
theorem Pm.Reopened.init {env : Env} {m : Machine} (hlen : pageSize ≤ m.pm.fileLen)
    (hr : Returns (pageAllocatorInit .fixedMapper env.initSize) (m.restart env).pm u s) :
    s.Reopened := by
  have hlen' : pageSize ≤ (m.restart env).pm.fileLen := hlen
  have hpos : (m.restart env).pm.fileLen ≠ 0 := by
    have := pageSize_pos
    omega
  unfold pageAllocatorInit at hr
  simp only [returns_bind, returns_modify] at hr
  obtain ⟨fm, t, hinit, rfl⟩ := hr
  have hb := blank_fixedMapperInit hlen' hinit
  unfold fixedMapperInit at hinit
  simp only [returns_bind, returns_get] at hinit
  obtain ⟨_, _, ⟨rfl, rfl⟩, fm₁, _, h₁, hmap⟩ := hinit
  rw [if_neg hpos, returns_pure] at h₁
  obtain ⟨rfl, rfl⟩ := h₁
  obtain ⟨rfl, hne, -, rfl⟩ := returns_mapFile_first rfl hmap
  have haligned : env.mapHint % pageSize = 0 := by
    have := env.hint_aligned
    unfold pageSize
    omega
  exact ⟨rfl, hne, haligned, .inr ⟨_, rfl, hb⟩⟩

/-- The file of an earlier process is mapped, and every page can be written. -/
def openWritable (size : ℕ) : PmProg Unit := do
  pageAllocatorInit .fixedMapper size
  modify fun s => { s with containers := some s.startAddr, prot := fun _ => paProtRnw }

theorem Pm.Reopened.openWritable {env : Env} {m : Machine} (hlen : pageSize ≤ m.pm.fileLen)
    (hr : Returns (LibPM.openWritable env.initSize) (m.restart env).pm u s) : s.Reopened := by
  unfold LibPM.openWritable at hr
  simp only [returns_bind, returns_modify] at hr
  obtain ⟨_, t, hinit, rfl⟩ := hr
  have h := Pm.Reopened.init hlen hinit
  exact ⟨h.vmap, h.start, h.aligned, .inl fun _ => rfl⟩

/-! ## What may change -/

/-- Only pages and the nodes of the sizes change. -/
def Pm.Edits (s s' : Pm) : Prop := ∃ file sizes, s' = { s with file := file, sizes := sizes }

namespace Pm.Edits

theorem refl (s : Pm) : s.Edits s := ⟨s.file, s.sizes, rfl⟩

theorem trans {s'' : Pm} (h : s.Edits s') (h' : s'.Edits s'') : s.Edits s'' := by
  obtain ⟨f, z, rfl⟩ := h
  obtain ⟨f', z', rfl⟩ := h'
  exact ⟨f', z', rfl⟩

theorem setPage (s : Pm) (i : ℕ) (p : Page) : s.Edits (s.setPage i p) := ⟨_, s.sizes, rfl⟩

theorem reopened (h : s.Edits s') (hs : s.Reopened) : s'.Reopened := by
  obtain ⟨f, z, rfl⟩ := h
  exact ⟨hs.vmap, hs.start, hs.aligned, hs.stores⟩

theorem vpage (h : s.Edits s') (a : ℕ) : s'.vpage a = s.vpage a := by
  obtain ⟨f, z, rfl⟩ := h
  rfl

theorem startAddr (h : s.Edits s') : s'.startAddr = s.startAddr := by
  obtain ⟨f, z, rfl⟩ := h
  rfl

theorem prot (h : s.Edits s') : s'.prot = s.prot := by
  obtain ⟨f, z, rfl⟩ := h
  rfl

end Pm.Edits

/-! ## Links -/

def SlabEntry.unlinked (e : SlabEntry) : SlabEntry := { e with seList := none }

/-- The same page but for the links of entries and the indexes of the directory. -/
def Page.SameButLinks : Page → Page → Prop
  | .bucket b, .bucket b' => b'.sbHasSnapshot = b.sbHasSnapshot ∧ b'.sbId = b.sbId ∧
      ∀ i, (b'.sbEntries i).unlinked = (b.sbEntries i).unlinked
  | .dir d, .dir d' => d' = { d with sdMaddrRoot := d'.sdMaddrRoot, sdFreeList := d'.sdFreeList }
  | p, p' => p' = p

namespace Page.SameButLinks

theorem refl (p : Page) : p.SameButLinks p := by
  cases p with
  | bucket b => exact ⟨rfl, rfl, fun _ => rfl⟩
  | _ => rfl

theorem trans {p p' p'' : Page} (h : p.SameButLinks p') (h' : p'.SameButLinks p'') :
    p.SameButLinks p'' := by
  cases p with
  | bucket b =>
    cases p' with
    | bucket b' =>
      cases p'' with
      | bucket b'' =>
        exact ⟨h'.1.trans h.1, h'.2.1.trans h.2.1, fun i => (h'.2.2 i).trans (h.2.2 i)⟩
      | _ => cases h'
    | _ => cases h
  | dir d =>
    cases p' with
    | dir d' =>
      cases p'' with
      | dir d'' =>
        unfold Page.SameButLinks at h h' ⊢
        rw [h', h]
      | _ => cases h'
    | _ => cases h
  | _ =>
    obtain rfl : p' = _ := h
    exact h'

end Page.SameButLinks

/-- Links change, in whatever pages they are. -/
def Pm.Relinks (s s' : Pm) : Prop := s.Edits s' ∧ ∀ i, (s.file i).SameButLinks (s'.file i)

theorem Pm.Relinks.refl (s : Pm) : s.Relinks s := ⟨.refl s, fun _ => .refl _⟩

theorem Pm.Relinks.trans {s'' : Pm} (h : s.Relinks s') (h' : s'.Relinks s'') : s.Relinks s'' :=
  ⟨h.1.trans h'.1, fun i => (h.2 i).trans (h'.2 i)⟩

theorem Pm.Relinks.setPage {i : ℕ} {p : Page} (h : (s.file i).SameButLinks p) :
    s.Relinks (s.setPage i p) := by
  refine ⟨.setPage s i p, fun j => ?_⟩
  unfold Pm.setPage
  dsimp only
  by_cases hj : j = i
  · rw [hj, Function.update_self]
    exact h
  · rw [Function.update_of_ne hj]
    exact .refl _

/-- The relation for the `Keeps` rules: it assumes a reopened file. -/
def Pm.RelinksIf (s s' : Pm) : Prop := s.Reopened → s.Relinks s'

instance : IsTrans Pm Pm.RelinksIf :=
  ⟨fun _ _ _ h h' hs => (h hs).trans (h' ((h hs).1.reopened hs))⟩

instance : Std.Refl Pm.RelinksIf := ⟨fun s _ => .refl s⟩

/-- The directory at `sd` is on a page of `N`, and the queues end in pages of `N`. -/
structure Pm.QueuesIn (s : Pm) (sd : ℕ) (N : Set ℕ) : Prop where
  dir : ∀ q, s.vpage sd = some q → q ∈ N
  free : ∀ d r, s.readDir sd = some d → d.sdFreeList.last = some r →
    ∀ q, s.vpage r.sb = some q → q ∈ N
  sizes : ∀ es ∈ s.sizes, ∀ r, es.esList.last = some r → ∀ q, s.vpage r.sb = some q → q ∈ N

/-- Links change, in pages of `N` only. The mapping is `v`. -/
def Pm.RelinksIn (sd : ℕ) (N : Set ℕ) (v : ℕ → Option ℕ) (s s' : Pm) : Prop :=
  s.Reopened → s.vpage = v → s.QueuesIn sd N →
    s.Relinks s' ∧ s'.QueuesIn sd N ∧ ∀ q, q ∉ N → s'.file q = s.file q

section RelinksIn

variable {sd : ℕ} {N : Set ℕ} {v : ℕ → Option ℕ}

instance : IsTrans Pm (Pm.RelinksIn sd N v) := by
  refine ⟨fun s t s'' h h' hs hv hq => ?_⟩
  obtain ⟨hr, hq', hN⟩ := h hs hv hq
  obtain ⟨hr', hq'', hN'⟩ := h' (hr.1.reopened hs) (funext (fun a => (hr.1.vpage a).trans (hv ▸ rfl))) hq'
  exact ⟨hr.trans hr', hq'', fun q hn => (hN' q hn).trans (hN q hn)⟩

instance : Std.Refl (Pm.RelinksIn sd N v) := ⟨fun s _ _ hq => ⟨.refl s, hq, fun _ _ => rfl⟩⟩

/-- The entry is in a bucket on a page of `N`. -/
def EntryRef.In (r : EntryRef) (N : Set ℕ) (v : ℕ → Option ℕ) : Prop :=
  ∀ q, v r.sb = some q → q ∈ N

theorem keeps_updatePage {a : ℕ} {g : Page → Option Page} (ha : ∀ q, v a = some q → q ∈ N)
    (hg : ∀ p p', g p = some p' → p.SameButLinks p')
    (hlast : ∀ p d r, g p = some (.dir d) → d.sdFreeList.last = some r →
      (∃ d', p = .dir d' ∧ d'.sdFreeList.last = some r) ∨ r.In N v) :
    Keeps (Pm.RelinksIn sd N v) (updatePage a g) := by
  intro s _ s' hr hs hv hQ
  obtain ⟨i, p, hi, -, hp, rfl⟩ := hs.updatePage hr
  have hiN : i ∈ N := ha i (hv ▸ hi)
  refine ⟨.setPage (hg _ _ hp), ⟨hQ.dir, fun d r hd hr q hq => ?_, hQ.sizes⟩, fun q hq => ?_⟩
  · obtain ⟨hmod, j, hj, hpage⟩ := pageAt_eq_some.mp (readDir_eq_some.mp hd)
    have hj' : s.vpage sd = some j := hj
    have hq' : s.vpage r.sb = some q := hq
    rw [show (s.setPage i p).vmap j = j from congrFun hs.vmap j] at hpage
    unfold Pm.setPage at hpage
    dsimp only at hpage
    by_cases hji : j = i
    · rw [hji, Function.update_self] at hpage
      rcases hlast _ d r (hpage ▸ hp) hr with ⟨d', hd', hr'⟩ | hin
      · refine hQ.free d' r (readDir_eq_some.mpr (pageAt_eq_some.mpr ⟨hmod, j, hj', ?_⟩)) hr' q hq'
        rw [hs.vmap, id, hji]
        exact hd'
      · exact hin q (hv ▸ hq')
    · rw [Function.update_of_ne hji] at hpage
      refine hQ.free d r (readDir_eq_some.mpr (pageAt_eq_some.mpr ⟨hmod, j, hj', ?_⟩)) hr q hq'
      rw [hs.vmap]
      exact hpage
  · exact Function.update_of_ne (fun he : q = i => hq (he ▸ hiN)) ..

theorem keeps_load {α : Type} {f : Pm → Option α} :
    Keeps (Pm.RelinksIn sd N v) (do let s ← get; ofOption .sigsegv (f s) : PmProg α) :=
  keeps_get.bind fun _ => keeps_ofOption

theorem keeps_modify_sizes (f : List SlabEntrySize → List SlabEntrySize)
    (hf : ∀ l, ∀ es ∈ f l, ∀ r, es.esList.last = some r →
      (∃ es' ∈ l, es'.esList.last = some r) ∨ r.In N v) :
    Keeps (Pm.RelinksIn sd N v) (modify fun s => { s with sizes := f s.sizes } : PmProg Unit) := by
  refine Keeps.modify fun s hs hv hQ => ⟨⟨⟨s.file, f s.sizes, rfl⟩, fun _ => .refl _⟩,
    ⟨hQ.dir, hQ.free, fun es hes r hr q hq => ?_⟩, fun _ _ => rfl⟩
  rcases hf s.sizes es hes r hr with ⟨es', hes', hr'⟩ | hin
  · exact hQ.sizes es' hes' r hr' q hq
  · exact hin q (hv ▸ hq)

/-! ## Indexing -/

theorem keeps_setLink {r : EntryRef} (hr : r.In N v) (x : SlabEntry → Option EntryRef) :
    Keeps (Pm.RelinksIn sd N v) (updateEntry r fun e => { e with seList := x e }) := by
  refine keeps_updatePage hr (fun p p' h => ?_) (fun p d r' h hr' => ?_)
  · cases p with
    | bucket b =>
      unfold Page.onEntry at h
      split_ifs at h
      cases h
      refine ⟨rfl, rfl, fun i => ?_⟩
      by_cases hi : i = r.idx
      · subst hi
        dsimp only
        rw [Function.update_self]
        rfl
      · dsimp only
        rw [Function.update_of_ne hi]
    | _ => cases h
  · cases p with
    | bucket b =>
      unfold Page.onEntry at h
      split_ifs at h
      cases h
    | _ => cases h

/-- The loads of the head of a queue, and the stores to it. -/
structure StailqAt.Relinks (q : StailqAt) (sd : ℕ) (N : Set ℕ) (v : ℕ → Option ℕ) : Prop where
  head : ∀ s h s', Returns q.head s h s' → s = s' ∧
    (s.vpage = v → s.QueuesIn sd N → ∀ r, h.last = some r → r.In N v)
  setFirst : ∀ x, Keeps (Pm.RelinksIn sd N v) (q.setFirst x)
  setLast : ∀ r : EntryRef, r.In N v → Keeps (Pm.RelinksIn sd N v) (q.setLast (some r))

theorem keeps_setDir {f : SlabDir → SlabDir} (hsd : ∀ q, v sd = some q → q ∈ N)
    (hf : ∀ d, f d = { d with
      sdMaddrRoot := (f d).sdMaddrRoot, sdFreeList := (f d).sdFreeList })
    (hlast : ∀ d r, (f d).sdFreeList.last = some r → d.sdFreeList.last = some r ∨ r.In N v) :
    Keeps (Pm.RelinksIn sd N v) (updatePage sd (Page.onDir f)) := by
  refine keeps_updatePage hsd (fun p p' h => ?_) (fun p d r h hr => ?_)
  · cases p with
    | dir d =>
      cases h
      exact hf d
    | _ => cases h
  · cases p with
    | dir d' =>
      cases h
      exact (hlast d' r hr).imp (fun h => ⟨d', rfl, h⟩) id
    | _ => cases h

theorem relinks_sdFreeListAt (hsd : ∀ q, v sd = some q → q ∈ N) :
    (sdFreeListAt sd).Relinks sd N v where
  head s h s' hr := by
    obtain ⟨d, hload, rfl⟩ := returns_map.mp hr
    obtain ⟨hd, rfl⟩ := returns_loadDir.mp hload
    exact ⟨rfl, fun hv hQ r hr q hq => hQ.free d r hd hr q (hv ▸ hq)⟩
  setFirst _ := keeps_setDir hsd (fun _ => rfl) fun _ _ h => .inl h
  setLast r hr := keeps_setDir hsd (fun _ => rfl) fun _ _ h => .inr (Option.some.inj h ▸ hr)

theorem relinks_esListAt (size : ℕ) : (esListAt size).Relinks sd N v where
  head s h s' hr := by
    unfold esListAt at hr
    simp only [returns_bind, returns_get, returns_ofOption, returns_pure] at hr
    obtain ⟨_, _, ⟨rfl, rfl⟩, es, _, ⟨hes, rfl⟩, rfl, rfl⟩ := hr
    exact ⟨rfl, fun hv hQ r hr q hq => hQ.sizes es (List.mem_of_find?_eq_some hes) r hr q (hv ▸ hq)⟩
  setFirst x := keeps_modify_sizes _ fun l es hes r hr => by
    obtain ⟨es', hes', rfl⟩ := List.mem_map.mp hes
    refine .inl ⟨es', hes', ?_⟩
    unfold updateSize at hr
    split_ifs at hr <;> exact hr
  setLast x hx := keeps_modify_sizes _ fun l es hes r hr => by
    obtain ⟨es', hes', rfl⟩ := List.mem_map.mp hes
    unfold updateSize at hr
    split_ifs at hr
    · exact .inr (Option.some.inj hr ▸ hx)
    · exact .inl ⟨es', hes', hr⟩

theorem keeps_insertTail {q : StailqAt} (hq : q.Relinks sd N v) {r : EntryRef} (hr : r.In N v) :
    Keeps (Pm.RelinksIn sd N v) (stailqInsertTail q r) := by
  intro s _ s' h hs hv hQ
  unfold stailqInsertTail at h
  obtain ⟨_, s₁, h₁, h⟩ := returns_bind.mp h
  obtain ⟨x, _, hx, h⟩ := returns_bind.mp h
  have hlink : Keeps (Pm.RelinksIn sd N v) (updateEntry r fun e => { e with seList := none }) :=
    keeps_setLink hr _
  obtain ⟨hr₁, hQ₁, hN₁⟩ := hlink h₁ hs hv hQ
  have hs₁ := hr₁.1.reopened hs
  have hv₁ : s₁.vpage = v := (funext hr₁.1.vpage).trans hv
  obtain ⟨rfl, hlast⟩ := hq.head _ _ _ hx
  obtain ⟨c, hrest, h⟩ : ∃ c : PmProg Unit, Keeps (Pm.RelinksIn sd N v) c ∧ Returns c s₁ _ s' := by
    cases hx : x.last with
    | none =>
      rw [hx] at h
      exact ⟨_, (hq.setFirst _).bind fun _ => hq.setLast r hr, h⟩
    | some y =>
      rw [hx] at h
      exact ⟨_, (keeps_setLink (hlast hv₁ hQ₁ y hx) _).bind fun _ => hq.setLast r hr, h⟩
  obtain ⟨hr₂, hQ₂, hN₂⟩ := hrest h hs₁ hv₁ hQ₁
  exact ⟨hr₁.trans hr₂, hQ₂, fun p hp => (hN₂ p hp).trans (hN₁ p hp)⟩

theorem keeps_insertHead {q : StailqAt} (hq : q.Relinks sd N v) {r : EntryRef} (hr : r.In N v) :
    Keeps (Pm.RelinksIn sd N v) (stailqInsertHead q r) := by
  have hhead : Keeps (Pm.RelinksIn sd N v) q.head := fun s x s' h => by
    obtain ⟨rfl, -⟩ := hq.head s x s' h
    exact Std.Refl.refl s
  exact hhead.bind fun h => (keeps_setLink hr _).bind fun _ =>
    (Keeps.when (hq.setLast r hr)).bind fun _ => hq.setFirst _

theorem keeps_loadBitmap (se : EntryRef) (k : ℕ) : Keeps (Pm.RelinksIn sd N v) (loadBitmap se k) := by
  refine keeps_load.bind fun e => Keeps.ite ?_ ?_
  · exact keeps_require.bind fun _ => keeps_pure
  · exact keeps_get.bind fun _ => keeps_ofOption.bind fun _ => keeps_pure

theorem keeps_countSet (se : EntryRef) : ∀ n i, Keeps (Pm.RelinksIn sd N v) (countSet se n i)
  | 0, _ => keeps_pure
  | n + 1, i => (keeps_loadBitmap se _).bind fun _ => (keeps_countSet se n (i + 1)).bind fun _ =>
      keeps_pure

theorem keeps_slabEntryFull (se : EntryRef) : Keeps (Pm.RelinksIn sd N v) (slabEntryFull se) := by
  have hcap : Keeps (Pm.RelinksIn sd N v) (entryCapacity se) :=
    keeps_load.bind fun _ => keeps_require.bind fun _ => keeps_pure
  exact hcap.bind fun _ => (keeps_countSet se _ _).bind fun _ => keeps_pure

theorem keeps_usedInsert (hsd : ∀ q, v sd = some q → q ∈ N) (se : EntryRef) :
    Keeps (Pm.RelinksIn sd N v) (usedInsert sd se) := by
  have hfind : ∀ p, Keeps (Pm.RelinksIn sd N v) (usedFind sd p) := fun _ =>
    keeps_load.bind fun _ => keeps_get.bind fun _ => keeps_ofOption
  exact keeps_load.bind fun _ => (hfind _).bind fun _ => Keeps.when
    (keeps_setDir hsd (fun _ => rfl) fun _ _ h => .inl h)

theorem keeps_indexSlabEntry_in (hsd : ∀ q, v sd = some q → q ∈ N) {se : EntryRef} (hse : se.In N v) :
    Keeps (Pm.RelinksIn sd N v) (indexSlabEntry sd se) := by
  refine keeps_load.bind fun e => Keeps.ite (keeps_get.bind fun s => ?_) ?_
  · have hins := keeps_usedInsert hsd se
    cases s.sizes.find? (·.esSize == e.seSize) with
    | none =>
      refine (keeps_modify_sizes _ fun l es hes r hr => ?_).bind fun _ =>
        (keeps_insertTail (relinks_esListAt _) hse).bind fun _ => hins
      rcases List.mem_cons.mp hes with rfl | hes
      · cases hr
      · exact .inl ⟨es, hes, hr⟩
    | some _ =>
      exact (keeps_slabEntryFull se).bind fun _ =>
        ((keeps_insertTail (relinks_esListAt _) hse).bind fun _ => hins).ite
          ((keeps_insertHead (relinks_esListAt _) hse).bind fun _ => hins)
  · exact keeps_insertTail (relinks_sdFreeListAt hsd) hse

end RelinksIn

theorem keeps_indexSlabEntry (sd : ℕ) (se : EntryRef) :
    Keeps Pm.RelinksIf (indexSlabEntry sd se) := fun s _ _ h hs =>
  (keeps_indexSlabEntry_in (N := Set.univ) (v := s.vpage) (fun _ _ => trivial) (fun _ _ => trivial) h hs
    rfl ⟨fun _ _ => trivial, fun _ _ _ _ _ _ => trivial, fun _ _ _ _ _ _ => trivial⟩).1

/-! ## Loops over slots -/

/-- The invariant rule of a loop over slots whose number `n` does not change. -/
theorem Returns.forSlots_induct {bound n : ℕ} {index : PmProg ℕ} {body : ℕ → PmProg Unit}
    {Q : ℕ → Pm → Prop} (hindex : ∀ i t k t', Q i t → Returns index t k t' → k = n ∧ t = t')
    (h0 : Q 0 s) (hbody : ∀ i < n, i < bound → ∀ t t', Q i t → Returns (body i) t () t' →
      Q (i + 1) t') (hr : Returns (forSlots bound index body) s () s') : Q n s' ∧ n ≤ bound := by
  have h := Returns.upTo_induct (Q := fun i t => Q i t ∧ i ≤ n ∧ i ≤ bound)
    (fun i t k t' t'' hQ hk hi hb => ?_) ⟨h0, Nat.zero_le _, Nat.zero_le _⟩ hr
  · obtain ⟨j, k, t, ⟨hQ, hjn, hjb⟩, hk, hjk, -⟩ := h
    obtain ⟨rfl, rfl⟩ := hindex j t k s' hQ hk
    obtain rfl : j = k := by omega
    exact ⟨hQ, hjb⟩
  · obtain ⟨rfl, rfl⟩ := hindex i t k t' hQ.1 hk
    simp only [returns_bind, returns_require] at hb
    obtain ⟨_, _, ⟨hib, rfl⟩, hb⟩ := hb
    exact ⟨hbody i hi hib _ _ hQ.1 hb, hi, hib⟩

end LibPM

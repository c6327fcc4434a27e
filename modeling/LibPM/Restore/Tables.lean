import LibPM.Restore.Entry

/-!
# Mapping the slots of a node

The directory, the outer nodes and the inner nodes are tables of slots, and `slab_map`,
`slab_outer_map` and `slab_inner_map` treat them alike. `NodeKind` is what they share, `nodeMap` the
function with the kind as a parameter.

`Page.Restored` is what mapping may do to a page: some entries and slots lead into the new mapping,
links and indexes are anything, the rest is as before. `Maps` is the specification of a function that
maps all nodes below one, and `Maps.node` derives it for a node from that for its children.
-/

namespace LibPM

open Recorded Recorded.Prog

variable {s s' : Pm} {type : CpointType} {start : ℕ}

/-! ## Entries and slots in the new mapping -/

def EntryRestored (type : CpointType) (start : ℕ) (e e' : SlabEntry) : Prop :=
  e'.unlinked = e.unlinked ∨
    e.isInit = true ∧ Mappable type e ∧ e'.unlinked = (mapEntry start type e).unlinked

theorem isInit_mapEntry (h0 : start ≠ 0) {e : SlabEntry} : (mapEntry start type e).isInit = true := by
  unfold SlabEntry.isInit
  rw [Bool.or_eq_true, bne_iff_ne, bne_iff_ne]
  right
  unfold mapEntry
  cases type <;> dsimp only <;> omega

theorem mapEntry_mapEntry {e : SlabEntry} :
    mapEntry start type (mapEntry start type e) = mapEntry start type e := by
  cases type <;> rfl

theorem unlinked_mapEntry {e e' : SlabEntry} (h : e'.unlinked = e.unlinked) :
    (mapEntry start type e').unlinked = (mapEntry start type e).unlinked := by
  obtain ⟨id, size, dc, ds, pc, ps, link⟩ := e
  obtain ⟨id', size', dc', ds', pc', ps', link'⟩ := e'
  unfold SlabEntry.unlinked at h
  cases h
  cases type <;> rfl

theorem EntryRestored.refl (e : SlabEntry) : EntryRestored type start e e := .inl rfl

theorem EntryRestored.trans {e e' e'' : SlabEntry} (h : EntryRestored type start e e')
    (h' : EntryRestored type start e' e'') : EntryRestored type start e e'' := by
  rcases h with h | ⟨hi, hm, h⟩
  · rcases h' with h' | ⟨hi', hm', h'⟩
    · exact .inl (h'.trans h)
    · exact .inr ⟨isInit_of_unlinked h ▸ hi', mappable_of_unlinked h hm', h'.trans (unlinked_mapEntry h)⟩
  · rcases h' with h' | ⟨-, -, h'⟩
    · exact .inr ⟨hi, hm, h'.trans h⟩
    · exact .inr ⟨hi, hm, by rw [h', unlinked_mapEntry h, mapEntry_mapEntry]⟩

/-- The offset the current half of a slot is given. -/
def homeLaddr (type : CpointType) (c t : Slot) : ℕ :=
  match type with
  | .incomplete => c.laddr
  | _ => t.laddr

/-- A link into a mapping at `start`. -/
def homeSlot (start laddr : ℕ) : Slot := ⟨start + laddr, laddr⟩

/-- Both halves of a slot are in use. -/
def SlotLive (c t : Slot) : Prop := c.laddr ≠ 0 ∧ t.laddr ≠ 0

instance (c t : Slot) : Decidable (SlotLive c t) := by
  unfold SlotLive
  infer_instance

def SlotsRestored (type : CpointType) (start : ℕ) (cur snap cur' snap' : ℕ → Slot) : Prop := ∀ i,
  (cur' i = cur i ∨
    SlotLive (cur i) (snap i) ∧ cur' i = homeSlot start (homeLaddr type (cur i) (snap i))) ∧
  (snap' i = snap i ∨ SlotLive (cur i) (snap i) ∧ snap' i = homeSlot start (snap i).laddr)

theorem SlotsRestored.refl (cur snap : ℕ → Slot) : SlotsRestored type start cur snap cur snap :=
  fun _ => ⟨.inl rfl, .inl rfl⟩

section SlotsRestored

variable {cur snap cur' snap' cur'' snap'' : ℕ → Slot}

theorem SlotsRestored.snapshot_laddr (h : SlotsRestored type start cur snap cur' snap') (i : ℕ) :
    (snap' i).laddr = (snap i).laddr := by
  rcases (h i).2 with h | ⟨-, h⟩ <;> rw [h]
  rfl

theorem SlotsRestored.homeLaddr (h : SlotsRestored type start cur snap cur' snap') (i : ℕ) :
    homeLaddr type (cur' i) (snap' i) = homeLaddr type (cur i) (snap i) := by
  have hsnap := h.snapshot_laddr i
  unfold LibPM.homeLaddr
  cases type with
  | incomplete =>
    rcases (h i).1 with h | ⟨-, h⟩ <;> rw [h]
    rfl
  | _ => exact hsnap

theorem SlotsRestored.live (h : SlotsRestored type start cur snap cur' snap') (i : ℕ) :
    SlotLive (cur' i) (snap' i) ↔ SlotLive (cur i) (snap i) := by
  unfold SlotLive
  rw [h.snapshot_laddr i]
  rcases (h i).1 with h | ⟨hl, h⟩
  · rw [h]
  · refine and_congr_left fun hs => ⟨fun _ => hl.1, fun _ => ?_⟩
    rw [h]
    unfold homeSlot LibPM.homeLaddr
    cases type with
    | incomplete => exact hl.1
    | _ => exact hs

theorem SlotsRestored.zero_iff (h : SlotsRestored type start cur snap cur' snap') (i : ℕ) :
    (cur' i).laddr = 0 ↔ (cur i).laddr = 0 := by
  rcases (h i).1 with h' | ⟨hl, -⟩
  · rw [h']
  · exact ⟨fun h0 => (((h.live i).mpr hl).1 h0).elim, fun h0 => (hl.1 h0).elim⟩

theorem SlotsRestored.trans (h : SlotsRestored type start cur snap cur' snap')
    (h' : SlotsRestored type start cur' snap' cur'' snap'') :
    SlotsRestored type start cur snap cur'' snap'' := by
  intro i
  have hlive := h.live i
  have hhome := h.homeLaddr i
  have hsnap := h.snapshot_laddr i
  constructor
  · rcases (h' i).1 with h₁ | ⟨hl, h₁⟩
    · rw [h₁]
      exact (h i).1
    · exact .inr ⟨hlive.mp hl, by rw [h₁, hhome]⟩
  · rcases (h' i).2 with h₁ | ⟨hl, h₁⟩
    · rw [h₁]
      exact (h i).2
    · exact .inr ⟨hlive.mp hl, by rw [h₁, hsnap]⟩

end SlotsRestored

/-! ## Pages -/

/-- What mapping may do to a page. -/
def Page.Restored (type : CpointType) (start : ℕ) : Page → Page → Prop
  | .bucket b, .bucket b' => b'.sbHasSnapshot = b.sbHasSnapshot ∧ b'.sbId = b.sbId ∧
      ∀ i, EntryRestored type start (b.sbEntries i) (b'.sbEntries i)
  | .dir d, .dir d' => d' = { d with
        sdMaddrRoot := d'.sdMaddrRoot
        sdFreeList := d'.sdFreeList
        sdCurrent := d'.sdCurrent
        sdSnapshot := d'.sdSnapshot } ∧
      SlotsRestored type start d.sdCurrent d.sdSnapshot d'.sdCurrent d'.sdSnapshot
  | .outer o, .outer o' => o'.soIndex = o.soIndex ∧
      SlotsRestored type start o.soCurrent o.soSnapshot o'.soCurrent o'.soSnapshot
  | .inner n, .inner n' => n'.siIndex = n.siIndex ∧
      SlotsRestored type start n.siCurrent n.siSnapshot n'.siCurrent n'.siSnapshot
  | p, p' => p' = p

theorem Page.Restored.refl (p : Page) : p.Restored type start p := by
  cases p with
  | bucket b => exact ⟨rfl, rfl, fun _ => .refl _⟩
  | dir d => exact ⟨rfl, .refl _ _⟩
  | outer o => exact ⟨rfl, .refl _ _⟩
  | inner n => exact ⟨rfl, .refl _ _⟩
  | _ => rfl

theorem Page.Restored.trans {p p' p'' : Page} (h : p.Restored type start p')
    (h' : p'.Restored type start p'') : p.Restored type start p'' := by
  cases p with
  | bucket b =>
    cases p' with
    | bucket b' =>
      cases p'' with
      | bucket b'' => exact ⟨h'.1.trans h.1, h'.2.1.trans h.2.1, fun i => (h.2.2 i).trans (h'.2.2 i)⟩
      | _ => cases h'
    | _ => cases h
  | dir d =>
    cases p' with
    | dir d' =>
      cases p'' with
      | dir d'' =>
        refine ⟨?_, h.2.trans h'.2⟩
        rw [h'.1, h.1]
      | _ => cases h'
    | _ => cases h
  | outer o =>
    cases p' with
    | outer o' =>
      cases p'' with
      | outer o'' => exact ⟨h'.1.trans h.1, h.2.trans h'.2⟩
      | _ => cases h'
    | _ => cases h
  | inner n =>
    cases p' with
    | inner n' =>
      cases p'' with
      | inner n'' => exact ⟨h'.1.trans h.1, h.2.trans h'.2⟩
      | _ => cases h'
    | _ => cases h
  | _ =>
    obtain rfl : p' = _ := h
    exact h'

theorem Page.SameButLinks.restored {p p' : Page} (h : p.SameButLinks p') :
    p.Restored type start p' := by
  cases p with
  | bucket b =>
    cases p' with
    | bucket b' => exact ⟨h.1, h.2.1, fun i => .inl (h.2.2 i)⟩
    | _ => cases h
  | dir d =>
    cases p' with
    | dir d' =>
      obtain ⟨root, free, rfl⟩ : ∃ root free, d' = { d with sdMaddrRoot := root, sdFreeList := free } :=
        ⟨_, _, h⟩
      exact ⟨rfl, .refl _ _⟩
    | _ => cases h
  | _ =>
    obtain rfl : p' = _ := h
    exact .refl _

/-- What mapping does to a file: the pages of `N` are restored, the others stay. -/
structure Pm.Restores (type : CpointType) (N : Set ℕ) (s s' : Pm) : Prop where
  edits : s.Edits s'
  pages : ∀ q, (s.file q).Restored type s.startAddr (s'.file q)
  frame : ∀ q, q ∉ N → s'.file q = s.file q

namespace Pm.Restores

variable {N : Set ℕ}

theorem refl (s : Pm) : Pm.Restores type N s s := ⟨.refl s, fun _ => .refl _, fun _ _ => rfl⟩

theorem trans {s'' : Pm} (h : Pm.Restores type N s s') (h' : Pm.Restores type N s' s'') :
    Pm.Restores type N s s'' := by
  refine ⟨h.edits.trans h'.edits, fun q => (h.pages q).trans ?_, fun q hq =>
    (h'.frame q hq).trans (h.frame q hq)⟩
  rw [← h.edits.startAddr]
  exact h'.pages q

theorem setPage {i : ℕ} {p : Page} (hi : i ∈ N) (h : (s.file i).Restored type s.startAddr p) :
    Pm.Restores type N s (s.setPage i p) := by
  refine ⟨.setPage s i p, fun q => ?_, fun q hq => ?_⟩
  · unfold Pm.setPage
    dsimp only
    by_cases hqi : q = i
    · rw [hqi, Function.update_self]
      exact h
    · rw [Function.update_of_ne hqi]
      exact .refl _
  · exact Function.update_of_ne (fun he : q = i => hq (he ▸ hi)) ..

/-- The page at an address. -/
theorem pageAt (h : Pm.Restores type N s s') (hs : s.Reopened) {a : ℕ} {p : Page}
    (hp : s.pageAt a = some p) : ∃ p', s'.pageAt a = some p' ∧ p.Restored type s.startAddr p' := by
  obtain ⟨hmod, i, hi, rfl⟩ := pageAt_eq_some.mp hp
  have hs' := h.edits.reopened hs
  refine ⟨s'.file i, pageAt_eq_some.mpr ⟨hmod, i, (h.edits.vpage a).trans hi, by rw [hs'.vmap]; rfl⟩, ?_⟩
  rw [hs.vmap]
  exact h.pages i

theorem pageAt_rev (h : Pm.Restores type N s s') (hs : s.Reopened) {a : ℕ} {p' : Page}
    (hp : s'.pageAt a = some p') : ∃ p, s.pageAt a = some p ∧ p.Restored type s.startAddr p' := by
  obtain ⟨hmod, i, hi, rfl⟩ := pageAt_eq_some.mp hp
  have hs' := h.edits.reopened hs
  refine ⟨s.file i, pageAt_eq_some.mpr ⟨hmod, i, (h.edits.vpage a).symm.trans hi, by rw [hs.vmap]; rfl⟩, ?_⟩
  rw [hs'.vmap]
  exact h.pages i

/-- The page at an address that is not on a page of `N`. -/
theorem pageAt_frame (h : Pm.Restores type N s s') (hs : s.Reopened) {a : ℕ}
    (ha : ∀ q, s.vpage a = some q → q ∉ N) : s'.pageAt a = s.pageAt a := by
  have hs' := h.edits.reopened hs
  unfold Pm.pageAt Pm.fpage
  rw [h.edits.vpage, hs.vmap, hs'.vmap]
  cases hv : s.vpage a with
  | none => rfl
  | some q =>
    dsimp only [Option.map_some, id]
    rw [h.frame q (ha q hv)]

end Pm.Restores

/-! ## The kinds of nodes -/

/-- The head of the free list and the tree of entries, if the page is a directory. -/
def Page.heads : Page → Option (List EntryRef × Stailq)
  | .dir d => some (d.sdMaddrRoot, d.sdFreeList)
  | _ => none

/-- A kind of node: how such a node is read and stored, and its slots. -/
structure NodeKind (ν : Type) where
  page : ν → Page
  node? : Page → Option ν
  load : ℕ → PmProg ν
  on : (ν → ν) → Page → Option Page
  index : ν → ℕ
  current : ν → ℕ → Slot
  snapshot : ν → ℕ → Slot
  put : ν → (ℕ → Slot) → (ℕ → Slot) → ν
  page_inj : ∀ {n n'}, page n = page n' → n = n'
  node?_eq_some : ∀ {p n}, node? p = some n ↔ p = page n
  page_ne_bucket : ∀ n b, page n ≠ .bucket b
  returns_load : ∀ {s : Pm} {a n s'}, Returns (load a) s n s' ↔ s.pageAt a = some (page n) ∧ s = s'
  on_eq_some : ∀ {f p p'}, on f p = some p' ↔ ∃ n, p = page n ∧ p' = page (f n)
  index_put : ∀ n c t, index (put n c t) = index n
  current_put : ∀ n c t, current (put n c t) = c
  snapshot_put : ∀ n c t, snapshot (put n c t) = t
  put_put : ∀ n c t c' t', put (put n c t) c' t' = put n c' t'
  heads_put : ∀ n c t, (page (put n c t)).heads = (page n).heads
  restored_put : ∀ {type start n c t}, SlotsRestored type start (current n) (snapshot n) c t →
    (page n).Restored type start (page (put n c t))
  restored_put₂ : ∀ {type start n m c t c' t'}, (page n).Restored type start (page m) →
    SlotsRestored type start c t c' t' →
      (page (put n c t)).Restored type start (page (put m c' t'))
  of_restored : ∀ {type start n p'}, (page n).Restored type start p' → ∃ n', p' = page n' ∧
    index n' = index n ∧ SlotsRestored type start (current n) (snapshot n) (current n') (snapshot n')
  of_restored_rev : ∀ {type start p n'}, p.Restored type start (page n') → ∃ n, p = page n

def innerKind : NodeKind SlabInner where
  page := .inner
  node?
    | .inner n => some n
    | _ => none
  load := loadInner
  on := Page.onInner
  index := SlabInner.siIndex
  current := SlabInner.siCurrent
  snapshot := SlabInner.siSnapshot
  put n c t := { n with siCurrent := c, siSnapshot := t }
  page_inj := Page.inner.inj
  node?_eq_some {p n} := by cases p <;> simp
  page_ne_bucket _ _ := nofun
  returns_load := returns_loadInner.trans (and_congr_left fun _ => readInner_eq_some)
  on_eq_some {f p p'} := by cases p <;> simp [Page.onInner, eq_comm]
  index_put _ _ _ := rfl
  current_put _ _ _ := rfl
  snapshot_put _ _ _ := rfl
  put_put _ _ _ _ _ := rfl
  heads_put _ _ _ := rfl
  restored_put h := ⟨rfl, h⟩
  restored_put₂ h h' := ⟨h.1, h'⟩
  of_restored {type start n p'} h := by
    cases p' with
    | inner n' => exact ⟨n', rfl, h.1, h.2⟩
    | _ => cases h
  of_restored_rev {type start p n'} h := by
    cases p with
    | inner n => exact ⟨n, rfl⟩
    | _ => cases h

def outerKind : NodeKind SlabOuter where
  page := .outer
  node?
    | .outer n => some n
    | _ => none
  load := loadOuter
  on := Page.onOuter
  index := SlabOuter.soIndex
  current := SlabOuter.soCurrent
  snapshot := SlabOuter.soSnapshot
  put o c t := { o with soCurrent := c, soSnapshot := t }
  page_inj := Page.outer.inj
  node?_eq_some {p n} := by cases p <;> simp
  page_ne_bucket _ _ := nofun
  returns_load := returns_loadOuter.trans (and_congr_left fun _ => readOuter_eq_some)
  on_eq_some {f p p'} := by cases p <;> simp [Page.onOuter, eq_comm]
  index_put _ _ _ := rfl
  current_put _ _ _ := rfl
  snapshot_put _ _ _ := rfl
  put_put _ _ _ _ _ := rfl
  heads_put _ _ _ := rfl
  restored_put h := ⟨rfl, h⟩
  restored_put₂ h h' := ⟨h.1, h'⟩
  of_restored {type start n p'} h := by
    cases p' with
    | outer o' => exact ⟨o', rfl, h.1, h.2⟩
    | _ => cases h
  of_restored_rev {type start p n'} h := by
    cases p with
    | outer o => exact ⟨o, rfl⟩
    | _ => cases h

def dirKind : NodeKind SlabDir where
  page := .dir
  node?
    | .dir n => some n
    | _ => none
  load := loadDir
  on := Page.onDir
  index := SlabDir.sdIndex
  current := SlabDir.sdCurrent
  snapshot := SlabDir.sdSnapshot
  put d c t := { d with sdCurrent := c, sdSnapshot := t }
  page_inj := Page.dir.inj
  node?_eq_some {p n} := by cases p <;> simp
  page_ne_bucket _ _ := nofun
  returns_load := returns_loadDir.trans (and_congr_left fun _ => readDir_eq_some)
  on_eq_some {f p p'} := by cases p <;> simp [Page.onDir, eq_comm]
  index_put _ _ _ := rfl
  current_put _ _ _ := rfl
  snapshot_put _ _ _ := rfl
  put_put _ _ _ _ _ := rfl
  heads_put _ _ _ := rfl
  restored_put h := ⟨rfl, h⟩
  restored_put₂ {type start d d'} _ _ _ _ h h' := by
    refine ⟨?_, h'⟩
    dsimp only
    rw [h.1]
  of_restored {type start d p'} h := by
    cases p' with
    | dir d' => exact ⟨d', rfl, (congrArg SlabDir.sdIndex h.1 :), h.2⟩
    | _ => cases h
  of_restored_rev {type start p n'} h := by
    cases p with
    | dir d => exact ⟨d, rfl⟩
    | _ => cases h

/-! ## The mapping functions with the kind as a parameter -/

section NodeMap

variable {ν : Type}

/-- The slot `i` of the node at `a`. The flag of a child says whether its entries are indexed. -/
def mapSlot (K : NodeKind ν) (msg : String) (type : CpointType) (child : ℕ → Bool → PmProg ℕ)
    (a i : ℕ) : PmProg Unit := do
  let n ← K.load a
  require (¬ notCsConsistent (K.current n i).laddr (K.snapshot n i).laddr) (.assertion msg)
  when ((K.current n i).laddr ≠ 0) do
    match type with
    | .incomplete => do
      let x ← child (K.current n i).laddr true
      updatePage a (K.on fun n => K.put n (setMaddr (K.current n) i x) (K.snapshot n))
      let n ← K.load a
      let y ← child (K.snapshot n i).laddr false
      updatePage a (K.on fun n => K.put n (K.current n) (setMaddr (K.snapshot n) i y))
    | .complete => do
      let x ← child (K.snapshot n i).laddr true
      updatePage a (K.on fun n => K.put n (setMaddr (K.current n) i x) (K.snapshot n))
      updatePage a (K.on fun n =>
        K.put n (K.current n) (setMaddr (K.snapshot n) i (K.current n i).maddr))
      updatePage a (K.on fun n =>
        K.put n (setLaddr (K.current n) i (K.snapshot n i).laddr) (K.snapshot n))
    | _ => fail (.assertion "invalid restore type")

def nodeMap (K : NodeKind ν) (bound : ℕ) (msg : String) (type : CpointType)
    (child : ℕ → Bool → PmProg ℕ) (laddr : ℕ) : PmProg ℕ := do
  let a ← pageAllocatorMappage laddr
  forSlots bound (K.index <$> K.load a) (mapSlot K msg type child a)
  return a

theorem slabInnerMap_eq (sd laddr : ℕ) (type : CpointType) :
    slabInnerMap sd laddr type = nodeMap innerKind slabInnerEntries
      "found inconsistent state while restoring inner" type (fun l b => slabBucketMap sd l type b)
      laddr := by
  cases type <;> rfl

theorem slabOuterMap_eq (sd laddr : ℕ) (type : CpointType) :
    slabOuterMap sd laddr type = nodeMap outerKind slabOuterEntries
      "found inconsistent state while restoringi outer" type (fun l _ => slabInnerMap sd l type)
      laddr := by
  cases type <;> rfl

/-- The part of `slab_map` behind the initialisation of the indexes. -/
theorem slabMap_eq (laddr : ℕ) (type : CpointType) :
    slabMap laddr type = (do
      let sd ← pageAllocatorMappage laddr
      clearIndexes sd
      forSlots slabDirEntries (dirKind.index <$> dirKind.load sd)
        (mapSlot dirKind "found inconsistent state while restoring dir" type
          (fun l _ => slabOuterMap sd l type) sd)
      return sd) := by
  cases type <;> rfl

/-! ## Stores to a node -/

/-- The node `n` at `a` becomes `n'`, and nothing else changes. -/
def Pm.SetsNode (K : NodeKind ν) (s : Pm) (a : ℕ) (n n' : ν) (s' : Pm) : Prop :=
  ∃ q, a % pageSize = 0 ∧ s.vpage a = some q ∧ s.file q = K.page n ∧ s' = s.setPage q (K.page n')

namespace Pm.SetsNode

variable {K : NodeKind ν} {a : ℕ} {n n' : ν}

theorem edits (h : s.SetsNode K a n n' s') : s.Edits s' := by
  obtain ⟨q, -, -, -, rfl⟩ := h
  exact .setPage s q _

theorem pageAt (h : s.SetsNode K a n n' s') (hs : s.Reopened) : s'.pageAt a = some (K.page n') := by
  obtain ⟨q, hmod, hq, -, rfl⟩ := h
  refine pageAt_eq_some.mpr ⟨hmod, q, hq, ?_⟩
  rw [show (s.setPage q (K.page n')).vmap q = q from congrFun hs.vmap q]
  exact Function.update_self ..

theorem trans {s'' : Pm} {n'' : ν} (h : s.SetsNode K a n n' s') (h' : s'.SetsNode K a n' n'' s'') :
    s.SetsNode K a n n'' s'' := by
  obtain ⟨q, hmod, hq, hn, rfl⟩ := h
  obtain ⟨q', -, hq', -, rfl⟩ := h'
  obtain rfl := Option.some.inj (hq.symm.trans hq')
  refine ⟨q, hmod, hq, hn, ?_⟩
  unfold Pm.setPage
  dsimp only
  rw [Function.update_idem]

theorem restores {N : Set ℕ} {c t : ℕ → Slot} (h : s.SetsNode K a n (K.put n c t) s')
    (ha : ∀ q, s.vpage a = some q → q ∈ N)
    (hr : SlotsRestored type s.startAddr (K.current n) (K.snapshot n) c t) :
    Pm.Restores type N s s' := by
  obtain ⟨q, -, hq, hn, rfl⟩ := h
  exact .setPage (ha q hq) (hn ▸ K.restored_put hr)

end Pm.SetsNode

theorem Pm.Reopened.updateNode (hs : s.Reopened) {K : NodeKind ν} {a : ℕ} {n : ν} {u : Unit}
    (hn : s.pageAt a = some (K.page n)) {f : ν → ν}
    (hr : Returns (LibPM.updatePage a (K.on f)) s u s') : s.SetsNode K a n (f n) s' := by
  obtain ⟨hmod, q, hq, hpage⟩ := pageAt_eq_some.mp hn
  rw [hs.vmap] at hpage
  obtain ⟨i, p, hi, -, hp, rfl⟩ := hs.updatePage hr
  obtain rfl := Option.some.inj (hq.symm.trans hi)
  obtain ⟨m, hm, rfl⟩ := K.on_eq_some.mp hp
  obtain rfl := K.page_inj (hpage.symm.trans hm)
  exact ⟨q, hmod, hq, hpage, rfl⟩

/-- The entries, the queues and the tree of entries are as before. -/
structure Pm.SameIndexes (sd : ℕ) (s s' : Pm) : Prop where
  sizes : s'.sizes = s.sizes
  entries : ∀ r, s'.readEntry r = s.readEntry r
  heads : (s'.pageAt sd).bind Page.heads = (s.pageAt sd).bind Page.heads

/-- The other pages stay. -/
theorem Pm.SetsNode.pageAt_or {K : NodeKind ν} {a : ℕ} {n n' : ν} (h : s.SetsNode K a n n' s')
    (hs : s.Reopened) (b : ℕ) : s'.pageAt b = s.pageAt b ∨
      s.pageAt b = some (K.page n) ∧ s'.pageAt b = some (K.page n') := by
  obtain ⟨q, -, -, hn, rfl⟩ := h
  by_cases hb : b % pageSize = 0
  · cases hv : s.vpage b with
    | none =>
      left
      unfold Pm.pageAt Pm.fpage
      rw [show (s.setPage q (K.page n')).vpage b = s.vpage b from rfl, hv]
      rfl
    | some i =>
      by_cases hi : i = q
      · subst hi
        refine .inr ⟨pageAt_eq_some.mpr ⟨hb, i, hv, ?_⟩, pageAt_eq_some.mpr ⟨hb, i, hv, ?_⟩⟩
        · rw [hs.vmap]
          exact hn
        · rw [show (s.setPage i (K.page n')).vmap i = i from congrFun hs.vmap i]
          exact Function.update_self ..
      · left
        unfold Pm.pageAt Pm.fpage
        rw [show (s.setPage q (K.page n')).vpage b = s.vpage b from rfl, hv,
          show (s.setPage q (K.page n')).vmap = s.vmap from rfl, hs.vmap]
        unfold Pm.setPage
        simp only [Option.map_some, id, Function.update_of_ne hi]
  · left
    unfold Pm.pageAt
    rw [if_neg hb, if_neg hb]

/-- No entry is in a node. -/
theorem Pm.SetsNode.readEntry {K : NodeKind ν} {a : ℕ} {n n' : ν} (h : s.SetsNode K a n n' s')
    (hs : s.Reopened) (r : EntryRef) : s'.readEntry r = s.readEntry r := by
  unfold Pm.readEntry Pm.readBucket
  rcases h.pageAt_or hs r.sb with he | ⟨hold, hnew⟩
  · rw [he]
  · rw [hold, hnew]
    cases hp : K.page n with
    | bucket b => exact (K.page_ne_bucket n b hp).elim
    | _ => cases hp' : K.page n' with
      | bucket b => exact (K.page_ne_bucket _ b hp').elim
      | _ => rfl

/-- A store to the slots of a node. -/
theorem Pm.SetsNode.sameIndexes {K : NodeKind ν} {a : ℕ} {n : ν} {c t : ℕ → Slot} (sd : ℕ)
    (h : s.SetsNode K a n (K.put n c t) s') (hs : s.Reopened) : Pm.SameIndexes sd s s' := by
  refine ⟨?_, h.readEntry hs, ?_⟩
  · obtain ⟨q, -, -, -, rfl⟩ := h
    rfl
  · rcases h.pageAt_or hs sd with he | ⟨hold, hnew⟩
    · rw [he]
    · rw [hold, hnew]
      exact K.heads_put n c t

end NodeMap

end LibPM

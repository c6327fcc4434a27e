import LibPM.Restore.Indexed

/-!
# Restoring the indexes

`slab_map` runs `index_slab_entry` on the entries below the directory, in an order that the file
decides (`Level.below`). If that is each entry of the new current tree once, then the indexes are
exactly those of the tree (`indexesExactly`). For a completed checkpoint it always is. For one that was
cut short the nodes below the snapshot slots of the directory and of the outer nodes are mapped by the
same functions as the current ones, and their entries are indexed as well, most of them again.
-/

namespace LibPM

open Recorded Recorded.Prog

variable {type : CpointType} {N : Set ℕ} {s t t' : Pm} {sd : ℕ} {done T V : List EntryRef}
  {r : EntryRef} {e e' : SlabEntry}

/-! ## The data page of a restored entry -/

/-- The offset of the data page that a restored entry has. -/
def homeData (type : CpointType) (e : SlabEntry) : ℕ :=
  match type with
  | .incomplete => e.dataCurrent.laddr
  | _ => e.dataSnapshot.laddr

theorem EntryHome.maddr {start : ℕ} (h : EntryHome type start e) (hi : e.isInit = true) :
    e.dataCurrent.maddr = start + homeData type e := by
  obtain ⟨hm, he⟩ := h hi
  have hdc : e.dataCurrent = (mapEntry start type e).dataCurrent :=
    (congrArg SlabEntry.dataCurrent he :)
  rw [hdc]
  cases type <;> rfl

theorem EntryRestored.homeData {start : ℕ} (h : EntryRestored type start e e') :
    homeData type e' = homeData type e := by
  have key : ∀ x : SlabEntry, e'.unlinked = x.unlinked →
      LibPM.homeData type e' = LibPM.homeData type x := by
    intro x hx
    have hdc : e'.dataCurrent = x.dataCurrent := (congrArg SlabEntry.dataCurrent hx :)
    have hds : e'.dataSnapshot = x.dataSnapshot := (congrArg SlabEntry.dataSnapshot hx :)
    unfold LibPM.homeData
    rw [hdc, hds]
  rcases h with h | ⟨-, -, h⟩
  · exact key e h
  · refine (key _ h).trans ?_
    cases type <;> rfl

/-- The entry before the run. -/
theorem Pm.Restores.readEntry_rev (h : Pm.Restores type N s t) (hs : s.Reopened)
    (he : t.readEntry r = some e') :
    ∃ e, s.readEntry r = some e ∧ EntryRestored type s.startAddr e e' := by
  cases hsr : s.readEntry r with
  | none =>
    rw [h.readEntry_none hs hsr] at he
    cases he
  | some e =>
    obtain ⟨e₁, he₁, hr⟩ := h.readEntry hs hsr
    obtain rfl := Option.some.inj (he.symm.trans he₁)
    exact ⟨e, rfl, hr⟩

/-! ## Indexing a list of entries -/

/-- The entries of `V` can be indexed in turn: no two have one data page, and the data pages are on no
page of `N`. -/
structure Pm.Indexable (s : Pm) (type : CpointType) (N : Set ℕ) (V : List EntryRef) : Prop where
  nodup : V.Nodup
  data_inj : ∀ r ∈ V, ∀ r' ∈ V, ∀ e e', s.readEntry r = some e → s.readEntry r' = some e' →
    e.isInit = true → e'.isInit = true → homeData type e = homeData type e' → r = r'
  data_page : ∀ r ∈ V, ∀ e, s.readEntry r = some e → e.isInit = true →
    homeData type e % pageSize = 0 ∧ ∀ q, s.vpage (s.startAddr + homeData type e) = some q → q ∉ N

/-- What is known when the entries of `done` are indexed. -/
structure Pm.Indexed (type : CpointType) (sd : ℕ) (done : List EntryRef) (t : Pm) : Prop where
  exactly : t.IndexesExactly sd done
  home : ∀ r ∈ done, ∃ e, t.readEntry r = some e ∧ EntryHome type t.startAddr e

theorem Pm.IndexesExactly.congr (h : t.IndexesExactly sd T) (hheads : t'.heads sd = t.heads sd)
    (hlink : ∀ y ∈ T, t'.link y = t.link y) (hent : ∀ y ∈ T, t.SameEntry t' y)
    (hfull : ∀ y ∈ T, (∃ e, t.readEntry y = some e ∧ e.isInit = true) →
      (t'.NotFull y ↔ t.NotFull y)) : t'.IndexesExactly sd T := by
  obtain ⟨H, hH, hroots, hqueues⟩ := h
  refine ⟨H, hheads.trans hH, ⟨hroots.nodup, fun y => ?_⟩, fun w => ?_⟩
  · rw [hroots.mem y]
    exact and_congr_right fun hy =>
      ((hent y hy).iff fun _ _ hu ht => (isInit_of_unlinked hu).trans ht).symm
  · obtain ⟨l, hl⟩ := hqueues w
    have hfull' : w ≠ .free → ∀ y ∈ l, t'.NotFull y ↔ t.NotFull y := by
      intro hfree y hy
      obtain ⟨hyT, ey, hey, hty⟩ := hl.of_mem hy
      refine hfull y hyT ⟨ey, hey, ?_⟩
      cases w with
      | free => exact (hfree rfl).elim
      | ofSize n => exact hty.1
    refine ⟨l, hl.queue.congr fun y hy => hlink y (hl.of_mem hy).1, fun y => ?_,
      fun hfree y hy hn => ?_⟩
    · rw [hl.mem y]
      exact and_congr_right fun hy => ((hent y hy).iff fun _ _ hu ht => ht.unlinked hu).symm
    · obtain ⟨x, hx, hnx⟩ := hl.notFull hfree y hy ((hfull' hfree y hy).mp hn)
      have hxl : x ∈ l := List.mem_of_mem_head? (Option.mem_def.mpr (hl.queue.first_eq.symm.trans hx))
      exact ⟨x, hx, (hfull' hfree x hxl).mpr hnx⟩

/-- Mapping leaves the data page of a restored entry as it is. -/
theorem Pm.Indexable.notFull_iff (hV : s.Indexable type N V) (hs : s.Reopened)
    (hst : Pm.Restores type N s t) (htt : Pm.Restores type N t t') (hr : r ∈ V)
    (he : t.readEntry r = some e) (hh : EntryHome type t.startAddr e) (hent : t.SameEntry t' r)
    (hi : e.isInit = true) : t'.NotFull r ↔ t.NotFull r := by
  have ht := hst.edits.reopened hs
  refine hent.notFull_iff fun e' he' k hk => ?_
  obtain rfl := Option.some.inj (he.symm.trans he')
  obtain ⟨e₀, he₀, hr₀⟩ := hst.readEntry_rev hs he
  obtain ⟨hmod, hN⟩ := hV.data_page r hr e₀ he₀ ((hr₀.isInit_eq hs.start).symm.trans hi)
  rw [hh.maddr hi, hr₀.homeData]
  refine htt.byteAt ht hmod (fun q hq => hN q ?_) hk
  rw [hst.edits.startAddr, hst.edits.vpage] at hq
  exact hq

/-- The invariant of the run. -/
def Pm.IndexedIn (s : Pm) (type : CpointType) (N : Set ℕ) (sd : ℕ) (V done : List EntryRef) (t : Pm) :
    Prop :=
  Pm.Restores type N s t ∧ (sd % pageSize = 0 → (∃ rest, done ++ rest = V) → t.Indexed type sd done)

theorem indexInv_indexedIn (hs : s.Reopened) (hV : s.Indexable type N V) {v : ℕ → Option ℕ} :
    IndexInv type sd N v (s.IndexedIn type N sd V) where
  slots {done t t'} hready hres hsame hinv := by
    obtain ⟨hst, hdone⟩ := hinv
    refine ⟨hst.trans hres, fun hmod hrest => ?_⟩
    obtain ⟨hex, hhome⟩ := hdone hmod hrest
    obtain ⟨rest, rfl⟩ := hrest
    have hread : t'.readEntry = t.readEntry := funext hsame.entries
    have hent : ∀ y, t.SameEntry t' y := fun y => congrArg (Option.map SlabEntry.unlinked)
      (hsame.entries y)
    refine ⟨hex.congr hsame.heads_eq (fun y _ => ?_) (fun y _ => hent y) fun y hy hi => ?_,
      fun y hy => ?_⟩
    · unfold Pm.link
      rw [hread]
    · obtain ⟨ey, hey, hi⟩ := hi
      obtain ⟨e', he', hh⟩ := hhome y hy
      obtain rfl := Option.some.inj (hey.symm.trans he')
      exact hV.notFull_iff hs hst hres (List.mem_append_left _ hy) hey hh (hent y) hi
    · rw [hread, hres.edits.startAddr]
      exact hhome y hy
  map {done t t' r e} hready hin hset hi hm hinv := by
    obtain ⟨hst, hdone⟩ := hinv
    have ht := hready.reopened
    have hres := hset.restores (hready.vpage ▸ hin) hi hm
    refine ⟨hst.trans hres, fun hmod hrest => ?_⟩
    obtain ⟨hex, hhome⟩ := hdone hmod hrest
    obtain ⟨rest, rfl⟩ := hrest
    have hread := hset.readEntry_eq ht
    obtain ⟨he, hlink⟩ : t.readEntry r = some e ∧ t.link r = e.seList := by
      obtain ⟨q, b, hsb, hidx, hq, hb, he, -⟩ := hset
      have hr : t.readEntry r = some e := readEntry_eq_some.mpr ⟨hidx, b, readBucket_eq_some.mpr
        ((Pm.pageAt_of_vpage ht.vmap hsb hq).trans (congrArg some hb)), he⟩
      refine ⟨hr, ?_⟩
      unfold Pm.link
      rw [hr]
      rfl
    have hent : ∀ y ∈ done, t.SameEntry t' y := by
      intro y hy
      unfold Pm.SameEntry
      rw [hread y]
      by_cases hyr : y = r
      · obtain ⟨e', he', hh⟩ := hhome y hy
        rw [hyr] at he' ⊢
        obtain rfl := Option.some.inj (he.symm.trans he')
        rw [if_pos rfl, he]
        exact congrArg some (hh hi).2.symm
      · rw [if_neg hyr]
    refine ⟨hex.congr (hset.sameHeads ht) (fun y _ => ?_) hent fun y hy hi => ?_, fun y hy => ?_⟩
    · rw [hset.link ht]
      by_cases hyr : y = r
      · rw [hyr, Function.update_self, hlink]
        cases type <;> rfl
      · rw [Function.update_of_ne hyr]
    · obtain ⟨ey, hey, hi⟩ := hi
      obtain ⟨e', he', hh⟩ := hhome y hy
      obtain rfl := Option.some.inj (hey.symm.trans he')
      exact hV.notFull_iff hs hst hres (List.mem_append_left _ hy) hey hh (hent y hy) hi
    · obtain ⟨ey, hey, hh⟩ := hhome y hy
      obtain ⟨ey', hey', hr'⟩ := hres.readEntry ht hey
      exact ⟨ey', hey', hres.edits.startAddr ▸ hh.restored hr'⟩
  index {done t t' r e} hready hin he hh hinv hr := by
    obtain ⟨hst, hdone⟩ := hinv
    have ht := hready.reopened
    obtain ⟨hrel, -, hframe⟩ := keeps_indexSlabEntry_in
      (fun q hq => hready.queues.dir q (hready.vpage ▸ hq)) hin hr ht hready.vpage hready.queues
    have hres : Pm.Restores type N t t' := ⟨hrel.1, fun q => (hrel.2 q).restored, hframe⟩
    refine ⟨hst.trans hres, fun hmod hrest => ?_⟩
    obtain ⟨rest, rfl⟩ := hrest
    obtain ⟨hex, hhome⟩ := hdone hmod ⟨r :: rest, by simp⟩
    have hmem : ∀ y ∈ done ++ [r], y ∈ done ++ [r] ++ rest := fun y hy => List.mem_append_left _ hy
    have hrdone : r ∉ done := by
      have hnd := (List.nodup_append.mp hV.nodup).1
      exact fun h => (List.nodup_append.mp hnd).2.2 r h r (List.mem_singleton_self r) rfl
    have hhome' : ∀ y ∈ done ++ [r], ∃ e, t.readEntry y = some e ∧ EntryHome type t.startAddr e := by
      intro y hy
      rcases List.mem_append.mp hy with hy | hy
      · exact hhome y hy
      · rw [List.mem_singleton.mp hy]
        exact ⟨e, he, hh⟩
    refine ⟨hex.index ht hrdone he (fun hi y hy e' he' hi' heq => ?_) (fun y => hrel.sameEntry ht y)
      (fun y hy hi => ?_) hr, fun y hy => ?_⟩
    · -- two entries with one address have one data page
      obtain ⟨e₁, he₁, hh₁⟩ := hhome y hy
      obtain rfl := Option.some.inj (he'.symm.trans he₁)
      obtain ⟨e₀, he₀, hr₀⟩ := hst.readEntry_rev hs he
      obtain ⟨e₀', he₀', hr₀'⟩ := hst.readEntry_rev hs he'
      rw [hh₁.maddr hi', hh.maddr hi, hr₀.homeData, hr₀'.homeData] at heq
      have hyr := hV.data_inj y (hmem y (List.mem_append_left _ hy)) r (hmem r (by simp)) e₀' e₀ he₀' he₀
        ((hr₀'.isInit_eq hs.start).symm.trans hi') ((hr₀.isInit_eq hs.start).symm.trans hi)
        (Nat.add_left_cancel heq)
      exact hrdone (hyr ▸ hy)
    · obtain ⟨ey, hey, hi⟩ := hi
      obtain ⟨e', he', hh'⟩ := hhome' y hy
      obtain rfl := Option.some.inj (hey.symm.trans he')
      exact hV.notFull_iff hs hst hres (hmem y hy) hey hh' (hrel.sameEntry ht y) hi
    · obtain ⟨ey, hey, hh'⟩ := hhome' y hy
      obtain ⟨ey', hey', hr'⟩ := hres.readEntry ht hey
      exact ⟨ey', hey', hres.edits.startAddr ▸ hh'.restored hr'⟩

/-- No entry is indexed yet. -/
theorem Pm.Cleared.indexedIn (h : Pm.Cleared sd s t) (hs : s.Reopened)
    (hN : EntryRef.In ⟨sd, 0⟩ N s.vpage) : s.IndexedIn type N sd V [] t := by
  have hres : Pm.Restores type N s t := h.restores hN
  have ht := hres.edits.reopened hs
  refine ⟨hres, fun hmod _ => ⟨?_, fun y hy => (List.not_mem_nil hy).elim⟩⟩
  obtain ⟨q, d, hq, -, hd⟩ := h.dir
  have hpage : t.pageAt sd = some (.dir { d with sdMaddrRoot := [], sdFreeList := Stailq.init }) :=
    (Pm.pageAt_of_vpage ht.vmap hmod ((hres.edits.vpage sd).trans hq)).trans (congrArg some hd)
  refine ⟨_, Pm.heads_eq hpage, ⟨List.nodup_nil, fun y => ?_⟩, fun w => ⟨[], ?_, fun y => ?_, ?_⟩⟩
  · exact ⟨fun hy => (List.not_mem_nil hy).elim, fun hy => (List.not_mem_nil hy.1).elim⟩
  · have hhead : (headsOf t.sizes ([], Stailq.init)).head w = Stailq.init := by
      rw [h.sizes]
      cases w <;> rfl
    rw [hhead]
    exact .nil t.link
  · exact ⟨fun hy => (List.not_mem_nil hy).elim, fun hy => (List.not_mem_nil hy.1).elim⟩
  · exact fun _ y hy => (List.not_mem_nil hy).elim

/-! ## The tree that becomes current -/

section

variable {ν : Type} {laddr l a : ℕ} {s' : Pm}

/-- The offsets that the slots of the node at `l` lead to afterwards. -/
def NodeKind.homes (K : NodeKind ν) (type : CpointType) (s : Pm) (l : ℕ) : List ℕ :=
  match (s.pageAt (s.startAddr + l)).bind K.node? with
  | none => []
  | some n => ((List.range (K.index n)).filter fun i =>
      SlotLive (K.current n i) (K.snapshot n i)).map fun i =>
        homeLaddr type (K.current n i) (K.snapshot n i)

/-- The addresses in the current slots of the node at `a`. -/
def NodeKind.children (K : NodeKind ν) (s : Pm) (a : ℕ) : List ℕ :=
  match (s.pageAt a).bind K.node? with
  | none => []
  | some n => ((List.range (K.index n)).filter fun i => (K.current n i).laddr ≠ 0).map fun i =>
      (K.current n i).maddr

namespace Pm

/-- The buckets of the tree that becomes current. -/
def treeBuckets (s : Pm) (type : CpointType) (laddr : ℕ) : List ℕ :=
  ((dirKind.homes type s laddr).flatMap (outerKind.homes type s)).flatMap (innerKind.homes type s)

def treeEntries (s : Pm) (type : CpointType) (laddr : ℕ) : List EntryRef :=
  (s.treeBuckets type laddr).flatMap (bucketRefs s.startAddr)

def isInitAt (s : Pm) (r : EntryRef) : Bool := (s.readEntry r).any (·.isInit)

/-- The data pages of the initialised entries of that tree. -/
def treeData (s : Pm) (type : CpointType) (laddr : ℕ) : List ℕ :=
  ((s.treeEntries type laddr).filter s.isInitAt).map fun r =>
    ((s.readEntry r).map (homeData type)).getD 0

def callOffsets (s : Pm) (K : NodeKind ν) (type : CpointType) (l : ℕ) : List ℕ :=
  (K.calls type s l).map Prod.fst

/-- The directory and all the nodes and buckets that are mapped. -/
def mappedOffsets (s : Pm) (type : CpointType) (laddr : ℕ) : List ℕ :=
  let outers := s.callOffsets dirKind type laddr
  let inners := outers.flatMap (s.callOffsets outerKind type)
  laddr :: (outers ++ inners ++ inners.flatMap (s.callOffsets innerKind type))

def mappedPages (s : Pm) (type : CpointType) (laddr : ℕ) : Set ℕ :=
  {q | ∃ l ∈ s.mappedOffsets type laddr, s.vpage (s.startAddr + l) = some q}

/-- The tree that becomes current has no bucket and no data page twice, and no data page is a page that
is mapped as a node. -/
structure ProperTree (s : Pm) (type : CpointType) (laddr : ℕ) : Prop where
  aligned : ∀ x ∈ s.treeData type laddr, x % pageSize = 0
  buckets : ((s.treeBuckets type laddr).map (· / pageSize)).Nodup
  data : ((s.treeData type laddr).map (· / pageSize)).Nodup
  free : ∀ x ∈ s.treeData type laddr, ∀ l ∈ s.mappedOffsets type laddr, x / pageSize ≠ l / pageSize

/-- No bucket is below a snapshot slot of the directory or of a current outer node. -/
def SnapshotsBare (s : Pm) (laddr : ℕ) : Prop :=
  (∀ x, (x, false) ∈ dirKind.calls .incomplete s laddr →
    ∀ y ∈ outerKind.calls .incomplete s x, innerKind.calls .incomplete s y.1 = []) ∧
  ∀ x ∈ dirKind.homes .incomplete s laddr, ∀ y, (y, false) ∈ outerKind.calls .incomplete s x →
    innerKind.calls .incomplete s y = []

/-- The entries of the current tree of the directory at an address. -/
def currentEntries (s : Pm) (a : ℕ) : List EntryRef :=
  (((dirKind.children s a).flatMap (outerKind.children s)).flatMap (innerKind.children s)).flatMap
    fun sb => (List.range slabBucketEntries).map (EntryRef.mk sb)

end Pm

/-! ## The entries that are indexed -/

theorem flatMap_slotCalls {α : Type} (htype : type = .complete ∨ type = .incomplete)
    {c t : ℕ → Slot} {f : ℕ × Bool → List α} {L : List ℕ}
    (hf : ∀ i ∈ L, ∀ x, (x, false) ∈ slotCalls type (c i) (t i) → f (x, false) = []) :
    (L.flatMap fun i => slotCalls type (c i) (t i)).flatMap f =
      ((L.filter fun i => SlotLive (c i) (t i)).map fun i => homeLaddr type (c i) (t i)).flatMap
        fun x => f (x, true) := by
  induction L with
  | nil => rfl
  | cons i L ih =>
    rw [List.flatMap_cons, List.flatMap_append, ih fun j hj => hf j (List.mem_cons_of_mem i hj)]
    have hfi := hf i List.mem_cons_self
    by_cases hlive : SlotLive (c i) (t i)
    · rw [List.filter_cons_of_pos (by simpa using hlive), List.map_cons, List.flatMap_cons]
      congr 1
      unfold slotCalls at hfi ⊢
      rw [if_pos hlive] at hfi ⊢
      rcases htype with rfl | rfl
      · rw [List.flatMap_singleton]
        rfl
      · rw [List.flatMap_cons, List.flatMap_singleton, hfi _ (by simp), List.append_nil]
        rfl
    · rw [List.filter_cons_of_neg (by simpa using hlive)]
      unfold slotCalls
      rw [if_neg hlive, List.flatMap_nil, List.nil_append]

theorem NodeKind.flatMap_calls {α : Type} (K : NodeKind ν) (htype : type = .complete ∨ type = .incomplete)
    {f : ℕ × Bool → List α} (hf : ∀ x, (x, false) ∈ K.calls type s l → f (x, false) = []) :
    (K.calls type s l).flatMap f = (K.homes type s l).flatMap fun x => f (x, true) := by
  unfold NodeKind.calls at hf ⊢
  unfold NodeKind.homes
  cases hn : (s.pageAt (s.startAddr + l)).bind K.node? with
  | none => rfl
  | some n =>
    rw [hn] at hf
    exact flatMap_slotCalls htype fun i hi x hx => hf x (List.mem_flatMap.mpr ⟨i, hi, hx⟩)

/-- With a completed checkpoint every node is mapped once. -/
theorem NodeKind.not_mem_calls (K : NodeKind ν) {x : ℕ} : (x, false) ∉ K.calls .complete s l := by
  intro hx
  unfold NodeKind.calls at hx
  cases hn : (s.pageAt (s.startAddr + l)).bind K.node? with
  | none =>
    rw [hn] at hx
    exact List.not_mem_nil hx
  | some n =>
    rw [hn] at hx
    obtain ⟨i, -, hx⟩ := List.mem_flatMap.mp hx
    unfold slotCalls at hx
    split_ifs at hx
    · cases List.mem_singleton.mp hx
    · exact List.not_mem_nil hx

theorem Level.below_inner (htype : type = .complete ∨ type = .incomplete) (b : Bool) :
    (Level.inner type N).below s l b = (innerKind.homes type s l).flatMap (bucketRefs s.startAddr) :=
  innerKind.flatMap_calls htype fun _ _ => rfl

/-- **What is indexed**: the entries of the tree that becomes current. -/
theorem below_eq_treeEntries (htype : type = .complete ∨ type = .incomplete)
    (hbare : type = .incomplete → s.SnapshotsBare laddr) :
    (Level.dir type N).below s laddr true = s.treeEntries type laddr := by
  have hinner : ∀ {y : ℕ}, type = .incomplete → innerKind.calls .incomplete s y = [] →
      (Level.inner type N).below s y false = [] := by
    rintro y rfl hy
    show (innerKind.calls .incomplete s y).flatMap _ = []
    rw [hy]
    rfl
  have hdir : (Level.dir type N).below s laddr true = (dirKind.homes type s laddr).flatMap fun x =>
      (Level.outer type N).below s x true := by
    refine dirKind.flatMap_calls htype fun x hx => ?_
    rcases htype with rfl | rfl
    · exact (dirKind.not_mem_calls hx).elim
    · refine List.flatMap_eq_nil_iff.mpr fun y hy => ?_
      exact hinner rfl ((hbare rfl).1 x hx y hy)
  have houter : ∀ x ∈ dirKind.homes type s laddr, (Level.outer type N).below s x true =
      (outerKind.homes type s x).flatMap fun y => (Level.inner type N).below s y true := by
    intro x hx
    refine outerKind.flatMap_calls htype fun y hy => ?_
    rcases htype with rfl | rfl
    · exact (outerKind.not_mem_calls hy).elim
    · exact hinner rfl ((hbare rfl).2 x hx y hy)
  unfold Pm.treeEntries Pm.treeBuckets
  rw [hdir, List.flatMap_assoc, List.flatMap_assoc]
  refine List.flatMap_congr fun x hx => ?_
  rw [houter x hx]
  refine List.flatMap_congr fun y _ => ?_
  rw [Level.below_inner htype]

/-! ## The current tree afterwards -/

/-- The current slots lead to where they should. -/
theorem NodeKind.children_eq {K : NodeKind ν} {C : Level type N} (hs : s.Reopened)
    (h : Pm.Restores type N s s') (hd : (Level.node K C).Done s' l) :
    K.children s' (s.startAddr + l) = (K.homes type s l).map (s.startAddr + ·) := by
  have hstart := h.edits.startAddr
  obtain ⟨n', hn', hall⟩ := hd
  rw [hstart] at hn' hall
  obtain ⟨p, hp, hr⟩ := h.pageAt_rev hs hn'
  obtain ⟨n, rfl⟩ := K.of_restored_rev hr
  obtain ⟨m, hm, hidx, hsl⟩ := K.of_restored hr
  obtain rfl := K.page_inj hm
  unfold NodeKind.children NodeKind.homes
  rw [hn', hp, Option.bind_some, Option.bind_some, K.node?_eq_some.mpr rfl, K.node?_eq_some.mpr rfl]
  dsimp only
  rw [hidx, List.map_map]
  have hiff : ∀ i ∈ List.range (K.index n), ((K.current n' i).laddr ≠ 0 ↔
      SlotLive (K.current n i) (K.snapshot n i)) := by
    intro i hi
    obtain ⟨⟨hcons, -⟩, -⟩ := hall i (hidx ▸ List.mem_range.mp hi)
    have hzero : (K.current n' i).laddr = 0 ↔ (K.snapshot n' i).laddr = 0 := not_not.mp hcons
    rw [← hsl.live i]
    exact ⟨fun h0 => ⟨h0, fun hs0 => h0 (hzero.mpr hs0)⟩, fun hlive => hlive.1⟩
  rw [List.filter_congr fun i hi => decide_eq_decide.mpr (hiff i hi)]
  refine List.map_congr_left fun i hi => ?_
  obtain ⟨hi, hlive⟩ := List.mem_filter.mp hi
  obtain ⟨⟨-, hhome⟩, -⟩ := hall i (hidx ▸ List.mem_range.mp hi)
  obtain ⟨hc, -⟩ := hhome ((hiff i hi).mpr (by simpa using hlive))
  rw [hc, hsl.homeLaddr i]
  rfl

/-- The children are mapped. -/
theorem NodeKind.done_homes {K : NodeKind ν} {C : Level type N}
    (htype : type = .complete ∨ type = .incomplete) (hs : s.Reopened) (h : Pm.Restores type N s s')
    (hd : (Level.node K C).Done s' l) {x : ℕ} (hx : x ∈ K.homes type s l) : C.Done s' x := by
  obtain ⟨n', hn', hall⟩ := hd
  rw [h.edits.startAddr] at hn'
  obtain ⟨p, hp, hr⟩ := h.pageAt_rev hs hn'
  obtain ⟨n, rfl⟩ := K.of_restored_rev hr
  obtain ⟨m, hm, hidx, hsl⟩ := K.of_restored hr
  obtain rfl := K.page_inj hm
  unfold NodeKind.homes at hx
  rw [hp, Option.bind_some, K.node?_eq_some.mpr rfl] at hx
  obtain ⟨i, hi, rfl⟩ := List.mem_map.mp hx
  obtain ⟨hi, hlive⟩ := List.mem_filter.mp hi
  obtain ⟨-, hdone⟩ := hall i (hidx ▸ List.mem_range.mp hi)
  refine hdone (_, true) ?_
  rw [hsl.slotCalls i]
  unfold slotCalls
  rw [if_pos (by simpa using hlive)]
  rcases htype with rfl | rfl
  · exact List.mem_singleton_self _
  · exact List.mem_cons_self

theorem currentEntries_eq (htype : type = .complete ∨ type = .incomplete) (hs : s.Reopened)
    (h : Pm.Restores type N s s') (hd : (Level.dir type N).Done s' laddr) :
    s'.currentEntries (s.startAddr + laddr) = s.treeEntries type laddr := by
  unfold Pm.currentEntries Pm.treeEntries Pm.treeBuckets
  rw [NodeKind.children_eq hs h hd]
  simp only [List.flatMap_assoc, List.flatMap_map]
  refine List.flatMap_congr fun x hx => ?_
  have hdx : (Level.outer type N).Done s' x := NodeKind.done_homes htype hs h hd hx
  rw [NodeKind.children_eq hs h hdx, List.flatMap_map]
  refine List.flatMap_congr fun y hy => ?_
  have hdy : (Level.inner type N).Done s' y := NodeKind.done_homes htype hs h hdx hy
  rw [NodeKind.children_eq hs h hdy, List.flatMap_map]
  rfl

/-! ## A proper tree can be indexed -/

theorem Pm.pre_mappedPages (s : Pm) (type : CpointType) (laddr : ℕ) :
    (Level.dir type (s.mappedPages type laddr)).Pre s laddr := by
  have hin : ∀ l ∈ s.mappedOffsets type laddr, s.OffsetIn (s.mappedPages type laddr) l :=
    fun l hl q hq => ⟨l, hl, hq⟩
  unfold Pm.mappedOffsets at hin
  refine ⟨hin laddr List.mem_cons_self, fun x hx => ?_⟩
  have hox : x.1 ∈ s.callOffsets dirKind type laddr := List.mem_map.mpr ⟨x, hx, rfl⟩
  refine ⟨hin x.1 (by simp [hox]), fun y hy => ?_⟩
  have hiy : y.1 ∈ (s.callOffsets dirKind type laddr).flatMap (s.callOffsets outerKind type) :=
    List.mem_flatMap.mpr ⟨x.1, hox, List.mem_map.mpr ⟨y, hy, rfl⟩⟩
  refine ⟨hin y.1 (List.mem_cons_of_mem _ (List.mem_append_left _ (List.mem_append_right _ hiy))),
    fun z hz => ?_⟩
  exact hin z.1 (List.mem_cons_of_mem _ (List.mem_append_right _
    (List.mem_flatMap.mpr ⟨y.1, hiy, List.mem_map.mpr ⟨z, hz, rfl⟩⟩)))

theorem nodup_bucketRefs (start l : ℕ) : (bucketRefs start l).Nodup :=
  List.nodup_range.map fun _ _ h => congrArg EntryRef.idx h

theorem Pm.ProperTree.indexable (h : s.ProperTree type laddr) :
    s.Indexable type (s.mappedPages type laddr) (s.treeEntries type laddr) := by
  have hdata : ∀ {r e}, r ∈ s.treeEntries type laddr → s.readEntry r = some e → e.isInit = true →
      r ∈ (s.treeEntries type laddr).filter s.isInitAt ∧
        ((s.readEntry r).map (homeData type)).getD 0 = homeData type e := by
    intro r e hr he hi
    refine ⟨List.mem_filter.mpr ⟨hr, ?_⟩, ?_⟩
    · unfold Pm.isInitAt
      rw [he]
      exact hi
    · rw [he]
      rfl
  refine ⟨?_, fun r hr r' hr' e e' he he' hi hi' heq => ?_, fun r hr e he hi => ?_⟩
  · refine List.nodup_flatMap.mpr ⟨fun l _ => nodup_bucketRefs _ l, ?_⟩
    refine List.Pairwise.of_map _ (fun l l' hne => ?_) h.buckets
    intro r hr hr'
    obtain ⟨i, -, rfl⟩ := List.mem_map.mp hr
    obtain ⟨j, -, hj⟩ := List.mem_map.mp hr'
    have hsb : s.startAddr + l' = s.startAddr + l := congrArg EntryRef.sb hj
    exact hne (congrArg (· / pageSize) (Nat.add_left_cancel hsb).symm)
  · obtain ⟨hm, hd⟩ := hdata hr he hi
    obtain ⟨hm', hd'⟩ := hdata hr' he' hi'
    have hnd := h.data
    unfold Pm.treeData at hnd
    rw [List.map_map] at hnd
    refine List.inj_on_of_nodup_map hnd hm hm' ?_
    show ((s.readEntry r).map (homeData type)).getD 0 / pageSize =
      ((s.readEntry r').map (homeData type)).getD 0 / pageSize
    rw [hd, hd', heq]
  · obtain ⟨hm, hd⟩ := hdata hr he hi
    have hx : homeData type e ∈ s.treeData type laddr := List.mem_map.mpr ⟨r, hm, hd⟩
    refine ⟨h.aligned _ hx, ?_⟩
    rintro q hq ⟨l, hl, hlq⟩
    exact h.free _ hx l hl ((Pm.vpage_eq hq).symm.trans (Pm.vpage_eq hlq))

/-- **The indexes after a restore.** -/
theorem indexesExactly (hs : s.Reopened) (htype : type = .complete ∨ type = .incomplete)
    (ht : s.ProperTree type laddr) (hbare : type = .incomplete → s.SnapshotsBare laddr)
    (hr : Returns (slabMap laddr type) s a s') : s'.IndexesExactly a (s'.currentEntries a) := by
  have hpre := s.pre_mappedPages type laddr
  obtain ⟨rfl, hres, -, hdone, hinv⟩ := hs.slabMap
    (indexInv_indexedIn hs ht.indexable) (fun t hc => hc.indexedIn hs hpre.1) hpre hr
  have hmod : (s.startAddr + laddr) % pageSize = 0 := by
    obtain ⟨n, hn, -⟩ := hdone
    rw [hres.edits.startAddr] at hn
    exact (pageAt_eq_some.mp hn).1
  rw [below_eq_treeEntries htype hbare] at hinv
  rw [currentEntries_eq htype hs hres hdone]
  exact (hinv.2 hmod ⟨[], List.append_nil _⟩).exactly

end

/-! ## A session -/

instance (s : Pm) (type : CpointType) (laddr : ℕ) : Decidable (s.ProperTree type laddr) :=
  decidable_of_iff ((∀ x ∈ s.treeData type laddr, x % pageSize = 0) ∧
    ((s.treeBuckets type laddr).map (· / pageSize)).Nodup ∧
    ((s.treeData type laddr).map (· / pageSize)).Nodup ∧
    ∀ x ∈ s.treeData type laddr, ∀ l ∈ s.mappedOffsets type laddr, x / pageSize ≠ l / pageSize)
    ⟨fun h => ⟨h.1, h.2.1, h.2.2.1, h.2.2.2⟩, fun h => ⟨h.aligned, h.buckets, h.data, h.free⟩⟩

/-- Whether the first entry of a queue is linked to itself. -/
def Pm.selfLinked (s : Pm) (sd : ℕ) (w : QueueName) : Option Bool := do
  let H ← s.heads sd
  let r ← (H.head w).first
  let r' ← s.link r
  return decide (r' = r)

/-- No queue begins so. -/
theorem Pm.not_indexesExactly {s : Pm} {sd : ℕ} {w : QueueName} {T : List EntryRef}
    (h : s.selfLinked sd w = some true) : ¬ s.IndexesExactly sd T := by
  rintro ⟨H, hH, -, hqueues⟩
  obtain ⟨l, hl⟩ := hqueues w
  unfold Pm.selfLinked at h
  obtain ⟨H', hH', h⟩ := Option.bind_eq_some_iff.mp h
  obtain rfl := Option.some.inj (hH.symm.trans hH')
  obtain ⟨r, hr, h⟩ := Option.bind_eq_some_iff.mp h
  obtain ⟨r', hr', h⟩ := Option.bind_eq_some_iff.mp h
  obtain rfl : r' = r := of_decide_eq_true (Option.some.inj h)
  have hq := hl.queue
  cases l with
  | nil => cases hr.symm.trans hq.first_eq
  | cons x l =>
    obtain rfl : r' = x := Option.some.inj (hr.symm.trans hq.first_eq)
    have hnext : some r' = l.head? := hr'.symm.trans hq.linked.1
    exact (List.nodup_cons.mp hq.linked.nodup).1 (List.mem_of_mem_head? (Option.mem_def.mpr hnext.symm))

/-- A session with one object and a checkpoint, and its tree mapped by another process: the length of
the file, whether the tree is proper, and whether the list of the size of the object begins with an
entry that is linked to itself. -/
def sessionIndexed (env : Env) (type : CpointType) : MachineProg (ℕ × Bool × Option Bool) := do
  let _ ← containerInit env
  [Action.palloc 512, .cpoint].forM Action.run
  let m ← get
  modify fun m => m.restart env
  onPm (openWritable env.initSize)
  let s ← get
  let sd ← onPm (slabMap pageSize type)
  let s' ← get
  return (m.pm.fileLen, decide (s.pm.ProperTree type pageSize), s'.pm.selfLinked sd (.ofSize 512))

theorem exists_sessionIndexed (type : CpointType) (o : Option Bool)
    (hrun : (sessionIndexed (Env.standard .fixedMapper) type
      (Machine.fresh (Env.standard .fixedMapper))).value? = some (12 * pageSize, true, o)) :
    ∃ saved m s s' sd, Session anyAction (Env.standard .fixedMapper) saved m ∧ s.Reopened ∧
      Returns (openWritable (Env.standard .fixedMapper).initSize)
        (m.restart (Env.standard .fixedMapper)).pm () s ∧
      s.ProperTree type pageSize ∧ Returns (slabMap pageSize type) s sd s' ∧
      s'.selfLinked sd (.ofSize 512) = o := by
  obtain ⟨t, h⟩ := exists_returns_of_value hrun
  unfold sessionIndexed onPm at h
  simp only [returns_bind, returns_get, returns_modify, returns_pure, Prod.mk.injEq, returns_zoom,
    decide_eq_true_iff] at h
  obtain ⟨cont, m₀, hinit, _, m₁, hacts, _, _, ⟨rfl, rfl⟩, _, _, rfl, _, _, ⟨s, hopen, rfl⟩, _, _, ⟨rfl, rfl⟩,
    sd, _, ⟨s', hmap, rfl⟩, _, _, ⟨rfl, rfl⟩, ⟨hlen, htree, hself⟩, rfl⟩ := h
  obtain ⟨saved, hs⟩ := (Session.init hinit).forM hacts
  have hlen' : pageSize ≤ m₁.pm.fileLen := by
    rw [hlen]
    decide
  exact ⟨saved, m₁, s, s', sd, hs, .openWritable hlen' hopen, hopen, htree, hmap, hself⟩

/-- The file of a session with one object. -/
theorem indexesExactly_session : ∃ s' : Pm, ∃ a, s'.IndexesExactly a (s'.currentEntries a) := by
  obtain ⟨saved, m, s, s', a, -, hs, -, ht, hr, -⟩ := exists_sessionIndexed .complete none
    (by decide +kernel)
  exact ⟨s', a, indexesExactly hs (.inl rfl) ht (fun h => nomatch h) hr⟩

/-- The entry of the only object is indexed again, and linked to itself. -/
theorem not_forall_indexesExactly : ∃ saved m s s' a,
    Session anyAction (Env.standard .fixedMapper) saved m ∧
      Returns (openWritable (Env.standard .fixedMapper).initSize)
        (m.restart (Env.standard .fixedMapper)).pm () s ∧
      s.ProperTree .incomplete pageSize ∧ Returns (slabMap pageSize .incomplete) s a s' ∧
      ¬ s'.IndexesExactly a (s'.currentEntries a) := by
  obtain ⟨saved, m, s, s', a, hs, -, hopen, ht, hr, hself⟩ :=
    exists_sessionIndexed .incomplete (some true) (by decide +kernel)
  exact ⟨saved, m, s, s', a, hs, hopen, ht, hr, Pm.not_indexesExactly hself⟩

end LibPM

import LibPM.Restore.Tables
import Mathlib.Data.List.Basic

/-!
# Mapping the nodes below one

A `Level` says for a level of the tree what must be known of a node before it is mapped, when it is
done, and which entries are indexed on the way. `Maps` is the specification of the mapping functions,
for any property `Inv` of the entries that were indexed so far; the step is `Maps.node`.
-/

namespace LibPM

open Recorded Recorded.Prog

/-- A reopened file with the mapping `v`, whose queues are on pages of `N`. -/
structure Pm.Ready (s : Pm) (sd : ℕ) (N : Set ℕ) (v : ℕ → Option ℕ) : Prop where
  reopened : s.Reopened
  vpage : s.vpage = v
  queues : s.QueuesIn sd N

section

variable {type : CpointType} {sd : ℕ} {N : Set ℕ} {v : ℕ → Option ℕ} {s s' : Pm} {ν : Type}

/-- Whoever leaves the heads of the queues leaves them where they are. -/
theorem Pm.Ready.sameHeads (h : s.Ready sd N v) (he : s.Edits s') (hsizes : s'.sizes = s.sizes)
    (hheads : (s'.pageAt sd).bind Page.heads = (s.pageAt sd).bind Page.heads) : s'.Ready sd N v := by
  have hvp : s'.vpage = s.vpage := funext he.vpage
  refine ⟨he.reopened h.reopened, hvp.trans h.vpage, ⟨fun q hq => ?_, fun d r hd hr q hq => ?_,
    fun es hes r hr q hq => ?_⟩⟩
  · rw [hvp] at hq
    exact h.queues.dir q hq
  · have hnew : (s'.pageAt sd).bind Page.heads = some (d.sdMaddrRoot, d.sdFreeList) := by
      rw [readDir_eq_some.mp hd]
      rfl
    rw [hheads] at hnew
    cases hp : s.pageAt sd with
    | none =>
      rw [hp] at hnew
      cases hnew
    | some p =>
      rw [hp] at hnew
      cases p with
      | dir d' =>
        have hfree : d'.sdFreeList = d.sdFreeList := congrArg Prod.snd (Option.some.inj hnew)
        rw [hvp] at hq
        exact h.queues.free d' r (readDir_eq_some.mpr hp) (hfree ▸ hr) q hq
      | _ => cases hnew
  · rw [hsizes] at hes
    rw [hvp] at hq
    exact h.queues.sizes es hes r hr q hq

/-! ## Levels -/

/-- A level of the tree. `Pre` must hold of the offset of a node before it is mapped, `Done` holds of
it afterwards, and `below` lists the entries that are indexed in between. -/
structure Level (type : CpointType) (N : Set ℕ) where
  Pre : Pm → ℕ → Prop
  Done : Pm → ℕ → Prop
  below : Pm → ℕ → Bool → List EntryRef
  pre_restores : ∀ {s s' l}, s.Reopened → Pm.Restores type N s s' → Pre s l → Pre s' l
  done_restores : ∀ {s s' l}, s.Reopened → Pm.Restores type N s s' → Done s l → Done s' l
  below_restores : ∀ {s s' l b}, s.Reopened → Pm.Restores type N s s' → below s' l b = below s l b

/-- The page at the offset `l` is one of `N`, if there is one. -/
def Pm.OffsetIn (s : Pm) (N : Set ℕ) (l : ℕ) : Prop := ∀ q, s.vpage (s.startAddr + l) = some q → q ∈ N

theorem Pm.OffsetIn.edits {l : ℕ} (h : s.OffsetIn N l) (he : s.Edits s') : s'.OffsetIn N l := by
  intro q hq
  rw [he.startAddr, he.vpage] at hq
  exact h q hq

/-- The page stays where it is. -/
theorem Pm.OffsetIn.at {l : ℕ} (h : s.OffsetIn N l) (he : s.Edits s') :
    EntryRef.In ⟨s.startAddr + l, 0⟩ N s'.vpage := by
  intro q hq
  rw [he.vpage] at hq
  exact h q hq

/-- The initialised entry leads into the mapping. -/
def EntryHome (type : CpointType) (start : ℕ) (e : SlabEntry) : Prop :=
  e.isInit = true → Mappable type e ∧ e.unlinked = (mapEntry start type e).unlinked

theorem mappable_mapEntry {start : ℕ} {e : SlabEntry} (h : Mappable type e) :
    Mappable type (mapEntry start type e) := by
  cases type with
  | incomplete => trivial
  | complete => exact ⟨rfl, rfl⟩
  | _ => exact h

theorem EntryHome.restored {start : ℕ} {e e' : SlabEntry} (h : EntryHome type start e)
    (hr : EntryRestored type start e e') : EntryHome type start e' := by
  intro hi
  rcases hr with hr | ⟨hi', hm, hr⟩
  · obtain ⟨hm, he⟩ := h (isInit_of_unlinked hr ▸ hi)
    exact ⟨mappable_of_unlinked hr.symm hm, by rw [unlinked_mapEntry hr, hr, ← he]⟩
  · refine ⟨mappable_of_unlinked hr.symm (mappable_mapEntry hm), ?_⟩
    rw [unlinked_mapEntry hr, mapEntry_mapEntry, hr]

/-- The slot leads into the mapping, if it is in use. -/
def SlotHome (type : CpointType) (start : ℕ) (c t : Slot) : Prop :=
  ¬ notCsConsistent c.laddr t.laddr ∧
    (c.laddr ≠ 0 → c = homeSlot start (homeLaddr type c t) ∧ t = homeSlot start t.laddr)

/-- The nodes below a slot, in the order of the code, and whether their entries are indexed. -/
def slotCalls (type : CpointType) (c t : Slot) : List (ℕ × Bool) :=
  if SlotLive c t then
    match type with
    | .incomplete => [(c.laddr, true), (t.laddr, false)]
    | .complete => [(t.laddr, true)]
    | _ => []
  else []

section SlotsRestored

variable {start : ℕ} {cur snap cur' snap' : ℕ → Slot}

theorem SlotsRestored.slotCalls (h : SlotsRestored type start cur snap cur' snap') (i : ℕ) :
    slotCalls type (cur' i) (snap' i) = slotCalls type (cur i) (snap i) := by
  have hlive := h.live i
  have hhome := h.homeLaddr i
  have hsnap := h.snapshot_laddr i
  unfold LibPM.slotCalls
  by_cases h0 : SlotLive (cur i) (snap i)
  · rw [if_pos h0, if_pos (hlive.mpr h0)]
    cases type with
    | incomplete =>
      dsimp only
      rw [hsnap, show (cur' i).laddr = (cur i).laddr from hhome]
    | complete =>
      dsimp only
      rw [hsnap]
    | _ => rfl
  · rw [if_neg h0, if_neg fun h => h0 (hlive.mp h)]

theorem SlotsRestored.slotHome (h : SlotsRestored type start cur snap cur' snap') {i : ℕ}
    (hh : SlotHome type start (cur i) (snap i)) : SlotHome type start (cur' i) (snap' i) := by
  have hzero := h.zero_iff i
  have hhome := h.homeLaddr i
  have hsnap := h.snapshot_laddr i
  have hiff : ¬ notCsConsistent (cur' i).laddr (snap' i).laddr := by
    unfold notCsConsistent
    rw [hzero, hsnap]
    exact hh.1
  refine ⟨hiff, fun h0 => ?_⟩
  obtain ⟨hc, ht⟩ := hh.2 fun h => h0 (hzero.mpr h)
  rw [hhome, hsnap]
  constructor
  · rcases (h i).1 with he | ⟨-, he⟩
    · rw [he]
      exact hc
    · exact he
  · rcases (h i).2 with he | ⟨-, he⟩
    · rw [he]
      exact ht
    · exact he

end SlotsRestored

/-- The nodes below the node at the offset `l`. -/
def NodeKind.calls (K : NodeKind ν) (type : CpointType) (s : Pm) (l : ℕ) : List (ℕ × Bool) :=
  match (s.pageAt (s.startAddr + l)).bind K.node? with
  | none => []
  | some n => (List.range (K.index n)).flatMap fun i =>
      slotCalls type (K.current n i) (K.snapshot n i)

theorem NodeKind.calls_eq {K : NodeKind ν} {l : ℕ} {n : ν}
    (hn : s.pageAt (s.startAddr + l) = some (K.page n)) :
    K.calls type s l = (List.range (K.index n)).flatMap fun i =>
      slotCalls type (K.current n i) (K.snapshot n i) := by
  unfold NodeKind.calls
  rw [hn, Option.bind_some, K.node?_eq_some.mpr rfl]

/-- A node stays a node, with the same slots. -/
theorem Pm.Restores.node (h : Pm.Restores type N s s') (hs : s.Reopened) {K : NodeKind ν} {a : ℕ}
    {n : ν} (hn : s.pageAt a = some (K.page n)) : ∃ n', s'.pageAt a = some (K.page n') ∧
      K.index n' = K.index n ∧ SlotsRestored type s.startAddr (K.current n) (K.snapshot n)
        (K.current n') (K.snapshot n') := by
  obtain ⟨p', hp', hr⟩ := h.pageAt hs hn
  obtain ⟨n', rfl, hi, hsl⟩ := K.of_restored hr
  exact ⟨n', hp', hi, hsl⟩

/-- No page becomes a node. -/
theorem Pm.Restores.node?_eq_none (h : Pm.Restores type N s s') (hs : s.Reopened) {K : NodeKind ν}
    {a : ℕ} (hn : (s.pageAt a).bind K.node? = none) : (s'.pageAt a).bind K.node? = none := by
  rw [Option.bind_eq_none_iff]
  intro p' hp'
  by_contra hn'
  obtain ⟨n', hn'⟩ := Option.ne_none_iff_exists'.mp hn'
  obtain rfl := K.node?_eq_some.mp hn'
  obtain ⟨p, hp, hr⟩ := h.pageAt_rev hs hp'
  obtain ⟨n, rfl⟩ := K.of_restored_rev hr
  rw [hp, Option.bind_some, K.node?_eq_some.mpr rfl] at hn
  cases hn

theorem Pm.Restores.calls (h : Pm.Restores type N s s') (hs : s.Reopened) (K : NodeKind ν) (l : ℕ) :
    K.calls type s' l = K.calls type s l := by
  cases hp : (s.pageAt (s.startAddr + l)).bind K.node? with
  | some n =>
    obtain ⟨p, hp, hn⟩ := Option.bind_eq_some_iff.mp hp
    obtain rfl := K.node?_eq_some.mp hn
    obtain ⟨n', hn', hi, hsl⟩ := h.node hs hp
    rw [NodeKind.calls_eq hp, NodeKind.calls_eq (by rw [h.edits.startAddr]; exact hn'), hi]
    exact List.flatMap_congr fun i _ => hsl.slotCalls i
  | none =>
    have hp' := h.node?_eq_none hs hp
    unfold NodeKind.calls
    rw [h.edits.startAddr, hp, hp']

/-- The entries of the bucket at the offset `l`. -/
def bucketRefs (start l : ℕ) : List EntryRef :=
  (List.range slabBucketEntries).map fun i => ⟨start + l, i⟩

theorem Pm.Restores.readEntry (h : Pm.Restores type N s s') (hs : s.Reopened) {r : EntryRef}
    {e : SlabEntry} (he : s.readEntry r = some e) : ∃ e', s'.readEntry r = some e' ∧
      EntryRestored type s.startAddr e e' := by
  obtain ⟨hidx, b, hb, rfl⟩ := readEntry_eq_some.mp he
  obtain ⟨p', hp', hr⟩ := h.pageAt hs (readBucket_eq_some.mp hb)
  cases p' with
  | bucket b' =>
    exact ⟨b'.sbEntries r.idx, readEntry_eq_some.mpr ⟨hidx, b', readBucket_eq_some.mpr hp', rfl⟩,
      hr.2.2 r.idx⟩
  | _ => cases hr

theorem Pm.Restores.readEntry_none (h : Pm.Restores type N s s') (hs : s.Reopened) {r : EntryRef}
    (he : s.readEntry r = none) : s'.readEntry r = none := by
  cases he' : s'.readEntry r with
  | none => rfl
  | some e' =>
    obtain ⟨hidx, b', hb', -⟩ := readEntry_eq_some.mp he'
    obtain ⟨p, hp, hr⟩ := h.pageAt_rev hs (readBucket_eq_some.mp hb')
    cases p with
    | bucket b =>
      rw [readEntry_eq_some.mpr ⟨hidx, b, readBucket_eq_some.mpr hp, rfl⟩] at he
      cases he
    | _ => cases hr

/-- The entries of a bucket lead into the mapping. -/
def Level.bucket (type : CpointType) (N : Set ℕ) : Level type N where
  Pre s l := s.OffsetIn N l
  Done s l := ∀ r ∈ bucketRefs s.startAddr l, ∃ e, s.readEntry r = some e ∧
    EntryHome type s.startAddr e
  below s l b := if b = true then bucketRefs s.startAddr l else []
  pre_restores _ h hl := hl.edits h.edits
  done_restores hs h hd r hr := by
    rw [h.edits.startAddr] at hr ⊢
    obtain ⟨e, he, hh⟩ := hd r hr
    obtain ⟨e', he', hr'⟩ := h.readEntry hs he
    exact ⟨e', he', hh.restored hr'⟩
  below_restores _ h := by rw [h.edits.startAddr]

/-- A node of the kind `K` over nodes of the level `C`. -/
def Level.node (K : NodeKind ν) (C : Level type N) : Level type N where
  Pre s l := s.OffsetIn N l ∧ ∀ x ∈ K.calls type s l, C.Pre s x.1
  Done s l := ∃ n, s.pageAt (s.startAddr + l) = some (K.page n) ∧ ∀ i < K.index n,
    SlotHome type s.startAddr (K.current n i) (K.snapshot n i) ∧
      ∀ x ∈ slotCalls type (K.current n i) (K.snapshot n i), C.Done s x.1
  below s l _ := (K.calls type s l).flatMap fun x => C.below s x.1 x.2
  pre_restores hs h hl := by
    refine ⟨hl.1.edits h.edits, fun x hx => C.pre_restores hs h (hl.2 x ?_)⟩
    rwa [h.calls hs] at hx
  done_restores hs h hd := by
    obtain ⟨n, hn, hall⟩ := hd
    obtain ⟨n', hn', hi, hsl⟩ := h.node hs hn
    rw [h.edits.startAddr]
    refine ⟨n', hn', fun i hin => ?_⟩
    obtain ⟨hh, hc⟩ := hall i (hi ▸ hin)
    refine ⟨hsl.slotHome hh, fun x hx => C.done_restores hs h (hc x ?_)⟩
    rwa [hsl.slotCalls i] at hx
  below_restores hs h := by
    rw [h.calls hs]
    exact List.flatMap_congr fun x _ => C.below_restores hs h

/-! ## Mapping a level -/

/-- A property of the entries that were indexed so far, kept by the stores to slots and entries and
extended by `index_slab_entry`. -/
structure IndexInv (type : CpointType) (sd : ℕ) (N : Set ℕ) (v : ℕ → Option ℕ)
    (Inv : List EntryRef → Pm → Prop) : Prop where
  slots : ∀ {done s s'}, s.Ready sd N v → Pm.Restores type N s s' → Pm.SameIndexes sd s s' →
    Inv done s → Inv done s'
  map : ∀ {done s s' r e}, s.Ready sd N v → r.In N v →
    s.Sets r e (mapEntry s.startAddr type e) s' → e.isInit = true → Mappable type e → Inv done s →
      Inv done s'
  index : ∀ {done s s' r e}, s.Ready sd N v → r.In N v → s.readEntry r = some e →
    EntryHome type s.startAddr e → Inv done s → Returns (indexSlabEntry sd r) s () s' →
      Inv (done ++ [r]) s'

/-- `c` maps the nodes of the level `C`. -/
def Maps (sd : ℕ) (v : ℕ → Option ℕ) (Inv : List EntryRef → Pm → Prop) (C : Level type N)
    (c : ℕ → Bool → PmProg ℕ) : Prop :=
  ∀ ⦃l b s a s' done⦄, s.Ready sd N v → C.Pre s l → Inv done s → Returns (c l b) s a s' →
    a = s.startAddr + l ∧ Pm.Restores type N s s' ∧ s'.Ready sd N v ∧ C.Done s' l ∧
      Inv (done ++ C.below s l b) s'

variable {Inv : List EntryRef → Pm → Prop}

/-- Mapping an entry. -/
theorem Pm.Sets.restores {r : EntryRef} {e : SlabEntry} (hr : r.In N s.vpage) (hi : e.isInit = true)
    (hm : Mappable type e) (h : s.Sets r e (mapEntry s.startAddr type e) s') :
    Pm.Restores type N s s' := by
  obtain ⟨q, b, -, -, hq, hb, he, rfl⟩ := h
  refine .setPage (hr q hq) ?_
  rw [hb]
  refine ⟨rfl, rfl, fun i => ?_⟩
  dsimp only
  by_cases hir : i = r.idx
  · rw [hir, Function.update_self, he]
    exact .inr ⟨hi, hm, rfl⟩
  · rw [Function.update_of_ne hir]
    exact .refl _

theorem Pm.Sets.heads {r : EntryRef} {e e' : SlabEntry} (h : s.Sets r e e' s') (hs : s.Reopened)
    (a : ℕ) : (s'.pageAt a).bind Page.heads = (s.pageAt a).bind Page.heads := by
  obtain ⟨q, b, -, -, -, hb, -, rfl⟩ := h
  unfold Pm.pageAt Pm.fpage
  split_ifs
  · cases hv : s.vpage a with
    | none =>
      rw [show (s.setPage q _).vpage a = s.vpage a from rfl, hv]
      rfl
    | some i =>
      rw [show (s.setPage q _).vpage a = s.vpage a from rfl, hv,
        show (s.setPage q _).vmap = s.vmap from rfl, hs.vmap]
      unfold Pm.setPage
      dsimp only [Option.map_some, Option.bind_some, id]
      by_cases hiq : i = q
      · rw [hiq, Function.update_self, hb]
        rfl
      · rw [Function.update_of_ne hiq]
  · rfl

/-- **Mapping the entries of a bucket.** -/
theorem Maps.bucket (hI : IndexInv type sd N v Inv) :
    Maps sd v Inv (Level.bucket type N) fun l b => slabBucketMap sd l type b := by
  intro l b s a s' done hs hl hinv hr
  have hin : ∀ i, EntryRef.In ⟨s.startAddr + l, i⟩ N s.vpage := fun _ => hl
  unfold slabBucketMap at hr
  simp only [returns_bind, returns_mappage, returns_pure] at hr
  obtain ⟨_, _, ⟨rfl, rfl⟩, _, _, hloop, rfl, rfl⟩ := hr
  have hrun := Returns.forM_range_induct (s := s) (Q := fun k t => Pm.Restores type N s t ∧
    t.Ready sd N v ∧ (∀ i < k, ∃ e, t.readEntry ⟨s.startAddr + l, i⟩ = some e ∧
      EntryHome type s.startAddr e) ∧
    Inv (done ++ if b = true then (List.range k).map fun i => ⟨s.startAddr + l, i⟩ else []) t)
    ⟨.refl s, hs, fun _ hi => (Nat.not_lt_zero _ hi).elim, by simpa using hinv⟩
    (fun k _ t t' hQ hround => ?_) hloop
  · obtain ⟨hres, hready, hhome, hinv'⟩ := hrun
    refine ⟨rfl, hres, hready, fun r hr => ?_, ?_⟩
    · rw [hres.edits.startAddr] at hr ⊢
      obtain ⟨i, hi, rfl⟩ := List.mem_map.mp hr
      exact hhome i (List.mem_range.mp hi)
    · exact hinv'
  · obtain ⟨hres, hready, hhome, hinv'⟩ := hQ
    have hstart := hres.edits.startAddr
    have hvp : t.vpage = s.vpage := funext hres.edits.vpage
    simp only [returns_bind, returns_loadEntry] at hround
    obtain ⟨e, _, ⟨he, rfl⟩, _, t₁, hmap, hindex⟩ := hround
    -- the entry is mapped
    obtain ⟨hres₁, hready₁, e₁, he₁, hhome₁, hinv₁⟩ : Pm.Restores type N t t₁ ∧ t₁.Ready sd N v ∧
        ∃ e₁, t₁.readEntry ⟨s.startAddr + l, k⟩ = some e₁ ∧ EntryHome type s.startAddr e₁ ∧
          Inv (done ++ if b = true then (List.range k).map fun i => ⟨s.startAddr + l, i⟩ else []) t₁ := by
      rcases returns_when.mp hmap with ⟨hi, hmap⟩ | ⟨hi, rfl⟩
      · obtain ⟨e', he', hm, hset⟩ := hready.reopened.slabEntryMap hmap
        obtain rfl := Option.some.inj (he.symm.trans he')
        have hres₁ := hset.restores (hvp ▸ hin k) hi hm
        have hsizes : t₁.sizes = t.sizes := by
          obtain ⟨_, _, -, -, -, -, -, rfl⟩ := hset
          rfl
        refine ⟨hres₁, hready.sameHeads hres₁.edits hsizes (hset.heads hready.reopened sd), _,
          hset.readEntry hready.reopened, fun _ => ⟨mappable_mapEntry hm, ?_⟩,
          hI.map hready (hs.vpage ▸ hin k) hset hi hm hinv'⟩
        rw [hstart, mapEntry_mapEntry]
      · exact ⟨.refl t, hready, e, he, fun h => (hi h).elim, hinv'⟩
    -- and indexed
    obtain ⟨hres₂, hready₂, hinv₂⟩ : Pm.Restores type N t₁ t' ∧ t'.Ready sd N v ∧
        Inv (done ++ if b = true then (List.range (k + 1)).map fun i => ⟨s.startAddr + l, i⟩ else [])
          t' := by
      rcases returns_when.mp hindex with ⟨hb, hindex⟩ | ⟨hb, rfl⟩
      · have hstart₁ : t₁.startAddr = s.startAddr := hres₁.edits.startAddr.trans hstart
        obtain ⟨hrel, hQ, hfr⟩ := keeps_indexSlabEntry_in (N := N) (v := v)
          (fun q hq => hready₁.queues.dir q (hready₁.vpage ▸ hq))
          (fun q hq => hl q (hs.vpage ▸ hq)) hindex hready₁.reopened hready₁.vpage hready₁.queues
        have hv' : t'.vpage = v := (funext hrel.1.vpage).trans hready₁.vpage
        refine ⟨⟨hrel.1, fun q => (hrel.2 q).restored, hfr⟩, ⟨hrel.1.reopened hready₁.reopened, hv', hQ⟩, ?_⟩
        rw [if_pos hb] at hinv₁ ⊢
        rw [List.range_succ, List.map_append, ← List.append_assoc]
        exact hI.index hready₁ (hs.vpage ▸ hin k) he₁ (hstart₁.symm ▸ hhome₁) hinv₁ hindex
      · rw [if_neg hb] at hinv₁ ⊢
        exact ⟨.refl t₁, hready₁, hinv₁⟩
    have hrest := hres₁.trans hres₂
    refine ⟨hres.trans hrest, hready₂, fun i hi => ?_, hinv₂⟩
    rcases Nat.lt_succ_iff_lt_or_eq.mp hi with hi | rfl
    · obtain ⟨e', he', hh⟩ := hhome i hi
      obtain ⟨e'', he'', hr⟩ := hrest.readEntry hready.reopened he'
      exact ⟨e'', he'', hh.restored (hstart ▸ hr)⟩
    · obtain ⟨e'', he'', hr⟩ := hres₂.readEntry hready₁.reopened he₁
      exact ⟨e'', he'', hhome₁.restored ((hres₁.edits.startAddr.trans hstart) ▸ hr)⟩

/-! ## A node -/

/-- One slot changes. -/
theorem SlotsRestored.of_slot {start i : ℕ} {cur snap cur' snap' : ℕ → Slot}
    (hcur : ∀ j, j ≠ i → cur' j = cur j) (hsnap : ∀ j, j ≠ i → snap' j = snap j)
    (hci : cur' i = cur i ∨
      SlotLive (cur i) (snap i) ∧ cur' i = homeSlot start (LibPM.homeLaddr type (cur i) (snap i)))
    (hsi : snap' i = snap i ∨ SlotLive (cur i) (snap i) ∧ snap' i = homeSlot start (snap i).laddr) :
    SlotsRestored type start cur snap cur' snap' := by
  intro j
  by_cases hj : j = i
  · rw [hj]
    exact ⟨hci, hsi⟩
  · exact ⟨.inl (hcur j hj), .inl (hsnap j hj)⟩

theorem setMaddr_of_ne {f : ℕ → Slot} {i j a : ℕ} (h : j ≠ i) : setMaddr f i a j = f j :=
  Function.update_of_ne h ..

theorem setLaddr_of_ne {f : ℕ → Slot} {i j a : ℕ} (h : j ≠ i) : setLaddr f i a j = f j :=
  Function.update_of_ne h ..

section

variable {start i a : ℕ} {cur snap : ℕ → Slot}

/-- The current half of a slot, when its last checkpoint completed. -/
theorem current_home (ha : a = start + (snap i).laddr) :
    setLaddr (setMaddr cur i a) i (snap i).laddr i = homeSlot start (snap i).laddr := by
  rw [setLaddr_self, setMaddr_self, ha]
  rfl

theorem snapshot_home (ha : a = start + (snap i).laddr) :
    setMaddr snap i a i = homeSlot start (snap i).laddr := by
  rw [setMaddr_self, ha]
  rfl

theorem slotsRestored_home (ha : a = start + (snap i).laddr) (hlive : SlotLive (cur i) (snap i)) :
    SlotsRestored .complete start cur snap (setLaddr (setMaddr cur i a) i (snap i).laddr)
      (setMaddr snap i a) := by
  refine .of_slot (fun j hj => ?_) (fun j hj => setMaddr_of_ne hj) (.inr ⟨hlive, current_home ha⟩)
    (.inr ⟨hlive, snapshot_home ha⟩)
  rw [setLaddr_of_ne hj, setMaddr_of_ne hj]

end

/-- A store to the slots of a node below which everything is as it was. -/
theorem IndexInv.store (hI : IndexInv type sd N v Inv) {done : List EntryRef} {K : NodeKind ν} {a : ℕ}
    {n : ν} {c t : ℕ → Slot} (hs : s.Ready sd N v) (hl : EntryRef.In ⟨a, 0⟩ N s.vpage)
    (hinv : Inv done s) (h : s.SetsNode K a n (K.put n c t) s')
    (hr : SlotsRestored type s.startAddr (K.current n) (K.snapshot n) c t) :
    Pm.Restores type N s s' ∧ s'.Ready sd N v ∧ Inv done s' := by
  have hres := h.restores hl hr
  have hsame := h.sameIndexes sd hs.reopened
  exact ⟨hres, hs.sameHeads hres.edits hsame.sizes hsame.heads, hI.slots hs hres hsame hinv⟩

/-- What is known after a slot of the node `n` at the offset `l` was mapped. -/
structure SlotMapped (sd : ℕ) (v : ℕ → Option ℕ) (Inv : List EntryRef → Pm → Prop) (C : Level type N)
    (K : NodeKind ν) (l i : ℕ) (n : ν) (done : List EntryRef) (s s' : Pm) : Prop where
  restores : Pm.Restores type N s s'
  ready : s'.Ready sd N v
  home : ∃ n', s'.pageAt (s.startAddr + l) = some (K.page n') ∧
    SlotHome type s.startAddr (K.current n' i) (K.snapshot n' i)
  below : ∀ x ∈ slotCalls type (K.current n i) (K.snapshot n i), C.Done s' x.1
  inv : Inv (done ++ (slotCalls type (K.current n i) (K.snapshot n i)).flatMap fun x =>
    C.below s x.1 x.2) s'

section

variable {C : Level type N} {c : ℕ → Bool → PmProg ℕ} {K : NodeKind ν} {msg : String} {l i : ℕ} {n : ν}
  {done : List EntryRef}

/-- A slot that is in use, when its last checkpoint completed. -/
theorem Maps.slotComplete {C : Level .complete N} (hI : IndexInv .complete sd N v Inv)
    (hc : Maps sd v Inv C c) (hs : s.Ready sd N v) (hl : s.OffsetIn N l)
    (hn : s.pageAt (s.startAddr + l) = some (K.page n))
    (hlive : SlotLive (K.current n i) (K.snapshot n i)) (hpre : C.Pre s (K.snapshot n i).laddr)
    (hinv : Inv done s) {u : Unit}
    (hr : Returns (do
      let x ← c (K.snapshot n i).laddr true
      updatePage (s.startAddr + l) (K.on fun n => K.put n (setMaddr (K.current n) i x) (K.snapshot n))
      updatePage (s.startAddr + l) (K.on fun n =>
        K.put n (K.current n) (setMaddr (K.snapshot n) i (K.current n i).maddr))
      updatePage (s.startAddr + l) (K.on fun n =>
        K.put n (setLaddr (K.current n) i (K.snapshot n i).laddr) (K.snapshot n))) s u s') :
    SlotMapped sd v Inv C K l i n done s s' := by
  have hcalls : slotCalls .complete (K.current n i) (K.snapshot n i) =
      [((K.snapshot n i).laddr, true)] := if_pos hlive
  simp only [returns_bind] at hr
  obtain ⟨x, s₁, h₁, _, s₂, h₂, _, s₃, h₃, h₄⟩ := hr
  obtain ⟨rfl, hres₁, hready₁, hdone₁, hinv₁⟩ := hc hs hpre hinv h₁
  obtain ⟨n₁, hn₁, -, hsl₁⟩ := hres₁.node hs.reopened hn
  have hset₂ := hready₁.reopened.updateNode hn₁ h₂
  have hs₂ := hset₂.edits.reopened hready₁.reopened
  have hset₃ := hset₂.trans (hs₂.updateNode (hset₂.pageAt hready₁.reopened) h₃)
  have hs₃ := hset₃.edits.reopened hready₁.reopened
  have hset₄ := hset₃.trans (hs₃.updateNode (hset₃.pageAt hready₁.reopened) h₄)
  rw [K.put_put, K.put_put] at hset₄
  simp only [K.current_put, K.snapshot_put, setMaddr_self] at hset₄
  have hstart := hres₁.edits.startAddr
  have ha : s.startAddr + (K.snapshot n i).laddr = s₁.startAddr + (K.snapshot n₁ i).laddr := by
    rw [hstart, hsl₁.snapshot_laddr i]
  have hslots := slotsRestored_home ha ((hsl₁.live i).mpr hlive)
  obtain ⟨hres₂, hready₂, hinv₂⟩ := hI.store hready₁ (hl.at hres₁.edits) hinv₁ hset₄ hslots
  refine ⟨hres₁.trans hres₂, hready₂, ⟨_, hset₄.pageAt hready₁.reopened, ?_⟩, ?_, ?_⟩
  · rw [K.current_put, K.snapshot_put, current_home ha, snapshot_home ha, hstart]
    exact ⟨fun h => h Iff.rfl, fun _ => ⟨rfl, rfl⟩⟩
  · rw [hcalls]
    intro x hx
    obtain rfl := List.mem_singleton.mp hx
    exact C.done_restores hready₁.reopened hres₂ hdone₁
  · rw [hcalls, List.flatMap_singleton]
    exact hinv₂

/-- A slot that is in use, when its last checkpoint was cut short. -/
theorem Maps.slotIncomplete {C : Level .incomplete N} (hI : IndexInv .incomplete sd N v Inv)
    (hc : Maps sd v Inv C c) (hs : s.Ready sd N v) (hl : s.OffsetIn N l)
    (hn : s.pageAt (s.startAddr + l) = some (K.page n))
    (hlive : SlotLive (K.current n i) (K.snapshot n i))
    (hpre : C.Pre s (K.current n i).laddr ∧ C.Pre s (K.snapshot n i).laddr)
    (hinv : Inv done s) {u : Unit}
    (hr : Returns (do
      let x ← c (K.current n i).laddr true
      updatePage (s.startAddr + l) (K.on fun n => K.put n (setMaddr (K.current n) i x) (K.snapshot n))
      let n ← K.load (s.startAddr + l)
      let y ← c (K.snapshot n i).laddr false
      updatePage (s.startAddr + l) (K.on fun n =>
        K.put n (K.current n) (setMaddr (K.snapshot n) i y))) s u s') :
    SlotMapped sd v Inv C K l i n done s s' := by
  have hcalls : slotCalls .incomplete (K.current n i) (K.snapshot n i) =
      [((K.current n i).laddr, true), ((K.snapshot n i).laddr, false)] := if_pos hlive
  simp only [returns_bind, K.returns_load] at hr
  obtain ⟨x, s₁, h₁, _, s₂, h₂, m, _, ⟨hm, rfl⟩, y, s₃, h₃, h₄⟩ := hr
  -- the current half
  obtain ⟨rfl, hres₁, hready₁, hdone₁, hinv₁⟩ := hc hs hpre.1 hinv h₁
  obtain ⟨n₁, hn₁, -, hsl₁⟩ := hres₁.node hs.reopened hn
  have hstart₁ := hres₁.edits.startAddr
  have hlive₁ := (hsl₁.live i).mpr hlive
  have hset₂ := hready₁.reopened.updateNode hn₁ h₂
  have hhome₁ : setMaddr (K.current n₁) i (s.startAddr + (K.current n i).laddr) i =
      homeSlot s.startAddr (K.current n₁ i).laddr := by
    rw [setMaddr_self, show (K.current n₁ i).laddr = (K.current n i).laddr from hsl₁.homeLaddr i]
    rfl
  have hslots₁ : SlotsRestored .incomplete s₁.startAddr (K.current n₁) (K.snapshot n₁)
      (setMaddr (K.current n₁) i (s.startAddr + (K.current n i).laddr)) (K.snapshot n₁) := by
    rw [hstart₁]
    exact .of_slot (fun j hj => setMaddr_of_ne hj) (fun _ _ => rfl) (.inr ⟨hlive₁, hhome₁⟩) (.inl rfl)
  obtain ⟨hres₂, hready₂, hinv₂⟩ :=
    hI.store hready₁ (hl.at hres₁.edits) hinv₁ hset₂ hslots₁
  obtain rfl := K.page_inj (Option.some.inj (hm.symm.trans (hset₂.pageAt hready₁.reopened)))
  have hres₁₂ := hres₁.trans hres₂
  rw [K.snapshot_put, hsl₁.snapshot_laddr i] at h₃
  -- the snapshot half
  obtain ⟨rfl, hres₃, hready₃, hdone₃, hinv₃⟩ :=
    hc hready₂ (C.pre_restores hs.reopened hres₁₂ hpre.2) hinv₂ h₃
  obtain ⟨n₃, hn₃, -, hsl₃⟩ := hres₃.node hready₂.reopened hm
  rw [K.current_put, K.snapshot_put] at hsl₃
  have hstart₂ := hres₁₂.edits.startAddr
  have hstart₃ := hres₃.edits.startAddr
  have hlive₃ := (hsl₃.live i).mpr ((hslots₁.live i).mpr hlive₁)
  have hset₄ := hready₃.reopened.updateNode hn₃ h₄
  have hcur₃ : K.current n₃ i = homeSlot s.startAddr (K.current n₃ i).laddr := by
    rcases (hsl₃ i).1 with h | ⟨-, h⟩
    · rw [h, hhome₁]
      rfl
    · rw [hstart₂] at h
      rw [h]
      rfl
  have hhome₃ : setMaddr (K.snapshot n₃) i (s₂.startAddr + (K.snapshot n i).laddr) i =
      homeSlot s.startAddr (K.snapshot n₃ i).laddr := by
    rw [setMaddr_self, hsl₃.snapshot_laddr i, hsl₁.snapshot_laddr i, hstart₂]
    rfl
  have hslots₃ : SlotsRestored .incomplete s₃.startAddr (K.current n₃) (K.snapshot n₃) (K.current n₃)
      (setMaddr (K.snapshot n₃) i (s₂.startAddr + (K.snapshot n i).laddr)) := by
    rw [hstart₂] at hhome₃
    rw [hstart₃, hstart₂]
    exact .of_slot (fun _ _ => rfl) (fun j hj => setMaddr_of_ne hj) (.inl rfl) (.inr ⟨hlive₃, hhome₃⟩)
  obtain ⟨hres₄, hready₄, hinv₄⟩ := hI.store hready₃ (hl.at (hres₁₂.trans hres₃).edits) hinv₃
    hset₄ hslots₃
  refine ⟨hres₁₂.trans (hres₃.trans hres₄), hready₄, ⟨_, hset₄.pageAt hready₃.reopened, ?_⟩, ?_, ?_⟩
  · rw [K.current_put, K.snapshot_put, hhome₃]
    refine ⟨fun h => h ⟨fun h0 => (hlive₃.1 h0).elim, fun h0 => (hlive₃.2 h0).elim⟩, fun _ =>
      ⟨hcur₃, rfl⟩⟩
  · rw [hcalls]
    intro x hx
    rcases List.mem_pair.mp hx with rfl | rfl
    · exact C.done_restores hready₁.reopened (hres₂.trans (hres₃.trans hres₄)) hdone₁
    · exact C.done_restores hready₃.reopened hres₄ hdone₃
  · rw [hcalls, List.flatMap_cons, List.flatMap_singleton, ← List.append_assoc,
      ← C.below_restores (b := false) hs.reopened hres₁₂]
    exact hinv₄

theorem Maps.slot (hI : IndexInv type sd N v Inv) (hc : Maps sd v Inv C c) (hs : s.Ready sd N v)
    (hl : s.OffsetIn N l) (hn : s.pageAt (s.startAddr + l) = some (K.page n))
    (hpre : ∀ x ∈ slotCalls type (K.current n i) (K.snapshot n i), C.Pre s x.1) (hinv : Inv done s)
    {u : Unit} (hr : Returns (mapSlot K msg type c (s.startAddr + l) i) s u s') :
    SlotMapped sd v Inv C K l i n done s s' := by
  unfold mapSlot at hr
  rw [returns_bind] at hr
  obtain ⟨m, _, hload, hr⟩ := hr
  obtain ⟨hm, rfl⟩ := K.returns_load.mp hload
  obtain rfl := K.page_inj (Option.some.inj (hm.symm.trans hn))
  rw [returns_bind] at hr
  obtain ⟨_, _, hreq, hr⟩ := hr
  obtain ⟨hcons, rfl⟩ := returns_require.mp hreq
  have hiff : (K.current m i).laddr = 0 ↔ (K.snapshot m i).laddr = 0 := not_not.mp hcons
  rcases returns_when.mp hr with ⟨h0, hr⟩ | ⟨h0, rfl⟩
  · have hlive : SlotLive (K.current m i) (K.snapshot m i) := ⟨h0, fun h => h0 (hiff.mpr h)⟩
    cases type with
    | complete =>
      refine Maps.slotComplete hI hc hs hl hm hlive (hpre ((K.snapshot m i).laddr, true) ?_) hinv hr
      unfold slotCalls
      rw [if_pos hlive]
      exact List.mem_singleton_self _
    | incomplete =>
      refine Maps.slotIncomplete hI hc hs hl hm hlive ⟨hpre ((K.current m i).laddr, true) ?_,
        hpre ((K.snapshot m i).laddr, false) ?_⟩ hinv hr
      · unfold slotCalls
        rw [if_pos hlive]
        exact List.mem_cons_self
      · unfold slotCalls
        rw [if_pos hlive]
        exact List.mem_cons_of_mem _ (List.mem_singleton_self _)
    | _ => exact (returns_fail hr).elim
  · have hcalls : slotCalls type (K.current m i) (K.snapshot m i) = [] :=
      if_neg fun hlive => h0 hlive.1
    refine ⟨.refl s, hs, ⟨m, hm, hcons, fun h => (h0 h).elim⟩, ?_, ?_⟩
    · rw [hcalls]
      exact fun x hx => (List.not_mem_nil hx).elim
    · rw [hcalls, List.flatMap_nil, List.append_nil]
      exact hinv

/-- **Mapping the slots of a node.** -/
theorem Maps.slots {bound : ℕ} (hI : IndexInv type sd N v Inv) (hc : Maps sd v Inv C c)
    (hs : s.Ready sd N v) (hl : (Level.node K C).Pre s l) (hinv : Inv done s)
    (hr : Returns (forSlots bound (K.index <$> K.load (s.startAddr + l))
      (mapSlot K msg type c (s.startAddr + l))) s () s') :
    Pm.Restores type N s s' ∧ s'.Ready sd N v ∧ (Level.node K C).Done s' l ∧
      Inv (done ++ (Level.node K C).below s l true) s' := by
  -- the first test reads the node
  obtain ⟨n, hn⟩ : ∃ n, s.pageAt (s.startAddr + l) = some (K.page n) := by
    have h := hr
    unfold forSlots at h
    rw [upTo, returns_bind] at h
    obtain ⟨k, t, hk, -⟩ := h
    obtain ⟨n, hload, -⟩ := returns_map.mp hk
    exact ⟨n, (K.returns_load.mp hload).1⟩
  have hcalls : K.calls type s l = _ := NodeKind.calls_eq hn
  have hrun := Returns.forSlots_induct (n := K.index n) (s := s) (Q := fun i t =>
    Pm.Restores type N s t ∧ t.Ready sd N v ∧
      (∃ m, t.pageAt (s.startAddr + l) = some (K.page m) ∧ K.index m = K.index n ∧ ∀ j < i,
        SlotHome type s.startAddr (K.current m j) (K.snapshot m j) ∧
          ∀ x ∈ slotCalls type (K.current m j) (K.snapshot m j), C.Done t x.1) ∧
      Inv (done ++ ((List.range i).flatMap fun j => slotCalls type (K.current n j)
        (K.snapshot n j)).flatMap fun x => C.below s x.1 x.2) t)
    (fun i t k t' hQ hk => ?_)
    ⟨.refl s, hs, ⟨n, hn, rfl, fun _ hj => (Nat.not_lt_zero _ hj).elim⟩, by simpa using hinv⟩
    (fun i hi _ t t' hQ hround => ?_) hr
  · obtain ⟨⟨hres, hready, ⟨m, hm, hidx, hall⟩, hinv'⟩, -⟩ := hrun
    refine ⟨hres, hready, ⟨m, ?_, ?_⟩, ?_⟩
    · rw [hres.edits.startAddr]
      exact hm
    · rw [hres.edits.startAddr, hidx]
      exact hall
    · show Inv (done ++ (K.calls type s l).flatMap _) s'
      rw [hcalls]
      exact hinv'
  · obtain ⟨-, -, ⟨m, hm, hidx, -⟩, -⟩ := hQ
    obtain ⟨m', hload, rfl⟩ := returns_map.mp hk
    obtain ⟨hm', rfl⟩ := K.returns_load.mp hload
    obtain rfl := K.page_inj (Option.some.inj (hm.symm.trans hm'))
    exact ⟨hidx, rfl⟩
  · obtain ⟨hres, hready, ⟨m, hm, hidx, hall⟩, hinv'⟩ := hQ
    have hstart := hres.edits.startAddr
    obtain ⟨m', hm', -, hsl⟩ := hres.node hs.reopened hn
    obtain rfl := K.page_inj (Option.some.inj (hm.symm.trans hm'))
    have hmem : ∀ x ∈ slotCalls type (K.current m i) (K.snapshot m i), x ∈ K.calls type s l := by
      intro x hx
      rw [hsl.slotCalls i] at hx
      rw [hcalls]
      exact List.mem_flatMap.mpr ⟨i, List.mem_range.mpr hi, hx⟩
    have hslot := Maps.slot hI hc hready (hl.1.edits hres.edits) (hstart.symm ▸ hm)
      (fun x hx => C.pre_restores hs.reopened hres (hl.2 x (hmem x hx))) hinv' (hstart.symm ▸ hround)
    obtain ⟨hres', hready', ⟨m₂, hm₂, hhome⟩, hbelow, hinv₂⟩ := hslot
    obtain ⟨m₃, hm₃, hidx₃, hsl₃⟩ := hres'.node hready.reopened hm
    rw [hstart] at hm₂ hhome hsl₃
    obtain rfl := K.page_inj (Option.some.inj (hm₂.symm.trans hm₃))
    refine ⟨hres.trans hres', hready', ⟨m₂, hm₂, hidx₃.trans hidx, fun j hj => ?_⟩, ?_⟩
    · rw [hsl₃.slotCalls j]
      rcases Nat.lt_succ_iff_lt_or_eq.mp hj with hj | rfl
      · obtain ⟨hh, hd⟩ := hall j hj
        exact ⟨hsl₃.slotHome hh, fun x hx => C.done_restores hready.reopened hres' (hd x hx)⟩
      · exact ⟨hhome, hbelow⟩
    · rw [List.range_succ, List.flatMap_append, List.flatMap_append, List.flatMap_singleton,
        ← List.append_assoc, ← hsl.slotCalls i]
      have heq : (slotCalls type (K.current m i) (K.snapshot m i)).flatMap (fun x =>
          C.below t x.1 x.2) = (slotCalls type (K.current m i) (K.snapshot m i)).flatMap fun x =>
          C.below s x.1 x.2 := List.flatMap_congr fun x _ => C.below_restores hs.reopened hres
      rw [← heq]
      exact hinv₂

/-- **Mapping a node.** -/
theorem Maps.node {bound : ℕ} (hI : IndexInv type sd N v Inv) (hc : Maps sd v Inv C c) :
    Maps sd v Inv (Level.node K C) fun l _ => nodeMap K bound msg type c l := by
  intro l b s a s' done hs hl hinv hr
  unfold nodeMap at hr
  simp only [returns_bind, returns_mappage, returns_pure] at hr
  obtain ⟨_, _, ⟨rfl, rfl⟩, _, _, hloop, rfl, rfl⟩ := hr
  exact ⟨rfl, Maps.slots hI hc hs hl hinv hloop⟩

end

/-! ## The tree -/

/-- The levels below the directory. -/
def Level.inner (type : CpointType) (N : Set ℕ) : Level type N := .node innerKind (.bucket type N)

def Level.outer (type : CpointType) (N : Set ℕ) : Level type N := .node outerKind (.inner type N)

def Level.dir (type : CpointType) (N : Set ℕ) : Level type N := .node dirKind (.outer type N)

theorem maps_slabInnerMap (hI : IndexInv type sd N v Inv) :
    Maps sd v Inv (.inner type N) fun l _ => slabInnerMap sd l type := by
  simp only [slabInnerMap_eq]
  exact Maps.node hI (Maps.bucket hI)

theorem maps_slabOuterMap (hI : IndexInv type sd N v Inv) :
    Maps sd v Inv (.outer type N) fun l _ => slabOuterMap sd l type := by
  simp only [slabOuterMap_eq]
  exact Maps.node hI (maps_slabInnerMap hI)

/-- What `slab_map` does first: the indexes of the directory at `sd` are empty. -/
structure Pm.Cleared (sd : ℕ) (s s' : Pm) : Prop where
  relinks : s.Relinks s'
  frame : ∀ q, s.vpage sd ≠ some q → s'.file q = s.file q
  dir : ∃ q d, s.vpage sd = some q ∧ s.file q = .dir d ∧
    s'.file q = .dir { d with sdMaddrRoot := [], sdFreeList := Stailq.init }
  sizes : s'.sizes = []

theorem Pm.Reopened.clearIndexes (h : s.Reopened) {u : Unit}
    (hr : Returns (LibPM.clearIndexes sd) s u s') : Pm.Cleared sd s s' := by
  unfold LibPM.clearIndexes at hr
  simp only [returns_bind, returns_modify] at hr
  obtain ⟨_, s₁, h₁, _, _, rfl, _, s₂, h₂, h₃⟩ := hr
  obtain ⟨q, p, hq, -, hp, rfl⟩ := h.updatePage h₁
  have hs₁ : Pm.Reopened { s.setPage q p with sizes := [] } := ⟨h.vmap, h.start, h.aligned, h.stores⟩
  obtain ⟨q₂, p₂, hq₂, -, hp₂, rfl⟩ := hs₁.updatePage h₂
  obtain rfl := Option.some.inj (hq.symm.trans hq₂)
  have hs₂ := (Pm.Edits.setPage _ q p₂).reopened hs₁
  obtain ⟨q₃, p₃, hq₃, -, hp₃, rfl⟩ := hs₂.updatePage h₃
  obtain rfl := Option.some.inj (hq.symm.trans hq₃)
  unfold Pm.setPage at hp₂ hp₃ ⊢
  dsimp only at hp₂ hp₃ ⊢
  rw [Function.update_self] at hp₂ hp₃
  rw [Function.update_idem, Function.update_idem]
  cases hf : s.file q with
  | dir d =>
    rw [hf] at hp
    cases hp
    cases hp₂
    cases hp₃
    refine ⟨⟨⟨_, _, rfl⟩, fun i => ?_⟩, fun i hi => ?_, ⟨q, d, hq, hf, Function.update_self ..⟩, rfl⟩
    · dsimp only
      by_cases hi : i = q
      · rw [hi, Function.update_self, hf]
        rfl
      · rw [Function.update_of_ne hi]
        exact .refl _
    · exact Function.update_of_ne (fun he : i = q => hi (he ▸ hq)) ..
  | _ => rw [hf] at hp; cases hp

/-- The directory is ready to be mapped. -/
theorem Pm.Cleared.ready (h : Pm.Cleared sd s s') (hs : s.Reopened) (hN : EntryRef.In ⟨sd, 0⟩ N s.vpage) :
    s'.Ready sd N s.vpage := by
  have hvp : s'.vpage = s.vpage := funext h.relinks.1.vpage
  have hs' := h.relinks.1.reopened hs
  refine ⟨hs', hvp, ⟨fun q hq => hN q (hvp ▸ hq), fun d r hd hr q hq => ?_, fun es hes => ?_⟩⟩
  · obtain ⟨q', d', hq', -, hd'⟩ := h.dir
    obtain ⟨-, i, hi, hpage⟩ := pageAt_eq_some.mp (readDir_eq_some.mp hd)
    rw [hvp] at hi
    obtain rfl := Option.some.inj (hq'.symm.trans hi)
    rw [hs'.vmap, id, hd'] at hpage
    obtain rfl := Page.dir.inj hpage
    cases hr
  · rw [h.sizes] at hes
    exact (List.not_mem_nil hes).elim

theorem Pm.Cleared.restores (h : Pm.Cleared sd s s') (hN : EntryRef.In ⟨sd, 0⟩ N s.vpage) :
    Pm.Restores type N s s' :=
  ⟨h.relinks.1, fun q => (h.relinks.2 q).restored, fun q hq => h.frame q fun hv => hq (hN q hv)⟩

/-- **Mapping the tree.** -/
theorem Pm.Reopened.slabMap (h : s.Reopened) {laddr a : ℕ} {Inv : List EntryRef → Pm → Prop}
    (hI : IndexInv type (s.startAddr + laddr) N s.vpage Inv)
    (h0 : ∀ t, Pm.Cleared (s.startAddr + laddr) s t → Inv [] t)
    (hl : (Level.dir type N).Pre s laddr) (hr : Returns (LibPM.slabMap laddr type) s a s') :
    a = s.startAddr + laddr ∧ Pm.Restores type N s s' ∧ s'.Ready a N s.vpage ∧
      (Level.dir type N).Done s' laddr ∧ Inv ((Level.dir type N).below s laddr true) s' := by
  rw [slabMap_eq] at hr
  simp only [returns_bind, returns_mappage, returns_pure] at hr
  obtain ⟨_, _, ⟨rfl, rfl⟩, _, t, hclear, _, _, hloop, rfl, rfl⟩ := hr
  have hc := h.clearIndexes hclear
  have hres : Pm.Restores type N s t := hc.restores hl.1
  have hready := hc.ready h hl.1
  rw [← hres.edits.startAddr] at hloop
  obtain ⟨hres', hready', hdone, hinv⟩ := Maps.slots (hres.edits.startAddr.symm ▸ hI)
    (maps_slabOuterMap (hres.edits.startAddr.symm ▸ hI)) (hres.edits.startAddr.symm ▸ hready)
    ((Level.dir type N).pre_restores h hres hl) (h0 t hc) hloop
  refine ⟨rfl, hres.trans hres', hres.edits.startAddr ▸ hready', hdone, ?_⟩
  rw [← (Level.dir type N).below_restores h hres]
  exact hinv

end

end LibPM

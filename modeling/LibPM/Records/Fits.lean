import LibPM.Records.Overrun
import LibPM.Allocator.Runs

/-!
# Every entry's records fit its pointer page

`Pm.RecordsFit` says so of every bucket in the file, in both versions of each entry. No operation of
the library breaks it: an index grows only by a record that had room. The lemmas follow the modules of
the model, one for each function that stores.
-/

namespace LibPM

open Recorded Recorded.Prog

variable {s s' : Pm}

/-- The records of both versions of the entry lie in one page. -/
def SlabEntry.RecordsFit (e : SlabEntry) : Prop :=
  sizeofSlabPtrRec * e.ptrCurrent.idx ≤ pageSize ∧ sizeofSlabPtrRec * e.ptrSnapshot.idx ≤ pageSize

def Page.RecordsFit : Page → Prop
  | .bucket b => ∀ i, (b.sbEntries i).RecordsFit
  | _ => True

def Pm.RecordsFit (s : Pm) : Prop := ∀ i, (s.file i).RecordsFit

def Pm.StaysFit (s s' : Pm) : Prop := s.RecordsFit → s'.RecordsFit

instance : IsTrans Pm Pm.StaysFit := ⟨fun _ _ _ h h' hs => h' (h hs)⟩

instance : Std.Refl Pm.StaysFit := ⟨fun _ h => h⟩

theorem Page.recordsFit_zero : (Page.bucket (bucketOfBytes fun _ => 0)).RecordsFit := by
  intro i
  show (entryOfBytes (fun _ => 0) (8 + sizeofSlabEntry * i)).RecordsFit
  rw [entryOfBytes_zero]
  exact ⟨Nat.zero_le _, Nat.zero_le _⟩

theorem Pm.RecordsFit.setPage {p : Page} (h : s.RecordsFit) (i : ℕ) (hp : p.RecordsFit) :
    (s.setPage i p).RecordsFit := by
  intro j
  unfold Pm.setPage
  dsimp only
  by_cases hj : j = i
  · rw [hj, Function.update_self]
    exact hp
  · rw [Function.update_of_ne hj]
    exact h j

theorem Pm.RecordsFit.pageAt {a : ℕ} {p : Page} (h : s.RecordsFit) (hp : s.pageAt a = some p) :
    p.RecordsFit := by
  obtain ⟨-, i, -, rfl⟩ := pageAt_eq_some.mp hp
  exact h _

namespace StaysFit

/-! ## The mappers -/

theorem load {α : Type} {f : Pm → Option α} :
    Keeps Pm.StaysFit (do let s ← get; ofOption .sigsegv (f s) : PmProg α) :=
  keeps_get.bind fun _ => keeps_ofOption

/-- A change of the state that leaves the file. -/
theorem modify {f : Pm → Pm} (hf : ∀ s, (f s).file = s.file) :
    Keeps Pm.StaysFit (Prog.modify f : PmProg Unit) :=
  Keeps.modify fun s h i => by
    rw [hf]
    exact h i

theorem mprotect (a : ℕ) (flags : Prot) : Keeps Pm.StaysFit (pageAllocatorMprotect a flags) :=
  keeps_get.bind fun _ => keeps_ofOption.bind fun _ => modify (by exact fun _ => rfl)

theorem mmapAt (hint len : ℕ) : Keeps Pm.StaysFit (mmapAt hint len) :=
  keeps_require.bind fun _ => keeps_get.bind fun _ => keeps_require

theorem mapFile (fm : FixedMapper) (updateMappings : Bool) :
    Keeps Pm.StaysFit (mapFile fm updateMappings) :=
  keeps_get.bind fun _ => (Keeps.when (mmapAt _ _)).bind fun _ => keeps_require.bind fun _ =>
    (modify (by exact fun _ => rfl)).bind fun _ => (Keeps.when (Keeps.forM fun _ _ => keeps_ofOption.bind
      fun _ => (modify (by exact fun _ => rfl)))).bind fun _ => keeps_pure

theorem mapAppending (nlm : Nlm) : Keeps Pm.StaysFit (mapAppending nlm) :=
  keeps_require.bind fun _ => keeps_get.bind fun _ => (mmapAt _ _).bind fun _ =>
    (modify (by exact fun _ => rfl)).bind fun _ => keeps_ofResult.bind fun _ => keeps_pure

theorem getpage (flags : Prot) : Keeps Pm.StaysFit (pageAllocatorGetpage flags) := by
  refine keeps_get.bind fun s => ?_
  cases s.pa with
  | unset => exact keeps_fail
  | fixed fm =>
    have hgrow : ∀ size, Keeps Pm.StaysFit (fixedMapperGrowFile fm size) := fun size =>
      keeps_ofResult.bind fun _ => (modify (by exact fun _ => rfl)).bind fun _ => keeps_pure
    refine Keeps.bind (Keeps.ite ((hgrow _).bind fun fm => mapFile fm true) keeps_pure) fun fm =>
      keeps_ofResult.bind fun ⟨p, fm⟩ => ?_
    exact keeps_ofOption.bind fun _ => (modify (by exact fun _ => rfl)).bind fun _ =>
      (Keeps.when (modify (by exact fun _ => rfl))).bind fun _ => keeps_pure
  | nonlinear nlm =>
    have hgrow : Keeps Pm.StaysFit (nlmGrowFile nlm (nlm.fileSize * 2)) :=
      keeps_require.bind fun _ => (modify (by exact fun _ => rfl)).bind fun _ => keeps_pure
    refine Keeps.bind (Keeps.ite (hgrow.bind mapAppending) keeps_pure) fun nlm =>
      keeps_ofResult.bind fun ⟨p, nlm⟩ => ?_
    exact (modify (by exact fun _ => rfl)).bind fun _ => (Keeps.when (mprotect _ _)).bind fun _ => keeps_pure

theorem freepages (a : ℕ) : Keeps Pm.StaysFit (pageAllocatorFreepages a) := by
  refine keeps_get.bind fun s => ?_
  cases s.pa with
  | unset => exact keeps_fail
  | fixed fm =>
    exact keeps_require.bind fun _ => keeps_require.bind fun _ => keeps_ofOption.bind fun _ =>
      keeps_ofResult.bind fun _ => modify (by exact fun _ => rfl)
  | nonlinear nlm =>
    exact keeps_ofOption.bind fun _ => keeps_ofResult.bind fun _ => modify (by exact fun _ => rfl)

theorem swapMappings (xaddr ypgoff yaddr xpgoff : ℕ) :
    Keeps Pm.StaysFit (pageAllocatorSwapMappings xaddr ypgoff yaddr xpgoff) := by
  have hremap : ∀ a pgoff, Keeps Pm.StaysFit (remapFilePages a pgoff) := fun _ _ =>
    keeps_get.bind fun _ => keeps_ofOption.bind fun _ => modify (by exact fun _ => rfl)
  refine keeps_get.bind fun s => ?_
  cases s.pa with
  | unset => exact keeps_fail
  | fixed fm => exact keeps_fail
  | nonlinear nlm =>
    exact (hremap _ _).bind fun _ => (hremap _ _).bind fun _ => modify (by exact fun _ => rfl)

/-! ## Stores and snapshots -/

theorem putPage (a : ℕ) {g : Page → Option Page}
    (hg : ∀ p p', g p = some p' → p.RecordsFit → p'.RecordsFit) :
    Keeps Pm.StaysFit (putPage a g) := by
  intro s _ s' hr hs
  obtain ⟨i, p, -, -, hp, rfl⟩ := returns_putPage.mp hr
  exact hs.setPage _ (hg _ _ hp (hs _))

theorem copyPage (dst src : ℕ) : Keeps Pm.StaysFit (copyPage dst src) := by
  intro s _ s' hr hs
  unfold LibPM.copyPage at hr
  simp only [returns_bind, returns_get, returns_ofOption] at hr
  obtain ⟨_, _, ⟨rfl, rfl⟩, p, _, ⟨hp, rfl⟩, hr⟩ := hr
  exact putPage dst (fun _ _ h _ => Option.some.inj h ▸ hs.pageAt hp) hr hs

theorem pmemcpyPages (dst src n : ℕ) : Keeps Pm.StaysFit (pmemcpyPages dst src n) :=
  Keeps.forM fun _ _ => copyPage _ _

theorem onDir {f : SlabDir → SlabDir} (p p' : Page) (h : Page.onDir f p = some p')
    (_ : p.RecordsFit) : p'.RecordsFit := by
  cases p <;> cases h
  trivial

theorem onContainer {f : Container → Container} (p p' : Page) (h : Page.onContainer f p = some p')
    (_ : p.RecordsFit) : p'.RecordsFit := by
  cases p <;> cases h
  trivial

theorem onOuter {f : SlabOuter → SlabOuter} (p p' : Page) (h : Page.onOuter f p = some p')
    (_ : p.RecordsFit) : p'.RecordsFit := by
  cases p <;> cases h
  trivial

theorem onInner {f : SlabInner → SlabInner} (p p' : Page) (h : Page.onInner f p = some p')
    (_ : p.RecordsFit) : p'.RecordsFit := by
  cases p <;> cases h
  trivial

theorem onPtrRec {m : ℕ} {f : SlabPtrRec → SlabPtrRec} (p p' : Page)
    (h : Page.onPtrRec m f p = some p') (_ : p.RecordsFit) : p'.RecordsFit := by
  cases p <;> cases h
  trivial

theorem onByte {off : ℕ} {v : UInt8} (p p' : Page) (h : Page.onByte off v p = some p')
    (_ : p.RecordsFit) : p'.RecordsFit := by
  cases p <;> cases h
  trivial

theorem onBucket {f : SlabBucket → SlabBucket}
    (hf : ∀ b, (f b).sbEntries = b.sbEntries) (p p' : Page)
    (h : Page.onBucket f p = some p') (hp : p.RecordsFit) : p'.RecordsFit := by
  cases p with
  | bucket b =>
    cases h
    intro i
    rw [hf]
    exact hp i
  | _ => cases h

theorem onEntry {i : ℕ} {f : SlabEntry → SlabEntry} (hf : ∀ e, e.RecordsFit → (f e).RecordsFit)
    (p p' : Page) (h : Page.onEntry i f p = some p') (hp : p.RecordsFit) : p'.RecordsFit := by
  cases p with
  | bucket b =>
    unfold Page.onEntry at h
    split_ifs at h
    cases h
    intro j
    dsimp only
    by_cases hj : j = i
    · rw [hj, Function.update_self]
      exact hf _ (hp i)
    · rw [Function.update_of_ne hj]
      exact hp j
  | _ => cases h

theorem putEntry (se : EntryRef) {f : SlabEntry → SlabEntry}
    (hf : ∀ e, e.RecordsFit → (f e).RecordsFit) :
    Keeps Pm.StaysFit (putEntry se f) :=
  putPage _ (onEntry hf)

theorem currentSlabMaddr : Keeps Pm.StaysFit currentSlabMaddr :=
  load.bind fun _ => load.bind fun _ => keeps_pure

theorem usedFind (sd : ℕ) (p : SlabEntry → Bool) : Keeps Pm.StaysFit (usedFind sd p) :=
  load.bind fun _ => load

theorem appendDirty (sd : ℕ) (se : EntryRef) : Keeps Pm.StaysFit (appendDirty sd se) :=
  load.bind fun _ => keeps_get.bind fun _ => keeps_require.bind fun _ => putPage _ onDir

theorem slabEntrySnapshot (se : EntryRef) : Keeps Pm.StaysFit (slabEntrySnapshot se) := by
  refine (getpage _).bind fun ⟨dataMaddr, dataLaddr⟩ => ?_
  refine load.bind fun _ => (pmemcpyPages _ _ _).bind fun _ => currentSlabMaddr.bind fun _ =>
    (appendDirty _ _).bind fun _ => load.bind fun _ => (Keeps.when ?_).bind fun _ =>
      (putEntry se (by exact fun _ h => h)).bind fun _ => putEntry se (by exact fun _ h => h)
  refine (getpage _).bind fun ⟨ptrMaddr, ptrLaddr⟩ => ?_
  exact load.bind fun _ => (pmemcpyPages _ _ _).bind fun _ => (putEntry se (by exact fun _ h => ⟨h.2, h.2⟩)).bind
    fun _ => putEntry se (by exact fun _ h => h)

theorem slabEntryCopynswap (se : EntryRef) : Keeps Pm.StaysFit (slabEntryCopynswap se) := by
  refine (getpage _).bind fun ⟨dataMaddr, dataLaddr⟩ => ?_
  exact load.bind fun _ => (pmemcpyPages _ _ _).bind fun _ => (putEntry se (by exact fun _ h => h)).bind fun _ =>
    (putEntry se (by exact fun _ h => h)).bind fun _ => load.bind fun _ => (swapMappings _ _ _ _).bind fun _ =>
      currentSlabMaddr.bind fun _ => (appendDirty _ _).bind fun _ => load.bind fun _ => keeps_require

theorem handleMemoryUpdate (a : ℕ) : Keeps Pm.StaysFit (handleMemoryUpdate a) := by
  refine currentSlabMaddr.bind fun _ => (usedFind _ _).bind fun o => ?_
  cases o with
  | none => exact keeps_fail
  | some se =>
    refine Keeps.bind (keeps_get.bind fun s => ?_) fun _ => load.bind fun _ => mprotect _ _
    cases s.pa with
    | nonlinear nlm => exact slabEntryCopynswap se
    | _ => exact slabEntrySnapshot se

theorem updatePage (a : ℕ) {g : Page → Option Page}
    (hg : ∀ p p', g p = some p' → p.RecordsFit → p'.RecordsFit) : Keeps Pm.StaysFit (updatePage a g) :=
  (keeps_get.bind fun _ => keeps_ofOption.bind fun _ => Keeps.when (handleMemoryUpdate a)).bind
    fun _ => putPage a hg

theorem updateEntry (se : EntryRef) {f : SlabEntry → SlabEntry}
    (hf : ∀ e, e.RecordsFit → (f e).RecordsFit) : Keeps Pm.StaysFit (updateEntry se f) :=
  updatePage _ (onEntry hf)

/-- A store to an entry that leaves its records. -/
theorem updateOther (se : EntryRef) {f : SlabEntry → SlabEntry}
    (hf : ∀ e, (f e).ptrCurrent.idx = e.ptrCurrent.idx ∧
      (f e).ptrSnapshot.idx = e.ptrSnapshot.idx) :
    Keeps Pm.StaysFit (LibPM.updateEntry se f) := by
  refine updateEntry se fun e h => ?_
  unfold SlabEntry.RecordsFit
  rw [(hf e).1, (hf e).2]
  exact h

theorem storeByte (a : ℕ) (v : UInt8) : Keeps Pm.StaysFit (storeByte a v) := updatePage _ onByte

theorem retypePage (a : ℕ) {g : (ℕ → UInt8) → Page} (hg : ∀ b, (g b).RecordsFit) :
    Keeps Pm.StaysFit (retypePage a g) :=
  keeps_get.bind fun _ => keeps_ofOption.bind fun _ => Keeps.modify fun _ h => h.setPage _ (hg _)

theorem nodeSnapshot (node : ℕ) {setLaddr : ℕ → PmProg Unit}
    (hset : ∀ l, Keeps Pm.StaysFit (setLaddr l)) : Keeps Pm.StaysFit (nodeSnapshot node setLaddr) := by
  refine (getpage _).bind fun ⟨copy, snapshotLaddr⟩ => ?_
  exact (copyPage _ _).bind fun _ => (hset _).bind fun _ => keeps_pure

theorem bucketInner (sb : ℕ) : Keeps Pm.StaysFit (bucketInner sb) :=
  load.bind fun _ => (currentSlabMaddr.bind fun _ => load).bind fun _ => load.bind fun _ =>
    keeps_require.bind fun _ => keeps_pure

theorem funcSlabBucketSnapshot (sb : ℕ) : Keeps Pm.StaysFit (funcSlabBucketSnapshot sb) := by
  have hsnapshot : Keeps Pm.StaysFit (slabBucketSnapshot sb) := by
    refine (bucketInner sb).bind fun ⟨si, siId⟩ => load.bind fun _ => Keeps.ite ?_ keeps_pure
    refine (getpage _).bind fun ⟨sbs, snapshotLaddr⟩ => ?_
    exact (copyPage _ _).bind fun _ => (updatePage _ onInner).bind fun _ =>
      (updatePage _ onInner).bind fun _ => keeps_pure
  have hcopynswap : Keeps Pm.StaysFit (slabBucketCopynswap sb) := by
    refine (bucketInner sb).bind fun ⟨si, siId⟩ => load.bind fun _ => Keeps.ite ?_ keeps_pure
    refine (getpage _).bind fun ⟨sbs, snapshotLaddr⟩ => ?_
    exact (copyPage _ _).bind fun _ => load.bind fun _ => (swapMappings _ _ _ _).bind fun _ =>
      (updatePage _ onInner).bind fun _ => (updatePage _ onInner).bind fun _ => keeps_pure
  refine keeps_get.bind fun s => ?_
  cases s.pa with
  | nonlinear nlm => exact hcopynswap
  | _ => exact hsnapshot

/-! ## The slab tree -/

/-- The stores to the head of a queue. -/
structure Queue (q : StailqAt) : Prop where
  head : Keeps Pm.StaysFit q.head
  setFirst : ∀ x, Keeps Pm.StaysFit (q.setFirst x)
  setLast : ∀ x, Keeps Pm.StaysFit (q.setLast x)

theorem sdFreeListAt (sd : ℕ) : Queue (sdFreeListAt sd) where
  head := load.bind fun _ => keeps_pure
  setFirst _ := updatePage _ onDir
  setLast _ := updatePage _ onDir

theorem esListAt (size : ℕ) : Queue (esListAt size) where
  head := keeps_get.bind fun _ => keeps_ofOption.bind fun _ => keeps_pure
  setFirst _ := modify (by exact fun _ => rfl)
  setLast _ := modify (by exact fun _ => rfl)

theorem insertTail {q : StailqAt} (hq : Queue q) (r : EntryRef) :
    Keeps Pm.StaysFit (stailqInsertTail q r) := by
  refine (updateOther r (by exact fun _ => ⟨rfl, rfl⟩)).bind fun _ => hq.head.bind fun h => ?_
  cases h.last with
  | none => exact (hq.setFirst _).bind fun _ => hq.setLast _
  | some x => exact (updateOther x (by exact fun _ => ⟨rfl, rfl⟩)).bind fun _ => hq.setLast _

theorem insertHead {q : StailqAt} (hq : Queue q) (r : EntryRef) :
    Keeps Pm.StaysFit (stailqInsertHead q r) :=
  hq.head.bind fun _ => (updateOther r (by exact fun _ => ⟨rfl, rfl⟩)).bind fun _ =>
    (Keeps.when (hq.setLast _)).bind fun _ => hq.setFirst _

theorem removeHead {q : StailqAt} (hq : Queue q) : Keeps Pm.StaysFit (stailqRemoveHead q) :=
  hq.head.bind fun _ => keeps_ofOption.bind fun _ => load.bind fun _ => (hq.setFirst _).bind fun _ =>
    Keeps.when (hq.setLast _)

theorem slabEntryInit (se : EntryRef) (size : ℕ) : Keeps Pm.StaysFit (slabEntryInit se size) := by
  refine (getpage _).bind fun ⟨maddr, laddr⟩ => (retypePage _ (by exact fun _ => trivial)).bind fun _ => ?_
  refine (updateOther se (by exact fun _ => ⟨rfl, rfl⟩)).bind fun _ => ?_
  refine (updateOther se (by exact fun _ => ⟨rfl, rfl⟩)).bind fun _ => ?_
  refine (updateOther se (by exact fun _ => ⟨rfl, rfl⟩)).bind fun _ => ?_
  refine (updateOther se (by exact fun _ => ⟨rfl, rfl⟩)).bind fun _ => ?_
  refine (updateEntry se (by exact fun _ h => ⟨h.1, Nat.zero_le _⟩)).bind fun _ => ?_
  refine (updateEntry se (by exact fun _ h => ⟨Nat.zero_le _, h.2⟩)).bind fun _ => ?_
  refine (updateOther se (by exact fun _ => ⟨rfl, rfl⟩)).bind fun _ => ?_
  refine (updateOther se (by exact fun _ => ⟨rfl, rfl⟩)).bind fun _ => ?_
  refine (updateOther se (by exact fun _ => ⟨rfl, rfl⟩)).bind fun _ => ?_
  refine (updateOther se (by exact fun _ => ⟨rfl, rfl⟩)).bind fun _ => ?_
  refine (updateOther se (by exact fun _ => ⟨rfl, rfl⟩)).bind fun _ => ?_
  refine (keeps_get.bind fun _ => (modify (by exact fun _ => rfl)).bind fun _ => keeps_pure).bind fun _ => ?_
  exact updateOther se (by exact fun _ => ⟨rfl, rfl⟩)

theorem freeBucketEntries (sd sb : ℕ) : Keeps Pm.StaysFit (freeBucketEntries sd sb) :=
  Keeps.forM fun _ _ => insertTail (sdFreeListAt sd) _

theorem getNextBucketId : Keeps Pm.StaysFit getNextBucketId :=
  keeps_get.bind fun _ => (modify (by exact fun _ => rfl)).bind fun _ => keeps_pure

theorem slabBucketInit : Keeps Pm.StaysFit slabBucketInit := by
  refine currentSlabMaddr.bind fun _ => (getpage _).bind fun ⟨sb, laddr⟩ => ?_
  exact (updatePage _ (by exact fun _ _ h _ => Option.some.inj h ▸ Page.recordsFit_zero)).bind fun _ =>
    getNextBucketId.bind fun _ => (updatePage _ (onBucket (by exact fun _ => rfl))).bind fun _ =>
      (freeBucketEntries _ _).bind fun _ => keeps_pure

theorem installOuter (sd so laddr : ℕ) : Keeps Pm.StaysFit (installOuter sd so laddr) :=
  load.bind fun _ => keeps_require.bind fun _ => (updatePage _ onDir).bind fun _ =>
    (updatePage _ onDir).bind fun _ => (updatePage _ onDir).bind fun _ => (updatePage _ onDir).bind
      fun _ => updatePage _ onDir

theorem installInner (so si laddr : ℕ) : Keeps Pm.StaysFit (installInner so si laddr) :=
  load.bind fun _ => keeps_require.bind fun _ => (updatePage _ onOuter).bind fun _ =>
    (updatePage _ onOuter).bind fun _ => (updatePage _ onOuter).bind fun _ => (updatePage _ onOuter).bind
      fun _ => updatePage _ onOuter

theorem installBucket (si sb laddr : ℕ) : Keeps Pm.StaysFit (installBucket si sb laddr) :=
  load.bind fun _ => keeps_require.bind fun _ => (updatePage _ onInner).bind fun _ =>
    (updatePage _ onInner).bind fun _ => (updatePage _ onInner).bind fun _ => (updatePage _ onInner).bind
      fun _ => updatePage _ onInner

theorem clearIndexes (sd : ℕ) : Keeps Pm.StaysFit (clearIndexes sd) :=
  (updatePage _ onDir).bind fun _ => (modify (by exact fun _ => rfl)).bind fun _ => (updatePage _ onDir).bind
    fun _ => updatePage _ onDir

theorem slabOuterInit : Keeps Pm.StaysFit slabOuterInit :=
  (getpage _).bind fun ⟨_, _⟩ => (retypePage _ (by exact fun _ => trivial)).bind fun _ => keeps_pure

theorem slabInnerInit : Keeps Pm.StaysFit slabInnerInit :=
  (getpage _).bind fun ⟨_, _⟩ => (retypePage _ (by exact fun _ => trivial)).bind fun _ => keeps_pure

theorem usedInsert (sd : ℕ) (se : EntryRef) : Keeps Pm.StaysFit (usedInsert sd se) :=
  load.bind fun _ => (usedFind _ _).bind fun _ => Keeps.when (updatePage _ onDir)

theorem forSlots (bound : ℕ) {index : PmProg ℕ} {body : ℕ → PmProg Unit}
    (hi : Keeps Pm.StaysFit index) (hb : ∀ i, Keeps Pm.StaysFit (body i)) :
    Keeps Pm.StaysFit (forSlots bound index body) :=
  Keeps.upTo hi (fun i => keeps_require.bind fun _ => hb i) _ _

/-- The record that had room. -/
theorem appendPtrRec (se : EntryRef) (ploc seid off : ℕ) :
    Keeps Pm.StaysFit (appendPtrRec se ploc seid off) := by
  intro s u s' hr
  unfold LibPM.appendPtrRec at hr
  obtain ⟨e, _, hload, hr⟩ := returns_bind.mp hr
  obtain ⟨he, rfl⟩ := returns_loadEntry.mp hload
  obtain ⟨_, _, hreq, hr⟩ := returns_bind.mp hr
  obtain ⟨hroom, rfl⟩ := returns_require.mp hreq
  have hidx : sizeofSlabPtrRec * ((e.ptrCurrent.idx + 1) % 2 ^ 16) ≤ pageSize := by
    have hlt := (SlabEntry.hasRoom_iff e).mp hroom
    rw [Nat.mod_eq_of_lt (by omega), Nat.mul_succ]
    exact hroom
  exact ((updatePage _ onPtrRec).bind fun _ => (updatePage _ onPtrRec).bind fun _ =>
    (updatePage _ onPtrRec).bind fun _ => updateEntry se (by exact fun _ h => ⟨hidx, h.2⟩)) hr

theorem loadWord (a : ℕ) : Keeps Pm.StaysFit (loadWord a) := by
  have hbytes : ∀ l : List ℕ, Keeps Pm.StaysFit (l.mapM loadByte) := by
    intro l
    induction l with
    | nil => exact keeps_pure
    | cons x l ih =>
      rw [List.mapM_cons]
      exact (keeps_get.bind fun _ => keeps_ofOption.bind fun _ => keeps_pure).bind fun _ =>
        ih.bind fun _ => keeps_pure
  exact (hbytes _).bind fun _ => keeps_pure

theorem locatePointer (ptrLoc : ℕ) : Keeps Pm.StaysFit (locatePointer ptrLoc) := by
  refine currentSlabMaddr.bind fun sd => (loadWord ptrLoc).bind fun ptrVal =>
    (usedFind sd _).bind fun seLoc => ?_
  cases seLoc with
  | none => exact keeps_fail
  | some seLoc =>
    refine load.bind fun e => (Keeps.when ?_).bind fun _ => Keeps.ite keeps_pure ?_
    · refine (getpage _).bind fun ⟨maddr, laddr⟩ => ?_
      exact (retypePage _ (by exact fun _ => trivial)).bind fun _ => (updateOther _ (by exact fun _ => ⟨rfl, rfl⟩)).bind
        fun _ => updateOther _ (by exact fun _ => ⟨rfl, rfl⟩)
    · refine (usedFind sd _).bind fun seVal => ?_
      cases seVal with
      | none => exact keeps_fail
      | some seVal => exact load.bind fun _ => keeps_pure

theorem slabInsertPointer (ptrLoc : ℕ) : Keeps Pm.StaysFit (slabInsertPointer ptrLoc) := by
  refine keeps_get.bind fun s => Keeps.when ?_
  rw [doInsertPointer_eq]
  exact (locatePointer ptrLoc).bind fun _ => appendPtrRec _ _ _ _

theorem slabSetroot (a : ℕ) : Keeps Pm.StaysFit (slabSetroot a) := by
  refine currentSlabMaddr.bind fun sd => (usedFind sd _).bind fun se => ?_
  cases se with
  | none => exact keeps_pure
  | some se => exact load.bind fun _ => (updatePage _ onDir).bind fun _ => keeps_pure

/-! ## Allocation -/

theorem loadBitmap (se : EntryRef) (k : ℕ) : Keeps Pm.StaysFit (loadBitmap se k) :=
  load.bind fun _ => Keeps.ite (keeps_require.bind fun _ => keeps_pure)
    (keeps_get.bind fun _ => keeps_ofOption.bind fun _ => keeps_pure)

theorem bitFfcFrom (se : EntryRef) : ∀ n k, Keeps Pm.StaysFit (bitFfcFrom se n k)
  | 0, _ => keeps_pure
  | n + 1, k => (loadBitmap se k).bind fun b => by
    cases lowestClear b with
    | some i => exact keeps_pure
    | none => exact bitFfcFrom se n (k + 1)

theorem countSet (se : EntryRef) : ∀ n i, Keeps Pm.StaysFit (countSet se n i)
  | 0, _ => keeps_pure
  | n + 1, i => (loadBitmap se _).bind fun _ => (countSet se n (i + 1)).bind fun _ => keeps_pure

theorem entryCapacity (se : EntryRef) : Keeps Pm.StaysFit (entryCapacity se) :=
  load.bind fun _ => keeps_require.bind fun _ => keeps_pure

theorem slabEntryFull (se : EntryRef) : Keeps Pm.StaysFit (slabEntryFull se) :=
  (entryCapacity se).bind fun _ => (countSet se _ _).bind fun _ => keeps_pure

theorem slabEntryAllocMem (se : EntryRef) : Keeps Pm.StaysFit (slabEntryAllocMem se) := by
  have hstore : ∀ k b, Keeps Pm.StaysFit (storeBitmap se k b) := fun _ _ =>
    load.bind fun _ => Keeps.ite (keeps_require.bind fun _ => updateOther se (by exact fun _ => ⟨rfl, rfl⟩))
      (storeByte _ _)
  refine (entryCapacity se).bind fun capacity => load.bind fun e => keeps_require.bind fun _ =>
    ((bitFfcFrom se _ _).bind fun _ => keeps_pure).bind fun idx => ?_
  cases idx with
  | none => exact keeps_pure
  | some idx => exact (loadBitmap se _).bind fun _ => (hstore _ _).bind fun _ => keeps_pure

theorem growOuter (cont sd so : ℕ) : Keeps Pm.StaysFit (growOuter cont sd so) := by
  refine load.bind fun o => Keeps.ite ?_ ?_
  · refine load.bind fun c => (Keeps.when ?_).bind fun _ => load.bind fun _ => keeps_require.bind
      fun _ => slabOuterInit.bind fun ⟨so, soLaddr⟩ => (installOuter _ _ _).bind fun _ => keeps_pure
    exact (nodeSnapshot _ fun _ => updatePage _ onContainer).bind fun _ => updatePage _ onContainer
  · exact load.bind fun d => keeps_require.bind fun _ => (Keeps.when ((nodeSnapshot _ fun _ =>
      updatePage _ onDir).bind fun _ => updatePage _ onDir)).bind fun _ => keeps_pure

theorem growInner (cont sd so si : ℕ) : Keeps Pm.StaysFit (growInner cont sd so si) := by
  refine load.bind fun i => Keeps.ite ?_ ?_
  · exact (growOuter cont sd so).bind fun so => slabInnerInit.bind fun ⟨si, siLaddr⟩ =>
      (installInner _ _ _).bind fun _ => keeps_pure
  · exact load.bind fun o => (Keeps.when ((nodeSnapshot _ fun _ => updatePage _ onOuter).bind fun _ =>
      updatePage _ onOuter)).bind fun _ => keeps_pure

theorem growTree (cont sd : ℕ) : Keeps Pm.StaysFit (growTree cont sd) :=
  load.bind fun _ => keeps_require.bind fun _ => load.bind fun _ => keeps_require.bind fun _ =>
    (growInner _ _ _ _).bind fun _ => slabBucketInit.bind fun ⟨_, _⟩ => installBucket _ _ _

theorem getFreeSlabEntry : Keeps Pm.StaysFit getFreeSlabEntry :=
  load.bind fun _ => load.bind fun _ => load.bind fun _ => (Keeps.when (growTree _ _)).bind fun _ =>
    load.bind fun _ => keeps_ofOption.bind fun _ => (removeHead (sdFreeListAt _)).bind fun _ => keeps_pure

theorem pallocEntry (size : ℕ) : Keeps Pm.StaysFit (pallocEntry size) := by
  have hnew : Keeps Pm.StaysFit (do
      let se ← LibPM.getFreeSlabEntry
      stailqInsertHead (LibPM.esListAt size) se
      return se) :=
    getFreeSlabEntry.bind fun _ => (insertHead (esListAt size) _).bind fun _ => keeps_pure
  refine keeps_get.bind fun s => ?_
  cases s.sizes.find? (·.esSize == size) with
  | none => exact (modify (by exact fun _ => rfl)).bind fun _ => hnew
  | some es =>
    exact keeps_ofOption.bind fun se => (slabEntryFull se).bind fun _ => Keeps.ite hnew keeps_pure

theorem slabPalloc (size : ℕ) : Keeps Pm.StaysFit (slabPalloc size) :=
  keeps_require.bind fun _ => currentSlabMaddr.bind fun _ => (pallocEntry _).bind fun se =>
    (funcSlabBucketSnapshot _).bind fun _ => (updatePage _ (onBucket (by exact fun _ => rfl))).bind fun _ =>
      load.bind fun _ => (Keeps.when ((slabEntryInit _ _).bind fun _ => usedInsert _ _)).bind fun _ =>
        (slabEntryAllocMem se).bind fun _ => (slabEntryFull se).bind fun _ =>
          (Keeps.when (insertTail (esListAt _) _)).bind fun _ => keeps_pure

/-! ## Checkpoints -/

theorem slabEntryCpoint (se : EntryRef) (type : CpointType) :
    Keeps Pm.StaysFit (slabEntryCpoint se type) := by
  refine load.bind fun e => (Keeps.when ?_).bind fun _ => load.bind fun e => (Keeps.when ?_).bind fun _ =>
    Keeps.when (load.bind fun _ => mprotect _ _)
  · exact (updateOther se (by exact fun _ => ⟨rfl, rfl⟩)).bind fun _ => (freepages _).bind fun _ =>
      updateOther se (by exact fun _ => ⟨rfl, rfl⟩)
  · exact (Keeps.when (freepages _)).bind fun _ => (updateOther se (by exact fun _ => ⟨rfl, rfl⟩)).bind fun _ =>
      updateOther se (by exact fun _ => ⟨rfl, rfl⟩)

theorem slabInnerCpoint (si : ℕ) (type : CpointType) : Keeps Pm.StaysFit (slabInnerCpoint si type) := by
  refine forSlots _ (load.bind fun _ => keeps_pure) fun i => load.bind fun n => load.bind fun b =>
    Keeps.when ?_
  exact (Keeps.forM fun _ _ => load.bind fun _ => Keeps.when (slabEntryCpoint _ _)).bind fun _ =>
    (updatePage _ onInner).bind fun _ => load.bind fun _ => (freepages _).bind fun _ =>
      (updatePage _ onInner).bind fun _ => updatePage _ (onBucket (by exact fun _ => rfl))

theorem slabOuterCpoint (so : ℕ) (type : CpointType) : Keeps Pm.StaysFit (slabOuterCpoint so type) :=
  forSlots _ (load.bind fun _ => keeps_pure) fun _ => load.bind fun _ => (slabInnerCpoint _ _).bind fun _ =>
    load.bind fun _ => Keeps.when ((updatePage _ onOuter).bind fun _ => (freepages _).bind fun _ =>
      updatePage _ onOuter)

theorem slabDirCpoint (sd : ℕ) (type : CpointType) : Keeps Pm.StaysFit (slabDirCpoint sd type) :=
  forSlots _ (load.bind fun _ => keeps_pure) fun _ => load.bind fun _ => (slabOuterCpoint _ _).bind fun _ =>
    load.bind fun _ => Keeps.when ((updatePage _ onDir).bind fun _ => (freepages _).bind fun _ =>
      updatePage _ onDir)

theorem dirtyAt (sd i : ℕ) : Keeps Pm.StaysFit (dirtyAt sd i) :=
  load.bind fun _ => keeps_get.bind fun _ => keeps_require.bind fun _ => keeps_ofOption

theorem slabCpoint (type : CpointType) : Keeps Pm.StaysFit (slabCpoint type) :=
  currentSlabMaddr.bind fun sd => (slabDirCpoint sd type).bind fun _ => (Keeps.upTo
    (load.bind fun _ => keeps_pure) (fun _ => (dirtyAt _ _).bind fun _ => load.bind fun _ => keeps_pure)
      _ _).bind fun _ => updatePage _ onDir

end StaysFit

end LibPM

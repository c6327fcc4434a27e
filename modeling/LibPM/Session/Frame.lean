import LibPM.Model.Checkpoint
import LibPM.Model.Alloc
import LibPM.Memory.Access

/-!
# What the slab code leaves as it is

A relation that pages handed out, given back, exchanged and protected keep, and stores to pages and to the lists of
sizes as well, is kept by every function of the slab code. The lemmas follow the modules of the model, one for each
function.
-/

namespace LibPM

open Recorded Recorded.Prog

/-- The relation is kept by the page allocator, by stores to pages and by the records of the process. -/
class Framed (R : Pm → Pm → Prop) : Prop extends IsTrans Pm R, Std.Refl R where
  getpage : ∀ flags, Keeps R (pageAllocatorGetpage flags)
  freepages : ∀ a, Keeps R (pageAllocatorFreepages a)
  swap : ∀ xaddr ypgoff yaddr xpgoff, Keeps R (pageAllocatorSwapMappings xaddr ypgoff yaddr xpgoff)
  prot : ∀ (s : Pm) p, R s { s with prot := p }
  file : ∀ (s : Pm) f, R s { s with file := f }
  records : ∀ (s : Pm) sizes entryId, R s { s with sizes := sizes, nextSlabEntryId := entryId }

/-- The relation is kept by the numbers of new buckets as well. -/
class Counted (R : Pm → Pm → Prop) : Prop extends Framed R where
  buckets : ∀ (s : Pm) k, R s { s with nextSlabBucketId := k }

namespace Framed

variable {R : Pm → Pm → Prop} [Framed R]

theorem load {α : Type} {e : Fault} {f : Pm → Option α} :
    Keeps R (do let s ← get; ofOption e (f s) : PmProg α) :=
  keeps_get.bind fun _ => keeps_ofOption

theorem mprotect (a : ℕ) (flags : Prot) : Keeps R (pageAllocatorMprotect a flags) :=
  load.bind fun _ => Keeps.modify fun s => prot s _

/-! ## Stores and snapshots -/

theorem putPage (a : ℕ) (g : Page → Option Page) : Keeps R (putPage a g) :=
  keeps_get.bind fun _ => keeps_ofOption.bind fun _ => keeps_require.bind fun _ =>
    keeps_ofOption.bind fun _ => Keeps.store fun s => file s _

theorem copyPage (dst src : ℕ) : Keeps R (copyPage dst src) :=
  keeps_get.bind fun _ => keeps_ofOption.bind fun _ => putPage _ _

theorem pmemcpyPages (dst src n : ℕ) : Keeps R (pmemcpyPages dst src n) :=
  Keeps.forM fun _ _ => copyPage _ _

theorem currentSlabMaddr : Keeps R currentSlabMaddr :=
  load.bind fun _ => load.bind fun _ => keeps_pure

theorem usedFind (sd : ℕ) (p : SlabEntry → Bool) : Keeps R (usedFind sd p) :=
  load.bind fun _ => load

theorem appendDirty (sd : ℕ) (se : EntryRef) : Keeps R (appendDirty sd se) :=
  load.bind fun _ => keeps_get.bind fun _ => keeps_require.bind fun _ => putPage _ _

theorem slabEntrySnapshot (se : EntryRef) : Keeps R (slabEntrySnapshot se) := by
  refine (getpage _).bind fun ⟨dataMaddr, dataLaddr⟩ => ?_
  refine load.bind fun _ => (pmemcpyPages _ _ _).bind fun _ => currentSlabMaddr.bind fun _ =>
    (appendDirty _ _).bind fun _ => load.bind fun _ => (Keeps.when ?_).bind fun _ =>
      (putPage _ _).bind fun _ => putPage _ _
  refine (getpage _).bind fun ⟨ptrMaddr, ptrLaddr⟩ => ?_
  exact load.bind fun _ => (pmemcpyPages _ _ _).bind fun _ => (putPage _ _).bind fun _ => putPage _ _

theorem slabEntryCopynswap (se : EntryRef) : Keeps R (slabEntryCopynswap se) := by
  refine (getpage _).bind fun ⟨dataMaddr, dataLaddr⟩ => ?_
  exact load.bind fun _ => (pmemcpyPages _ _ _).bind fun _ => (putPage _ _).bind fun _ =>
    (putPage _ _).bind fun _ => load.bind fun _ => (swap _ _ _ _).bind fun _ =>
      currentSlabMaddr.bind fun _ => (appendDirty _ _).bind fun _ => load.bind fun _ => keeps_require

theorem handleMemoryUpdate (a : ℕ) : Keeps R (handleMemoryUpdate a) := by
  refine currentSlabMaddr.bind fun _ => (usedFind _ _).bind fun o => ?_
  cases o with
  | none => exact keeps_fail
  | some se =>
    refine Keeps.bind (keeps_get.bind fun s => ?_) fun _ => load.bind fun _ => mprotect _ _
    cases s.pa with
    | nonlinear nlm => exact slabEntryCopynswap se
    | _ => exact slabEntrySnapshot se

theorem makeWritable (a : ℕ) : Keeps R (makeWritable a) :=
  keeps_get.bind fun _ => keeps_ofOption.bind fun _ => Keeps.when (handleMemoryUpdate a)

theorem updatePage (a : ℕ) (g : Page → Option Page) : Keeps R (updatePage a g) :=
  (makeWritable a).bind fun _ => putPage a g

theorem retypePage (a : ℕ) (g : (ℕ → UInt8) → Page) : Keeps R (retypePage a g) :=
  load.bind fun _ => Keeps.modify fun s => file s _

theorem nodeSnapshot (node : ℕ) {setLaddr : ℕ → PmProg Unit}
    (hset : ∀ l, Keeps R (setLaddr l)) : Keeps R (nodeSnapshot node setLaddr) := by
  refine (getpage _).bind fun ⟨copy, snapshotLaddr⟩ => ?_
  exact (copyPage _ _).bind fun _ => (hset _).bind fun _ => keeps_pure

theorem bucketInner (sb : ℕ) : Keeps R (bucketInner sb) :=
  load.bind fun _ => (currentSlabMaddr.bind fun _ => load).bind fun _ => load.bind fun _ =>
    keeps_require.bind fun _ => keeps_pure

theorem funcSlabBucketSnapshot (sb : ℕ) : Keeps R (funcSlabBucketSnapshot sb) := by
  have hsnapshot : Keeps R (slabBucketSnapshot sb) := by
    refine (bucketInner sb).bind fun ⟨si, siId⟩ => load.bind fun _ => Keeps.ite ?_ keeps_pure
    refine (getpage _).bind fun ⟨sbs, snapshotLaddr⟩ => ?_
    exact (copyPage _ _).bind fun _ => (updatePage _ _).bind fun _ =>
      (updatePage _ _).bind fun _ => keeps_pure
  have hcopynswap : Keeps R (slabBucketCopynswap sb) := by
    refine (bucketInner sb).bind fun ⟨si, siId⟩ => load.bind fun _ => Keeps.ite ?_ keeps_pure
    refine (getpage _).bind fun ⟨sbs, snapshotLaddr⟩ => ?_
    exact (copyPage _ _).bind fun _ => load.bind fun _ => (swap _ _ _ _).bind fun _ =>
      (updatePage _ _).bind fun _ => (updatePage _ _).bind fun _ => keeps_pure
  refine keeps_get.bind fun s => ?_
  cases s.pa with
  | nonlinear nlm => exact hcopynswap
  | _ => exact hsnapshot

/-! ## The slab tree -/

/-- The stores to the head of a queue. -/
structure Queue (R : Pm → Pm → Prop) (q : StailqAt) : Prop where
  head : Keeps R q.head
  setFirst : ∀ x, Keeps R (q.setFirst x)
  setLast : ∀ x, Keeps R (q.setLast x)

theorem sdFreeListAt (sd : ℕ) : Queue R (sdFreeListAt sd) where
  head := load.bind fun _ => keeps_pure
  setFirst _ := updatePage _ _
  setLast _ := updatePage _ _

theorem esListAt (size : ℕ) : Queue R (esListAt size) where
  head := load.bind fun _ => keeps_pure
  setFirst _ := Keeps.modify fun s => records s _ _
  setLast _ := Keeps.modify fun s => records s _ _

theorem insertTail {q : StailqAt} (hq : Queue R q) (r : EntryRef) :
    Keeps R (stailqInsertTail q r) := by
  refine (updatePage _ _).bind fun _ => hq.head.bind fun h => ?_
  cases h.last with
  | none => exact (hq.setFirst _).bind fun _ => hq.setLast _
  | some x => exact (updatePage _ _).bind fun _ => hq.setLast _

theorem insertHead {q : StailqAt} (hq : Queue R q) (r : EntryRef) :
    Keeps R (stailqInsertHead q r) :=
  hq.head.bind fun _ => (updatePage _ _).bind fun _ =>
    (Keeps.when (hq.setLast _)).bind fun _ => hq.setFirst _

theorem removeHead {q : StailqAt} (hq : Queue R q) : Keeps R (stailqRemoveHead q) :=
  hq.head.bind fun _ => keeps_ofOption.bind fun _ => load.bind fun _ => (hq.setFirst _).bind fun _ =>
    Keeps.when (hq.setLast _)

theorem freeBucketEntries (sd sb : ℕ) : Keeps R (freeBucketEntries sd sb) :=
  Keeps.forM fun _ _ => insertTail (sdFreeListAt sd) _

theorem installOuter (sd so laddr : ℕ) : Keeps R (installOuter sd so laddr) :=
  load.bind fun _ => keeps_require.bind fun _ => (updatePage _ _).bind fun _ =>
    (updatePage _ _).bind fun _ => (updatePage _ _).bind fun _ => (updatePage _ _).bind
      fun _ => updatePage _ _

theorem installInner (so si laddr : ℕ) : Keeps R (installInner so si laddr) :=
  load.bind fun _ => keeps_require.bind fun _ => (updatePage _ _).bind fun _ =>
    (updatePage _ _).bind fun _ => (updatePage _ _).bind fun _ => (updatePage _ _).bind
      fun _ => updatePage _ _

theorem installBucket (si sb laddr : ℕ) : Keeps R (installBucket si sb laddr) :=
  load.bind fun _ => keeps_require.bind fun _ => (updatePage _ _).bind fun _ =>
    (updatePage _ _).bind fun _ => (updatePage _ _).bind fun _ => (updatePage _ _).bind
      fun _ => updatePage _ _

theorem slabOuterInit : Keeps R slabOuterInit :=
  (getpage _).bind fun ⟨_, _⟩ => (retypePage _ _).bind fun _ => keeps_pure

theorem slabInnerInit : Keeps R slabInnerInit :=
  (getpage _).bind fun ⟨_, _⟩ => (retypePage _ _).bind fun _ => keeps_pure

theorem growOuter (cont sd so : ℕ) : Keeps R (growOuter cont sd so) := by
  refine load.bind fun o => Keeps.ite ?_ ?_
  · refine load.bind fun c => (Keeps.when ?_).bind fun _ => load.bind fun _ => keeps_require.bind
      fun _ => slabOuterInit.bind fun ⟨so, soLaddr⟩ => (installOuter _ _ _).bind fun _ => keeps_pure
    exact (nodeSnapshot _ fun _ => updatePage _ _).bind fun _ => updatePage _ _
  · exact load.bind fun d => keeps_require.bind fun _ => (Keeps.when ((nodeSnapshot _ fun _ =>
      updatePage _ _).bind fun _ => updatePage _ _)).bind fun _ => keeps_pure

theorem growInner (cont sd so si : ℕ) : Keeps R (growInner cont sd so si) := by
  refine load.bind fun i => Keeps.ite ?_ ?_
  · exact (growOuter cont sd so).bind fun so => slabInnerInit.bind fun ⟨si, siLaddr⟩ =>
      (installInner _ _ _).bind fun _ => keeps_pure
  · exact load.bind fun o => (Keeps.when ((nodeSnapshot _ fun _ => updatePage _ _).bind fun _ =>
      updatePage _ _)).bind fun _ => keeps_pure

/-! ## Allocating an object -/

theorem loadByte (a : ℕ) : Keeps R (loadByte a) := keeps_get.bind fun _ => keeps_ofOption.bind fun _ => keeps_pure

theorem storeByte (a : ℕ) (b : UInt8) : Keeps R (storeByte a b) := updatePage _ _

theorem loadBitmap (se : EntryRef) (k : ℕ) : Keeps R (loadBitmap se k) :=
  load.bind fun _ => Keeps.ite (keeps_require.bind fun _ => keeps_pure) (loadByte _)

theorem storeBitmap (se : EntryRef) (k : ℕ) (b : UInt8) : Keeps R (storeBitmap se k b) :=
  load.bind fun _ => Keeps.ite (keeps_require.bind fun _ => updatePage _ _) (storeByte _ _)

theorem entryCapacity (se : EntryRef) : Keeps R (entryCapacity se) :=
  load.bind fun _ => keeps_require.bind fun _ => keeps_pure

theorem countSet (se : EntryRef) (n i : ℕ) : Keeps R (countSet se n i) := by
  induction n generalizing i with
  | zero => exact keeps_pure
  | succ n ih => exact (loadBitmap _ _).bind fun _ => (ih _).bind fun _ => keeps_pure

theorem slabEntryFull (se : EntryRef) : Keeps R (slabEntryFull se) :=
  (entryCapacity se).bind fun _ => (countSet _ _ _).bind fun _ => keeps_pure

theorem bitFfcFrom (se : EntryRef) (n k : ℕ) : Keeps R (bitFfcFrom se n k) := by
  induction n generalizing k with
  | zero => exact keeps_pure
  | succ n ih =>
    refine (loadBitmap _ _).bind fun b => ?_
    cases lowestClear b with
    | none => exact ih _
    | some i => exact keeps_pure

theorem slabEntryAllocMem (se : EntryRef) : Keeps R (slabEntryAllocMem se) := by
  refine (entryCapacity se).bind fun _ => load.bind fun _ => keeps_require.bind fun _ =>
    ((bitFfcFrom _ _ _).bind fun _ => keeps_pure).bind fun o => ?_
  cases o with
  | none => exact keeps_pure
  | some k => exact (loadBitmap _ _).bind fun _ => (storeBitmap _ _ _).bind fun _ => keeps_pure

theorem slabEntryInit (se : EntryRef) (size : ℕ) : Keeps R (slabEntryInit se size) := by
  refine (getpage _).bind fun ⟨maddr, laddr⟩ => (retypePage _ _).bind fun _ => ?_
  iterate 11 refine (updatePage _ _).bind fun _ => ?_
  exact (keeps_get.bind fun _ => (Keeps.modify fun s => records s _ _).bind fun _ => keeps_pure).bind
    fun _ => updatePage _ _

theorem usedInsert (sd : ℕ) (se : EntryRef) : Keeps R (usedInsert sd se) :=
  load.bind fun _ => (usedFind _ _).bind fun _ => Keeps.when (updatePage _ _)

end Framed

/-! ## New buckets -/

namespace Framed

variable {R : Pm → Pm → Prop} [Counted R]

theorem slabBucketInit : Keeps R slabBucketInit := by
  refine currentSlabMaddr.bind fun _ => (getpage _).bind fun ⟨sb, laddr⟩ => ?_
  exact (updatePage _ _).bind fun _ => (keeps_get.bind fun _ =>
    (Keeps.modify fun s => Counted.buckets s _).bind fun _ => keeps_pure).bind fun _ => (updatePage _ _).bind fun _ => (freeBucketEntries _ _).bind fun _ => keeps_pure

theorem growTree (cont sd : ℕ) : Keeps R (growTree cont sd) :=
  load.bind fun _ => keeps_require.bind fun _ => load.bind fun _ => keeps_require.bind fun _ =>
    (growInner _ _ _ _).bind fun _ => slabBucketInit.bind fun ⟨_, _⟩ => installBucket _ _ _

theorem getFreeSlabEntry : Keeps R getFreeSlabEntry :=
  load.bind fun _ => load.bind fun _ => load.bind fun _ => (Keeps.when (growTree _ _)).bind fun _ =>
    load.bind fun _ => keeps_ofOption.bind fun _ => (removeHead (sdFreeListAt _)).bind fun _ => keeps_pure

theorem pallocEntry (n : ℕ) : Keeps R (pallocEntry n) := by
  have hfree : Keeps R (do
      let se ← LibPM.getFreeSlabEntry
      stailqInsertHead (LibPM.esListAt n) se
      return se : PmProg EntryRef) :=
    getFreeSlabEntry.bind fun _ => (insertHead (esListAt n) _).bind fun _ => keeps_pure
  refine keeps_get.bind fun s => ?_
  cases s.sizes.find? (·.esSize == n) with
  | none => exact (Keeps.modify fun s => records s _ _).bind fun _ => hfree
  | some es => exact keeps_ofOption.bind fun _ => (slabEntryFull _).bind fun _ => Keeps.ite hfree keeps_pure

end Framed

end LibPM

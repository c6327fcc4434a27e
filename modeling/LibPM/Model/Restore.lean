import LibPM.Model.Alloc
import LibPM.Model.Checkpoint

/-!
# Mapping the slab tree of an existing file (restore.c)

A tree whose last checkpoint completed is mapped through its snapshot links, one whose checkpoint
was cut short through both.
-/

namespace LibPM

open Recorded Recorded.Prog

/-- `NOT_CS_CONSISTENT`: exactly one of the two offsets is zero. -/
def notCsConsistent (c s : ℕ) : Prop := ¬ (c = 0 ↔ s = 0)

instance (c s : ℕ) : Decidable (notCsConsistent c s) := by
  unfold notCsConsistent
  infer_instance

def indexSlabEntry (sd : ℕ) (se : EntryRef) : PmProg Unit := do
  let e ← loadEntry se
  if e.isInit = true then do
    let s ← get
    match s.sizes.find? (·.esSize == e.seSize) with
    | some _ => do
      let full ← slabEntryFull se
      if full = true then stailqInsertTail (esListAt e.seSize) se
      else stailqInsertHead (esListAt e.seSize) se
    | none => do
      slabEntrySizeInit e.seSize
      stailqInsertTail (esListAt e.seSize) se
    usedInsert sd se
  else stailqInsertTail (sdFreeListAt sd) se

/-- The part of `slab_bucket_map` that maps one initialised entry. -/
def slabEntryMap (se : EntryRef) (type : CpointType) : PmProg Unit := do
  let e ← loadEntry se
  match type with
  | .incomplete => do
    let dc ← pageAllocatorMappage e.dataCurrent.laddr
    updateEntry se fun e => { e with dataCurrent.maddr := dc }
    let ds ← pageAllocatorMappage e.dataSnapshot.laddr
    updateEntry se fun e => { e with dataSnapshot.maddr := ds }
    let pc ← pageAllocatorMappage e.ptrCurrent.laddr
    updateEntry se fun e => { e with ptrCurrent.maddr := pc }
    let ps ← pageAllocatorMappage e.ptrSnapshot.laddr
    updateEntry se fun e => { e with ptrSnapshot.maddr := ps }
  | .complete => do
    require (e.dataCurrent.laddr = e.dataSnapshot.laddr)
      (.assertion "Inconsistent state on slab_entry data")
    let dc ← pageAllocatorMappage e.dataSnapshot.laddr
    updateEntry se fun e => { e with dataCurrent.maddr := dc }
    updateEntry se fun e => { e with dataSnapshot.maddr := e.dataCurrent.maddr }
    updateEntry se fun e => { e with dataCurrent.laddr := e.dataSnapshot.laddr }
    let e ← loadEntry se
    require (e.ptrCurrent.laddr = e.ptrSnapshot.laddr)
      (.assertion "Inconsistent state on slab_entry ptrs")
    let pc ← pageAllocatorMappage e.ptrSnapshot.laddr
    updateEntry se fun e => { e with ptrCurrent.maddr := pc }
    updateEntry se fun e => { e with ptrSnapshot.maddr := e.ptrCurrent.maddr }
    updateEntry se fun e => { e with ptrCurrent.laddr := e.ptrSnapshot.laddr }
  | _ => fail (.assertion "invalid restore type")

/-- `slab_bucket_map`: the address of the bucket. -/
def slabBucketMap (sd laddr : ℕ) (type : CpointType) (indexing : Bool) : PmProg ℕ := do
  let sb ← pageAllocatorMappage laddr
  (List.range slabBucketEntries).forM fun i => do
    let e ← loadEntry ⟨sb, i⟩
    when (e.isInit = true) (slabEntryMap ⟨sb, i⟩ type)
    when (indexing = true) (indexSlabEntry sd ⟨sb, i⟩)
  return sb

def slabInnerMap (sd laddr : ℕ) (type : CpointType) : PmProg ℕ := do
  let si ← pageAllocatorMappage laddr
  forSlots slabInnerEntries ((·.siIndex) <$> loadInner si) fun i => do
    let n ← loadInner si
    require (¬ notCsConsistent (n.siCurrent i).laddr (n.siSnapshot i).laddr)
      (.assertion "found inconsistent state while restoring inner")
    when ((n.siCurrent i).laddr ≠ 0) do
      match type with
      | .incomplete => do
        let sb ← slabBucketMap sd (n.siCurrent i).laddr type true
        updatePage si (Page.onInner fun n => { n with siCurrent := setMaddr n.siCurrent i sb })
        let n ← loadInner si
        let sbs ← slabBucketMap sd (n.siSnapshot i).laddr type false
        updatePage si (Page.onInner fun n => { n with siSnapshot := setMaddr n.siSnapshot i sbs })
      | .complete => do
        let sb ← slabBucketMap sd (n.siSnapshot i).laddr type true
        updatePage si (Page.onInner fun n => { n with siCurrent := setMaddr n.siCurrent i sb })
        updatePage si (Page.onInner fun n =>
          { n with siSnapshot := setMaddr n.siSnapshot i (n.siCurrent i).maddr })
        updatePage si (Page.onInner fun n =>
          { n with siCurrent := setLaddr n.siCurrent i (n.siSnapshot i).laddr })
      | _ => fail (.assertion "invalid restore type")
  return si

def slabOuterMap (sd laddr : ℕ) (type : CpointType) : PmProg ℕ := do
  let so ← pageAllocatorMappage laddr
  forSlots slabOuterEntries ((·.soIndex) <$> loadOuter so) fun i => do
    let o ← loadOuter so
    require (¬ notCsConsistent (o.soCurrent i).laddr (o.soSnapshot i).laddr)
      (.assertion "found inconsistent state while restoringi outer")
    when ((o.soCurrent i).laddr ≠ 0) do
      match type with
      | .incomplete => do
        let si ← slabInnerMap sd (o.soCurrent i).laddr type
        updatePage so (Page.onOuter fun o => { o with soCurrent := setMaddr o.soCurrent i si })
        let o ← loadOuter so
        let sis ← slabInnerMap sd (o.soSnapshot i).laddr type
        updatePage so (Page.onOuter fun o => { o with soSnapshot := setMaddr o.soSnapshot i sis })
      | .complete => do
        let si ← slabInnerMap sd (o.soSnapshot i).laddr type
        updatePage so (Page.onOuter fun o => { o with soCurrent := setMaddr o.soCurrent i si })
        updatePage so (Page.onOuter fun o =>
          { o with soSnapshot := setMaddr o.soSnapshot i (o.soCurrent i).maddr })
        updatePage so (Page.onOuter fun o =>
          { o with soCurrent := setLaddr o.soCurrent i (o.soSnapshot i).laddr })
      | _ => fail (.assertion "invalid restore type")
  return so

/-- `slab_map`: the address of the directory. -/
def slabMap (laddr : ℕ) (type : CpointType) : PmProg ℕ := do
  let sd ← pageAllocatorMappage laddr
  clearIndexes sd
  forSlots slabDirEntries ((·.sdIndex) <$> loadDir sd) fun i => do
    let d ← loadDir sd
    require (¬ notCsConsistent (d.sdCurrent i).laddr (d.sdSnapshot i).laddr)
      (.assertion "found inconsistent state while restoring dir")
    when ((d.sdCurrent i).laddr ≠ 0) do
      match type with
      | .incomplete => do
        let so ← slabOuterMap sd (d.sdCurrent i).laddr type
        updatePage sd (Page.onDir fun d => { d with sdCurrent := setMaddr d.sdCurrent i so })
        let d ← loadDir sd
        let sos ← slabOuterMap sd (d.sdSnapshot i).laddr type
        updatePage sd (Page.onDir fun d => { d with sdSnapshot := setMaddr d.sdSnapshot i sos })
      | .complete => do
        let so ← slabOuterMap sd (d.sdSnapshot i).laddr type
        updatePage sd (Page.onDir fun d => { d with sdCurrent := setMaddr d.sdCurrent i so })
        updatePage sd (Page.onDir fun d =>
          { d with sdSnapshot := setMaddr d.sdSnapshot i (d.sdCurrent i).maddr })
        updatePage sd (Page.onDir fun d =>
          { d with sdCurrent := setLaddr d.sdCurrent i (d.sdSnapshot i).laddr })
      | _ => fail (.assertion "invalid restore type")
  return sd

end LibPM

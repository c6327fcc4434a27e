import LibPM.Model.Slab

/-!
# Committing the slab tree (checkpoint.c)

The walk goes over the current tree and makes every snapshot link equal to the current one, after
the page of the old version is freed. A bucket is visited only if its flag is set.
-/

namespace LibPM

open Recorded Recorded.Prog

inductive CpointType where
  | complete
  | incomplete
  | restore
  | regular
  deriving DecidableEq, Repr

/-- One round of `slab_bucket_cpoint`, for an initialised entry. -/
def slabEntryCpoint (se : EntryRef) (type : CpointType) : PmProg Unit := do
  let e ← loadEntry se
  when (e.dataCurrent.maddr ≠ e.dataSnapshot.maddr) do
    updateEntry se fun e => { e with dataSnapshot.laddr := e.dataCurrent.laddr }
    pageAllocatorFreepages e.dataSnapshot.maddr
    updateEntry se fun e => { e with dataSnapshot.maddr := e.dataCurrent.maddr }
  let e ← loadEntry se
  when (e.ptrCurrent.maddr ≠ 0) do
    when (e.ptrSnapshot.maddr ≠ 0 ∧ e.ptrSnapshot.maddr ≠ e.ptrCurrent.maddr)
      (pageAllocatorFreepages e.ptrSnapshot.maddr)
    updateEntry se fun e => { e with ptrSnapshot.laddr := e.ptrCurrent.laddr }
    updateEntry se fun e => { e with ptrSnapshot.maddr := e.ptrCurrent.maddr }
  when (type = .regular) do
    let e ← loadEntry se
    pageAllocatorMprotect e.dataCurrent.maddr paProtRead

def slabBucketCpoint (sb : ℕ) (type : CpointType) : PmProg Unit :=
  (List.range slabBucketEntries).forM fun i => do
    let e ← loadEntry ⟨sb, i⟩
    when (e.isInit = true) (slabEntryCpoint ⟨sb, i⟩ type)

def slabInnerCpoint (si : ℕ) (type : CpointType) : PmProg Unit :=
  forSlots slabInnerEntries ((·.siIndex) <$> loadInner si) fun i => do
    let n ← loadInner si
    let sb := (n.siCurrent i).maddr
    let b ← loadBucket sb
    when (b.sbHasSnapshot ≠ 0) do
      slabBucketCpoint sb type
      updatePage si (Page.onInner fun n =>
        { n with siSnapshot := setLaddr n.siSnapshot i (n.siCurrent i).laddr })
      let n ← loadInner si
      pageAllocatorFreepages (n.siSnapshot i).maddr
      updatePage si (Page.onInner fun n =>
        { n with siSnapshot := setMaddr n.siSnapshot i (n.siCurrent i).maddr })
      updatePage sb (Page.onBucket fun b => { b with sbHasSnapshot := 0 })

def slabOuterCpoint (so : ℕ) (type : CpointType) : PmProg Unit :=
  forSlots slabOuterEntries ((·.soIndex) <$> loadOuter so) fun i => do
    let o ← loadOuter so
    slabInnerCpoint (o.soCurrent i).maddr type
    let o ← loadOuter so
    when ((o.soCurrent i).maddr ≠ (o.soSnapshot i).maddr) do
      updatePage so (Page.onOuter fun o =>
        { o with soSnapshot := setLaddr o.soSnapshot i (o.soCurrent i).laddr })
      pageAllocatorFreepages (o.soSnapshot i).maddr
      updatePage so (Page.onOuter fun o =>
        { o with soSnapshot := setMaddr o.soSnapshot i (o.soCurrent i).maddr })

def slabDirCpoint (sd : ℕ) (type : CpointType) : PmProg Unit :=
  forSlots slabDirEntries ((·.sdIndex) <$> loadDir sd) fun i => do
    let d ← loadDir sd
    slabOuterCpoint (d.sdCurrent i).maddr type
    let d ← loadDir sd
    when ((d.sdCurrent i).maddr ≠ (d.sdSnapshot i).maddr) do
      updatePage sd (Page.onDir fun d =>
        { d with sdSnapshot := setLaddr d.sdSnapshot i (d.sdCurrent i).laddr })
      pageAllocatorFreepages (d.sdSnapshot i).maddr
      updatePage sd (Page.onDir fun d =>
        { d with sdSnapshot := setMaddr d.sdSnapshot i (d.sdCurrent i).maddr })

/-- `VECTOR_AT(&sd->sd_vector, i)`. -/
def dirtyAt (sd i : ℕ) : PmProg EntryRef := do
  let d ← loadDir sd
  let s ← get
  require (d.vectorLive s) .sigsegv
  ofOption .outOfBounds (d.sdVector.items[i]?)

/-- The loop over `sd_vector`, whose size is read again in each round. -/
def forDirty (sd : ℕ) (body : EntryRef → PmProg Unit) : PmProg Unit :=
  upTo .intOverflow ((·.sdVector.size) <$> loadDir sd) (fun i => do
    let se ← dirtyAt sd i
    body se) (intMax + 1) 0

/-- `slab_cpoint`. Flushing cache lines changes nothing here: the stores have reached the file. -/
def slabCpoint (type : CpointType) : PmProg Unit := do
  let sd ← currentSlabMaddr
  slabDirCpoint sd type
  forDirty sd fun se => do let _ ← loadEntry se
  updatePage sd (Page.onDir fun d => { d with sdVector := CVector.free })

end LibPM

import LibPM.Model.Slab

/-!
# Allocation of objects (alloc.c)

`slab_palloc` takes the first entry of the list of the object size, or a free entry, and marks an
object of its data page as used. The bitmap of objects below 512 bytes is at the start of the data
page, that of larger objects is one byte of the entry.
-/

namespace LibPM

open Recorded Recorded.Prog

/-! ## The in-use bitmap (bitstring.h) -/

/-- Byte `k` of `SLAB_ENTRY_CBITMAP(se)`. -/
def loadBitmap (se : EntryRef) (k : ℕ) : PmProg UInt8 := do
  let e ← loadEntry se
  if e.seSize ≥ slabLargeAlloc then do
    require (k = 0) .outOfBounds
    return e.dataCurrent.bitmap
  else loadByte (e.dataCurrent.maddr + k)

def storeBitmap (se : EntryRef) (k : ℕ) (b : UInt8) : PmProg Unit := do
  let e ← loadEntry se
  if e.seSize ≥ slabLargeAlloc then do
    require (k = 0) .outOfBounds
    updateEntry se fun e => { e with dataCurrent.bitmap := b }
  else storeByte (e.dataCurrent.maddr + k) b

def bitTest (b : UInt8) (i : ℕ) : Bool := b.toNat.testBit i

def bitSet (b : UInt8) (i : ℕ) : UInt8 := UInt8.ofNat (b.toNat ||| 2 ^ i)

/-- The lowest clear bit of a byte other than `0xff`. -/
def lowestClear (b : UInt8) : Option ℕ := (List.range 8).find? fun i => !bitTest b i

/-- The loop of `bit_ffc` over the bytes `k`, `k + 1`, …: the first clear bit. -/
def bitFfcFrom (se : EntryRef) : ℕ → ℕ → PmProg (Option ℕ)
  | 0, _ => pure none
  | n + 1, k => do
    let b ← loadBitmap se k
    match lowestClear b with
    | some i => return some (8 * k + i)
    | none => bitFfcFrom se n (k + 1)

/-- `bit_ffc`; `none` stands for `-1`. -/
def bitFfc (se : EntryRef) (nbits : ℕ) : PmProg (Option ℕ) := do
  let i ← bitFfcFrom se (bitstrSize nbits) 0
  return i.filter (· < nbits)

/-! ## Entries -/

/-- `SLAB_ENTRY_CAPACITY(se)`. -/
def entryCapacity (se : EntryRef) : PmProg ℕ := do
  let e ← loadEntry se
  require (e.seSize ≠ 0) .sigfpe
  return slabEntryCapacity e.seSize

/-- The count of `slab_entry_full` over the bits `i`, `i + 1`, …. -/
def countSet (se : EntryRef) : ℕ → ℕ → PmProg ℕ
  | 0, _ => pure 0
  | n + 1, i => do
    let b ← loadBitmap se (i / 8)
    let c ← countSet se n (i + 1)
    return if bitTest b (i % 8) then c + 1 else c

def slabEntryFull (se : EntryRef) : PmProg Bool := do
  let capacity ← entryCapacity se
  let count ← countSet se capacity 0
  return count == capacity

/-- `slab_entry_alloc_mem`; zero stands for `NULL`. -/
def slabEntryAllocMem (se : EntryRef) : PmProg ℕ := do
  let capacity ← entryCapacity se
  let e ← loadEntry se
  require (e.dataCurrent.maddr ≠ 0) (.assertion "Invalid pointer to data (NULL)")
  let idx ← bitFfc se capacity
  match idx with
  | none => return 0
  | some idx => do
    let b ← loadBitmap se (idx / 8)
    storeBitmap se (idx / 8) (bitSet b (idx % 8))
    return e.dataCurrent.maddr + slabEntryDataoffset e.seSize + idx * e.seSize

/-- Room in the directory for one more inner node: the outer node it goes to. -/
def growOuter (cont sd so : ℕ) : PmProg ℕ := do
  let o ← loadOuter so
  if o.soIndex = slabOuterEntries then do
    let c ← loadContainer cont
    when (c.currentSlab.maddr = c.snapshotSlab.maddr) do
      let sds ← slabDirSnapshot sd fun l =>
        updatePage cont (Page.onContainer fun c => { c with snapshotSlab.laddr := l })
      updatePage cont (Page.onContainer fun c => { c with snapshotSlab.maddr := sds })
    let d ← loadDir sd
    require (d.sdIndex ≠ slabDirEntries)
      (.assertion "Slab directory is full. Can not allocate more memory.")
    let (so, soLaddr) ← slabOuterInit
    installOuter sd so soLaddr
    return so
  else do
    let d ← loadDir sd
    -- the index into `sd_current` comes from the outer node, the other from the directory
    require (1 ≤ o.soIndex ∧ o.soIndex - 1 < slabDirEntries) .outOfBounds
    when ((d.sdCurrent (o.soIndex - 1)).maddr = (d.sdSnapshot (d.sdIndex - 1)).maddr) do
      let sos ← slabOuterSnapshot so fun l => updatePage sd (Page.onDir fun d =>
        { d with sdSnapshot := setLaddr d.sdSnapshot (d.sdIndex - 1) l })
      updatePage sd (Page.onDir fun d =>
        { d with sdSnapshot := setMaddr d.sdSnapshot (d.sdIndex - 1) sos })
    return so

/-- Room in the tree for one more bucket: the inner node it goes to. -/
def growInner (cont sd so si : ℕ) : PmProg ℕ := do
  let i ← loadInner si
  if i.siIndex = slabInnerEntries then do
    let so ← growOuter cont sd so
    let (si, siLaddr) ← slabInnerInit
    installInner so si siLaddr
    return si
  else do
    let o ← loadOuter so
    when ((o.soCurrent (o.soIndex - 1)).maddr = (o.soSnapshot (o.soIndex - 1)).maddr) do
      let sis ← slabInnerSnapshot si fun l => updatePage so (Page.onOuter fun o =>
        { o with soSnapshot := setLaddr o.soSnapshot (o.soIndex - 1) l })
      updatePage so (Page.onOuter fun o =>
        { o with soSnapshot := setMaddr o.soSnapshot (o.soIndex - 1) sis })
    return si

/-- The growth path of `get_free_slab_entry`: the tree gets a bucket of free entries. -/
def growTree (cont sd : ℕ) : PmProg Unit := do
  let d ← loadDir sd
  require (1 ≤ d.sdIndex ∧ d.sdIndex ≤ slabDirEntries) .outOfBounds
  let so := (d.sdCurrent (d.sdIndex - 1)).maddr
  let o ← loadOuter so
  require (1 ≤ o.soIndex ∧ o.soIndex ≤ slabOuterEntries) .outOfBounds
  let si ← growInner cont sd so (o.soCurrent (o.soIndex - 1)).maddr
  let (sb, sbLaddr) ← slabBucketInit
  installBucket si sb sbLaddr

def getFreeSlabEntry : PmProg EntryRef := do
  let cont ← getContainer
  let c ← loadContainer cont
  let sd := c.currentSlab.maddr
  let d ← loadDir sd
  when (d.sdFreeList.first = none) (growTree cont sd)
  let d ← loadDir sd
  let se ← ofOption
    (.assertion "failed to get an slab_entry even after initializing a new slab_bucket!")
    d.sdFreeList.first
  stailqRemoveHead (sdFreeListAt sd)
  return se

/-- The entry `slab_palloc` allocates from; the list of its size holds it. -/
def pallocEntry (size8 : ℕ) : PmProg EntryRef := do
  let s ← get
  match s.sizes.find? (·.esSize == size8) with
  | some es => do
    let se ← ofOption .sigsegv es.esList.first
    let full ← slabEntryFull se
    if full = true then do
      let se ← getFreeSlabEntry
      stailqInsertHead (esListAt size8) se
      return se
    else return se
  | none => do
    slabEntrySizeInit size8
    let se ← getFreeSlabEntry
    stailqInsertHead (esListAt size8) se
    return se

/-- `slab_palloc`; zero stands for `NULL`. -/
def slabPalloc (size : ℕ) : PmProg ℕ := do
  let size8 := round8 size
  require (size ≤ pageSize) (.assertion "allocations bigger than 4KB are not implemented yet.")
  let sd ← currentSlabMaddr
  let se ← pallocEntry size8
  let sb := se.sb
  let taken ← funcSlabBucketSnapshot sb
  updatePage sb (Page.onBucket fun b => { b with sbHasSnapshot := taken })
  let e ← loadEntry se
  when (e.isInit = false) do
    slabEntryInit se size8
    usedInsert sd se
  let maddr ← slabEntryAllocMem se
  let full ← slabEntryFull se
  when (full = true) (stailqInsertTail (esListAt size8) se)
  return maddr

end LibPM

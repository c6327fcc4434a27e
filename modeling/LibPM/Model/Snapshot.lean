import LibPM.Model.Mapper

/-!
# Memory accesses, write faults and snapshots

A store to a page of the mapping that is not writable runs `handle_memory_update` (snapshot.c) and
is then tried again. Inside the handler the signal is blocked, so a second write fault ends the
process. The stores of the handler's own code are therefore the `put…` programs, which fault on a
protected page, and those of the rest of the code are the `update…` programs.

A copy onto a page that was just handed out counts as one store: nothing links to the page yet.
-/

namespace LibPM

open Recorded Recorded.Prog

/-! ## Loads -/

def getContainer : PmProg ℕ := do
  let s ← get
  ofOption .sigsegv s.containers

def loadContainer (a : ℕ) : PmProg Container := do
  let s ← get
  ofOption .sigsegv (s.readContainer a)

def loadDir (a : ℕ) : PmProg SlabDir := do
  let s ← get
  ofOption .sigsegv (s.readDir a)

def loadOuter (a : ℕ) : PmProg SlabOuter := do
  let s ← get
  ofOption .sigsegv (s.readOuter a)

def loadInner (a : ℕ) : PmProg SlabInner := do
  let s ← get
  ofOption .sigsegv (s.readInner a)

def loadBucket (a : ℕ) : PmProg SlabBucket := do
  let s ← get
  ofOption .sigsegv (s.readBucket a)

def loadEntry (r : EntryRef) : PmProg SlabEntry := do
  let s ← get
  ofOption .sigsegv (s.readEntry r)

/-- The record `ptrs[m]` of the `slab_ptr` at `a`. -/
def loadPtrRec (a m : ℕ) : PmProg SlabPtrRec := do
  require (sizeofSlabPtrRec * m + sizeofSlabPtrRec ≤ pageSize) .outOfBounds
  let s ← get
  let p ← ofOption .sigsegv (s.readPtrs a)
  return p m

def loadByte (a : ℕ) : PmProg UInt8 := do
  let s ← get
  let p ← ofOption .sigsegv (s.pageAt (roundDwnPg a))
  return s.bytesOf p (a % pageSize)

/-- `get_container(cid)->current_slab.maddr`. -/
def currentSlabMaddr : PmProg ℕ := do
  let cont ← getContainer
  let c ← loadContainer cont
  return c.currentSlab.maddr

/-- The directory of the current slab. -/
def currentDir : PmProg SlabDir := do
  let sd ← currentSlabMaddr
  loadDir sd

/-! ## What a store does to its page -/

namespace Page

def onContainer (f : Container → Container) : Page → Option Page
  | .container c => some (.container (f c))
  | _ => none

def onDir (f : SlabDir → SlabDir) : Page → Option Page
  | .dir d => some (.dir (f d))
  | _ => none

def onOuter (f : SlabOuter → SlabOuter) : Page → Option Page
  | .outer o => some (.outer (f o))
  | _ => none

def onInner (f : SlabInner → SlabInner) : Page → Option Page
  | .inner i => some (.inner (f i))
  | _ => none

def onBucket (f : SlabBucket → SlabBucket) : Page → Option Page
  | .bucket b => some (.bucket (f b))
  | _ => none

def onEntry (i : ℕ) (f : SlabEntry → SlabEntry) : Page → Option Page
  | .bucket b =>
    if i < slabBucketEntries then
      some (.bucket { b with sbEntries := Function.update b.sbEntries i (f (b.sbEntries i)) })
    else none
  | _ => none

def onPtrRec (m : ℕ) (f : SlabPtrRec → SlabPtrRec) : Page → Option Page
  | .ptrs p => some (.ptrs (Function.update p m (f (p m))))
  | _ => none

def onByte (off : ℕ) (v : UInt8) : Page → Option Page
  | .data b => some (.data (Function.update b off v))
  | _ => none

end Page

def Pm.setPage (s : Pm) (i : ℕ) (p : Page) : Pm := { s with file := Function.update s.file i p }

/-- A store to the page at `a` that must not fault. -/
def putPage (a : ℕ) (g : Page → Option Page) : PmProg Unit := do
  let s ← get
  let i ← ofOption .sigsegv (s.vpage a)
  require ((s.prot i).write = true) .sigsegv
  let p ← ofOption .sigsegv (g (s.file (s.vmap i)))
  store fun s => s.setPage (s.vmap i) p

def putEntry (r : EntryRef) (f : SlabEntry → SlabEntry) : PmProg Unit :=
  putPage r.sb (Page.onEntry r.idx f)

/-- One page of a `memcpy`. -/
def copyPage (dst src : ℕ) : PmProg Unit := do
  let s ← get
  let p ← ofOption .sigsegv (s.pageAt src)
  putPage dst fun _ => some p

/-- `memcpy` and `pmemcpy` of `ROUNDPG(n)` bytes between pages. -/
def pmemcpyPages (dst src n : ℕ) : PmProg Unit :=
  (List.range (roundPg n / pageSize)).forM fun i =>
    copyPage (dst + i * pageSize) (src + i * pageSize)

/-! ## The tree of data pages in use -/

/-- A search in `sd_maddr_root`: the first entry of the tree that satisfies `p`. -/
def Pm.findEntry (s : Pm) (p : SlabEntry → Bool) : List EntryRef → Option (Option EntryRef)
  | [] => some none
  | r :: l =>
    match s.readEntry r with
    | none => none
    | some e => if p e then some (some r) else s.findEntry p l

/-- `RB_FIND` on the tree of the directory at `sd`. -/
def usedFind (sd : ℕ) (p : SlabEntry → Bool) : PmProg (Option EntryRef) := do
  let d ← loadDir sd
  let s ← get
  ofOption .sigsegv (s.findEntry p d.sdMaddrRoot)

/-- A search of type `SE_SEARCH_NORMAL`. -/
def searchNormal (maddr : ℕ) (se : SlabEntry) : Bool := se.dataCurrent.maddr == maddr

/-- A search of type `SE_SEARCH_MADDR`. -/
def searchMaddr (maddr : ℕ) (se : SlabEntry) : Bool :=
  decide (se.dataCurrent.maddr ≤ maddr ∧ maddr < se.dataCurrent.maddr + pageSize)

/-- Whether the buffer of `sd_vector` can be accessed: an empty vector has none yet. -/
def SlabDir.vectorLive (s : Pm) (d : SlabDir) : Prop :=
  d.sdVector.capacity = 0 ∨ d.sdVectorHeap = s.heap

instance (s : Pm) (d : SlabDir) : Decidable (d.vectorLive s) := by
  unfold SlabDir.vectorLive
  infer_instance

/-- `VECTOR_APPEND(&sd->sd_vector, se)`. -/
def appendDirty (sd : ℕ) (se : EntryRef) : PmProg Unit := do
  let d ← loadDir sd
  let s ← get
  require (d.vectorLive s) .sigsegv
  putPage sd (Page.onDir fun d =>
    { d with sdVector := d.sdVector.append se, sdVectorHeap := s.heap })

/-! ## Copy on write of an entry (snapshot.c) -/

def slabEntrySnapshot (se : EntryRef) : PmProg Unit := do
  let (dataMaddr, dataLaddr) ← pageAllocatorGetpage paProtWrite
  let e ← loadEntry se
  pmemcpyPages dataMaddr e.dataCurrent.maddr e.seSize
  let sd ← currentSlabMaddr
  appendDirty sd se
  let e ← loadEntry se
  when (e.ptrSnapshot.maddr ≠ 0) do
    -- `atomic_set(&ptr_laddr, …)` stores to the local variable: the old offset stays current
    let (ptrMaddr, _ptrLaddr) ← pageAllocatorGetpage paProtWrite
    let e ← loadEntry se
    pmemcpyPages ptrMaddr e.ptrSnapshot.maddr e.seSize
    putEntry se fun e => { e with ptrCurrent.idx := e.ptrSnapshot.idx }
    putEntry se fun e => { e with ptrCurrent.maddr := ptrMaddr }
  putEntry se fun e => { e with dataSnapshot.maddr := dataMaddr }
  putEntry se fun e => { e with dataSnapshot.laddr := dataLaddr }

def slabEntryCopynswap (se : EntryRef) : PmProg Unit := do
  let (dataMaddr, dataLaddr) ← pageAllocatorGetpage paProtWrite
  let e ← loadEntry se
  pmemcpyPages dataMaddr e.dataSnapshot.maddr e.seSize
  putEntry se fun e => { e with dataSnapshot.maddr := dataMaddr }
  putEntry se fun e => { e with dataCurrent.laddr := dataLaddr }
  let e ← loadEntry se
  pageAllocatorSwapMappings dataMaddr e.dataSnapshot.laddr e.dataSnapshot.maddr dataLaddr
  let sd ← currentSlabMaddr
  appendDirty sd se
  let e ← loadEntry se
  require (e.ptrSnapshot.maddr = 0) (.assertion "TODO: implement this later")

/-- `Func_slab_entry_snapshot`: the setting that picks the mapper picks this one too. -/
def funcSlabEntrySnapshot (se : EntryRef) : PmProg Unit := do
  let s ← get
  match s.pa with
  | .nonlinear _ => slabEntryCopynswap se
  | _ => slabEntrySnapshot se

/-- `handle_memory_update`, for a fault at `siAddr`. -/
def handleMemoryUpdate (siAddr : ℕ) : PmProg Unit := do
  let sd ← currentSlabMaddr
  let se ← usedFind sd (searchNormal (roundDwnPg siAddr))
  match se with
  | some se => do
    funcSlabEntrySnapshot se
    let e ← loadEntry se
    pageAllocatorMprotect e.dataCurrent.maddr paProtRnw
  | none => fail (.assertion "Got SIGSEGV at address")

/-! ## Stores -/

/-- The page at `a` can be stored to: a write fault was handled if there was one. -/
def makeWritable (a : ℕ) : PmProg Unit := do
  let s ← get
  let i ← ofOption .sigsegv (s.vpage a)
  when ((s.prot i).write = false) (handleMemoryUpdate a)

def updatePage (a : ℕ) (g : Page → Option Page) : PmProg Unit := do
  makeWritable a
  putPage a g

def updateEntry (r : EntryRef) (f : SlabEntry → SlabEntry) : PmProg Unit :=
  updatePage r.sb (Page.onEntry r.idx f)

def storeByte (a : ℕ) (v : UInt8) : PmProg Unit :=
  updatePage (roundDwnPg a) (Page.onByte (a % pageSize) v)

/-- A page allocated for a structure keeps the bytes it held before. -/
def retypePage (a : ℕ) (g : (ℕ → UInt8) → Page) : PmProg Unit := do
  let s ← get
  let i ← ofOption .sigsegv (s.fpage a)
  modify fun s => s.setPage i (g (s.bytesOf (s.file i)))

/-! ## Copy on write of the slab tree (snapshot.c) -/

/-- The indices both bucket functions compute from `sb_id`: `si_id`, `so_idx` and `sd_idx`. -/
def bucketIndices (sbId : ℕ) : ℕ × ℕ × ℕ :=
  let siId := sbId / slabInnerEntries
  let soId := siId / slabOuterEntries
  (siId, siId % slabOuterEntries, soId % slabDirEntries)

/-- The inner node both bucket functions work on, as they find it. -/
def bucketInner (sb : ℕ) : PmProg (ℕ × ℕ) := do
  let b ← loadBucket sb
  let (siId, soIdx, sdIdx) := bucketIndices b.sbId
  let d ← currentDir
  let o ← loadOuter (d.sdCurrent sdIdx).maddr
  require (siId < slabInnerEntries) .outOfBounds
  return ((o.soCurrent soIdx).maddr, siId)

def slabBucketSnapshot (sb : ℕ) : PmProg ℕ := do
  let (si, siId) ← bucketInner sb
  let i ← loadInner si
  if (i.siCurrent siId).maddr = (i.siSnapshot siId).maddr then do
    let (sbs, snapshotLaddr) ← pageAllocatorGetpage paProtWrite
    copyPage sbs sb
    updatePage si (Page.onInner fun i =>
      { i with siSnapshot := setLaddr i.siSnapshot siId snapshotLaddr })
    updatePage si (Page.onInner fun i => { i with siSnapshot := setMaddr i.siSnapshot siId sbs })
    return 1
  else return 0

def slabBucketCopynswap (sb : ℕ) : PmProg ℕ := do
  let (si, siId) ← bucketInner sb
  let i ← loadInner si
  if (i.siCurrent siId).maddr = (i.siSnapshot siId).maddr then do
    let (sbs, snapshotLaddr) ← pageAllocatorGetpage paProtWrite
    copyPage sbs sb
    let i ← loadInner si
    pageAllocatorSwapMappings (i.siCurrent siId).maddr snapshotLaddr sbs (i.siCurrent siId).laddr
    updatePage si (Page.onInner fun i =>
      { i with siCurrent := setLaddr i.siCurrent siId snapshotLaddr })
    updatePage si (Page.onInner fun i => { i with siSnapshot := setMaddr i.siSnapshot siId sbs })
    return 1
  else return 0

/-- `Func_slab_bucket_snapshot`. -/
def funcSlabBucketSnapshot (sb : ℕ) : PmProg ℕ := do
  let s ← get
  match s.pa with
  | .nonlinear _ => slabBucketCopynswap sb
  | _ => slabBucketSnapshot sb

/-- The common part of `slab_inner_snapshot`, `slab_outer_snapshot` and `slab_dir_snapshot`: a copy
of the node, whose offset goes through `laddr`. -/
def nodeSnapshot (node : ℕ) (setLaddr : ℕ → PmProg Unit) : PmProg ℕ := do
  let (copy, snapshotLaddr) ← pageAllocatorGetpage paProtWrite
  copyPage copy node
  setLaddr snapshotLaddr
  return copy

def slabInnerSnapshot (si : ℕ) (setLaddr : ℕ → PmProg Unit) : PmProg ℕ := nodeSnapshot si setLaddr
def slabOuterSnapshot (so : ℕ) (setLaddr : ℕ → PmProg Unit) : PmProg ℕ := nodeSnapshot so setLaddr
def slabDirSnapshot (sd : ℕ) (setLaddr : ℕ → PmProg Unit) : PmProg ℕ := nodeSnapshot sd setLaddr

end LibPM

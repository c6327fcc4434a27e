import LibPM.Model.Snapshot

/-!
# The slab tree: construction, traversal, pointer records and the root word (slab.c)

An entry is named by its bucket and its index there. The two kinds of tail queues, the free list
in the directory page and the list of a size in a heap node, share their operations.
-/

namespace LibPM

open Recorded Recorded.Prog

/-! ## Tail queues of entries (queue.h) -/

/-- Where the head of a tail queue is kept. -/
structure StailqAt where
  head : PmProg Stailq
  setFirst : Option EntryRef → PmProg Unit
  setLast : Option EntryRef → PmProg Unit

/-- `sd->sd_free_list`. -/
def sdFreeListAt (sd : ℕ) : StailqAt where
  head := (·.sdFreeList) <$> loadDir sd
  setFirst e := updatePage sd (Page.onDir fun d => { d with sdFreeList.first := e })
  setLast e := updatePage sd (Page.onDir fun d => { d with sdFreeList.last := e })

def updateSize (size : ℕ) (f : Stailq → Stailq) (es : SlabEntrySize) : SlabEntrySize :=
  if es.esSize = size then { es with esList := f es.esList } else es

/-- `es->es_list` of the heap node for `size`. -/
def esListAt (size : ℕ) : StailqAt where
  head := do
    let s ← get
    let es ← ofOption .sigsegv (s.sizes.find? (·.esSize == size))
    return es.esList
  setFirst e := modify fun s =>
    { s with sizes := s.sizes.map (updateSize size fun q => { q with first := e }) }
  setLast e := modify fun s =>
    { s with sizes := s.sizes.map (updateSize size fun q => { q with last := e }) }

def stailqInsertTail (q : StailqAt) (elm : EntryRef) : PmProg Unit := do
  updateEntry elm fun e => { e with seList := none }
  let h ← q.head
  (match h.last with
    | none => q.setFirst (some elm)
    | some r => updateEntry r fun e => { e with seList := some elm })
  q.setLast (some elm)

def stailqInsertHead (q : StailqAt) (elm : EntryRef) : PmProg Unit := do
  let h ← q.head
  updateEntry elm fun e => { e with seList := h.first }
  when (h.first = none) (q.setLast (some elm))
  q.setFirst (some elm)

def stailqRemoveHead (q : StailqAt) : PmProg Unit := do
  let h ← q.head
  let first ← ofOption .sigsegv h.first
  let e ← loadEntry first
  q.setFirst e.seList
  when (e.seList = none) (q.setLast none)

/-! ## Construction -/

/-- `GET_NEXT_BUCKET_ID()`. -/
def getNextBucketId : PmProg ℕ := do
  let s ← get
  modify fun s => { s with nextSlabBucketId := (s.nextSlabBucketId + 1) % 2 ^ 32 }
  return s.nextSlabBucketId

/-- `GET_NEXT_SLAB_ENTRY_ID()`. -/
def getNextSlabEntryId : PmProg ℕ := do
  let s ← get
  modify fun s => { s with nextSlabEntryId := (s.nextSlabEntryId + 1) % 2 ^ 32 }
  return s.nextSlabEntryId

/-- `slab_entry_size_init` and the insertion of the node in `sd_size_root`. -/
def slabEntrySizeInit (size : ℕ) : PmProg Unit :=
  modify fun s => { s with sizes := ⟨size, Stailq.init⟩ :: s.sizes }

def slabEntryInit (se : EntryRef) (size : ℕ) : PmProg Unit := do
  let (maddr, laddr) ← pageAllocatorGetpage paProtRead
  retypePage maddr .data
  updateEntry se fun e => { e with dataCurrent.laddr := laddr }
  updateEntry se fun e => { e with dataCurrent.maddr := maddr }
  updateEntry se fun e => { e with dataSnapshot.maddr := e.dataCurrent.maddr }
  updateEntry se fun e => { e with dataSnapshot.laddr := e.dataCurrent.laddr }
  updateEntry se fun e => { e with ptrSnapshot.idx := 0 }
  updateEntry se fun e => { e with ptrCurrent.idx := 0 }
  updateEntry se fun e => { e with ptrSnapshot.maddr := 0 }
  updateEntry se fun e => { e with ptrCurrent.maddr := 0 }
  updateEntry se fun e => { e with ptrSnapshot.laddr := 0 }
  updateEntry se fun e => { e with ptrCurrent.laddr := 0 }
  updateEntry se fun e => { e with seSize := size }
  let id ← getNextSlabEntryId
  updateEntry se fun e => { e with seId := id }

/-- `slab_outer_init`: the address of the node and its offset. The page is not cleared. -/
def slabOuterInit : PmProg (ℕ × ℕ) := do
  let (so, laddr) ← pageAllocatorGetpage paProtWrite
  retypePage so fun b => .outer (outerOfBytes b)
  return (so, laddr)

/-- `slab_inner_init`. The page is not cleared. -/
def slabInnerInit : PmProg (ℕ × ℕ) := do
  let (si, laddr) ← pageAllocatorGetpage paProtWrite
  retypePage si fun b => .inner (innerOfBytes b)
  return (si, laddr)

/-- The entries of a new bucket join the free list of the directory at `sd`. -/
def freeBucketEntries (sd sb : ℕ) : PmProg Unit :=
  (List.range slabBucketEntries).forM fun i => stailqInsertTail (sdFreeListAt sd) ⟨sb, i⟩

def slabBucketInit : PmProg (ℕ × ℕ) := do
  let sd ← currentSlabMaddr
  let (sb, laddr) ← pageAllocatorGetpage paProtWrite
  updatePage sb fun _ => some (.bucket (bucketOfBytes fun _ => 0))
  let id ← getNextBucketId
  updatePage sb (Page.onBucket fun b => { b with sbId := id })
  freeBucketEntries sd sb
  return (sb, laddr)

/-- A new outer node takes the next slot of the directory, in both versions. -/
def installOuter (sd so laddr : ℕ) : PmProg Unit := do
  let d ← loadDir sd
  let i := d.sdIndex
  require (i < slabDirEntries) .outOfBounds
  updatePage sd (Page.onDir fun d => { d with sdCurrent := setMaddr d.sdCurrent i so })
  updatePage sd (Page.onDir fun d => { d with sdCurrent := setLaddr d.sdCurrent i laddr })
  updatePage sd (Page.onDir fun d => { d with sdSnapshot := setMaddr d.sdSnapshot i so })
  updatePage sd (Page.onDir fun d => { d with sdSnapshot := setLaddr d.sdSnapshot i laddr })
  updatePage sd (Page.onDir fun d => { d with sdIndex := i + 1 })

/-- A new inner node takes the next slot of an outer node, in both versions. -/
def installInner (so si laddr : ℕ) : PmProg Unit := do
  let o ← loadOuter so
  let i := o.soIndex
  require (i < slabOuterEntries) .outOfBounds
  updatePage so (Page.onOuter fun o => { o with soCurrent := setMaddr o.soCurrent i si })
  updatePage so (Page.onOuter fun o => { o with soCurrent := setLaddr o.soCurrent i laddr })
  updatePage so (Page.onOuter fun o => { o with soSnapshot := setMaddr o.soSnapshot i si })
  updatePage so (Page.onOuter fun o => { o with soSnapshot := setLaddr o.soSnapshot i laddr })
  updatePage so (Page.onOuter fun o => { o with soIndex := i + 1 })

/-- A new bucket takes the next slot of an inner node, in both versions. -/
def installBucket (si sb laddr : ℕ) : PmProg Unit := do
  let n ← loadInner si
  let i := n.siIndex
  require (i < slabInnerEntries) .outOfBounds
  updatePage si (Page.onInner fun n => { n with siCurrent := setMaddr n.siCurrent i sb })
  updatePage si (Page.onInner fun n => { n with siCurrent := setLaddr n.siCurrent i laddr })
  updatePage si (Page.onInner fun n => { n with siSnapshot := setMaddr n.siSnapshot i sb })
  updatePage si (Page.onInner fun n => { n with siSnapshot := setLaddr n.siSnapshot i laddr })
  updatePage si (Page.onInner fun n => { n with siIndex := i + 1 })

/-- `RB_INIT` of both trees and `STAILQ_INIT` of the free list. -/
def clearIndexes (sd : ℕ) : PmProg Unit := do
  updatePage sd (Page.onDir fun d => { d with sdMaddrRoot := [] })
  modify fun s => { s with sizes := [] }
  updatePage sd (Page.onDir fun d => { d with sdFreeList.first := none })
  updatePage sd (Page.onDir fun d => { d with sdFreeList.last := none })

/-- `slab_dir_init`: the address of the directory and its offset. -/
def slabDirInit : PmProg (ℕ × ℕ) := do
  let (sd, laddr) ← pageAllocatorGetpage paProtWrite
  retypePage sd fun b => .dir (dirOfBytes b)
  let (so, soLaddr) ← slabOuterInit
  let (si, siLaddr) ← slabInnerInit
  let (sb, sbLaddr) ← pageAllocatorGetpage paProtWrite
  retypePage sb fun b => .bucket (bucketOfBytes b)
  let id ← getNextBucketId
  updatePage sb (Page.onBucket fun b => { b with sbId := id })
  installOuter sd so soLaddr
  clearIndexes sd
  installInner so si siLaddr
  installBucket si sb sbLaddr
  freeBucketEntries sd sb
  let s ← get
  updatePage sd (Page.onDir fun d => { d with sdVector := CVector.init, sdVectorHeap := s.heap })
  return (sd, laddr)

/-- `RB_INSERT` into `sd_maddr_root`, which drops an entry whose address is there already. -/
def usedInsert (sd : ℕ) (se : EntryRef) : PmProg Unit := do
  let e ← loadEntry se
  let found ← usedFind sd (searchNormal e.dataCurrent.maddr)
  when (found = none) (updatePage sd (Page.onDir fun d =>
    { d with sdMaddrRoot := se :: d.sdMaddrRoot }))

/-! ## Traversal of the current tree -/

/-- The loop over the slots in use of one node, whose array has `bound` slots. -/
def forSlots (bound : ℕ) (index : PmProg ℕ) (body : ℕ → PmProg Unit) : PmProg Unit :=
  upTo .outOfBounds index (fun i => do require (i < bound) .outOfBounds; body i) (bound + 1) 0

/-- The four nested loops of `slab_mprotect_datapgs` and `do_fixptrs`: `f` runs on the initialised
entries of the current tree. -/
def forInitEntries (f : EntryRef → PmProg Unit) : PmProg Unit := do
  let sd ← currentSlabMaddr
  forSlots slabDirEntries ((·.sdIndex) <$> loadDir sd) fun i => do
    let so := ((← loadDir sd).sdCurrent i).maddr
    forSlots slabOuterEntries ((·.soIndex) <$> loadOuter so) fun j => do
      let si := ((← loadOuter so).soCurrent j).maddr
      forSlots slabInnerEntries ((·.siIndex) <$> loadInner si) fun k => do
        let sb := ((← loadInner si).siCurrent k).maddr
        (List.range slabBucketEntries).forM fun l => do
          let e ← loadEntry ⟨sb, l⟩
          when (e.isInit = true) (f ⟨sb, l⟩)

def slabMprotectDatapgs (prot : Prot) : PmProg Unit :=
  forInitEntries fun se => do
    let e ← loadEntry se
    pageAllocatorMprotect e.dataCurrent.maddr prot

def getSlabEntryById (seid : ℕ) : PmProg EntryRef := do
  let sbId := seid / slabBucketEntries
  let siId := sbId / slabInnerEntries
  let soId := siId / slabOuterEntries
  let d ← currentDir
  let o ← loadOuter (d.sdCurrent (soId % slabDirEntries)).maddr
  let i ← loadInner (o.soCurrent (siId % slabOuterEntries)).maddr
  return ⟨(i.siCurrent (sbId % slabInnerEntries)).maddr, seid % slabBucketEntries⟩

/-! ## Pointers inside the container -/

/-- The eight bytes of a word. -/
def wordBytes (v : ℕ) : List UInt8 := (List.range 8).map fun i => UInt8.ofNat (v / 256 ^ i)

def storeWord (a v : ℕ) : PmProg Unit :=
  ((wordBytes v).zipIdx a).forM fun (b, x) => storeByte x b

def loadWord (a : ℕ) : PmProg ℕ := do
  let bs ← (List.range' a 8).mapM loadByte
  return bs.foldr (fun b n => b.toNat + 256 * n) 0

/-- The loop of `do_fixptrs` over the records of one entry. -/
def fixEntryPtrs (seLoc : EntryRef) : PmProg Unit := do
  let e ← loadEntry seLoc
  let sp := e.ptrCurrent.maddr
  upTo .intOverflow ((·.ptrCurrent.idx) <$> loadEntry seLoc) (fun m => do
    let e ← loadEntry seLoc
    let p ← loadPtrRec sp m
    let ptrLoc := e.dataCurrent.maddr + p.plocOffset
    if p.pvalSeid = slabPtrSeidNull ∧ p.pvalOffset = slabPtrOffsetNull then
      storeWord ptrLoc 0
    else do
      let seVal ← getSlabEntryById p.pvalSeid
      let v ← loadEntry seVal
      storeWord ptrLoc (v.dataCurrent.maddr + p.pvalOffset)) (intMax + 1) 0

def doFixptrs : PmProg Unit := forInitEntries fixEntryPtrs

def slabFixptrs : PmProg Unit := do
  let s ← get
  when (s.fixPtrs = true) doFixptrs

/-- The record a pointer gets: its own offset, then the target. -/
def appendPtrRec (seLoc : EntryRef) (plocOffset pvalSeid pvalOffset : ℕ) : PmProg Unit := do
  let e ← loadEntry seLoc
  let sptr := e.ptrCurrent.maddr
  let idx := e.ptrCurrent.idx
  require (sizeofSlabPtrRec * idx + sizeofSlabPtrRec ≤ pageSize) .outOfBounds
  updatePage sptr (Page.onPtrRec idx fun p => { p with plocOffset := plocOffset })
  updatePage sptr (Page.onPtrRec idx fun p => { p with pvalSeid := pvalSeid })
  updatePage sptr (Page.onPtrRec idx fun p => { p with pvalOffset := pvalOffset })
  updateEntry seLoc fun e => { e with ptrCurrent.idx := (idx + 1) % 2 ^ 16 }

def doInsertPointer (ptrLoc : ℕ) : PmProg Unit := do
  let sd ← currentSlabMaddr
  let ptrVal ← loadWord ptrLoc
  let seLoc ← usedFind sd (searchNormal (roundDwnPg ptrLoc))
  match seLoc with
  | none => fail (.assertion "failed to find the slab entry for the given pointer location")
  | some seLoc => do
    let e ← loadEntry seLoc
    when (e.ptrCurrent.maddr = 0) do
      let (maddr, laddr) ← pageAllocatorGetpage paProtWrite
      retypePage maddr fun b => .ptrs (ptrsOfBytes b)
      updateEntry seLoc fun e => { e with ptrCurrent.laddr := laddr }
      updateEntry seLoc fun e => { e with ptrCurrent.maddr := maddr }
    if ptrVal = 0 then appendPtrRec seLoc (ptrLoc % pageSize) slabPtrSeidNull slabPtrOffsetNull
    else do
      let seVal ← usedFind sd (searchNormal (roundDwnPg ptrVal))
      match seVal with
      | none => fail (.assertion "failed to find the target slab_entry for the given pointer")
      | some seVal => do
        let v ← loadEntry seVal
        appendPtrRec seLoc (ptrLoc % pageSize) v.seId (ptrVal % pageSize)

def slabInsertPointer (ptrLoc : ℕ) : PmProg Unit := do
  let s ← get
  when (s.fixPtrs = true) (doInsertPointer ptrLoc)

/-! ## The root word -/

/-- `PACK_CONT_ROOT`. -/
def packContRoot (seid offset : ℕ) : ℕ := (seid <<< 16 % 2 ^ 64) ||| (offset % 2 ^ 64)

/-- `UNPACK_CONT_ROOT`: the entry id and the offset. -/
def unpackContRoot (v : ℕ) : ℕ × ℕ := (v >>> 16 % 2 ^ 32, v % 2 ^ 16)

/-- `slab_setroot`. The offset is the page address less `maddr`, as an unsigned word. -/
def slabSetroot (maddr : ℕ) : PmProg ℕ := do
  let sd ← currentSlabMaddr
  let se ← usedFind sd (searchNormal (roundDwnPg maddr))
  match se with
  | none => return 0
  | some se => do
    let e ← loadEntry se
    let newContRoot := packContRoot e.seId (roundDwnPg maddr + 2 ^ 64 - maddr)
    updatePage sd (Page.onDir fun d => { d with sdContRoot := newContRoot })
    return 1

def slabGetroot : PmProg ℕ := do
  let d ← currentDir
  let (rootSeid, rootOffset) := unpackContRoot d.sdContRoot
  let se ← getSlabEntryById rootSeid
  let e ← loadEntry se
  return e.dataCurrent.maddr + rootOffset

def slabFind (maddr : ℕ) : PmProg (Option EntryRef) := do
  let sd ← currentSlabMaddr
  usedFind sd (searchMaddr maddr)

end LibPM

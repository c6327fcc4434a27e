import LibPM.Recorded.Basic
import LibPM.Model.Layout

/-!
# The mapping of the container file and the two page allocators

`Pm` is the durable side of a process: the backing file, the mapping the kernel keeps of it, the
page allocator and the few process variables of the slab code. The fixed mapper (fixmapper.c)
maps the whole file at one address; the non-linear mapper (nlmapper.c) permutes file pages under
fixed addresses. `map_hint` and the room above the mapping belong to the environment (`mapHint`,
`mapLimit`).
-/

namespace LibPM

open Recorded Recorded.Prog

/-! ## Allocator structures -/

structure FixedPage where
  pgno : ℕ
  protFlags : Prot
  deriving DecidableEq, Repr

/-- `struct fixed_mapper`. The list holds page numbers; `index i = none` is a slot of the index
that was never written. -/
structure FixedMapper where
  fileSize : ℕ
  startAddr : ℕ
  freeSize : ℕ
  freeHead : List ℕ
  freeLast : Option ℕ
  index : ℕ → Option FixedPage

structure NlmPage where
  pgoff : ℕ
  addr : ℕ
  isFree : Bool
  isUse : Bool
  isNonlinear : Bool
  deriving DecidableEq, Repr

/-- `struct nlm`. Pages are named by their address, which never changes; `root` is the tree of
pages in use. -/
structure Nlm where
  fileSize : ℕ
  prevFileSize : ℕ
  startAddr : ℕ
  isNonlinear : Bool
  isFullyMapped : Bool
  pgcnt : ℕ
  freeSize : ℕ
  freeHead : List NlmPage
  freeLast : Option ℕ
  root : List NlmPage
  deriving DecidableEq, Repr

/-- `PAGE_ALLOCATORS[0]`. -/
inductive PageAllocator where
  | unset
  | fixed (fm : FixedMapper)
  | nonlinear (nlm : Nlm)

/-- The durable side of a process. -/
structure Pm where
  pa : PageAllocator
  /-- Length of the backing file in bytes. -/
  fileLen : ℕ
  /-- The file, page by page. -/
  file : ℕ → Page
  /-- Protection of each page of the mapping. -/
  prot : ℕ → Prot
  /-- The file page behind each page of the mapping. -/
  vmap : ℕ → ℕ
  /-- The address `map_hint` returns, zero when it finds no room. -/
  mapHint : ℕ
  /-- First address above the mapping that is used by something else. -/
  mapLimit : ℕ
  /-- The bytes of a page that does not hold plain data. -/
  raw : Page → ℕ → UInt8
  /-- `CONTAINERS[0]`. -/
  containers : Option ℕ
  /-- The heap nodes of the tree of sizes. -/
  sizes : List SlabEntrySize
  nextSlabBucketId : ℕ
  nextSlabEntryId : ℕ
  /-- The number of this process: the heap buffers of an earlier one are gone. -/
  heap : ℕ
  /-- Whether `PMLIB_FIX_PTRS` leaves pointer fixing on. -/
  fixPtrs : Bool

/-- Programs over the durable side. -/
abbrev PmProg (α : Type) : Type := Prog Pm Fault α

/-! ## Addresses -/

namespace Pm

def startAddr (s : Pm) : ℕ :=
  match s.pa with
  | .unset => 0
  | .fixed fm => fm.startAddr
  | .nonlinear nlm => nlm.startAddr

/-- Length of the mapping in bytes. -/
def mapLen (s : Pm) : ℕ :=
  match s.pa with
  | .unset => 0
  | .fixed fm => fm.fileSize
  | .nonlinear nlm => nlm.fileSize

/-- The page of the mapping an address lies in. -/
def vpage (s : Pm) (a : ℕ) : Option ℕ :=
  if s.startAddr ≤ a ∧ a < s.startAddr + s.mapLen then some ((a - s.startAddr) / pageSize) else none

/-- The file page behind an address. -/
def fpage (s : Pm) (a : ℕ) : Option ℕ := (s.vpage a).map s.vmap

/-- The page that starts at an address. -/
def pageAt (s : Pm) (a : ℕ) : Option Page :=
  if a % pageSize = 0 then (s.fpage a).map s.file else none

/-- The bytes of a page. -/
def bytesOf (s : Pm) : Page → ℕ → UInt8
  | .data b => b
  | p => s.raw p

def readContainer (s : Pm) (a : ℕ) : Option Container :=
  match s.pageAt a with
  | some (.container c) => some c
  | _ => none

def readDir (s : Pm) (a : ℕ) : Option SlabDir :=
  match s.pageAt a with
  | some (.dir d) => some d
  | _ => none

def readOuter (s : Pm) (a : ℕ) : Option SlabOuter :=
  match s.pageAt a with
  | some (.outer o) => some o
  | _ => none

def readInner (s : Pm) (a : ℕ) : Option SlabInner :=
  match s.pageAt a with
  | some (.inner i) => some i
  | _ => none

def readBucket (s : Pm) (a : ℕ) : Option SlabBucket :=
  match s.pageAt a with
  | some (.bucket b) => some b
  | _ => none

def readPtrs (s : Pm) (a : ℕ) : Option (ℕ → SlabPtrRec) :=
  match s.pageAt a with
  | some (.ptrs p) => some p
  | _ => none

def readEntry (s : Pm) (r : EntryRef) : Option SlabEntry :=
  if r.idx < slabBucketEntries then (s.readBucket r.sb).map (·.sbEntries r.idx) else none

end Pm

/-- `mprotect` on one page of the mapping. -/
def pageAllocatorMprotect (maddr : ℕ) (flags : Prot) : PmProg Unit := do
  let s ← get
  let i ← ofOption (.assertion "failed to memprotect page") (s.vpage maddr)
  modify fun s => { s with prot := Function.update s.prot i flags }

/-- `posix_fallocate`: the file is extended to `offset + len`. -/
def posixFallocate (offset len : ℕ) : PmProg Unit :=
  modify fun s => { s with fileLen := max s.fileLen (offset + len) }

/-- `mmap` at the hint: the file pages lie linearly there, all with the default protection. -/
def mmapAt (hint len : ℕ) : PmProg Unit := do
  require (hint ≠ 0) (.assertion "Could not find a big-enough region")
  let s ← get
  require (hint + len ≤ s.mapLimit) (.assertion "Could not mapped at the hinted address")

@[simp] theorem returns_mmapAt {hint len : ℕ} {s s' : Pm} {u : Unit} :
    Returns (mmapAt hint len) s u s' ↔ hint ≠ 0 ∧ hint + len ≤ s.mapLimit ∧ s = s' := by
  unfold mmapAt
  simp only [returns_bind, returns_require, returns_get]
  constructor
  · rintro ⟨_, _, ⟨hne, rfl⟩, _, _, ⟨rfl, rfl⟩, hle, rfl⟩
    exact ⟨hne, hle, rfl⟩
  · rintro ⟨hne, hle, rfl⟩
    exact ⟨(), s, ⟨hne, rfl⟩, s, s, ⟨rfl, rfl⟩, hle, rfl⟩

/-- `LIST_INSERT_AFTER`. -/
def listInsertAfter {α : Type} (isLast : α → Bool) (p : α) : List α → Except Fault (List α)
  | [] => .error .corruptList
  | y :: l => if isLast y then .ok (y :: p :: l) else (y :: ·) <$> listInsertAfter isLast p l

/-! ## The fixed mapper (fixmapper.c) -/

def bytes2pgs (bytes : ℕ) : ℕ := bytes / pageSize

def fixedPageAlloc (pgno : ℕ) : FixedPage := ⟨pgno, defaultMappingProt⟩

namespace FixedMapper

/-- One round of the loop of `fixed_mapper_grow_file`. -/
def addPage (fm : FixedMapper) (i : ℕ) : Except Fault FixedMapper := do
  let last ← (match fm.freeLast with
    | some l => .ok l
    | none => .error .sigsegv)
  let head ← listInsertAfter (· == last) i fm.freeHead
  return { fm with
    index := Function.update fm.index i (some (fixedPageAlloc i))
    freeHead := head
    freeSize := fm.freeSize + 1
    freeLast := some i }

/-- `fixed_mapper_grow_file`, less the call that extends the file. -/
def growFile (fm : FixedMapper) (newSize : ℕ) : Except Fault FixedMapper :=
  if fm.freeSize ≠ 0 then .error (.assertion "growing file while with free pages")
  else do
    let cur := bytes2pgs fm.fileSize
    let new := bytes2pgs newSize
    let fm := { fm with
      index := Function.update fm.index cur (some (fixedPageAlloc cur))
      freeHead := cur :: fm.freeHead
      freeLast := some cur
      freeSize := fm.freeSize + 1 }
    let fm ← (List.range' (cur + 1) (new - (cur + 1))).foldlM addPage fm
    return { fm with fileSize := newSize }

/-- The list insertion of `fixed_mapper_freepages`. Linking a page that is in the list already
breaks the list, which has no counterpart here. -/
def insertFree (fm : FixedMapper) (pgno : ℕ) : Except Fault FixedMapper :=
  if pgno ∈ fm.freeHead then .error .corruptList
  else do
    let head ← (match fm.freeLast with
      | some l => listInsertAfter (· == l) pgno fm.freeHead
      | none => .ok (pgno :: fm.freeHead))
    return { fm with freeHead := head, freeLast := some pgno, freeSize := fm.freeSize + 1 }

/-- The list removal of `fixed_mapper_alloc_page`. -/
def takeFree (fm : FixedMapper) : Except Fault (ℕ × FixedMapper) :=
  match fm.freeHead with
  | [] => .error .sigsegv
  | p :: rest => .ok (p, { fm with
      freeHead := rest
      freeSize := fm.freeSize - 1
      freeLast := if fm.freeSize - 1 = 0 then none else fm.freeLast })

end FixedMapper

def fixedMapperGrowFile (fm : FixedMapper) (newSize : ℕ) : PmProg FixedMapper := do
  let fm' ← ofResult (fm.growFile newSize)
  posixFallocate fm.fileSize newSize
  return fm'

/-- One round of `update_mapping_prot`. -/
def updatePageProt (fm : FixedMapper) (i : ℕ) : PmProg Unit := do
  let p ← ofOption .uninitialised (fm.index i)
  modify fun s => { s with prot := Function.update s.prot p.pgno p.protFlags }

def updateMappingProt (fm : FixedMapper) : PmProg Unit :=
  (List.range (bytes2pgs fm.fileSize)).forM (updatePageProt fm)

/-- `map_file`. A file that is mapped again takes the addresses behind the old mapping, whatever
was there: the process cannot go on if something was. -/
def mapFile (fm : FixedMapper) (updateMappings : Bool) : PmProg FixedMapper := do
  let s ← get
  let hint := if fm.startAddr = 0 then s.mapHint else fm.startAddr
  when (fm.startAddr = 0) (mmapAt hint fm.fileSize)
  require (hint + fm.fileSize ≤ s.mapLimit) .sigsegv
  modify fun s => { s with prot := fun _ => defaultMappingProt, vmap := id }
  let fm := { fm with startAddr := hint }
  when (updateMappings = true) (updateMappingProt fm)
  return fm

/-- `fixed_mapper_init`; `initSize` is the size a new file gets. -/
def fixedMapperInit (initSize : ℕ) : PmProg FixedMapper := do
  let s ← get
  let fm : FixedMapper := ⟨s.fileLen, 0, 0, [], none, fun _ => none⟩
  let fm ← (if fm.fileSize = 0 then fixedMapperGrowFile fm initSize else pure fm)
  mapFile fm false

/-- `fixed_mapper_alloc_page`: the address and the file offset of the page. -/
def fixedMapperAllocPage (fm : FixedMapper) (flags : Prot) : PmProg (ℕ × ℕ) := do
  let fm ← (if fm.freeSize = 0 then do
      let fm ← fixedMapperGrowFile fm (fm.fileSize * 2)
      mapFile fm true
    else pure fm)
  let (p, fm) ← ofResult fm.takeFree
  let page ← ofOption .uninitialised (fm.index p)
  modify fun s => { s with pa := .fixed { fm with
    index := Function.update fm.index p (some { page with protFlags := flags }) } }
  when (flags.write = true) (modify fun s => { s with prot := Function.update s.prot p flags })
  return (fm.startAddr + p * pageSize, p * pageSize)

/-- `fixed_mapper_freepages`. -/
def fixedMapperFreepages (fm : FixedMapper) (maddr : ℕ) : PmProg Unit := do
  require (maddr = roundDwnPg maddr) (.assertion "Address is not page aligned")
  require (fm.startAddr ≤ maddr) .outOfBounds
  let p ← ofOption .uninitialised (fm.index ((maddr - fm.startAddr) / pageSize))
  let fm ← ofResult (fm.insertFree p.pgno)
  modify fun s => { s with pa := .fixed fm }

/-! ## The non-linear mapper (nlmapper.c) -/

namespace Nlm

/-- `__nlm_free_page` for a page that is not in the tree. -/
def listFree (nlm : Nlm) (p : NlmPage) : Except Fault Nlm := do
  let head ← (if nlm.freeSize = 0 then
      if nlm.freeLast.isSome then .error (.assertion "Invalid last pointer")
      else .ok (p :: nlm.freeHead)
    else match nlm.freeLast with
      | some l => listInsertAfter (·.addr == l) p nlm.freeHead
      | none => .error .sigsegv)
  return { nlm with
    freeHead := head.map fun q => if q.addr = p.addr then { q with isFree := true, isUse := false }
      else q
    freeLast := some p.addr
    freeSize := nlm.freeSize + 1 }

/-- `__nlm_free_page` for a page of the tree. -/
def freePage (nlm : Nlm) (p : NlmPage) : Except Fault Nlm :=
  if p.isUse = false then .error (.assertion "Invalid page status")
  else listFree { nlm with root := nlm.root.filter (·.addr != p.addr) } p

/-- `__nlm_use_page` on the head of the free list. -/
def usePage (nlm : Nlm) : Except Fault (NlmPage × Nlm) :=
  match nlm.freeHead with
  | [] => .error .sigsegv
  | p :: rest =>
    if p.isFree = false then .error (.assertion "invalid page status")
    else
      let p' := { p with isFree := false, isUse := true }
      .ok (p', { nlm with
        freeHead := rest
        freeSize := nlm.freeSize - 1
        freeLast := if nlm.freeSize - 1 = 0 then none else nlm.freeLast
        root := if nlm.root.any (·.addr == p.addr) then nlm.root else p' :: nlm.root })

/-- `nlm_page_alloc` and the insertion of the new page in the free list. -/
def addPage (nlm : Nlm) (i : ℕ) : Except Fault Nlm :=
  let off := nlm.prevFileSize + i * pageSize
  listFree { nlm with pgcnt := nlm.pgcnt + 1 } ⟨off, nlm.startAddr + off, false, false, false⟩

/-- `add_pages_to_free_list`. -/
def addPagesToFreeList (nlm : Nlm) : Except Fault Nlm :=
  (List.range ((nlm.fileSize - nlm.prevFileSize) / pageSize)).foldlM addPage nlm

/-- `is_nonlinear`. -/
def pageIsNonlinear (nlm : Nlm) (p : NlmPage) : Bool := p.addr - nlm.startAddr != p.pgoff

/-- `update_swapped_pages`. -/
def updateSwappedPages (nlm : Nlm) (xaddr yaddr : ℕ) : Nlm :=
  match nlm.root.find? (·.addr == xaddr), nlm.root.find? (·.addr == yaddr) with
  | some x, some y =>
    let x' := { x with pgoff := y.pgoff }
    let y' := { y with pgoff := x.pgoff }
    { nlm with root := nlm.root.map fun q =>
        if q.addr = xaddr then { x' with isNonlinear := pageIsNonlinear nlm x' }
        else if q.addr = yaddr then { y' with isNonlinear := pageIsNonlinear nlm y' }
        else q }
  | _, _ => nlm

end Nlm

/-- `nlm_grow_file`. -/
def nlmGrowFile (nlm : Nlm) (newSize : ℕ) : PmProg Nlm := do
  require (nlm.freeSize = 0) (.assertion "growing file while with free pages")
  posixFallocate nlm.fileSize newSize
  return { nlm with prevFileSize := nlm.fileSize, fileSize := newSize, isFullyMapped := false }

/-- `map_appending`, which always updates the free list: only the new part is mapped. -/
def mapAppending (nlm : Nlm) : PmProg Nlm := do
  require (nlm.isFullyMapped = false) (.assertion "Trying to map an fully mapped file")
  let s ← get
  let hint := if nlm.startAddr = 0 then s.mapHint else nlm.startAddr + nlm.prevFileSize
  mmapAt hint (nlm.fileSize - nlm.prevFileSize)
  let nlm := { nlm with startAddr := if nlm.startAddr = 0 then hint else nlm.startAddr }
  let old := bytes2pgs nlm.prevFileSize
  modify fun s => { s with
    prot := fun i => if i < old then s.prot i else defaultMappingProt
    vmap := fun i => if i < old then s.vmap i else i }
  let nlm ← ofResult nlm.addPagesToFreeList
  return { nlm with isFullyMapped := true }

/-- `nlm_init`. -/
def nlmInit (initSize : ℕ) : PmProg Nlm := do
  let s ← get
  let nlm : Nlm := ⟨s.fileLen, 0, 0, false, false, 0, 0, [], none, []⟩
  let nlm ← (if nlm.fileSize = 0 then nlmGrowFile nlm initSize else pure nlm)
  mapAppending nlm

/-- `nlm_alloc_page`. -/
def nlmAllocPage (nlm : Nlm) (flags : Prot) : PmProg (ℕ × ℕ) := do
  let nlm ← (if nlm.freeSize = 0 then do
      let nlm ← nlmGrowFile nlm (nlm.fileSize * 2)
      mapAppending nlm
    else pure nlm)
  let (p, nlm) ← ofResult nlm.usePage
  modify fun s => { s with pa := .nonlinear nlm }
  when (flags.write = true) (pageAllocatorMprotect p.addr flags)
  return (p.addr, p.pgoff)

/-- `nlm_free_pages`. -/
def nlmFreePages (nlm : Nlm) (addr : ℕ) : PmProg Unit := do
  let p ← ofOption (.assertion "page not found!")
    (nlm.root.find? (·.addr == roundDwnPg addr))
  let nlm ← ofResult (nlm.freePage p)
  modify fun s => { s with pa := .nonlinear nlm }

/-- `remap_file_pages` of one page. -/
def remapFilePages (addr pgoff : ℕ) : PmProg Unit := do
  let s ← get
  let i ← ofOption (.assertion "filed to remap pg_one") (s.vpage addr)
  modify fun s => { s with vmap := Function.update s.vmap i (pgoff / pageSize) }

/-- `nlm_swap_pages`. -/
def nlmSwapPages (nlm : Nlm) (xaddr ypgoff yaddr xpgoff : ℕ) : PmProg Unit := do
  remapFilePages xaddr ypgoff
  remapFilePages yaddr xpgoff
  let nlm := if xaddr - nlm.startAddr ≠ xpgoff then { nlm with isNonlinear := true } else nlm
  modify fun s => { s with pa := .nonlinear (nlm.updateSwappedPages xaddr yaddr) }

/-! ## The allocator interface (page_alloc.c) -/

/-- The page allocator chosen by `PMLIB_USE_NLMAPPER`. -/
inductive MapperKind where
  | fixedMapper
  | nonlinearMapper
  deriving DecidableEq, Repr

def pageAllocatorInit (kind : MapperKind) (initSize : ℕ) : PmProg Unit :=
  match kind with
  | .fixedMapper => do
    let fm ← fixedMapperInit initSize
    modify fun s => { s with pa := .fixed fm }
  | .nonlinearMapper => do
    let nlm ← nlmInit initSize
    modify fun s => { s with pa := .nonlinear nlm }

def pageAllocatorGetpage (flags : Prot) : PmProg (ℕ × ℕ) := do
  let s ← get
  match s.pa with
  | .unset => fail .sigsegv
  | .fixed fm => fixedMapperAllocPage fm flags
  | .nonlinear nlm => nlmAllocPage nlm flags

def pageAllocatorFreepages (maddr : ℕ) : PmProg Unit := do
  let s ← get
  match s.pa with
  | .unset => fail .sigsegv
  | .fixed fm => fixedMapperFreepages fm maddr
  | .nonlinear nlm => nlmFreePages nlm maddr

/-- `page_allocator_mappage`, the same in both mappers. -/
def pageAllocatorMappage (laddr : ℕ) : PmProg ℕ := do
  let s ← get
  return s.startAddr + laddr

def pageAllocatorSwapMappings (xaddr ypgoff yaddr xpgoff : ℕ) : PmProg Unit := do
  let s ← get
  match s.pa with
  | .unset => fail .sigsegv
  | .fixed _ => fail (.assertion "Fixed Mapper does not implement page mapping swap")
  | .nonlinear nlm => nlmSwapPages nlm xaddr ypgoff yaddr xpgoff

end LibPM

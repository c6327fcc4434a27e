import LibPM.LittleEndian.Basic
import LibPM.Model.Checkpoint

/-!
# The list of persistent pointers (fixptr.c)

The pages of the list are bytes, so that a page that is handed out again shows what it held before. Which
page the allocator hands out is left open: `PageSupply.pick` may depend on the pages in use and on the
number of the request, and a page that was given back may come again. A crash can come after every store to a
page or to the head of the list; what the allocator keeps is lost.
-/

namespace LibPM

open Recorded Recorded.Prog LittleEndian

/-- What is known of the page allocator: it hands out pages of the mapping that are not in use, as long as
it has one. -/
structure PageSupply where
  pick : List ℕ → ℕ → Option ℕ
  laddr : ℕ → ℕ
  mapped : ℕ → Bool
  pick_notMem : ∀ used n a, pick used n = some a → a ∉ used
  pick_ne : ∀ used n a, pick used n = some a → a ≠ 0
  pick_lt : ∀ used n a, pick used n = some a → a < 2 ^ 64
  pick_mapped : ∀ used n a, pick used n = some a → mapped a = true

/-- The end of a program for which the allocator cannot find a page. -/
def noPage : Fault :=
  .assertion "There is not enough space left on the device containing the file referred to by fd.\n"

/-- `struct pptr`, the fields in the order of `pptr_append`. -/
structure Pptr where
  plocSeid : UInt32
  plocOffset : UInt16
  pvalSeid : UInt32
  pvalOffset : UInt16
  deriving DecidableEq, Repr

/-- `PPTR_DNODE_ENTRIES`: a `struct pptr` has 16 bytes. -/
def pptrDnodeEntries : ℕ := (pageSize - 4) / 16

/-- `PPTR_INODE_ENTRIES`. -/
def pptrInodeEntries : ℕ := (pageSize - 4 - 8 - 8) / (2 * (8 + 8))

/-- `struct pptr_head`. -/
structure PptrHead where
  firstMaddr : ℕ
  firstLaddr : ℕ
  lastMaddr : ℕ
  deriving DecidableEq, Repr

/-- The pages, those in use by the list, the number of requests so far, and the head of the list. -/
structure PptrMem where
  bytes : ℕ → ℕ → UInt8
  used : List ℕ
  requests : ℕ
  head : PptrHead

abbrev PptrProg (α : Type) : Type := Prog PptrMem Fault α

/-! ## Fields -/

/-- The fields of `struct pptr_dnode`. -/
inductive PdnField where
  | pdnIndex
  | plocOffset (i : ℕ)
  | plocSeid (i : ℕ)
  | pvalOffset (i : ℕ)
  | pvalSeid (i : ℕ)
  deriving DecidableEq

def PdnField.off : PdnField → ℕ
  | .pdnIndex => 0
  | .plocOffset i => 4 + 16 * i
  | .plocSeid i => 4 + 16 * i + 4
  | .pvalOffset i => 4 + 16 * i + 8
  | .pvalSeid i => 4 + 16 * i + 12

def PdnField.size : PdnField → ℕ
  | .pdnIndex => 4
  | .plocOffset _ => 2
  | .plocSeid _ => 4
  | .pvalOffset _ => 2
  | .pvalSeid _ => 4

theorem PdnField.disjoint (f g : PdnField) (h : f ≠ g) : f.off + f.size ≤ g.off ∨ g.off + g.size ≤ f.off := by
  cases f <;> cases g <;> simp only [ne_eq, not_true_eq_false, plocOffset.injEq, plocSeid.injEq, pvalOffset.injEq, pvalSeid.injEq] at h <;>
    simp only [off, size] <;> omega

def pptrDnode : Layout PdnField := ⟨PdnField.off, PdnField.size, PdnField.disjoint⟩

/-- The fields of `struct pptr_inode`. -/
inductive PinField where
  | pinCurrentIdx
  | pinNextMaddr
  | pinNextLaddr
  | currentMaddr (i : ℕ)
  | currentLaddr (i : ℕ)
  | snapshotMaddr (i : ℕ)
  | snapshotLaddr (i : ℕ)
  deriving DecidableEq

def PinField.off : PinField → ℕ
  | .pinCurrentIdx => 0
  | .pinNextMaddr => 8
  | .pinNextLaddr => 16
  | .currentMaddr i => 24 + 32 * i
  | .currentLaddr i => 24 + 32 * i + 8
  | .snapshotMaddr i => 24 + 32 * i + 16
  | .snapshotLaddr i => 24 + 32 * i + 24

def PinField.size : PinField → ℕ
  | .pinCurrentIdx => 4
  | _ => 8

theorem PinField.disjoint (f g : PinField) (h : f ≠ g) : f.off + f.size ≤ g.off ∨ g.off + g.size ≤ f.off := by
  cases f <;> cases g <;> simp only [ne_eq, not_true_eq_false, currentMaddr.injEq, currentLaddr.injEq, snapshotMaddr.injEq, snapshotLaddr.injEq] at h <;>
    simp only [off, size] <;> omega

def pptrInode : Layout PinField := ⟨PinField.off, PinField.size, PinField.disjoint⟩

/-- Entry `i` of a dnode. -/
def pdnEntry (b : ℕ → UInt8) (i : ℕ) : Pptr where
  plocSeid := UInt32.ofNat (pptrDnode.read b (.plocSeid i))
  plocOffset := UInt16.ofNat (pptrDnode.read b (.plocOffset i))
  pvalSeid := UInt32.ofNat (pptrDnode.read b (.pvalSeid i))
  pvalOffset := UInt16.ofNat (pptrDnode.read b (.pvalOffset i))

section Functions

variable (P : PageSupply)

def loadField {F : Type} (L : Layout F) (a : ℕ) (f : F) : PptrProg ℕ := do
  let s ← get
  require (P.mapped a = true) .sigsegv
  return L.read (s.bytes a) f

def storeField {F : Type} (L : Layout F) (a : ℕ) (f : F) (v : ℕ) : PptrProg Unit := do
  require (P.mapped a = true) .sigsegv
  store fun s => { s with bytes := Function.update s.bytes a (L.write (s.bytes a) f v) }

/-- `page_allocator_getpage`; the bytes of the page stay. -/
def pptrGetpage : PptrProg ℕ := do
  let s ← get
  let a ← ofOption noPage (P.pick s.used s.requests)
  modify fun s => { s with used := a :: s.used, requests := s.requests + 1 }
  return a

/-- `page_allocator_freepages`. -/
def pptrFreepages (a : ℕ) : PptrProg Unit := do
  let s ← get
  require (a ∈ s.used) (.assertion "page not found!")
  modify fun s => { s with used := s.used.erase a }

/-- One byte of a page, from another. -/
def copyPptrByte (dst src i : ℕ) : PptrProg Unit :=
  store fun s => { s with bytes := Function.update s.bytes dst (Function.update (s.bytes dst) i (s.bytes src i)) }

/-- `pmemcpy` of a page. -/
def copyPptrPage (dst src : ℕ) : PptrProg Unit := do
  require (P.mapped dst = true ∧ P.mapped src = true) .sigsegv
  (List.range pageSize).forM (copyPptrByte dst src)

def pptrInit : PptrProg Unit := do
  let inode ← pptrGetpage P
  store fun s => { s with head.firstLaddr := P.laddr inode }
  store fun s => { s with head.firstMaddr := inode }
  store fun s => { s with head.lastMaddr := inode }
  storeField P pptrInode inode .pinCurrentIdx 0

def pptrSnapshotDnode (inode idx : ℕ) : PptrProg Unit := do
  require (idx < pptrInodeEntries) .outOfBounds
  let currentLaddr ← loadField P pptrInode inode (.currentLaddr idx)
  let snapshotLaddr ← loadField P pptrInode inode (.snapshotLaddr idx)
  when (currentLaddr = snapshotLaddr ∧ snapshotLaddr ≠ 0) do
    let snapshotMaddr ← pptrGetpage P
    storeField P pptrInode inode (.snapshotLaddr idx) (P.laddr snapshotMaddr)
    let current ← loadField P pptrInode inode (.currentMaddr idx)
    copyPptrPage P snapshotMaddr current
    storeField P pptrInode inode (.snapshotMaddr idx) snapshotMaddr

def pptrExtendList : PptrProg ℕ := do
  let s ← get
  let lastInode := s.head.lastMaddr
  let newLastInode ← pptrGetpage P
  storeField P pptrInode lastInode .pinNextLaddr (P.laddr newLastInode)
  storeField P pptrInode lastInode .pinNextMaddr newLastInode
  store fun s => { s with head.lastMaddr := newLastInode }
  return newLastInode

/-- `PPTR_DNODE_IS_FULL`. -/
def pptrDnodeIsFull (dnode : ℕ) : PptrProg Bool := do
  let idx ← loadField P pptrDnode dnode .pdnIndex
  return idx == pptrDnodeEntries

def pptrNeedExpanding (inode : ℕ) : PptrProg Bool := do
  let dnode ← loadField P pptrInode inode (.currentMaddr (pptrInodeEntries - 1))
  if dnode ≠ 0 then pptrDnodeIsFull P dnode else return false

/-- `PPTR_INODE_CMADDR`. -/
def pptrInodeCmaddr (inode : ℕ) : PptrProg ℕ := do
  let idx ← loadField P pptrInode inode .pinCurrentIdx
  require (idx < pptrInodeEntries) .outOfBounds
  loadField P pptrInode inode (.currentMaddr idx)

/-- The dnode that takes the next entry of an inode, if there is one yet. -/
def pptrNextDnode (inode : ℕ) : PptrProg ℕ := do
  let dnode ← pptrInodeCmaddr P inode
  let full ← (if dnode ≠ 0 then pptrDnodeIsFull P dnode else pure false)
  if full = true then do
    let idx ← loadField P pptrInode inode .pinCurrentIdx
    storeField P pptrInode inode .pinCurrentIdx (idx + 1)
    pptrInodeCmaddr P inode
  else return dnode

/-- `pptr_get_dnode`: the dnode and its inode. -/
def pptrGetDnode : PptrProg (ℕ × ℕ) := do
  let s ← get
  let expand ← pptrNeedExpanding P s.head.lastMaddr
  let lastInode ← (if expand = true then pptrExtendList P else pure s.head.lastMaddr)
  let dnode ← pptrNextDnode P lastInode
  if dnode = 0 then do
    let idx ← loadField P pptrInode lastInode .pinCurrentIdx
    require (idx < pptrInodeEntries) .outOfBounds
    let dnode ← pptrGetpage P
    storeField P pptrInode lastInode (.currentLaddr idx) (P.laddr dnode)
    storeField P pptrInode lastInode (.currentMaddr idx) dnode
    return (dnode, lastInode)
  else return (dnode, lastInode)

def pptrAppend (t : Pptr) : PptrProg Unit := do
  let (dnode, inode) ← pptrGetDnode P
  let idx ← loadField P pptrInode inode .pinCurrentIdx
  pptrSnapshotDnode P inode idx
  let i ← loadField P pptrDnode dnode .pdnIndex
  require (i < pptrDnodeEntries) .outOfBounds
  storeField P pptrDnode dnode (.plocSeid i) t.plocSeid.toNat
  storeField P pptrDnode dnode (.plocOffset i) t.plocOffset.toNat
  storeField P pptrDnode dnode (.pvalSeid i) t.pvalSeid.toNat
  storeField P pptrDnode dnode (.pvalOffset i) t.pvalOffset.toNat
  storeField P pptrDnode dnode .pdnIndex (i + 1)

/-- One turn of the inner loop of `pptr_cpoint`. -/
def pptrCpointEntry (inode idx : ℕ) : PptrProg Unit := do
  let current ← loadField P pptrInode inode (.currentMaddr idx)
  when (current ≠ 0) do
    let snapshot ← loadField P pptrInode inode (.snapshotMaddr idx)
    when (snapshot ≠ 0 ∧ snapshot ≠ current) (pptrFreepages snapshot)
    let laddr ← loadField P pptrInode inode (.currentLaddr idx)
    storeField P pptrInode inode (.snapshotLaddr idx) laddr
    storeField P pptrInode inode (.snapshotMaddr idx) current

/-- The outer loop of `pptr_cpoint`. It ends when the list does; a list of more inodes than there are pages
in use never does. -/
def pptrCpointFrom : ℕ → ℕ → PptrProg Unit
  | 0, _ => fail .corruptList
  | n + 1, inode =>
    if inode = 0 then pure ()
    else do
      (List.range pptrInodeEntries).forM (pptrCpointEntry P inode)
      let next ← loadField P pptrInode inode .pinNextMaddr
      pptrCpointFrom n next

def pptrCpoint : PptrProg Unit := do
  let s ← get
  pptrCpointFrom P (s.used.length + 1) s.head.firstMaddr

end Functions

/-! ## Mapping the list -/

section Mapping

variable (P : PageSupply) (start : ℕ)

/-- `page_allocator_mappage`; `start` is where the file is mapped. -/
def pptrMappage (laddr : ℕ) : ℕ := start + laddr

/-- The first loop of `pptr_map`, and the inode it ends at. -/
def pptrMapInodes : ℕ → ℕ → PptrProg ℕ
  | 0, _ => fail .corruptList
  | n + 1, inode => do
    let laddr ← loadField P pptrInode inode .pinNextLaddr
    if laddr ≠ 0 then do
      let next := pptrMappage start laddr
      storeField P pptrInode inode .pinNextMaddr next
      pptrMapInodes n next
    else return inode

/-- One turn of the inner loop of `pptr_map`. -/
def pptrMapEntry (type : CpointType) (inode i : ℕ) : PptrProg Unit := do
  let currentLaddr ← loadField P pptrInode inode (.currentLaddr i)
  when (currentLaddr ≠ 0) do
    storeField P pptrInode inode (.currentMaddr i) (pptrMappage start currentLaddr)
    let current ← loadField P pptrInode inode (.currentMaddr i)
    storeField P pptrInode inode (.snapshotMaddr i) current
  let snapshotLaddr ← loadField P pptrInode inode (.snapshotLaddr i)
  when (type = .incomplete ∧ snapshotLaddr ≠ 0)
    (storeField P pptrInode inode (.snapshotMaddr i) (pptrMappage start snapshotLaddr))

/-- The second loop of `pptr_map`. -/
def pptrMapEntriesFrom (type : CpointType) : ℕ → ℕ → PptrProg Unit
  | 0, _ => fail .corruptList
  | n + 1, inode =>
    if inode = 0 then pure ()
    else do
      (List.range pptrInodeEntries).forM (pptrMapEntry P start type inode)
      let next ← loadField P pptrInode inode .pinNextMaddr
      pptrMapEntriesFrom type n next

/-- `pptr_map`, of a list of less than `n` inodes. -/
def pptrMap (n : ℕ) (type : CpointType) : PptrProg Unit := do
  let s ← get
  let inode := pptrMappage start s.head.firstLaddr
  store fun s => { s with head.firstMaddr := inode }
  let last ← pptrMapInodes P start n inode
  store fun s => { s with head.lastMaddr := last }
  pptrMapEntriesFrom P start type n inode
  when (type = .incomplete) (pptrCpointFrom P n inode)

end Mapping

/-! ## Walking the list -/

namespace PptrMem

/-- The first `pdn_index` entries of a dnode. -/
def dnodeEntries (s : PptrMem) (dnode : ℕ) : List Pptr :=
  (List.range (pptrDnode.read (s.bytes dnode) .pdnIndex)).map (pdnEntry (s.bytes dnode))

/-- The entries of the current dnodes of an inode. -/
def inodeEntries (s : PptrMem) (inode : ℕ) : List Pptr :=
  (List.range pptrInodeEntries).flatMap fun k =>
    let dnode := pptrInode.read (s.bytes inode) (.currentMaddr k)
    if dnode = 0 then [] else s.dnodeEntries dnode

/-- The entries from an inode on, over at most `n` inodes. -/
def walkFrom (s : PptrMem) : ℕ → ℕ → Option (List Pptr)
  | 0, _ => none
  | n + 1, inode =>
    if inode = 0 then some []
    else (s.walkFrom n (pptrInode.read (s.bytes inode) .pinNextMaddr)).map (s.inodeEntries inode ++ ·)

/-- The list. -/
def walk (s : PptrMem) : Option (List Pptr) := s.walkFrom (s.used.length + 1) s.head.firstMaddr

end PptrMem

end LibPM

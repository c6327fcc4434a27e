import LibPM.Model.Alloc
import LibPM.Model.Checkpoint
import LibPM.Model.HTable
import LibPM.Splay.Basic

/-!
# Registrations and the closure of the container (closure.c)

A `Machine` is a whole process: the durable side, the ordinary heap and the registrations. An
address belongs to the container if it lies in the mapping, nothing lies in the room above the
mapping, and every other address is ordinary memory.
-/

namespace LibPM

open Recorded Recorded.Prog

/-- `struct mallocat_entry`; `paddr = 0` stands for `NULL`. -/
structure MallocatEntry where
  addr : ℕ
  size : ℕ
  paddr : ℕ
  ptrs : CVector ℕ
  deriving Repr

structure Machine where
  pm : Pm
  /-- Ordinary memory. -/
  mem : ℕ → UInt8
  htPointerat : HTable
  htMallocat : HTable
  mallocatTree : Splay.Tree MallocatEntry
  pptrVec : CVector ℕ
  /-- The blocks given to `free` so far, with the sizes they were registered with. -/
  freed : List (ℕ × ℕ)
  /-- What the heap manager leaves in a block it gets back. -/
  freedByte : ℕ → ℕ → UInt8
  /-- Whether `PMLIB_CLOSURE` leaves the closure on. -/
  closure : Bool

abbrev MachineProg (α : Type) : Type := Prog Machine Fault α

/-- Code of the durable side. -/
def onPm {α : Type} (c : PmProg α) : MachineProg α :=
  zoom (·.pm) (fun pm m => { m with pm := pm }) c

/-! ## Memory -/

inductive Place where
  | container
  | nowhere
  | ordinary
  deriving DecidableEq, Repr

/-- What an address is. The first page is never mapped. -/
def Pm.place (s : Pm) (a : ℕ) : Place :=
  if s.startAddr ≤ a ∧ a < s.startAddr + s.mapLen then .container
  else if a < pageSize ∨ s.startAddr ≤ a ∧ a < s.mapLimit then .nowhere
  else .ordinary

def Machine.loadByte (a : ℕ) : MachineProg UInt8 := do
  let m ← get
  match m.pm.place a with
  | .container => onPm (LibPM.loadByte a)
  | .nowhere => fail .sigsegv
  | .ordinary => return m.mem a

def Machine.storeByte (a : ℕ) (v : UInt8) : MachineProg Unit := do
  let m ← get
  match m.pm.place a with
  | .container => onPm (LibPM.storeByte a v)
  | .nowhere => fail .sigsegv
  | .ordinary => modify fun m => { m with mem := Function.update m.mem a v }

/-- `*(void **)a`. -/
def Machine.loadWord (a : ℕ) : MachineProg ℕ := do
  let bs ← (List.range' a 8).mapM Machine.loadByte
  return bs.foldr (fun b n => b.toNat + 256 * n) 0

def Machine.storeWord (a v : ℕ) : MachineProg Unit :=
  ((wordBytes v).zipIdx a).forM fun (b, x) => Machine.storeByte x b

/-- `pmemcpy`, byte by byte. -/
def Machine.pmemcpy (dst src n : ℕ) : MachineProg Unit :=
  (List.range n).forM fun i => do
    let b ← Machine.loadByte (src + i)
    Machine.storeByte (dst + i) b

/-- `free` of a block: its bytes are the heap manager's. -/
def Machine.free (addr size : ℕ) : MachineProg Unit :=
  modify fun m => { m with
    freed := (addr, size) :: m.freed
    mem := fun a => if addr ≤ a ∧ a < addr + size then m.freedByte addr a else m.mem a }

/-! ## Registrations -/

/-- `htable_foreach`. -/
def htableForeach (table : Machine → HTable) (fn : ℕ → ℕ → MachineProg Unit) :
    MachineProg Unit := do
  let m ← get
  (table m).entries.forM fun e => fn e.key e.val
  require ((table m).elems = (table m).entries.length) (.assertion "ht->elems == count")

/-- `htable_filter` of `ht_pointerat`: the entries `fn` answers with `true` are removed. -/
def htableFilterPointerat (fn : ℕ → ℕ → MachineProg Bool) : MachineProg Unit := do
  let m ← get
  m.htPointerat.entries.forM fun e => do
    let r ← fn e.key e.val
    when (r = true) (modify fun m => { m with htPointerat := m.htPointerat.unlink e })

/-- `pointerat`. -/
def pointeratAux (ptrLoc : ℕ) : MachineProg Unit :=
  modify fun m => { m with htPointerat := m.htPointerat.insert ptrLoc ptrLoc }

def mallocat (addr size : ℕ) : MachineProg Unit := do
  require (addr ≠ 0) (.assertion "registering a failed memory allocation")
  modify fun m => { m with htMallocat := m.htMallocat.insert addr size }

/-- `mallocat_entry_cpm`, the cut of the address `a`. -/
def mallocatEntryCpm (a : ℕ) (b : MallocatEntry) : Ordering :=
  if a < b.addr then .lt else if b.addr + b.size ≤ a then .gt else .eq

def mallocatEntryAlloc (addr size : ℕ) : MallocatEntry := ⟨addr, size, 0, CVector.init⟩

def initMallocatTreeCallback (addr size : ℕ) : MachineProg Unit :=
  modify fun m =>
    let e := mallocatEntryAlloc addr size
    { m with mallocatTree := Splay.insert (mallocatEntryCpm addr) e m.mallocatTree }

def buildMallocatTree : MachineProg Unit :=
  htableForeach (·.htMallocat) initMallocatTreeCallback

/-- `SPLAY_FIND` of the address `a`. -/
def mallocatFind (a : ℕ) : MachineProg (Option MallocatEntry) := do
  let m ← get
  let (e, t) := Splay.find (mallocatEntryCpm a) m.mallocatTree
  modify fun m => { m with mallocatTree := t }
  return e

/-- A store through the pointer the last search returned: the entry is still at the root. -/
def setFound (f : MallocatEntry → MallocatEntry) : MachineProg Unit :=
  modify fun m => { m with mallocatTree := m.mallocatTree.setRoot f }

/-! ## The closure -/

/-- `PTR_REBASE`, in 64-bit arithmetic. -/
def ptrRebase (base ploc newbase : ℕ) : ℕ := (newbase + ploc + 2 ^ 64 - base) % 2 ^ 64

def classifyPointersCallback (ptrLoc _val : ℕ) : MachineProg Bool := do
  let e ← mallocatFind ptrLoc
  match e with
  | some _ => do
    setFound fun e => { e with ptrs := e.ptrs.append ptrLoc }
    return false
  | none => do
    let se ← onPm (slabFind ptrLoc)
    match se with
    | some _ => do
      modify fun m => { m with pptrVec := m.pptrVec.append ptrLoc }
      return true
    | none => return false

def classifyPointers : MachineProg Unit := htableFilterPointerat classifyPointersCallback

/-- The part of `persist_valloc` that moves an allocation. Its argument is the size `container_palloc`
gets, an `unsigned int`. -/
def moveValloc (e : MallocatEntry) : MachineProg ℕ := do
  let paddr ← onPm (slabPalloc (e.size % 2 ^ 32))
  setFound fun e => { e with paddr := paddr }
  Machine.pmemcpy paddr e.addr e.size
  Machine.free e.addr e.size
  e.ptrs.items.forM fun ptr => modify fun m => { m with
    pptrVec := m.pptrVec.append (ptrRebase e.addr ptr paddr)
    htPointerat := m.htPointerat.remove ptr }
  return paddr

def persistValloc (ptrLoc : ℕ) : MachineProg Unit := do
  let v ← Machine.loadWord ptrLoc
  let e ← mallocatFind v
  match e with
  | some e => do
    let paddr ← (if e.paddr = 0 then moveValloc e else pure e.paddr)
    let v ← Machine.loadWord ptrLoc
    Machine.storeWord ptrLoc (ptrRebase e.addr v paddr)
  | none => pure ()

/-- `move_volatile_allocations_callback`: the pointers recorded for one dirty entry. -/
def moveVolatileAllocationsCallback (seLoc : EntryRef) : MachineProg Unit := do
  let e ← onPm (loadEntry seLoc)
  let sp := e.ptrCurrent.maddr
  upTo .intOverflow (onPm ((·.ptrCurrent.idx) <$> loadEntry seLoc)) (fun i => do
    let e ← onPm (loadEntry seLoc)
    let p ← onPm (loadPtrRec sp i)
    persistValloc (e.dataCurrent.maddr + p.plocOffset)) (intMax + 1) 0

/-- `slab_foreach_snapshot_entry`. -/
def slabForeachSnapshotEntry (fn : EntryRef → MachineProg Unit) : MachineProg Unit := do
  let sd ← onPm currentSlabMaddr
  upTo .intOverflow (onPm ((·.sdVector.size) <$> loadDir sd)) (fun i => do
    let se ← onPm (dirtyAt sd i)
    fn se) (intMax + 1) 0

/-- The loop of `move_volatile_allocations` over `pptr_vec`, which grows while it runs. -/
def drainPptrVec : MachineProg Unit :=
  upTo .intOverflow ((·.pptrVec.size) <$> get) (fun i => do
    let m ← get
    let ptrLoc ← ofOption .outOfBounds m.pptrVec.items[i]?
    persistValloc ptrLoc
    onPm (slabInsertPointer ptrLoc)) (intMax + 1) 0

def moveVolatileAllocations : MachineProg Unit := do
  drainPptrVec
  modify fun m => { m with pptrVec := CVector.free }
  slabForeachSnapshotEntry moveVolatileAllocationsCallback

def fixBackReferencesCallback (ptrLoc _val : ℕ) : MachineProg Unit := do
  let v ← Machine.loadWord ptrLoc
  when (v ≠ 0) do
    let e ← mallocatFind v
    match e with
    | some e => do
      let v ← Machine.loadWord ptrLoc
      Machine.storeWord ptrLoc (ptrRebase e.addr v e.paddr)
    | none => pure ()

def fixBackReferences : MachineProg Unit :=
  htableForeach (·.htPointerat) fixBackReferencesCallback

/-- `closure_init`. The tree and the registrations of an earlier container stay. -/
def closureInit : MachineProg Unit :=
  modify fun m => { m with
    htMallocat := HTable.init
    htPointerat := HTable.init
    pptrVec := CVector.init }

end LibPM

import Mathlib.Algebra.Group.Nat.Defs
import Mathlib.Tactic.Common
import Mathlib.Logic.Function.Basic

/-!
# Constants, rounding and the structures kept in container pages

The pages of a container file hold the container header, one tree of four levels
(`SlabDir`, `SlabOuter`, `SlabInner`, `SlabBucket`), data pages and pages of pointer records.
Every child link has two versions, `current` and `snapshot`, each a pair of an address in the
present mapping (`maddr`) and an offset in the file (`laddr`).

A fixed C array is a function on its indices. A pointer to a `slab_entry` is an `EntryRef`, the
address of its bucket page and its index there.
-/

namespace LibPM

/-! ## Settings and rounding -/

abbrev pageSize : ℕ := 4096

theorem pageSize_pos : 0 < pageSize := by decide

/-- Initial size of a new container file. -/
def fmFileSize : ℕ := pageSize * 2

/-- The container header is the first page of the file. -/
def containerLimaAddress : ℕ := 0

def round8 (x : ℕ) : ℕ := (x + 7) / 8 * 8

def roundPg (x : ℕ) : ℕ := (x + (pageSize - 1)) / pageSize * pageSize

def roundDwnPg (x : ℕ) : ℕ := x / pageSize * pageSize

/-- Bytes in a bitstring of `nbits` bits. -/
def bitstrSize (nbits : ℕ) : ℕ := (nbits + 7) / 8

/-- `INT_MAX`: the loops over vectors count with an `int`. -/
def intMax : ℕ := 2 ^ 31 - 1

/-- Why a run stops before it returns. -/
inductive Fault where
  /-- A failed `assert`, or `handle_error`, which ends in `assert(0)`. -/
  | assertion (msg : String)
  /-- A load or store outside the mapping, through an address that is not the structure expected
  there, or a write fault inside the write-fault handler. -/
  | sigsegv
  /-- A division by zero. -/
  | sigfpe
  /-- An array index past the end of its array. -/
  | outOfBounds
  /-- A read of heap memory that was never written. -/
  | uninitialised
  /-- A list macro used on a list that is not in the shape it needs. -/
  | corruptList
  /-- A signed counter runs past `INT_MAX`. -/
  | intOverflow
  deriving DecidableEq, Repr

/-- Protection of a page. -/
structure Prot where
  read : Bool
  write : Bool
  deriving DecidableEq, Repr

def paProtRead : Prot := ⟨true, false⟩
def paProtWrite : Prot := ⟨false, true⟩
def paProtRnw : Prot := ⟨true, true⟩

/-- Protection of a page that was just mapped (`DEFAULT_MAPPING_PROT`). -/
def defaultMappingProt : Prot := paProtRead

/-! ## Vectors (vector.h) -/

/-- A growing array: the slots below `items.length` are written, those below `capacity` exist. -/
structure CVector (α : Type) where
  capacity : ℕ
  items : List α
  deriving Repr

namespace CVector

variable {α : Type}

def initSize : ℕ := 2

/-- `VECTOR_INIT`. -/
def init : CVector α := ⟨initSize, []⟩

/-- `VECTOR_FREE`. -/
def free : CVector α := ⟨0, []⟩

/-- `VECTOR_SIZE`. -/
def size (v : CVector α) : ℕ := v.items.length

/-- `VECTOR_APPEND`: the capacity doubles when the vector is full. -/
def append (v : CVector α) (x : α) : CVector α :=
  ⟨if v.size = v.capacity then max initSize (v.capacity * 2) else v.capacity, v.items ++ [x]⟩

@[simp] theorem items_append (v : CVector α) (x : α) : (v.append x).items = v.items ++ [x] := rfl
@[simp] theorem items_init : (init : CVector α).items = [] := rfl
@[simp] theorem items_free : (free : CVector α).items = [] := rfl
@[simp] theorem size_init : (init : CVector α).size = 0 := rfl

end CVector

/-! ## Slab structures (slabInt.h) -/

/-- A `struct slab_entry *`. -/
structure EntryRef where
  sb : ℕ
  idx : ℕ
  deriving DecidableEq, Repr

/-- The two halves of a link to a page. -/
structure Slot where
  maddr : ℕ
  laddr : ℕ
  deriving DecidableEq, Repr

/-- One version of a data page. For large objects the in-use bitmap is the one byte here. -/
structure DataVersion where
  maddr : ℕ
  laddr : ℕ
  bitmap : UInt8
  deriving DecidableEq, Repr

/-- One version of the page of pointer records of an entry. -/
structure PtrVersion where
  idx : ℕ
  maddr : ℕ
  laddr : ℕ
  deriving DecidableEq, Repr

/-- One record of `struct slab_ptr`. -/
structure SlabPtrRec where
  plocOffset : ℕ
  pvalSeid : ℕ
  pvalOffset : ℕ
  deriving DecidableEq, Repr

structure SlabEntry where
  seId : ℕ
  seSize : ℕ
  dataCurrent : DataVersion
  dataSnapshot : DataVersion
  ptrCurrent : PtrVersion
  ptrSnapshot : PtrVersion
  /-- Link of the list the entry is in, the free list or the list of its size. -/
  seList : Option EntryRef
  deriving DecidableEq, Repr

/-- Head of a singly linked tail queue. `last = none` stands for the address of `first`,
`last = some e` for the address of the link in `e`. -/
structure Stailq where
  first : Option EntryRef
  last : Option EntryRef
  deriving DecidableEq, Repr

/-- `STAILQ_INIT`. -/
def Stailq.init : Stailq := ⟨none, none⟩

/-- The entries of one object size; the node is on the ordinary heap. -/
structure SlabEntrySize where
  esSize : ℕ
  esList : Stailq
  deriving DecidableEq, Repr

structure SlabBucket where
  sbHasSnapshot : ℕ
  sbId : ℕ
  sbEntries : ℕ → SlabEntry

structure SlabInner where
  siIndex : ℕ
  siCurrent : ℕ → Slot
  siSnapshot : ℕ → Slot

structure SlabOuter where
  soIndex : ℕ
  soCurrent : ℕ → Slot
  soSnapshot : ℕ → Slot

/-- The top of the tree. `sdMaddrRoot` lists the entries held by the red-black tree of that name;
the tree of sizes has only heap nodes and is kept with the volatile state. `sdVectorHeap` numbers
the process whose heap holds the buffer of `sd_vector`. -/
structure SlabDir where
  sdIndex : ℕ
  sdMaddrRoot : List EntryRef
  sdFreeList : Stailq
  sdContRoot : ℕ
  sdCurrent : ℕ → Slot
  sdSnapshot : ℕ → Slot
  sdVector : CVector EntryRef
  sdVectorHeap : ℕ

/-- A store to one half of the link `i` of a table. -/
def setMaddr (t : ℕ → Slot) (i a : ℕ) : ℕ → Slot := Function.update t i ⟨a, (t i).laddr⟩

def setLaddr (t : ℕ → Slot) (i a : ℕ) : ℕ → Slot := Function.update t i ⟨(t i).maddr, a⟩

@[simp] theorem setMaddr_self (t : ℕ → Slot) (i a : ℕ) : setMaddr t i a i = ⟨a, (t i).laddr⟩ :=
  Function.update_self ..

@[simp] theorem setLaddr_self (t : ℕ → Slot) (i a : ℕ) : setLaddr t i a i = ⟨(t i).maddr, a⟩ :=
  Function.update_self ..

structure Container where
  id : ℕ
  currentSlab : Slot
  snapshotSlab : Slot
  flags : UInt8
  deriving DecidableEq

def cflagCpointInProgress : UInt8 := 1

/-- `sizeof(struct slab_entry)`. -/
def sizeofSlabEntry : ℕ := 144

/-- Bytes of one slot with its two versions. -/
def slotMem : ℕ := 32

def slabBucketEntries : ℕ := (pageSize - 4) / sizeofSlabEntry
def slabInnerEntries : ℕ := (pageSize - 4) / slotMem
def slabOuterEntries : ℕ := (pageSize - 4) / slotMem
/-- `SLAB_DIR_MEMSIZE` is 100 bytes. -/
def slabDirEntries : ℕ := (pageSize - 100) / slotMem

@[simp] theorem slabBucketEntries_eq : slabBucketEntries = 28 := rfl
@[simp] theorem slabInnerEntries_eq : slabInnerEntries = 127 := rfl
@[simp] theorem slabOuterEntries_eq : slabOuterEntries = 127 := rfl
@[simp] theorem slabDirEntries_eq : slabDirEntries = 124 := rfl

/-- `sizeof` of one record of `struct slab_ptr`, padding included. -/
def sizeofSlabPtrRec : ℕ := 12

/-- `SLAB_PTR_SEID_NULL` and `SLAB_PTR_OFFSET_NULL` stand for a `NULL` target. -/
def slabPtrSeidNull : ℕ := 0xffffffff
def slabPtrOffsetNull : ℕ := 0xffff

def slabLargeAlloc : ℕ := 512

/-- `SLAB_ENTRY_IS_INIT`. -/
def SlabEntry.isInit (se : SlabEntry) : Bool := se.seSize != 0 || se.dataCurrent.maddr != 0

/-- `SLAB_ENTRY_CAPACITY`; the caller checks that `size` is not zero. -/
def slabEntryCapacity (size : ℕ) : ℕ :=
  if size < slabLargeAlloc then (pageSize - bitstrSize size) / size else pageSize / size

theorem slabEntryCapacity_le (size : ℕ) : slabEntryCapacity size ≤ pageSize := by
  unfold slabEntryCapacity
  split_ifs
  · exact Nat.le_trans (Nat.div_le_self _ _) (Nat.sub_le _ _)
  · exact Nat.div_le_self _ _

/-- `SLAB_ENTRY_DATAOFFSET`; the caller checks that `size` is not zero. -/
def slabEntryDataoffset (size : ℕ) : ℕ :=
  if size ≥ slabLargeAlloc then 0 else bitstrSize (pageSize / size)

/-! ## Pages and their bytes -/

/-- What a page of the file holds. -/
inductive Page where
  | data (bytes : ℕ → UInt8)
  | container (c : Container)
  | dir (d : SlabDir)
  | outer (o : SlabOuter)
  | inner (i : SlabInner)
  | bucket (b : SlabBucket)
  | ptrs (p : ℕ → SlabPtrRec)

/-- A page no one has written. -/
def Page.zero : Page := .data fun _ => 0

/-- The little-endian number in the `n` bytes from `off`. -/
def leNum (b : ℕ → UInt8) (off : ℕ) : ℕ → ℕ
  | 0 => 0
  | n + 1 => (b off).toNat + 256 * leNum b (off + 1) n

def le16 (b : ℕ → UInt8) (off : ℕ) : ℕ := leNum b off 2
def le32 (b : ℕ → UInt8) (off : ℕ) : ℕ := leNum b off 4
def le64 (b : ℕ → UInt8) (off : ℕ) : ℕ := leNum b off 8

def slotOfBytes (b : ℕ → UInt8) (off : ℕ) : Slot := ⟨le64 b off, le64 b (off + 8)⟩

/-- A `slab_entry` pointer from its 8 bytes. -/
def entryRefOfBytes (b : ℕ → UInt8) (off : ℕ) : Option EntryRef :=
  let a := le64 b off
  if a = 0 then none else some ⟨roundDwnPg a, (a - roundDwnPg a - 8) / sizeofSlabEntry⟩

/-! The structures as they are read from the bytes of a page that was handed out without being
cleared. The heap pointers of a `slab_dir` are written before they are first read, so they are
empty here. -/

def containerOfBytes (b : ℕ → UInt8) : Container where
  id := le32 b 0
  currentSlab := slotOfBytes b 16
  snapshotSlab := slotOfBytes b 32
  flags := b 48

def dirOfBytes (b : ℕ → UInt8) : SlabDir where
  sdIndex := le32 b 0
  sdMaddrRoot := []
  sdFreeList := Stailq.init
  sdContRoot := le64 b 40
  sdCurrent i := slotOfBytes b (48 + 16 * i)
  sdSnapshot i := slotOfBytes b (2032 + 16 * i)
  sdVector := CVector.free
  sdVectorHeap := 0

def outerOfBytes (b : ℕ → UInt8) : SlabOuter where
  soIndex := le32 b 0
  soCurrent i := slotOfBytes b (8 + 16 * i)
  soSnapshot i := slotOfBytes b (2040 + 16 * i)

def innerOfBytes (b : ℕ → UInt8) : SlabInner where
  siIndex := le32 b 0
  siCurrent i := slotOfBytes b (8 + 16 * i)
  siSnapshot i := slotOfBytes b (2040 + 16 * i)

def entryOfBytes (b : ℕ → UInt8) (off : ℕ) : SlabEntry where
  seId := le32 b off
  seSize := le32 b (off + 4)
  dataCurrent := ⟨le64 b (off + 8), le64 b (off + 16), b (off + 24)⟩
  dataSnapshot := ⟨le64 b (off + 32), le64 b (off + 40), b (off + 48)⟩
  ptrCurrent := ⟨le16 b (off + 56), le64 b (off + 64), le64 b (off + 72)⟩
  ptrSnapshot := ⟨le16 b (off + 80), le64 b (off + 88), le64 b (off + 96)⟩
  seList := entryRefOfBytes b (off + 104)

def bucketOfBytes (b : ℕ → UInt8) : SlabBucket where
  sbHasSnapshot := le32 b 0
  sbId := le32 b 4
  sbEntries i := entryOfBytes b (8 + sizeofSlabEntry * i)

def ptrsOfBytes (b : ℕ → UInt8) (i : ℕ) : SlabPtrRec where
  plocOffset := le16 b (sizeofSlabPtrRec * i)
  pvalSeid := le32 b (sizeofSlabPtrRec * i + 4)
  pvalOffset := le16 b (sizeofSlabPtrRec * i + 8)

/-- An entry of a cleared bucket. -/
def SlabEntry.zero : SlabEntry where
  seId := 0
  seSize := 0
  dataCurrent := ⟨0, 0, 0⟩
  dataSnapshot := ⟨0, 0, 0⟩
  ptrCurrent := ⟨0, 0, 0⟩
  ptrSnapshot := ⟨0, 0, 0⟩
  seList := none

theorem leNum_zero (off : ℕ) : ∀ n, leNum (fun _ => 0) off n = 0
  | 0 => rfl
  | n + 1 => by simp [leNum, leNum_zero (off + 1) n]

@[simp] theorem le64_zero (off : ℕ) : le64 (fun _ => 0) off = 0 := leNum_zero off 8
@[simp] theorem le32_zero (off : ℕ) : le32 (fun _ => 0) off = 0 := leNum_zero off 4
@[simp] theorem le16_zero (off : ℕ) : le16 (fun _ => 0) off = 0 := leNum_zero off 2

@[simp] theorem entryOfBytes_zero (off : ℕ) : entryOfBytes (fun _ => 0) off = SlabEntry.zero := by
  simp [entryOfBytes, entryRefOfBytes, SlabEntry.zero]

/-- The byte image of a `struct slab_entry` is 144 bytes, so a bucket fits its page. -/
theorem slabBucket_fits : 8 + slabBucketEntries * sizeofSlabEntry ≤ pageSize := by decide

theorem roundDwnPg_le (x : ℕ) : roundDwnPg x ≤ x := Nat.div_mul_le_self x pageSize

end LibPM

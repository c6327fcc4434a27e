import LibPM.Model.Layout
import LibPM.Recorded.Basic

/-!
# Vectors in memory (vector.h)

`CVector` is what the rest of the model needs of a vector: its elements and its capacity. Here are the macros as
they are written, on a buffer of the heap. What the heap answers is left open; a block that was just allocated may
hold anything, and a block is cut off where the number of bytes asked for ends.
-/

namespace LibPM

open Recorded Recorded.Prog

/-- What is known of `malloc`. A request of more than `PTRDIFF_MAX` bytes fails. -/
structure CHeap (α : Type) where
  /-- Bytes of one element. -/
  sizeof : ℕ
  sizeof_pos : 0 < sizeof
  /-- The cells of the block that request `n` is given for a number of bytes. -/
  malloc : (n bytes : ℕ) → Option (List α)
  length_malloc : ∀ {n bytes cells}, malloc n bytes = some cells → cells.length = bytes / sizeof
  malloc_lt : ∀ {n bytes cells}, malloc n bytes = some cells → bytes < 2 ^ 63

namespace CHeap

variable {α : Type} (H : CHeap α)

/-- `realloc`: the cells that the old and the new block share are kept. -/
def realloc (n : ℕ) (old : Option (List α)) (bytes : ℕ) : Option (List α) :=
  (H.malloc n bytes).map fun cells =>
    let kept := (old.getD []).take cells.length
    kept ++ cells.drop kept.length

/-- The `size_t` that `malloc` sees: the product is a `size_t`, `buffer_size` an `int`. -/
def bufferSize (capacity : ℕ) : ℕ :=
  let n := H.sizeof * capacity % 2 ^ 64 % 2 ^ 32
  if n < 2 ^ 31 then n else n + (2 ^ 64 - 2 ^ 32)

end CHeap

/-- The three fields of a vector, the number of requests to the heap so far, and the slots that were read. -/
structure VectorMem (α : Type) where
  capacity : ℕ
  size : ℕ
  /-- The cells behind `buffer`, none if it is `NULL`. -/
  buffer : Option (List α)
  requests : ℕ
  reads : List ℕ

abbrev VectorProg (α β : Type) : Type := Prog (VectorMem α) Fault β

section Macros

variable {α : Type} (H : CHeap α)

/-- `VECTOR_INITAT`. -/
def vectorInitat (c : ℕ) : VectorProg α Unit := do
  modify fun s => { s with capacity := c, size := 0 }
  let s ← get
  let buffer := H.malloc s.requests (H.bufferSize s.capacity)
  modify fun s => { s with buffer, requests := s.requests + 1 }
  require (buffer.isSome = true) (.assertion "failed to allocate memory for abuffer")

/-- `VECTOR_INIT`. -/
def vectorInit : VectorProg α Unit := vectorInitat H CVector.initSize

/-- `VECTOR_FREE`. -/
def vectorFree : VectorProg α Unit :=
  modify fun s => { s with buffer := none, capacity := 0, size := 0 }

/-- `__VECTOR_DOUBLE`. -/
def vectorDouble : VectorProg α Unit := do
  let s ← get
  require (s.capacity * 2 ≤ intMax) .intOverflow
  modify fun s => { s with capacity := max CVector.initSize (s.capacity * 2) }
  let s ← get
  let buffer := H.realloc s.requests s.buffer (H.bufferSize s.capacity)
  modify fun s => { s with buffer, requests := s.requests + 1 }
  require (buffer.isSome = true) (.assertion "failed to reallocate memory for abuffer")

/-- `VECTOR_APPEND`. -/
def vectorAppend (item : α) : VectorProg α Unit := do
  let s ← get
  when (s.size = s.capacity) (vectorDouble H)
  let s ← get
  require (s.size + 1 ≤ intMax) .intOverflow
  modify fun s => { s with size := s.size + 1 }
  let buffer ← ofOption .sigsegv s.buffer
  require (s.size < buffer.length) .outOfBounds
  modify fun s' => { s' with buffer := some (buffer.set s.size item) }

/-- `VECTOR_AT`, read: `(p)->buffer[idx]`. -/
def vectorAt (idx : ℕ) : VectorProg α α := do
  modify fun s => { s with reads := s.reads ++ [idx] }
  let s ← get
  let buffer ← ofOption .sigsegv s.buffer
  ofOption .outOfBounds buffer[idx]?

/-- The rounds of `VECTOR_FOREACH` from the test with index `i` on, and the elements that the body is run with. The
step reads slot `i + 1` before the next test. A loop of more rounds than there are elements never ends. -/
def vectorForeachFrom : ℕ → ℕ → α → VectorProg α (List α)
  | 0, _, _ => fail .corruptList
  | n + 1, i, itr => do
    let s ← get
    if i < s.size then do
      let next ← vectorAt (i + 1)
      let visited ← vectorForeachFrom n (i + 1) next
      return itr :: visited
    else return []

/-- `VECTOR_FOREACH`, over a vector that the body leaves alone. -/
def vectorForeach : VectorProg α (List α) := do
  let itr ← vectorAt 0
  let s ← get
  vectorForeachFrom (s.size + 1) 0 itr

end Macros

end LibPM

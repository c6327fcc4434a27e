import LibPM.Model.Layout

/-!
# The hash table of registrations (htable.c, hash.c)

Keys are addresses. A chain is a list; a new entry goes to the end of its chain, and a resize
reverses the chains it takes apart.
-/

namespace LibPM

/-! ## Hashing -/

/-- A `char`, which is signed, as a 32-bit word. -/
def charWord (b : UInt8) : UInt32 :=
  if b < 128 then b.toUInt32 else b.toUInt32 ||| 0xffffff00

/-- `DecodeFixed32` of the low four bytes of `w`. -/
def decodeFixed32 (w : ℕ) : UInt32 :=
  charWord (UInt8.ofNat w) ||| (charWord (UInt8.ofNat (w / 2 ^ 8)) <<< 8) |||
    (charWord (UInt8.ofNat (w / 2 ^ 16)) <<< 16) ||| (charWord (UInt8.ofNat (w / 2 ^ 24)) <<< 24)

/-- One round of `Hash`. -/
def hashRound (h w : UInt32) : UInt32 :=
  let h := (h + w) * 0xc6a4a793
  h ^^^ (h >>> 16)

/-- `Hash` of the eight bytes of a pointer, with seed zero. -/
def hashKey (key : ℕ) : UInt32 :=
  hashRound (hashRound (8 * 0xc6a4a793) (decodeFixed32 key)) (decodeFixed32 (key / 2 ^ 32))

/-! ## The table -/

structure HtableEntry where
  hash : UInt32
  key : ℕ
  val : ℕ
  deriving DecidableEq, Repr

structure HTable where
  length : ℕ
  elems : ℕ
  list : ℕ → List HtableEntry

namespace HTable

/-- `hash & (length - 1)`, `length` being a power of two. -/
def slot (length : ℕ) (hash : UInt32) : ℕ := hash.toNat % length

/-- The entries in the order of the loops over the table. -/
def entries (ht : HTable) : List HtableEntry := (List.range ht.length).flatMap ht.list

/-- The test of `htable_find_pointer`. -/
def hit (key : ℕ) (hash : UInt32) (e : HtableEntry) : Bool := e.hash == hash && e.key == key

/-- The length a resize picks. -/
def newLength (elems : ℕ) : ℕ → ℕ → ℕ
  | 0, n => n
  | fuel + 1, n => if n < elems then newLength elems fuel (2 * n) else n

/-- The entry joins the front of its chain. -/
def push (length : ℕ) (list : ℕ → List HtableEntry) (e : HtableEntry) : ℕ → List HtableEntry :=
  Function.update list (slot length e.hash) (e :: list (slot length e.hash))

/-- `htable_resize`. -/
def resize (ht : HTable) : HTable :=
  let n := newLength ht.elems 30 4
  { length := n, elems := ht.elems, list := ht.entries.foldl (push n) fun _ => [] }

/-- `htable_init`. -/
def init : HTable := resize ⟨0, 0, fun _ => []⟩

/-- The chain after `htable_insert`. -/
def insertChain (key val : ℕ) (hash : UInt32) : List HtableEntry → List HtableEntry
  | [] => [⟨hash, key, val⟩]
  | e :: l => if hit key hash e then { e with val := val } :: l else e :: insertChain key val hash l

/-- `htable_insert`. -/
def insert (ht : HTable) (key val : ℕ) : HTable :=
  let hash := hashKey key
  let i := slot ht.length hash
  let list := Function.update ht.list i (insertChain key val hash (ht.list i))
  if (ht.list i).any (hit key hash) then { ht with list := list }
  else
    let ht := { ht with elems := ht.elems + 1, list := list }
    if ht.elems > ht.length then ht.resize else ht

/-- `htable_lookup`; zero stands for `NULL`. -/
def lookup (ht : HTable) (key : ℕ) : ℕ :=
  let hash := hashKey key
  match (ht.list (slot ht.length hash)).find? (hit key hash) with
  | some e => e.val
  | none => 0

/-- The entry `e` leaves its chain. -/
def unlink (ht : HTable) (e : HtableEntry) : HTable :=
  let i := slot ht.length e.hash
  { ht with elems := ht.elems - 1, list := Function.update ht.list i ((ht.list i).erase e) }

/-- `htable_remove`. -/
def remove (ht : HTable) (key : ℕ) : HTable :=
  let hash := hashKey key
  match (ht.list (slot ht.length hash)).find? (hit key hash) with
  | some e => ht.unlink e
  | none => ht

/-! ## Calls with their answers

The answer of a `void` function is zero. The table is `none` when an assertion of the source fails.
The loops compare their counter as an unsigned word, so that `i` is the position of a chain for
every length of 32 bits.
-/

section Calls

variable {σ : Type}

/-- `htable_resize` with its assertion: `count` entries were moved. -/
def htableResize (ht : HTable) : Option HTable :=
  if ht.elems = ht.entries.length then some ht.resize else none

/-- `htable_insert` with its answer. -/
def htableInsert (ht : HTable) (key val : ℕ) : Option (HTable × ℕ) :=
  let hash := hashKey key
  let i := slot ht.length hash
  let list := Function.update ht.list i (insertChain key val hash (ht.list i))
  if (ht.list i).any (hit key hash) then some ({ ht with list := list }, 0)
  else
    let ht := { ht with elems := ht.elems + 1, list := list }
    if ht.elems > ht.length then ht.htableResize.map fun ht => (ht, 1) else some (ht, 1)

/-- `htable_remove` with its answer. -/
def htableRemove (ht : HTable) (key : ℕ) : HTable × ℕ :=
  let hash := hashKey key
  match (ht.list (slot ht.length hash)).find? (hit key hash) with
  | some e => (ht.unlink e, e.val)
  | none => (ht, 0)

/-- `htable_foreach`, for a function that keeps a state, with the assertion at its end. -/
def htableForeach (fn : ℕ → ℕ → σ → σ) (ht : HTable) (s : σ) : Option σ :=
  if ht.elems = ht.entries.length then
    some (ht.entries.foldl (fun s e => fn e.key e.val s) s)
  else none

/-- The inner loop of `htable_filter`: what is left of the chain, and `elems`. -/
def filterChain (fn : ℕ → ℕ → σ → Bool × σ) :
    List HtableEntry → ℕ → σ → List HtableEntry × ℕ × σ
  | [], elems, s => ([], elems, s)
  | e :: l, elems, s =>
    match fn e.key e.val s with
    | (true, s) => filterChain fn l (elems - 1) s
    | (false, s) =>
      let r := filterChain fn l elems s
      (e :: r.1, r.2)

/-- One turn of the outer loop of `htable_filter`. -/
def filterSlot (fn : ℕ → ℕ → σ → Bool × σ) (x : HTable × σ) (i : ℕ) : HTable × σ :=
  let r := filterChain fn (x.1.list i) x.1.elems x.2
  ({ x.1 with elems := r.2.1, list := Function.update x.1.list i r.1 }, r.2.2)

/-- `htable_filter`. -/
def htableFilter (fn : ℕ → ℕ → σ → Bool × σ) (ht : HTable) (s : σ) : HTable × σ :=
  (List.range ht.length).foldl (filterSlot fn) (ht, s)

end Calls

end HTable

/-- A call on a table. The functions handed over keep a state of type `σ`. -/
inductive HtableCall (σ : Type) where
  | insert (key val : ℕ)
  | remove (key : ℕ)
  | lookup (key : ℕ)
  | foreach (fn : ℕ → ℕ → σ → σ)
  | filter (fn : ℕ → ℕ → σ → Bool × σ)

/-- The answer of a call, the table it leaves and the state of the function. -/
def HTable.call {σ : Type} (ht : HTable) (s : σ) : HtableCall σ → Option (ℕ × HTable × σ)
  | .insert key val => (ht.htableInsert key val).map fun x => (x.2, x.1, s)
  | .remove key => some ((ht.htableRemove key).2, (ht.htableRemove key).1, s)
  | .lookup key => some (ht.lookup key, ht, s)
  | .foreach fn => (ht.htableForeach fn s).map fun s => (0, ht, s)
  | .filter fn => some (0, ht.htableFilter fn s)

end LibPM

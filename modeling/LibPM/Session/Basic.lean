import LibPM.Model.Cont
import LibPM.Memory.Access

/-!
# Sessions and what a container holds

A session is a run of one process: it makes a container and then calls the library and stores to
memory in any order. What recovery is judged by is defined here on states: the tree of the current
versions, the tree of the committed ones, the objects and the root word.
-/

namespace LibPM

open Recorded Recorded.Prog

/-! ## Sessions -/

/-- What an application does with its container. -/
inductive Action where
  | palloc (size : ℕ)
  | store (a : ℕ) (v : UInt8)
  | setroot (a : ℕ)
  | insertPointer (ptrLoc : ℕ)
  | mallocat (addr size : ℕ)
  | pointerat (ptrLoc : ℕ)
  | cpoint
  deriving DecidableEq, Repr

def Action.run : Action → MachineProg Unit
  | .palloc size => do let _ ← containerPalloc size
  | .store a v => Machine.storeByte a v
  | .setroot a => do let _ ← containerSetroot a
  | .insertPointer ptrLoc => onPm (slabInsertPointer ptrLoc)
  | .mallocat addr size => LibPM.mallocat addr size
  | .pointerat ptrLoc => pointeratAux ptrLoc
  | .cpoint => containerCpoint

/-- The state of the last checkpoint, after an action that left `m'`. -/
def Action.saves (saved : Option Machine) (m' : Machine) : Action → Option Machine
  | .cpoint => some m'
  | _ => saved

/-- `Session ok env saved m`: the process is in state `m`, its last checkpoint returned in state
`saved`, and `ok` held before each action. -/
inductive Session (ok : Machine → Action → Prop) (env : Env) : Option Machine → Machine → Prop
  | init {cont : ℕ} {m : Machine} :
      Returns (containerInit env) (Machine.fresh env) cont m → Session ok env none m
  | step {saved : Option Machine} {m m' : Machine} {a : Action} :
      Session ok env saved m → ok m a → Returns a.run m () m' →
        Session ok env (a.saves saved m') m'

/-- Any action at any time. -/
abbrev anyAction : Machine → Action → Prop := fun _ _ => True

/-- A crash exposes `t`, between two actions or inside one, outside `container_cpoint`. -/
def CrashPoint (env : Env) (saved : Option Machine) (t : Machine) : Prop :=
  ∃ m, Session anyAction env saved m ∧ (t = m ∨ ∃ a : Action, a ≠ .cpoint ∧ Exposes a.run m t)

theorem Session.forM {env : Env} {saved : Option Machine} {m m' : Machine} {l : List Action}
    {u : Unit} (hs : Session anyAction env saved m) (h : Returns (l.forM Action.run) m u m') :
    ∃ saved', Session anyAction env saved' m' := by
  induction l generalizing saved m with
  | nil =>
    rw [returns_forM_nil] at h
    exact ⟨saved, h ▸ hs⟩
  | cons a l ih =>
    obtain ⟨m₁, ha, hl⟩ := returns_forM_cons.mp h
    exact ih (hs.step trivial ha) hl

/-! ## The tree of current versions -/

namespace Pm

def CurContainer (s : Pm) (c : Container) : Prop :=
  ∃ cont, s.containers = some cont ∧ s.readContainer cont = some c

def CurDir (s : Pm) (d : SlabDir) : Prop :=
  ∃ c, s.CurContainer c ∧ s.readDir c.currentSlab.maddr = some d

/-- The outer node in slot `i` of the directory. -/
def CurOuter (s : Pm) (i : ℕ) (o : SlabOuter) : Prop :=
  ∃ d, s.CurDir d ∧ i < d.sdIndex ∧ s.readOuter (d.sdCurrent i).maddr = some o

/-- The inner node in slot `j` of that node. -/
def CurInner (s : Pm) (i j : ℕ) (n : SlabInner) : Prop :=
  ∃ o, s.CurOuter i o ∧ j < o.soIndex ∧ s.readInner (o.soCurrent j).maddr = some n

/-- The bucket in slot `k` of that node is at the address `sb`. -/
def CurBucket (s : Pm) (i j k sb : ℕ) : Prop :=
  ∃ n, s.CurInner i j n ∧ k < n.siIndex ∧ (n.siCurrent k).maddr = sb

/-- `e` is the content of the initialised entry `r` of the tree. -/
def CurEntry (s : Pm) (r : EntryRef) (e : SlabEntry) : Prop :=
  (∃ i j k, s.CurBucket i j k r.sb) ∧ s.readEntry r = some e ∧ e.isInit = true

/-! ## The tree of committed versions -/

/-- The pages linked by the snapshot slots, under the indices of the slots. -/
inductive Committed (s : Pm) : List ℕ → Slot → Prop
  | dir {c : Container} : s.CurContainer c → Committed s [] c.snapshotSlab
  | outer {t : Slot} {d : SlabDir} {i : ℕ} : Committed s [] t → s.readDir t.maddr = some d →
      i < d.sdIndex → Committed s [i] (d.sdSnapshot i)
  | inner {t : Slot} {o : SlabOuter} {i j : ℕ} : Committed s [i] t →
      s.readOuter t.maddr = some o → j < o.soIndex → Committed s [i, j] (o.soSnapshot j)
  | bucket {t : Slot} {n : SlabInner} {i j k : ℕ} : Committed s [i, j] t →
      s.readInner t.maddr = some n → k < n.siIndex → Committed s [i, j, k] (n.siSnapshot k)
  | data {t : Slot} {e : SlabEntry} {i j k l : ℕ} : Committed s [i, j, k] t →
      s.readEntry ⟨t.maddr, l⟩ = some e → e.isInit = true →
        Committed s [i, j, k, l] ⟨e.dataSnapshot.maddr, e.dataSnapshot.laddr⟩

/-! ## Objects and the root word -/

/-- The object number `k` of the entry with id `id` is in use and holds `bytes`. -/
def Object (s : Pm) (id k : ℕ) (bytes : List UInt8) : Prop :=
  ∃ r e b, s.CurEntry r e ∧ e.seId = id ∧ k < slabEntryCapacity e.seSize ∧
    Returns (loadBitmap r (k / 8)) s b s ∧ bitTest b (k % 8) = true ∧
    Returns ((List.range e.seSize).mapM fun x =>
      loadByte (e.dataCurrent.maddr + slabEntryDataoffset e.seSize + k * e.seSize + x)) s bytes s

/-- `a` is the byte at `off` of the data page of the entry with id `id`. -/
def LocatedAt (s : Pm) (a id off : ℕ) : Prop :=
  ∃ r e, s.CurEntry r e ∧ e.seId = id ∧ off < pageSize ∧ a = e.dataCurrent.maddr + off

def Word (s : Pm) (a v : ℕ) : Prop := Returns (loadWord a) s v s

end Pm

/-- The same objects with the same bytes. -/
def SameObjects (s s' : Pm) : Prop := ∀ id k bytes, s.Object id k bytes ↔ s'.Object id k bytes

/-- Both directories are there and hold the same root word. -/
def SameRoot (s s' : Pm) : Prop :=
  ∃ d d', s.CurDir d ∧ s'.CurDir d' ∧ d'.sdContRoot = d.sdContRoot

/-- The same committed pages of the file under the same slots. -/
def SameCommitted (s s' : Pm) : Prop :=
  ∀ path laddr, (∃ maddr, s.Committed path ⟨maddr, laddr⟩) ↔
    ∃ maddr, s'.Committed path ⟨maddr, laddr⟩

/-- The pointer that was at `a` is in the same place of the container in `s'`, and it is null or
leads to the same place of the container as before. -/
def PointerKept (s s' : Pm) (a : ℕ) : Prop :=
  ∀ id off, s.LocatedAt a id off → ∃ a' v v', s'.LocatedAt a' id off ∧ s.Word a v ∧
    s'.Word a' v' ∧ (v = 0 ∧ v' = 0 ∨ ∃ id' off', s.LocatedAt v id' off' ∧ s'.LocatedAt v' id' off')

end LibPM

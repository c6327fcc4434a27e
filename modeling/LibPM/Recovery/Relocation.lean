import LibPM.Recovery.Restore

/-!
# The same file at two addresses

`Pm.Rebased` relates two states that differ in the address of the mapping only: every address in a
page, in the allocator or in a process variable is shifted with it. Recovery should lead to such states
from one file, whatever the two addresses are, and so should the operations that follow it.
-/

namespace LibPM

open Recorded Recorded.Prog

/-! ## Shifted addresses -/

/-- An address of a mapping at `b`, in a mapping at `b'`. -/
def rebase (b b' a : ℕ) : ℕ := if a = 0 then 0 else a - b + b'

section

variable (b b' : ℕ)

def EntryRef.rebase (r : EntryRef) : EntryRef := { r with sb := LibPM.rebase b b' r.sb }

def Slot.rebase (t : Slot) : Slot := { t with maddr := LibPM.rebase b b' t.maddr }

def DataVersion.rebase (t : DataVersion) : DataVersion :=
  { t with maddr := LibPM.rebase b b' t.maddr }

def PtrVersion.rebase (t : PtrVersion) : PtrVersion :=
  { t with maddr := LibPM.rebase b b' t.maddr }

def Stailq.rebase (q : Stailq) : Stailq :=
  ⟨q.first.map (EntryRef.rebase b b'), q.last.map (EntryRef.rebase b b')⟩

def SlabEntrySize.rebase (es : SlabEntrySize) : SlabEntrySize :=
  { es with esList := es.esList.rebase b b' }

def SlabEntry.rebase (e : SlabEntry) : SlabEntry where
  seId := e.seId
  seSize := e.seSize
  dataCurrent := e.dataCurrent.rebase b b'
  dataSnapshot := e.dataSnapshot.rebase b b'
  ptrCurrent := e.ptrCurrent.rebase b b'
  ptrSnapshot := e.ptrSnapshot.rebase b b'
  seList := e.seList.map (EntryRef.rebase b b')

def SlabBucket.rebase (x : SlabBucket) : SlabBucket :=
  { x with sbEntries := fun i => (x.sbEntries i).rebase b b' }

def SlabInner.rebase (n : SlabInner) : SlabInner where
  siIndex := n.siIndex
  siCurrent i := (n.siCurrent i).rebase b b'
  siSnapshot i := (n.siSnapshot i).rebase b b'

def SlabOuter.rebase (o : SlabOuter) : SlabOuter where
  soIndex := o.soIndex
  soCurrent i := (o.soCurrent i).rebase b b'
  soSnapshot i := (o.soSnapshot i).rebase b b'

def SlabDir.rebase (d : SlabDir) : SlabDir where
  sdIndex := d.sdIndex
  sdMaddrRoot := d.sdMaddrRoot.map (EntryRef.rebase b b')
  sdFreeList := d.sdFreeList.rebase b b'
  sdContRoot := d.sdContRoot
  sdCurrent i := (d.sdCurrent i).rebase b b'
  sdSnapshot i := (d.sdSnapshot i).rebase b b'
  sdVector := ⟨d.sdVector.capacity, d.sdVector.items.map (EntryRef.rebase b b')⟩
  sdVectorHeap := d.sdVectorHeap

def Container.rebase (c : Container) : Container :=
  { c with currentSlab := c.currentSlab.rebase b b', snapshotSlab := c.snapshotSlab.rebase b b' }

/-- The bytes of a data page, where a word may be the address of an object. -/
def BytesRebased (x x' : ℕ → UInt8) : Prop :=
  ∀ off, x' off = x off ∨
    ∃ w, w ≤ off ∧ off < w + 8 ∧ le64 x' w = LibPM.rebase b b' (le64 x w)

def Page.Rebased : Page → Page → Prop
  | .data x, p => ∃ x', p = .data x' ∧ BytesRebased b b' x x'
  | .container c, p => p = .container (c.rebase b b')
  | .dir d, p => p = .dir (d.rebase b b')
  | .outer o, p => p = .outer (o.rebase b b')
  | .inner n, p => p = .inner (n.rebase b b')
  | .bucket x, p => p = .bucket (x.rebase b b')
  | .ptrs x, p => p = .ptrs x

def NlmPage.rebase (p : NlmPage) : NlmPage := { p with addr := LibPM.rebase b b' p.addr }

def PageAllocator.rebase : PageAllocator → PageAllocator
  | .unset => .unset
  | .fixed fm => .fixed { fm with startAddr := LibPM.rebase b b' fm.startAddr }
  | .nonlinear nlm => .nonlinear { nlm with
      startAddr := LibPM.rebase b b' nlm.startAddr
      freeHead := nlm.freeHead.map (NlmPage.rebase b b')
      freeLast := nlm.freeLast.map (LibPM.rebase b b')
      root := nlm.root.map (NlmPage.rebase b b') }

end

/-- `s'` is `s` with its mapping at another address. -/
structure Pm.Rebased (s s' : Pm) : Prop where
  pa : s'.pa = s.pa.rebase s.startAddr s'.startAddr
  fileLen : s'.fileLen = s.fileLen
  file : ∀ i, (s.file i).Rebased s.startAddr s'.startAddr (s'.file i)
  prot : s'.prot = s.prot
  vmap : s'.vmap = s.vmap
  containers : s'.containers = s.containers.map (rebase s.startAddr s'.startAddr)
  sizes : s'.sizes = s.sizes.map (SlabEntrySize.rebase s.startAddr s'.startAddr)
  nextSlabBucketId : s'.nextSlabBucketId = s.nextSlabBucketId
  nextSlabEntryId : s'.nextSlabEntryId = s.nextSlabEntryId

/-! ## Recovery at two addresses -/

/-- The same call of an application whose container is mapped at `b'` and not at `b`. -/
def Action.rebase (b b' : ℕ) : Action → Action
  | .store a v => .store (LibPM.rebase b b' a) v
  | .setroot a => .setroot (LibPM.rebase b b' a)
  | .insertPointer a => .insertPointer (LibPM.rebase b b' a)
  | .pointerat a => .pointerat (LibPM.rebase b b' a)
  | a => a

/-- Two processes map the file that `m` left, at their own addresses, and do the same: they end in
states that differ in the address only. -/
def RecoversAnywhere (env env' : Env) (m : Machine) (actions : List Action) : Prop :=
  ∃ cont cont' m₀ m₀' m₁ m₁',
    Returns (containerRestore env) (m.restart env) cont m₀ ∧
    Returns (containerRestore env') (m.restart env') cont' m₀' ∧
    Returns (actions.forM Action.run) m₀ () m₁ ∧
    Returns ((actions.map (Action.rebase m₀.pm.startAddr m₀'.pm.startAddr)).forM Action.run)
      m₀' () m₁' ∧
    m₁.pm.Rebased m₁'.pm

/-- **Recovery at two addresses.** For no file does it lead to two states at all. -/
theorem not_recoversAnywhere (env env' : Env) (m : Machine) (actions : List Action) :
    ¬ RecoversAnywhere env env' m actions := by
  rintro ⟨cont, cont', m₀, m₀', m₁, m₁', h, -⟩
  exact not_returns_containerRestore h

/-- The default settings, with a mapping one gigabyte further up. -/
def Env.above : Env :=
  { Env.standard .fixedMapper with
    mapHint := 2 ^ 40 + 2 ^ 30
    hint_aligned := by decide
    hint_ge := by decide }

/-- How a run stopped, if it did. -/
def stopsWith {α : Type} (c : MachineProg α) (m : Machine) : Option Fault :=
  match (c m).result with
  | .ok _ => none
  | .error e => some e

/-- An object and a byte stored to it. -/
def oneObject : List Action := [.palloc 512, .store (2 ^ 40 + 6 * pageSize) 7]

/-- A session with one object and a checkpoint; then how a recovery of its file stops at the address it
had, and how at another one. -/
def sessionReopened (env env' : Env) : MachineProg (Option Fault × Option Fault) := do
  let _ ← containerInit env
  oneObject.forM Action.run
  containerCpoint
  let m ← get
  return (stopsWith (containerRestore env) (m.restart env),
    stopsWith (containerRestore env') (m.restart env'))

/-- The handler of the first store reads `current_slab.maddr`, which no one has written yet: how the
recovery stops depends on the address the file is mapped at. -/
theorem not_recoversAnywhere_above : ∃ cont m₀ m₁ m,
    Returns (containerInit (Env.standard .fixedMapper)) (Machine.fresh (Env.standard .fixedMapper))
      cont m₀ ∧
    Returns (oneObject.forM Action.run) m₀ () m₁ ∧ Returns containerCpoint m₁ () m ∧
    stopsWith (containerRestore (Env.standard .fixedMapper)) (m.restart (Env.standard .fixedMapper)) =
      some (.assertion "Got SIGSEGV at address") ∧
    stopsWith (containerRestore Env.above) (m.restart Env.above) = some .sigsegv ∧
    ¬ RecoversAnywhere (Env.standard .fixedMapper) Env.above m [] := by
  have hrun : (sessionReopened (Env.standard .fixedMapper) Env.above
      (Machine.fresh (Env.standard .fixedMapper))).value? =
        some (some (.assertion "Got SIGSEGV at address"), some .sigsegv) := by
    decide +kernel
  obtain ⟨m', h⟩ := exists_returns_of_value hrun
  unfold sessionReopened at h
  simp only [returns_bind, returns_get, returns_pure, Prod.mk.injEq] at h
  obtain ⟨cont, m₀, hinit, _, m₁, hacts, _, m, hcp, _, _, ⟨rfl, rfl⟩, ⟨hold, hnew⟩, -⟩ := h
  refine ⟨cont, m₀, m₁, m, hinit, hacts, hcp, hold, hnew, ?_⟩
  rintro ⟨_, _, _, _, _, _, hr, -⟩
  exact not_returns_containerRestore hr

end LibPM

import LibPM.Model.Closure
import LibPM.Model.Restore

/-!
# Containers (cont.c)

A session starts in a fresh process: `containerInit` makes a new container file, `containerRestore`
opens the file an earlier process left.
-/

namespace LibPM

open Recorded Recorded.Prog

/-! ## Processes -/

/-- What the environment decides for a process. -/
structure Env where
  mapHint : ℕ
  mapLimit : ℕ
  raw : Page → ℕ → UInt8
  mem : ℕ → UInt8
  freedByte : ℕ → ℕ → UInt8
  fixPtrs : Bool
  closure : Bool
  /-- `PMLIB_USE_NLMAPPER`. -/
  kind : MapperKind
  /-- `PMLIB_INIT_SIZE`. -/
  pmlibInitSize : Option ℕ
  /-- `map_hint` looks for addresses from one terabyte on, in steps of one gigabyte. -/
  hint_aligned : mapHint % 2 ^ 30 = 0
  hint_ge : mapHint = 0 ∨ 2 ^ 40 ≤ mapHint
  limit_le : mapLimit ≤ 2 ^ 47

/-- The size of a new file. -/
def Env.initSize (env : Env) : ℕ :=
  match env.pmlibInitSize with
  | none => fmFileSize
  | some n => max (roundPg n) pageSize

/-- The default settings, with a mapping at one terabyte. -/
def Env.standard (kind : MapperKind) : Env where
  mapHint := 2 ^ 40
  mapLimit := 2 ^ 41
  raw _ _ := 0
  mem _ := 0
  freedByte _ _ := 0
  fixPtrs := true
  closure := true
  kind := kind
  pmlibInitSize := none
  hint_aligned := by decide
  hint_ge := by decide
  limit_le := by decide

/-- A process that has not opened the container file yet. -/
def Pm.boot (env : Env) (fileLen : ℕ) (file : ℕ → Page) (heap : ℕ) : Pm where
  pa := .unset
  fileLen := fileLen
  file := file
  prot _ := ⟨false, false⟩
  vmap := id
  mapHint := env.mapHint
  mapLimit := env.mapLimit
  raw := env.raw
  containers := none
  sizes := []
  nextSlabBucketId := 0
  nextSlabEntryId := 0
  heap := heap
  fixPtrs := env.fixPtrs

def Machine.boot (env : Env) (pm : Pm) : Machine where
  pm := pm
  mem := env.mem
  htPointerat := HTable.init
  htMallocat := HTable.init
  mallocatTree := .leaf
  pptrVec := CVector.init
  freed := []
  freedByte := env.freedByte
  closure := env.closure

/-- A process and an empty container file. -/
def Machine.fresh (env : Env) : Machine :=
  Machine.boot env (Pm.boot env 0 (fun _ => Page.zero) 0)

/-- The process that runs after a crash: of the old one only the file is left. -/
def Machine.restart (env : Env) (m : Machine) : Machine :=
  Machine.boot env (Pm.boot env m.pm.fileLen m.pm.file (m.pm.heap + 1))

/-! ## Operations -/

/-- `container_init`. -/
def containerInit (env : Env) : MachineProg ℕ := do
  let m ← get
  -- `container_getid` answers -1 when there is a container
  require (m.pm.containers = none) .outOfBounds
  onPm (pageAllocatorInit env.kind env.initSize)
  let (cont, contLaddr) ← onPm (pageAllocatorGetpage paProtWrite)
  require (contLaddr = containerLimaAddress)
    (.assertion "failed to get the expected laddr for container")
  closureInit
  onPm do
    retypePage cont fun b => .container (containerOfBytes b)
    modify fun s => { s with containers := some cont }
    updatePage cont (Page.onContainer fun c => { c with id := 0 })
    let (sd, sdLaddr) ← slabDirInit
    updatePage cont (Page.onContainer fun c => { c with currentSlab.laddr := sdLaddr })
    updatePage cont (Page.onContainer fun c => { c with currentSlab.maddr := sd })
    updatePage cont (Page.onContainer fun c =>
      { c with snapshotSlab.maddr := c.currentSlab.maddr })
    updatePage cont (Page.onContainer fun c =>
      { c with snapshotSlab.laddr := c.currentSlab.laddr })
  return cont

/-- `container_palloc`; zero stands for `NULL`. The size is an `unsigned int`. -/
def containerPalloc (size : ℕ) : MachineProg ℕ := onPm (slabPalloc (size % 2 ^ 32))

/-- `compute_closure`, or `dont_compute_closure` when the closure is off. -/
def computeClosure : MachineProg Unit := do
  let m ← get
  when (m.closure = true) do
    buildMallocatTree
    classifyPointers
    moveVolatileAllocations
    fixBackReferences

def containerCpointAux (type : CpointType) : MachineProg Unit := do
  let cont ← onPm getContainer
  onPm (updatePage cont (Page.onContainer fun c =>
    { c with flags := c.flags ||| cflagCpointInProgress }))
  computeClosure
  onPm do
    slabCpoint type
    let c ← loadContainer cont
    when (c.currentSlab.maddr ≠ c.snapshotSlab.maddr) do
      updatePage cont (Page.onContainer fun c => { c with snapshotSlab.laddr := c.currentSlab.laddr })
      pageAllocatorFreepages c.snapshotSlab.maddr
      updatePage cont (Page.onContainer fun c => { c with snapshotSlab.maddr := c.currentSlab.maddr })
    updatePage cont (Page.onContainer fun c =>
      { c with flags := c.flags &&& ~~~cflagCpointInProgress })

def containerCpoint : MachineProg Unit := containerCpointAux .regular

/-- The mapping of the tree in `container_restore`. -/
def containerRemap (cont : ℕ) : MachineProg Unit := do
  let c ← onPm (loadContainer cont)
  if c.flags &&& cflagCpointInProgress ≠ 0 then do
    onPm do
      let sd ← slabMap c.currentSlab.laddr .incomplete
      updatePage cont (Page.onContainer fun c => { c with currentSlab.maddr := sd })
      let c ← loadContainer cont
      when (c.currentSlab.laddr ≠ c.snapshotSlab.laddr) do
        let sds ← slabMap c.snapshotSlab.laddr .incomplete
        updatePage cont (Page.onContainer fun c => { c with snapshotSlab.maddr := sds })
    containerCpointAux .restore
    onPm (updatePage cont (Page.onContainer fun c =>
      { c with flags := c.flags &&& ~~~cflagCpointInProgress }))
  else onPm do
    let sd ← slabMap c.snapshotSlab.laddr .complete
    updatePage cont (Page.onContainer fun c => { c with currentSlab.maddr := sd })
    updatePage cont (Page.onContainer fun c =>
      { c with snapshotSlab.maddr := c.currentSlab.maddr })
    updatePage cont (Page.onContainer fun c =>
      { c with currentSlab.laddr := c.snapshotSlab.laddr })

/-- `container_restore`. The first store, to `cont->pg_allocator`, changes no field of the model:
the pointer is only meant for the process that wrote it. -/
def containerRestore (env : Env) : MachineProg ℕ := do
  onPm (pageAllocatorInit env.kind env.initSize)
  let cont ← onPm (pageAllocatorMappage containerLimaAddress)
  onPm do
    modify fun s => { s with containers := some cont }
    updatePage cont (Page.onContainer id)
  closureInit
  containerRemap cont
  onPm slabFixptrs
  onPm (slabMprotectDatapgs paProtRead)
  return cont

def containerSetroot (maddr : ℕ) : MachineProg ℕ := onPm (slabSetroot maddr)

def containerGetroot : MachineProg ℕ := onPm slabGetroot

end LibPM

import LibPM.Recovery.FirstStore
import LibPM.Session.Basic

/-!
# What `container_restore` gives back

The three promises of recovery, each judged on the state in which `container_restore` returns: after
a crash between checkpoints, after a crash inside a checkpoint or a recovery, and for the pointers of
a process that ended after a checkpoint. None of them is kept, since `container_restore` does not
return: its first store faults.
-/

namespace LibPM

open Recorded Recorded.Prog

/-! ## `container_restore` -/

theorem Env.exists_initSize (env : Env) : ∃ n, 0 < n ∧ env.initSize = n * pageSize := by
  unfold Env.initSize
  cases env.pmlibInitSize with
  | none => exact ⟨2, by omega, rfl⟩
  | some n =>
    dsimp only
    by_cases h : pageSize ≤ roundPg n
    · refine ⟨(n + (pageSize - 1)) / pageSize, Nat.div_pos ?_ pageSize_pos, Nat.max_eq_left h⟩
      unfold roundPg at h
      by_contra h0
      rw [Nat.div_eq_of_lt (by omega), Nat.zero_mul] at h
      omega
    · exact ⟨1, by omega, by rw [Nat.one_mul]; exact Nat.max_eq_right (by omega)⟩

/-- **`container_restore` does not return**, whatever file it is given. -/
theorem not_returns_containerRestore {env : Env} {m m' : Machine} {cont : ℕ} :
    ¬ Returns (containerRestore env) m cont m' := by
  intro h
  obtain ⟨n, hn, hsize⟩ := env.exists_initSize
  unfold containerRestore onPm at h
  simp only [returns_bind, returns_zoom, returns_modify] at h
  obtain ⟨_, _, ⟨s, hinit, rfl⟩, cont', _, ⟨_, hmap, rfl⟩, _, _, ⟨s₁, ⟨_, _, rfl, hupd⟩, -⟩, -⟩ := h
  unfold pageAllocatorMappage containerLimaAddress at hmap
  simp only [returns_bind, returns_get, returns_pure] at hmap
  obtain ⟨_, _, ⟨rfl, rfl⟩, rfl, rfl⟩ := hmap
  have hs := justMapped_init hinit hn hsize
  unfold updatePage at hupd
  simp only [returns_bind, returns_makeWritable] at hupd
  obtain ⟨_, _, ⟨i, -, hw⟩, -⟩ := hupd
  rcases hw with ⟨hw, -⟩ | ⟨-, hfault⟩
  · rw [show (_ : Prot).write = false from hs.prot i] at hw
    cases hw
  · exact not_returns_handleMemoryUpdate hs hfault

/-! ## A crash between two checkpoints -/

/-- The default settings with pointer fixing off. -/
def Env.noFixPtrs : Env := { Env.standard .fixedMapper with fixPtrs := false }

/-- A process started after the crash gets back the objects and the root word of the last checkpoint,
if there was one. -/
def RecoversCheckpoint (env : Env) (saved : Option Machine) (t : Machine) : Prop :=
  ∃ cont m', Returns (containerRestore env) (t.restart env) cont m' ∧
    ∀ m ∈ saved, SameObjects m.pm m'.pm ∧ SameRoot m.pm m'.pm

/-- **Crashes between checkpoints.** At no crash point of any session does the next process get back
the last checkpoint. -/
theorem not_recoversCheckpoint (env env' : Env) (saved : Option Machine) (t : Machine)
    (_h : CrashPoint env saved t) : ¬ RecoversCheckpoint env' saved t := by
  rintro ⟨cont, m', h, -⟩
  exact not_returns_containerRestore h

/-- A session with one object, a byte stored to it and a checkpoint. -/
def sessionWithObject (env : Env) : MachineProg Unit := do
  let _ ← containerInit env
  [Action.palloc 512, .store (2 ^ 40 + 6 * pageSize) 7, .setroot (2 ^ 40 + 6 * pageSize)].forM
    Action.run
  containerCpoint

theorem exists_crashPoint_noFixPtrs : ∃ m, CrashPoint Env.noFixPtrs (some m) m := by
  have hrun : (sessionWithObject Env.noFixPtrs (Machine.fresh Env.noFixPtrs)).value? = some () := by
    decide +kernel
  obtain ⟨m, h⟩ := exists_returns_of_value hrun
  unfold sessionWithObject at h
  simp only [returns_bind] at h
  obtain ⟨cont, m₀, hinit, _, m₁, hacts, hcp⟩ := h
  obtain ⟨saved, hs⟩ := (Session.init hinit).forM hacts
  exact ⟨m, m, hs.step (a := .cpoint) trivial hcp, .inl rfl⟩

/-- One byte was stored and the process crashes after the checkpoint. -/
theorem not_recoversCheckpoint_noFixPtrs : ∃ m, CrashPoint Env.noFixPtrs (some m) m ∧
    ¬ RecoversCheckpoint Env.noFixPtrs (some m) m := by
  obtain ⟨m, hm⟩ := exists_crashPoint_noFixPtrs
  exact ⟨m, hm, not_recoversCheckpoint _ _ _ _ hm⟩

/-- The promise is broken on the default path with pointer fixing off. -/
theorem not_forall_recoversCheckpoint : ¬ ∀ (env : Env) (saved : Option Machine) (t : Machine),
    env.kind = .fixedMapper → env.fixPtrs = false → CrashPoint env saved t →
      RecoversCheckpoint env saved t := by
  intro h
  obtain ⟨m, hm⟩ := exists_crashPoint_noFixPtrs
  obtain ⟨cont, m', hr, -⟩ := h _ _ _ rfl rfl hm
  exact not_returns_containerRestore hr

/-! ## A crash inside a checkpoint -/

/-- The flag in the header says that a checkpoint is under way. -/
def Pm.inProgress (s : Pm) : Bool :=
  match s.containers.bind s.readContainer with
  | some c => c.flags &&& cflagCpointInProgress != 0
  | none => false

/-- A crash exposes `t` while the checkpoint that started in `m` was under way, or while a recovery
from such a crash was, any number of times over. -/
inductive CutShort (m : Machine) : Machine → Prop
  | cpoint {t : Machine} : Exposes containerCpoint m t → t.pm.inProgress = true → CutShort m t
  | recovery {env : Env} {t t' : Machine} : CutShort m t →
      Exposes (containerRestore env) (t.restart env) t' → CutShort m t'

/-- A process started after the crash reaches the tree and the objects that the checkpoint was going
to commit, in state `done`, and has no page of that tree on the free list. -/
def RedoesCheckpoint (env : Env) (done t : Machine) : Prop :=
  ∃ cont m', Returns (containerRestore env) (t.restart env) cont m' ∧
    SameCommitted done.pm m'.pm ∧ SameObjects done.pm m'.pm ∧
    ∀ path slot, m'.pm.Committed path slot → slot.laddr / pageSize ∉ m'.pm.freePgnos

/-- **Crashes inside a checkpoint.** No checkpoint that was cut short is redone, from any state and
after any number of further crashes. -/
theorem not_redoesCheckpoint (env : Env) (m done t : Machine) (_hm : Returns containerCpoint m () done)
    (_h : CutShort m t) : ¬ RedoesCheckpoint env done t := by
  rintro ⟨cont, m', h, -⟩
  exact not_returns_containerRestore h

/-- A session with one object and a stored byte, then a checkpoint: whether a crash inside the
checkpoint can expose the flag set. -/
def sessionCutShort (env : Env) : MachineProg Bool := do
  let _ ← containerInit env
  [Action.palloc 512, .store (2 ^ 40 + 6 * pageSize) 7].forM Action.run
  let m ← get
  containerCpoint
  return (containerCpoint m).trace.any (·.pm.inProgress)

theorem exists_cutShort : ∃ m done t, Returns containerCpoint m () done ∧ CutShort m t := by
  have hrun : (sessionCutShort Env.noFixPtrs (Machine.fresh Env.noFixPtrs)).value? = some true := by
    decide +kernel
  obtain ⟨done, h⟩ := exists_returns_of_value hrun
  unfold sessionCutShort at h
  simp only [returns_bind, returns_get, returns_pure] at h
  obtain ⟨_, _, -, _, m₁, -, _, _, ⟨rfl, rfl⟩, _, _, hcp, hany, -⟩ := h
  obtain ⟨t, ht, hflag⟩ := List.any_eq_true.mp hany
  exact ⟨m₁, _, t, hcp, .cpoint ht hflag⟩

/-- At a checkpoint of one object. -/
theorem not_redoesCheckpoint_noFixPtrs : ∃ m done t, Returns containerCpoint m () done ∧
    CutShort m t ∧ ¬ RedoesCheckpoint Env.noFixPtrs done t := by
  obtain ⟨m, done, t, hcp, ht⟩ := exists_cutShort
  exact ⟨m, done, t, hcp, ht, not_redoesCheckpoint _ _ _ _ hcp ht⟩

theorem not_forall_redoesCheckpoint : ¬ ∀ (env : Env) (m done t : Machine),
    Returns containerCpoint m () done → CutShort m t → RedoesCheckpoint env done t := by
  intro h
  obtain ⟨m, done, t, hcp, ht⟩ := exists_cutShort
  obtain ⟨cont, m', hr, -⟩ := h Env.noFixPtrs m done t hcp ht
  exact not_returns_containerRestore hr

/-! ## Pointers -/

/-- The locations given to `pointerat` by a list of actions. -/
def registered (actions : List Action) : List ℕ :=
  actions.filterMap fun
    | .pointerat ptrLoc => some ptrLoc
    | _ => none

/-- A process that maps the file again has every pointer registered before in its place, with the
target it had at the last checkpoint. -/
def RestoresPointers (env : Env) (ptrLocs : List ℕ) (m : Machine) : Prop :=
  ∃ cont m', Returns (containerRestore env) (m.restart env) cont m' ∧
    ∀ a ∈ ptrLocs, PointerKept m.pm m'.pm a

/-- **Pointers after a restart.** After no run that ends with a checkpoint are the registered pointers
restored. -/
theorem not_restoresPointers (env env' : Env) (actions : List Action) (cont : ℕ) (m₀ m₁ m : Machine)
    (_hinit : Returns (containerInit env) (Machine.fresh env) cont m₀)
    (_hrun : Returns (actions.forM Action.run) m₀ () m₁) (_hm : Returns containerCpoint m₁ () m) :
    ¬ RestoresPointers env' (registered actions) m := by
  rintro ⟨cont, m', h, -⟩
  exact not_returns_containerRestore h

/-- An object whose first word, a null pointer, is registered. -/
def onePointer : List Action := [.palloc 512, .pointerat (2 ^ 40 + 6 * pageSize)]

/-- The run with one pointer and its checkpoint, and then the value of the pointer. -/
def sessionOnePointer (env : Env) : MachineProg ℕ := do
  let _ ← containerInit env
  onePointer.forM Action.run
  containerCpoint
  Machine.loadWord (2 ^ 40 + 6 * pageSize)

theorem exists_sessionOnePointer : ∃ cont m₀ m₁ m,
    Returns (containerInit (Env.standard .fixedMapper)) (Machine.fresh (Env.standard .fixedMapper))
      cont m₀ ∧
    Returns (onePointer.forM Action.run) m₀ () m₁ ∧ Returns containerCpoint m₁ () m ∧
    ∃ m', Returns (Machine.loadWord (2 ^ 40 + 6 * pageSize)) m 0 m' := by
  have hrun : (sessionOnePointer (Env.standard .fixedMapper)
      (Machine.fresh (Env.standard .fixedMapper))).value? = some 0 := by
    decide +kernel
  obtain ⟨m', h⟩ := exists_returns_of_value hrun
  unfold sessionOnePointer at h
  simp only [returns_bind] at h
  obtain ⟨cont, m₀, hinit, _, m₁, hacts, _, m, hcp, hw⟩ := h
  exact ⟨cont, m₀, m₁, m, hinit, hacts, hcp, m', hw⟩

/-- With one pointer, which is null. -/
theorem not_restoresPointers_onePointer : ∃ m₁ m, Returns containerCpoint m₁ () m ∧
    ¬ RestoresPointers (Env.standard .fixedMapper) (registered onePointer) m := by
  obtain ⟨cont, m₀, m₁, m, hinit, hacts, hcp, -⟩ := exists_sessionOnePointer
  exact ⟨m₁, m, hcp, not_restoresPointers _ _ _ _ _ _ _ hinit hacts hcp⟩

/-- The promise is broken for one null pointer, in a process with any settings. -/
theorem not_forall_restoresPointers : ∃ m₁ m m', Returns containerCpoint m₁ () m ∧
    Returns (Machine.loadWord (2 ^ 40 + 6 * pageSize)) m 0 m' ∧
    2 ^ 40 + 6 * pageSize ∈ registered onePointer ∧
    ∀ env, ¬ RestoresPointers env (registered onePointer) m := by
  obtain ⟨cont, m₀, m₁, m, -, -, hcp, m', hw⟩ := exists_sessionOnePointer
  refine ⟨m₁, m, m', hcp, hw, by decide, ?_⟩
  rintro env ⟨cont, m', h, -⟩
  exact not_returns_containerRestore h

end LibPM

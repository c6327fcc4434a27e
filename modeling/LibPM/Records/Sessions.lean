import LibPM.Records.Fits

/-!
# Records fit in every session

A new container starts with pages no one has written, so its first bucket has no records; what the
library does after that keeps `Pm.RecordsFit`.
-/

namespace LibPM

open Recorded Recorded.Prog

variable {s s' : Pm} {n : ℕ} {free : List ℕ}

/-! ## The pages of a new file -/

/-- Pages that were never handed out are as the file was made. -/
structure Pm.Unwritten (s : Pm) (n : ℕ) (free : List ℕ) : Prop where
  space : s.Space n free
  pages : ∀ i ∈ free, s.page i = Page.zero
  beyond : ∀ j, n ≤ j → s.file j = Page.zero

namespace Pm.Unwritten

/-- The first page handed out is unwritten, and so are those that are left. -/
theorem getpage (h : s.Unwritten n free) {flags : Prot} {x : ℕ × ℕ}
    (hr : Returns (pageAllocatorGetpage flags) s x s') :
    ∃ p n' free', s'.Unwritten n' free' ∧ x.1 = s'.addr p ∧ p < n' ∧ p ∉ free' ∧
      s'.page p = Page.zero := by
  obtain ⟨p, n', free', ht⟩ := h.space.getpage hr
  obtain ⟨pa, prot, len, vmap, hs'⟩ := ht.same
  have hfile : s'.file = s.file := by rw [hs']
  have hold : ∀ i < n, s'.page i = s.page i := fun i hi => by
    unfold Pm.page
    rw [hfile, ht.vmap i hi]
  have hnew : ∀ i, n ≤ i → i < n' → s'.page i = Page.zero := fun i hi hi' => by
    unfold Pm.page
    rw [hfile, ht.fresh i hi hi']
    exact h.beyond i hi
  have hzero : ∀ i, i = p ∨ i ∈ free' → s'.page i = Page.zero := by
    intro i hi
    rcases ht.takes.cases with ⟨hn, hfree⟩ | ⟨hn, -, hrange⟩
    · have hmem : i ∈ free := by
        rw [hfree]
        exact List.mem_cons.mpr hi
      rw [hold i (h.space.lt hmem)]
      exact h.pages i hmem
    · have hmem : i ∈ List.range' n n := by
        rw [← hrange]
        exact List.mem_cons.mpr hi
      obtain ⟨hle, hlt⟩ := List.mem_range'_1.mp hmem
      exact hnew i hle (by omega)
  have hnodup : (p :: free').Nodup := by
    rcases ht.takes.cases with ⟨-, hfree⟩ | ⟨-, -, hrange⟩
    · rw [← hfree]
      exact h.space.nodup
    · rw [hrange]
      exact List.nodup_range'
  refine ⟨p, n', free', ⟨ht.space, fun i hi => hzero i (.inr hi), fun j hj => ?_⟩, ?_, ht.takes.lt,
    (List.nodup_cons.mp hnodup).1, hzero p (.inl rfl)⟩
  · rw [hfile]
    exact h.beyond j (ht.takes.le.trans hj)
  · rw [ht.maddr]
    unfold Pm.addr
    rw [ht.start]

theorem setPage (h : s.Unwritten n free) {p : ℕ} (hp : p < n) (hf : p ∉ free) (x : Page) :
    (s.setPage (s.vmap p) x).Unwritten n free := by
  refine ⟨h.space.setPage _ x, fun i hi => ?_, fun j hj => ?_⟩
  · rw [h.space.page_setPage hp (h.space.lt hi), if_neg (fun hip => hf (by rwa [← hip]))]
    exact h.pages i hi
  · have hne : j ≠ s.vmap p := by
      have := h.space.maps p hp
      omega
    show Function.update s.file (s.vmap p) x j = _
    rw [Function.update_of_ne hne]
    exact h.beyond j hj

/-- A structure is laid over an unwritten page. -/
theorem retypePage (h : s.Unwritten n free) {p : ℕ} (hp : p < n) (hf : p ∉ free)
    (hz : s.page p = Page.zero) {g : (ℕ → UInt8) → Page} {u : Unit}
    (hr : Returns (LibPM.retypePage (s.addr p) g) s u s') :
    s'.Unwritten n free ∧ s' = s.setPage (s.vmap p) (g fun _ => 0) := by
  unfold LibPM.retypePage at hr
  simp only [returns_bind, returns_get, returns_ofOption, returns_modify] at hr
  obtain ⟨_, _, ⟨rfl, rfl⟩, i, _, ⟨hi, rfl⟩, rfl⟩ := hr
  unfold Pm.fpage at hi
  rw [h.space.vpage hp] at hi
  obtain rfl := Option.some.inj hi
  have hfile : s.file (s.vmap p) = Page.zero := hz
  rw [hfile]
  exact ⟨h.setPage hp hf _, rfl⟩

/-- A page is taken for a structure. -/
theorem node (h : s.Unwritten n free) {g : (ℕ → UInt8) → Page}
    (hr : ∃ x t, Returns (pageAllocatorGetpage paProtWrite) s x t ∧
      Returns (LibPM.retypePage x.1 g) t () s') : ∃ n' free', s'.Unwritten n' free' := by
  obtain ⟨x, t, hget, hre⟩ := hr
  obtain ⟨p, n', free', ht, hx, hp, hf, hz⟩ := h.getpage hget
  rw [hx] at hre
  exact ⟨n', free', (ht.retypePage hp hf hz hre).1⟩

end Pm.Unwritten

/-- The directory of a new container, with its first bucket. -/
theorem recordsFit_slabDirInit (h : s.Unwritten n free) (hs : s.RecordsFit) {x : ℕ × ℕ}
    (hr : Returns slabDirInit s x s') : s'.RecordsFit := by
  unfold slabDirInit slabOuterInit slabInnerInit at hr
  simp only [bind_assoc, pure_bind] at hr
  obtain ⟨⟨sd, laddr⟩, s₁, h₁, hr⟩ := returns_bind.mp hr
  obtain ⟨_, s₂, h₂, hr⟩ := returns_bind.mp hr
  obtain ⟨⟨so, soLaddr⟩, s₃, h₃, hr⟩ := returns_bind.mp hr
  obtain ⟨_, s₄, h₄, hr⟩ := returns_bind.mp hr
  obtain ⟨⟨si, siLaddr⟩, s₅, h₅, hr⟩ := returns_bind.mp hr
  obtain ⟨_, s₆, h₆, hr⟩ := returns_bind.mp hr
  obtain ⟨⟨sb, sbLaddr⟩, s₇, h₇, hr⟩ := returns_bind.mp hr
  obtain ⟨_, s₈, h₈, hr⟩ := returns_bind.mp hr
  obtain ⟨_, _, hu₂⟩ := h.node ⟨_, _, h₁, h₂⟩
  obtain ⟨_, _, hu₄⟩ := hu₂.node ⟨_, _, h₃, h₄⟩
  obtain ⟨_, _, hu₆⟩ := hu₄.node ⟨_, _, h₅, h₆⟩
  obtain ⟨p, _, _, hu₇, hx, hp, hf, hz⟩ := hu₆.getpage h₇
  have hs₂ := StaysFit.retypePage _ (by exact fun _ => trivial) h₂ (StaysFit.getpage _ h₁ hs)
  have hs₄ := StaysFit.retypePage _ (by exact fun _ => trivial) h₄ (StaysFit.getpage _ h₃ hs₂)
  have hs₆ := StaysFit.retypePage _ (by exact fun _ => trivial) h₆ (StaysFit.getpage _ h₅ hs₄)
  have hs₇ := StaysFit.getpage _ h₇ hs₆
  have hs₈ : s₈.RecordsFit := by
    dsimp only at hx h₈
    rw [hx] at h₈
    obtain ⟨-, rfl⟩ := hu₇.retypePage hp hf hz h₈
    exact hs₇.setPage _ Page.recordsFit_zero
  refine (StaysFit.getNextBucketId.bind fun _ => (StaysFit.updatePage _ (StaysFit.onBucket (by exact fun _ => rfl))).bind
    fun _ => (StaysFit.installOuter _ _ _).bind fun _ => (StaysFit.clearIndexes _).bind fun _ =>
      (StaysFit.installInner _ _ _).bind fun _ => (StaysFit.installBucket _ _ _).bind fun _ =>
        (StaysFit.freeBucketEntries _ _).bind fun _ => keeps_get.bind fun _ =>
          (StaysFit.updatePage _ StaysFit.onDir).bind fun _ => keeps_pure) hr hs₈

/-! ## The machine -/

def Machine.StaysFit (m m' : Machine) : Prop := m.pm.StaysFit m'.pm

instance : IsTrans Machine Machine.StaysFit := ⟨fun _ _ _ h h' hs => h' (h hs)⟩

instance : Std.Refl Machine.StaysFit := ⟨fun _ h => h⟩

namespace Machine.StaysFit

theorem onPm {α : Type} {c : PmProg α} (h : Keeps Pm.StaysFit c) :
    Keeps Machine.StaysFit (onPm c) := by
  intro m a m' hr
  obtain ⟨t, ht, rfl⟩ := returns_zoom.mp hr
  exact h ht

/-- A change of the machine that leaves the file. -/
theorem modify {f : Machine → Machine} (hf : ∀ m, (f m).pm = m.pm) :
    Keeps Machine.StaysFit (Prog.modify f : MachineProg Unit) :=
  Keeps.modify fun m h => by
    rw [hf]
    exact h

theorem loadByte (a : ℕ) : Keeps Machine.StaysFit (Machine.loadByte a) := by
  refine keeps_get.bind fun m => ?_
  cases m.pm.place a with
  | container => exact onPm (keeps_get.bind fun _ => keeps_ofOption.bind fun _ => keeps_pure)
  | nowhere => exact keeps_fail
  | ordinary => exact keeps_pure

theorem storeByte (a : ℕ) (v : UInt8) : Keeps Machine.StaysFit (Machine.storeByte a v) := by
  refine keeps_get.bind fun m => ?_
  cases m.pm.place a with
  | container => exact onPm (LibPM.StaysFit.storeByte a v)
  | nowhere => exact keeps_fail
  | ordinary => exact modify (by exact fun _ => rfl)

theorem loadWord (a : ℕ) : Keeps Machine.StaysFit (Machine.loadWord a) := by
  have hbytes : ∀ l : List ℕ, Keeps Machine.StaysFit (l.mapM Machine.loadByte) := by
    intro l
    induction l with
    | nil => exact keeps_pure
    | cons x l ih =>
      rw [List.mapM_cons]
      exact (loadByte x).bind fun _ => ih.bind fun _ => keeps_pure
  exact (hbytes _).bind fun _ => keeps_pure

theorem storeWord (a v : ℕ) : Keeps Machine.StaysFit (Machine.storeWord a v) :=
  Keeps.forM fun _ _ => storeByte _ _

theorem mallocatFind (a : ℕ) : Keeps Machine.StaysFit (mallocatFind a) :=
  keeps_get.bind fun _ => (modify (by exact fun _ => rfl)).bind fun _ => keeps_pure

theorem moveValloc (e : MallocatEntry) : Keeps Machine.StaysFit (moveValloc e) :=
  (onPm (LibPM.StaysFit.slabPalloc _)).bind fun _ => Keeps.bind (modify (by exact fun _ => rfl)) fun _ =>
    (Keeps.forM fun _ _ => (loadByte _).bind fun _ => storeByte _ _).bind fun _ =>
      Keeps.bind (modify (by exact fun _ => rfl)) fun _ => (Keeps.forM fun _ _ => (modify (by exact fun _ => rfl))).bind fun _ => keeps_pure

theorem persistValloc (ptrLoc : ℕ) : Keeps Machine.StaysFit (persistValloc ptrLoc) := by
  refine (loadWord ptrLoc).bind fun v => (mallocatFind v).bind fun o => ?_
  cases o with
  | none => exact keeps_pure
  | some e =>
    exact Keeps.bind (Keeps.ite (moveValloc e) keeps_pure) fun _ => (loadWord _).bind fun _ =>
      storeWord _ _

theorem loadEntry (se : EntryRef) : Keeps Machine.StaysFit (LibPM.onPm (loadEntry se)) :=
  onPm LibPM.StaysFit.load

theorem moveVolatileAllocationsCallback (se : EntryRef) :
    Keeps Machine.StaysFit (moveVolatileAllocationsCallback se) :=
  (loadEntry se).bind fun _ => Keeps.upTo (onPm (LibPM.StaysFit.load.bind fun _ => keeps_pure))
    (fun _ => (loadEntry se).bind fun _ => (onPm (keeps_require.bind fun _ => keeps_get.bind fun _ =>
      keeps_ofOption.bind fun _ => keeps_pure)).bind fun _ => persistValloc _) _ _

theorem drainPptrVec : Keeps Machine.StaysFit drainPptrVec :=
  Keeps.upTo (keeps_get.bind fun _ => keeps_pure) (fun _ => keeps_get.bind fun _ => keeps_ofOption.bind
    fun _ => (persistValloc _).bind fun _ => onPm (LibPM.StaysFit.slabInsertPointer _)) _ _

theorem moveVolatileAllocations : Keeps Machine.StaysFit moveVolatileAllocations :=
  drainPptrVec.bind fun _ => Keeps.bind (modify (by exact fun _ => rfl)) fun _ => (onPm LibPM.StaysFit.currentSlabMaddr).bind
    fun _ => Keeps.upTo (onPm (LibPM.StaysFit.load.bind fun _ => keeps_pure)) (fun _ =>
      (onPm (LibPM.StaysFit.dirtyAt _ _)).bind fun _ => moveVolatileAllocationsCallback _) _ _

theorem htableForeach (table : Machine → HTable) {fn : ℕ → ℕ → MachineProg Unit}
    (hf : ∀ k v, Keeps Machine.StaysFit (fn k v)) : Keeps Machine.StaysFit (htableForeach table fn) :=
  keeps_get.bind fun _ => (Keeps.forM fun _ _ => hf _ _).bind fun _ => keeps_require

theorem classifyPointers : Keeps Machine.StaysFit classifyPointers := by
  refine keeps_get.bind fun _ => Keeps.forM fun x _ => Keeps.bind ?_ fun _ => Keeps.when (modify (by exact fun _ => rfl))
  refine (mallocatFind x.key).bind fun o => ?_
  cases o with
  | some e => exact Keeps.bind (modify (by exact fun _ => rfl)) fun _ => keeps_pure
  | none =>
    refine (onPm (LibPM.StaysFit.currentSlabMaddr.bind fun _ => LibPM.StaysFit.usedFind _ _)).bind
      fun o => ?_
    cases o with
    | some se => exact Keeps.bind (modify (by exact fun _ => rfl)) fun _ => keeps_pure
    | none => exact keeps_pure

theorem fixBackReferences : Keeps Machine.StaysFit fixBackReferences := by
  refine htableForeach _ fun k _ => (loadWord k).bind fun v => Keeps.when ((mallocatFind v).bind
    fun o => ?_)
  cases o with
  | some e => exact (loadWord k).bind fun _ => storeWord _ _
  | none => exact keeps_pure

theorem computeClosure : Keeps Machine.StaysFit computeClosure :=
  keeps_get.bind fun _ => Keeps.when ((htableForeach _ fun _ _ => (modify (by exact fun _ => rfl))).bind fun _ =>
    classifyPointers.bind fun _ => moveVolatileAllocations.bind fun _ => fixBackReferences)

theorem containerCpointAux (type : CpointType) : Keeps Machine.StaysFit (containerCpointAux type) := by
  have hflags : ∀ cont {f : Container → Container},
      Keeps Pm.StaysFit (updatePage cont (Page.onContainer f)) := fun cont _ =>
    LibPM.StaysFit.updatePage cont LibPM.StaysFit.onContainer
  refine (onPm LibPM.StaysFit.load).bind fun cont => (onPm (hflags cont)).bind fun _ =>
    computeClosure.bind fun _ => onPm ?_
  exact (LibPM.StaysFit.slabCpoint type).bind fun _ => LibPM.StaysFit.load.bind fun _ =>
    (Keeps.when ((hflags cont).bind fun _ => (LibPM.StaysFit.freepages _).bind fun _ =>
      hflags cont)).bind fun _ => hflags cont

theorem action (a : Action) : Keeps Machine.StaysFit a.run := by
  cases a with
  | palloc size => exact (onPm (LibPM.StaysFit.slabPalloc _)).bind fun _ => keeps_pure
  | store a v => exact storeByte a v
  | setroot a => exact (onPm (LibPM.StaysFit.slabSetroot a)).bind fun _ => keeps_pure
  | insertPointer ptrLoc => exact onPm (LibPM.StaysFit.slabInsertPointer ptrLoc)
  | mallocat addr size => exact keeps_require.bind fun _ => modify (by exact fun _ => rfl)
  | pointerat ptrLoc => exact modify (by exact fun _ => rfl)
  | cpoint => exact containerCpointAux .regular

end Machine.StaysFit

/-! ## Sessions -/

/-- A fault in a container without a directory is not handled. -/
theorem not_returns_handler_new {u : Unit} {a b : ℕ} (hc : s.containers = some a)
    (hpage : s.pageAt a = some (.container (containerOfBytes fun _ => 0))) (hst : s.startAddr ≠ 0) :
    ¬ Returns (handleMemoryUpdate b) s u s' := by
  intro h
  unfold handleMemoryUpdate at h
  simp only [returns_bind, returns_currentSlabMaddr] at h
  obtain ⟨sd, _, ⟨⟨cont, c, hcont, hread, hsd⟩, rfl⟩, o, _, hfind, -⟩ := h
  obtain rfl := Option.some.inj (hc.symm.trans hcont)
  obtain rfl := Page.container.inj (Option.some.inj
    (hpage.symm.trans (readContainer_eq_some.mp hread)))
  obtain ⟨⟨d, hd, -⟩, -⟩ := returns_usedFind.mp hfind
  obtain ⟨-, i, hi, -⟩ := pageAt_eq_some.mp (readDir_eq_some.mp hd)
  have h0 : sd = 0 := by
    rw [← hsd]
    exact le64_zero 16
  unfold Pm.vpage at hi
  rw [if_neg (by omega)] at hi
  cases hi

theorem recordsFit_containerInit {env : Env} {cont : ℕ} {m : Machine}
    (hr : Returns (containerInit env) (Machine.fresh env) cont m) : m.pm.RecordsFit := by
  unfold containerInit closureInit onPm at hr
  simp only [returns_bind, returns_get, returns_require, returns_zoom, returns_modify,
    returns_pure] at hr
  obtain ⟨_, _, ⟨rfl, rfl⟩, _, _, ⟨-, rfl⟩, _, _, ⟨s₀, h₀, rfl⟩, ⟨a, laddr⟩, _, ⟨s₁, h₁, rfl⟩, _, _,
    ⟨-, rfl⟩, _, _, rfl, _, _, ⟨s₈, ⟨_, s₂, h₂, _, _, rfl, _, s₄, h₄, ⟨sd, sdLaddr⟩, s₅, h₅, h₆⟩, rfl⟩,
    -, rfl⟩ := hr
  obtain ⟨n, ht, -⟩ := tracks_init h₀
  have hfile : s₀.file = fun _ => Page.zero := by
    obtain ⟨n, hn, hsize⟩ := initSize_eq env
    obtain ⟨-, -, pa, prot, len, rfl⟩ := space_pageAllocatorInit hn hsize rfl (mapHint_aligned env) h₀
    rfl
  have hs₀ : s₀.RecordsFit := fun i => by
    rw [hfile]
    trivial
  have hu₀ : s₀.Unwritten n (List.range n) :=
    ⟨ht.space, fun i _ => congrFun hfile _, fun j _ => congrFun hfile j⟩
  obtain ⟨p, n₁, free₁, hu₁, hx, hp, hf, hz⟩ := hu₀.getpage h₁
  dsimp only at hx h₂ h₄
  rw [hx] at h₂ h₄
  obtain ⟨hu₂, rfl⟩ := hu₁.retypePage hp hf hz h₂
  have hs₂ := (StaysFit.getpage _ h₁ hs₀).setPage (s₁.vmap p)
    (show (Page.container (containerOfBytes fun _ => 0)).RecordsFit from trivial)
  have hu₃ : Pm.Unwritten { s₁.setPage (s₁.vmap p) (.container (containerOfBytes fun _ => 0)) with
      containers := some (s₁.addr p) } n₁ free₁ :=
    ⟨⟨hu₂.space.serves, hu₂.space.aligned, hu₂.space.inj, hu₂.space.maps⟩, hu₂.pages, hu₂.beyond⟩
  have hpage := hu₁.space.page_setPage hp hp (.container (containerOfBytes fun _ => 0))
  rw [if_pos rfl] at hpage
  have hu₄ : s₄.Unwritten n₁ free₁ := by
    unfold updatePage at h₄
    obtain ⟨_, t, hmk, hput⟩ := returns_bind.mp h₄
    obtain ⟨i, hi, hmk⟩ := returns_makeWritable.mp hmk
    rcases hmk with ⟨-, rfl⟩ | ⟨-, hmk⟩
    · obtain ⟨j, x, hj, -, -, rfl⟩ := returns_putPage.mp hput
      obtain rfl := Option.some.inj ((hu₃.space.vpage hp).symm.trans hj)
      exact hu₃.setPage hp hf x
    · exact (not_returns_handler_new rfl ((hu₃.space.pageAt hp).trans (congrArg some hpage))
        hu₃.space.start_ne hmk).elim
  have hs₄ := StaysFit.updatePage _ StaysFit.onContainer h₄ hs₂
  have hs₅ := recordsFit_slabDirInit hu₄ hs₄ h₅
  have hstores : ∀ f : Container → Container,
      Keeps Pm.StaysFit (updatePage (s₁.addr p) (Page.onContainer f)) := fun _ =>
    StaysFit.updatePage _ StaysFit.onContainer
  obtain ⟨_, _, hc₁, _, _, hc₂, _, _, hc₃, hc₄⟩ := h₆
  dsimp only at hc₁ hc₂ hc₃ hc₄
  rw [hx] at hc₁ hc₂ hc₃ hc₄
  exact hstores _ hc₄ (hstores _ hc₃ (hstores _ hc₂ (hstores _ hc₁ hs₅)))

/-- **Records fit** in every state between the actions of a session. -/
theorem Session.recordsFit {ok : Machine → Action → Prop} {env : Env} {saved : Option Machine}
    {m : Machine} (h : Session ok env saved m) : m.pm.RecordsFit := by
  induction h with
  | init hinit => exact recordsFit_containerInit hinit
  | step _ _ hrun ih => exact Machine.StaysFit.action _ hrun ih

end LibPM

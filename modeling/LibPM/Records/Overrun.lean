import LibPM.Session.Basic

/-!
# Where a pointer record goes

`do_insert_pointer` finds the entry of the location, its pointer page and the target
(`locatePointer`), and then stores the record at the next index of the entry. Nothing compares the
index with the room of the page: the record is outside of it from index 341 on (`stops_insert_iff`).
-/

namespace LibPM

open Recorded Recorded.Prog

variable {s s' : Pm}

/-! ## The two parts of a registration -/

/-- What comes before the record in `do_insert_pointer`: the entry of the location, and the id and the
offset that stand for the target. -/
def locatePointer (ptrLoc : ℕ) : PmProg (EntryRef × ℕ × ℕ) := do
  let sd ← currentSlabMaddr
  let ptrVal ← loadWord ptrLoc
  let seLoc ← usedFind sd (searchNormal (roundDwnPg ptrLoc))
  match seLoc with
  | none => fail (.assertion "failed to find the slab entry for the given pointer location")
  | some seLoc => do
    let e ← loadEntry seLoc
    when (e.ptrCurrent.maddr = 0) do
      let (maddr, laddr) ← pageAllocatorGetpage paProtWrite
      retypePage maddr fun b => .ptrs (ptrsOfBytes b)
      updateEntry seLoc fun e => { e with ptrCurrent.laddr := laddr }
      updateEntry seLoc fun e => { e with ptrCurrent.maddr := maddr }
    if ptrVal = 0 then return (seLoc, slabPtrSeidNull, slabPtrOffsetNull)
    else do
      let seVal ← usedFind sd (searchNormal (roundDwnPg ptrVal))
      match seVal with
      | none => fail (.assertion "failed to find the target slab_entry for the given pointer")
      | some seVal => do
        let v ← loadEntry seVal
        return (seLoc, v.seId, ptrVal % pageSize)

theorem fail_bind {α β : Type} (e : Fault) (f : α → PmProg β) : fail e >>= f = fail e := rfl

theorem doInsertPointer_eq (ptrLoc : ℕ) : doInsertPointer ptrLoc =
    locatePointer ptrLoc >>= fun x => appendPtrRec x.1 (ptrLoc % pageSize) x.2.1 x.2.2 := by
  unfold doInsertPointer locatePointer
  simp only [bind_assoc]
  refine bind_congr fun sd => bind_congr fun ptrVal => bind_congr fun seLoc => ?_
  cases seLoc with
  | none => rfl
  | some seLoc =>
    simp only [bind_assoc]
    refine bind_congr fun e => bind_congr fun _ => ?_
    split_ifs
    · rw [pure_bind]
    · simp only [bind_assoc]
      refine bind_congr fun seVal => ?_
      cases seVal with
      | none => rfl
      | some seVal => simp only [bind_assoc, pure_bind]

/-! ## Faults that are not about the record -/

/-- A run that does not stop with an index past an array. -/
abbrev InBounds {α : Type} (c : PmProg α) : Prop := Avoids .outOfBounds c

theorem inBounds_load {α : Type} {f : Pm → Option α} :
    InBounds (do let s ← get; ofOption .sigsegv (f s) : PmProg α) :=
  avoids_get.bind fun _ => avoids_ofOption (by decide)

theorem inBounds_currentSlabMaddr : InBounds currentSlabMaddr :=
  inBounds_load.bind fun _ => inBounds_load.bind fun _ => avoids_pure

theorem inBounds_usedFind (sd : ℕ) (p : SlabEntry → Bool) : InBounds (usedFind sd p) :=
  inBounds_load.bind fun _ => inBounds_load

theorem inBounds_loadWord (a : ℕ) : InBounds (loadWord a) :=
  (Avoids.mapM fun _ _ => avoids_get.bind fun _ => (avoids_ofOption (by decide)).bind fun _ =>
    avoids_pure).bind fun _ => avoids_pure

theorem inBounds_mprotect (a : ℕ) (flags : Prot) : InBounds (pageAllocatorMprotect a flags) :=
  avoids_get.bind fun _ => (avoids_ofOption (by simp)).bind fun _ => avoids_modify

theorem listInsertAfter_ne {α : Type} (isLast : α → Bool) (p : α) (l : List α) :
    listInsertAfter isLast p l ≠ .error .outOfBounds := by
  induction l with
  | nil => exact fun h => nomatch h
  | cons y l ih =>
    unfold listInsertAfter
    split_ifs
    · exact fun h => nomatch h
    · exact bind_ne_error ih fun _ h => nomatch h

theorem growFile_ne (fm : FixedMapper) (size : ℕ) : fm.growFile size ≠ .error .outOfBounds := by
  unfold FixedMapper.growFile
  split_ifs
  · exact fun h => nomatch h
  · refine bind_ne_error (foldlM_ne_error fun fm i => ?_) fun _ h => nomatch h
    unfold FixedMapper.addPage
    cases fm.freeLast with
    | none => exact fun h => nomatch h
    | some l =>
      exact bind_ne_error (fun h => nomatch h) fun _ =>
        bind_ne_error (listInsertAfter_ne _ _ _) fun _ h => nomatch h

theorem takeFree_ne (fm : FixedMapper) : fm.takeFree ≠ .error .outOfBounds := by
  unfold FixedMapper.takeFree
  cases fm.freeHead <;> exact fun h => nomatch h

theorem listFree_ne (nlm : Nlm) (p : NlmPage) : nlm.listFree p ≠ .error .outOfBounds := by
  unfold Nlm.listFree
  refine bind_ne_error ?_ fun _ h => nomatch h
  split_ifs
  · exact fun h => nomatch h
  · exact fun h => nomatch h
  · cases nlm.freeLast with
    | none => exact fun h => nomatch h
    | some l => exact listInsertAfter_ne _ _ _

theorem usePage_ne (nlm : Nlm) : nlm.usePage ≠ .error .outOfBounds := by
  unfold Nlm.usePage
  cases nlm.freeHead with
  | nil => exact fun h => nomatch h
  | cons p rest =>
    dsimp only
    split_ifs <;> exact fun h => nomatch h

theorem inBounds_mmapAt (hint len : ℕ) : InBounds (mmapAt hint len) :=
  (avoids_require (by simp)).bind fun _ => avoids_get.bind fun _ => avoids_require (by simp)

theorem inBounds_mapFile (fm : FixedMapper) (updateMappings : Bool) :
    InBounds (mapFile fm updateMappings) := by
  refine avoids_get.bind fun s => (Avoids.when (inBounds_mmapAt _ _)).bind fun _ =>
    (avoids_require (by decide)).bind fun _ => avoids_modify.bind fun _ => (Avoids.when ?_).bind fun _ =>
      avoids_pure
  exact Avoids.forM fun _ _ => (avoids_ofOption (by decide)).bind fun _ => avoids_modify

theorem inBounds_fixedMapperAllocPage (fm : FixedMapper) (flags : Prot) :
    InBounds (fixedMapperAllocPage fm flags) := by
  have hgrow : ∀ size, InBounds (fixedMapperGrowFile fm size) := fun size =>
    (avoids_ofResult (growFile_ne fm size)).bind fun _ => avoids_modify.bind fun _ => avoids_pure
  refine Avoids.bind (Avoids.ite ((hgrow _).bind fun fm => inBounds_mapFile fm true) avoids_pure)
    fun fm => (avoids_ofResult (takeFree_ne fm)).bind fun ⟨p, fm⟩ => ?_
  exact (avoids_ofOption (by decide)).bind fun _ => avoids_modify.bind fun _ =>
    (Avoids.when avoids_modify).bind fun _ => avoids_pure

theorem inBounds_nlmAllocPage (nlm : Nlm) (flags : Prot) : InBounds (nlmAllocPage nlm flags) := by
  have hmap : ∀ nlm, InBounds (mapAppending nlm) := fun nlm =>
    (avoids_require (by simp)).bind fun _ => avoids_get.bind fun _ => (inBounds_mmapAt _ _).bind fun _ =>
      avoids_modify.bind fun _ => (avoids_ofResult (foldlM_ne_error fun _ _ => listFree_ne _ _)).bind
        fun _ => avoids_pure
  have hgrow : InBounds (nlmGrowFile nlm (nlm.fileSize * 2)) :=
    (avoids_require (by simp)).bind fun _ => avoids_modify.bind fun _ => avoids_pure
  refine Avoids.bind (Avoids.ite (hgrow.bind hmap) avoids_pure) fun nlm =>
    (avoids_ofResult (usePage_ne nlm)).bind fun ⟨p, nlm⟩ => ?_
  exact avoids_modify.bind fun _ => (Avoids.when (inBounds_mprotect _ _)).bind fun _ => avoids_pure

theorem inBounds_getpage (flags : Prot) : InBounds (pageAllocatorGetpage flags) := by
  refine avoids_get.bind fun s => ?_
  cases s.pa with
  | unset => exact avoids_fail (by decide)
  | fixed fm => exact inBounds_fixedMapperAllocPage fm flags
  | nonlinear nlm => exact inBounds_nlmAllocPage nlm flags

theorem inBounds_putPage (a : ℕ) (g : Page → Option Page) : InBounds (putPage a g) :=
  avoids_get.bind fun _ => (avoids_ofOption (by decide)).bind fun _ => (avoids_require (by decide)).bind
    fun _ => (avoids_ofOption (by decide)).bind fun _ => avoids_store

theorem inBounds_pmemcpyPages (dst src n : ℕ) : InBounds (pmemcpyPages dst src n) :=
  Avoids.forM fun _ _ => avoids_get.bind fun _ => (avoids_ofOption (by decide)).bind fun _ =>
    inBounds_putPage _ _

theorem inBounds_appendDirty (sd : ℕ) (se : EntryRef) : InBounds (appendDirty sd se) :=
  inBounds_load.bind fun _ => avoids_get.bind fun _ => (avoids_require (by decide)).bind fun _ =>
    inBounds_putPage _ _

theorem inBounds_slabEntrySnapshot (se : EntryRef) : InBounds (slabEntrySnapshot se) := by
  refine (inBounds_getpage _).bind fun ⟨dataMaddr, dataLaddr⟩ => ?_
  refine inBounds_load.bind fun _ => (inBounds_pmemcpyPages _ _ _).bind fun _ =>
    inBounds_currentSlabMaddr.bind fun _ => (inBounds_appendDirty _ _).bind fun _ =>
      inBounds_load.bind fun _ => (Avoids.when ?_).bind fun _ => (inBounds_putPage _ _).bind fun _ =>
        inBounds_putPage _ _
  refine (inBounds_getpage _).bind fun ⟨ptrMaddr, ptrLaddr⟩ => ?_
  exact inBounds_load.bind fun _ => (inBounds_pmemcpyPages _ _ _).bind fun _ =>
    (inBounds_putPage _ _).bind fun _ => inBounds_putPage _ _

theorem inBounds_swapMappings (xaddr ypgoff yaddr xpgoff : ℕ) :
    InBounds (pageAllocatorSwapMappings xaddr ypgoff yaddr xpgoff) := by
  have hremap : ∀ a pgoff, InBounds (remapFilePages a pgoff) := fun _ _ =>
    avoids_get.bind fun _ => (avoids_ofOption (by simp)).bind fun _ => avoids_modify
  refine avoids_get.bind fun s => ?_
  cases s.pa with
  | unset => exact avoids_fail (by decide)
  | fixed fm => exact avoids_fail (by simp)
  | nonlinear nlm => exact (hremap _ _).bind fun _ => (hremap _ _).bind fun _ => avoids_modify

theorem inBounds_slabEntryCopynswap (se : EntryRef) : InBounds (slabEntryCopynswap se) := by
  refine (inBounds_getpage _).bind fun ⟨dataMaddr, dataLaddr⟩ => ?_
  exact inBounds_load.bind fun _ => (inBounds_pmemcpyPages _ _ _).bind fun _ =>
    (inBounds_putPage _ _).bind fun _ => (inBounds_putPage _ _).bind fun _ => inBounds_load.bind fun _ =>
      (inBounds_swapMappings _ _ _ _).bind fun _ => inBounds_currentSlabMaddr.bind fun _ =>
        (inBounds_appendDirty _ _).bind fun _ => inBounds_load.bind fun _ => avoids_require (by simp)

theorem inBounds_handleMemoryUpdate (a : ℕ) : InBounds (handleMemoryUpdate a) := by
  refine inBounds_currentSlabMaddr.bind fun _ => (inBounds_usedFind _ _).bind fun o => ?_
  cases o with
  | none => exact avoids_fail (by simp)
  | some se =>
    refine Avoids.bind (avoids_get.bind fun s => ?_) fun _ => inBounds_load.bind fun _ =>
      inBounds_mprotect _ _
    cases s.pa with
    | nonlinear nlm => exact inBounds_slabEntryCopynswap se
    | _ => exact inBounds_slabEntrySnapshot se

theorem inBounds_updatePage (a : ℕ) (g : Page → Option Page) : InBounds (updatePage a g) :=
  Avoids.bind (avoids_get.bind fun _ => (avoids_ofOption (by decide)).bind fun _ =>
    Avoids.when (inBounds_handleMemoryUpdate a)) fun _ => inBounds_putPage a g

theorem inBounds_retypePage (a : ℕ) (g : (ℕ → UInt8) → Page) : InBounds (retypePage a g) :=
  avoids_get.bind fun _ => (avoids_ofOption (by decide)).bind fun _ => avoids_modify

theorem inBounds_locatePointer (ptrLoc : ℕ) : InBounds (locatePointer ptrLoc) := by
  refine inBounds_currentSlabMaddr.bind fun sd => (inBounds_loadWord ptrLoc).bind fun ptrVal =>
    (inBounds_usedFind sd _).bind fun seLoc => ?_
  cases seLoc with
  | none => exact avoids_fail (by simp)
  | some seLoc =>
    refine inBounds_load.bind fun e => (Avoids.when ?_).bind fun _ => Avoids.ite avoids_pure ?_
    · refine (inBounds_getpage _).bind fun ⟨maddr, laddr⟩ => ?_
      exact (inBounds_retypePage _ _).bind fun _ => (inBounds_updatePage _ _).bind fun _ =>
        inBounds_updatePage _ _
    · refine (inBounds_usedFind sd _).bind fun seVal => ?_
      cases seVal with
      | none => exact avoids_fail (by simp)
      | some seVal => exact inBounds_load.bind fun _ => avoids_pure

/-! ## The record -/

/-- A record of the entry `e` still fits its pointer page. -/
def SlabEntry.HasRoom (e : SlabEntry) : Prop :=
  sizeofSlabPtrRec * e.ptrCurrent.idx + sizeofSlabPtrRec ≤ pageSize

instance (e : SlabEntry) : Decidable e.HasRoom := by
  unfold SlabEntry.HasRoom
  infer_instance

theorem SlabEntry.hasRoom_iff (e : SlabEntry) : e.HasRoom ↔ e.ptrCurrent.idx < 341 := by
  unfold HasRoom sizeofSlabPtrRec pageSize
  omega

theorem stops_appendPtrRec_iff {se : EntryRef} {ploc seid off : ℕ} :
    Stops (appendPtrRec se ploc seid off) s .outOfBounds ↔
      ∃ e, s.readEntry se = some e ∧ ¬ e.HasRoom := by
  unfold appendPtrRec
  rw [stops_bind]
  constructor
  · rintro (h | ⟨e, _, hload, h⟩)
    · exact (inBounds_load s h).elim
    · obtain ⟨he, rfl⟩ := returns_loadEntry.mp hload
      rw [stops_bind] at h
      rcases h with h | ⟨_, _, -, h⟩
      · exact ⟨e, he, (stops_require.mp h).1⟩
      · exact ((inBounds_updatePage _ _).bind fun _ => (inBounds_updatePage _ _).bind fun _ =>
          (inBounds_updatePage _ _).bind fun _ => inBounds_updatePage _ _) _ h |>.elim
  · rintro ⟨e, he, hroom⟩
    exact .inr ⟨e, s, returns_loadEntry.mpr ⟨he, rfl⟩, Stops.bind (stops_require.mpr ⟨hroom, rfl⟩) _⟩

/-- The record that registering `ptrLoc` in `s` will make is one of the entry `e`. -/
def Pm.Records (s : Pm) (ptrLoc : ℕ) (e : SlabEntry) : Prop :=
  s.fixPtrs = true ∧ ∃ se seid off t, Returns (locatePointer ptrLoc) s (se, seid, off) t ∧
    t.readEntry se = some e

/-- **The record is outside of its page** exactly when the entry has no room. -/
theorem stops_insert_iff {ptrLoc : ℕ} : Stops (slabInsertPointer ptrLoc) s .outOfBounds ↔
    ∃ e, s.Records ptrLoc e ∧ ¬ e.HasRoom := by
  unfold slabInsertPointer
  rw [stops_bind]
  constructor
  · rintro (h | ⟨_, _, hget, h⟩)
    · exact (not_stops_get h).elim
    · obtain ⟨rfl, rfl⟩ := returns_get.mp hget
      by_cases hfix : s.fixPtrs = true
      · unfold Prog.when at h
        rw [if_pos hfix, doInsertPointer_eq, stops_bind] at h
        rcases h with h | ⟨⟨se, seid, off⟩, t, hloc, h⟩
        · exact (inBounds_locatePointer ptrLoc s h).elim
        · obtain ⟨e, he, hroom⟩ := stops_appendPtrRec_iff.mp h
          exact ⟨e, ⟨hfix, se, seid, off, t, hloc, he⟩, hroom⟩
      · unfold Prog.when at h
        rw [if_neg hfix] at h
        exact (not_stops_pure h).elim
  · rintro ⟨e, ⟨hfix, se, seid, off, t, hloc, he⟩, hroom⟩
    refine .inr ⟨s, s, returns_get.mpr ⟨rfl, rfl⟩, ?_⟩
    unfold Prog.when
    rw [if_pos hfix, doInsertPointer_eq]
    exact hloc.stops_bind (stops_appendPtrRec_iff.mpr ⟨e, he, hroom⟩)

end LibPM

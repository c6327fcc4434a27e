import LibPM.Session.Frame

/-!
# What the page allocator leaves as it is

The allocator changes the mapping, the protections and its own records. So nothing the slab code does moves the first
address above the mapping that something else uses, and only the growth of the tree counts a bucket.
-/

namespace LibPM

open Recorded Recorded.Prog

/-- Only the mapping, its protections and what the allocator keeps may differ. -/
def Pm.Paged (s s' : Pm) : Prop :=
  ∃ pa fileLen prot vmap, s' = { s with pa := pa, fileLen := fileLen, prot := prot, vmap := vmap }

instance : IsTrans Pm Pm.Paged := ⟨fun s _ _ ⟨_, _, _, _, h⟩ ⟨pa, len, prot, vmap, h'⟩ =>
  ⟨pa, len, prot, vmap, by rw [h', h]⟩⟩

instance : Std.Refl Pm.Paged := ⟨fun s => ⟨s.pa, s.fileLen, s.prot, s.vmap, rfl⟩⟩

namespace Paged

theorem load {α : Type} {e : Fault} {f : Pm → Option α} :
    Keeps Pm.Paged (do let s ← get; ofOption e (f s) : PmProg α) :=
  keeps_get.bind fun _ => keeps_ofOption

theorem modify {f : Pm → Pm} (hf : ∀ s, Pm.Paged s (f s)) : Keeps Pm.Paged (Prog.modify f : PmProg Unit) := Keeps.modify hf

theorem mprotect (a : ℕ) (flags : Prot) : Keeps Pm.Paged (pageAllocatorMprotect a flags) :=
  load.bind fun _ => modify (by exact fun _ => ⟨_, _, _, _, rfl⟩)

theorem mmapAt (hint len : ℕ) : Keeps Pm.Paged (mmapAt hint len) :=
  keeps_require.bind fun _ => keeps_get.bind fun _ => keeps_require

theorem mapFile (fm : FixedMapper) (updateMappings : Bool) : Keeps Pm.Paged (mapFile fm updateMappings) :=
  keeps_get.bind fun _ => (Keeps.when (mmapAt _ _)).bind fun _ => keeps_require.bind fun _ =>
    (modify (by exact fun _ => ⟨_, _, _, _, rfl⟩)).bind fun _ => (Keeps.when (Keeps.forM fun _ _ => keeps_ofOption.bind
      fun _ => modify (by exact fun _ => ⟨_, _, _, _, rfl⟩))).bind fun _ => keeps_pure

theorem mapAppending (nlm : Nlm) : Keeps Pm.Paged (mapAppending nlm) :=
  keeps_require.bind fun _ => keeps_get.bind fun _ => (mmapAt _ _).bind fun _ =>
    (modify (by exact fun _ => ⟨_, _, _, _, rfl⟩)).bind fun _ => keeps_ofResult.bind fun _ => keeps_pure

theorem getpage (flags : Prot) : Keeps Pm.Paged (pageAllocatorGetpage flags) := by
  refine keeps_get.bind fun s => ?_
  cases s.pa with
  | unset => exact keeps_fail
  | fixed fm =>
    have hgrow : ∀ size, Keeps Pm.Paged (fixedMapperGrowFile fm size) := fun size =>
      keeps_ofResult.bind fun _ => (modify (by exact fun _ => ⟨_, _, _, _, rfl⟩)).bind fun _ => keeps_pure
    refine Keeps.bind (Keeps.ite ((hgrow _).bind fun fm => mapFile fm true) keeps_pure) fun fm =>
      keeps_ofResult.bind fun ⟨p, fm⟩ => ?_
    exact keeps_ofOption.bind fun _ => (modify (by exact fun _ => ⟨_, _, _, _, rfl⟩)).bind fun _ =>
      (Keeps.when (modify (by exact fun _ => ⟨_, _, _, _, rfl⟩))).bind fun _ => keeps_pure
  | nonlinear nlm =>
    have hgrow : Keeps Pm.Paged (nlmGrowFile nlm (nlm.fileSize * 2)) :=
      keeps_require.bind fun _ => (modify (by exact fun _ => ⟨_, _, _, _, rfl⟩)).bind fun _ => keeps_pure
    refine Keeps.bind (Keeps.ite (hgrow.bind mapAppending) keeps_pure) fun nlm =>
      keeps_ofResult.bind fun ⟨p, nlm⟩ => ?_
    exact (modify (by exact fun _ => ⟨_, _, _, _, rfl⟩)).bind fun _ => (Keeps.when (mprotect _ _)).bind fun _ => keeps_pure

theorem swapMappings (xaddr ypgoff yaddr xpgoff : ℕ) :
    Keeps Pm.Paged (pageAllocatorSwapMappings xaddr ypgoff yaddr xpgoff) := by
  have hremap : ∀ a pgoff, Keeps Pm.Paged (remapFilePages a pgoff) := fun _ _ =>
    load.bind fun _ => modify (by exact fun _ => ⟨_, _, _, _, rfl⟩)
  refine keeps_get.bind fun s => ?_
  cases s.pa with
  | unset => exact keeps_fail
  | fixed fm => exact keeps_fail
  | nonlinear nlm =>
    exact (hremap _ _).bind fun _ => (hremap _ _).bind fun _ => modify (by exact fun _ => ⟨_, _, _, _, rfl⟩)

theorem freepages (a : ℕ) : Keeps Pm.Paged (pageAllocatorFreepages a) := by
  refine keeps_get.bind fun s => ?_
  cases s.pa with
  | unset => exact keeps_fail
  | fixed fm =>
    exact keeps_require.bind fun _ => keeps_require.bind fun _ => keeps_ofOption.bind fun _ =>
      keeps_ofResult.bind fun _ => modify (by exact fun _ => ⟨_, _, _, _, rfl⟩)
  | nonlinear nlm =>
    exact keeps_ofOption.bind fun _ => keeps_ofResult.bind fun _ => modify (by exact fun _ => ⟨_, _, _, _, rfl⟩)

end Paged

/-- The mapping may grow to the same address. -/
def Pm.SameLimit (s s' : Pm) : Prop := s'.mapLimit = s.mapLimit

instance : IsTrans Pm Pm.SameLimit := ⟨fun _ _ _ h h' => h'.trans h⟩

instance : Std.Refl Pm.SameLimit := ⟨fun _ => rfl⟩

theorem Pm.Paged.sameLimit {s s' : Pm} (h : s.Paged s') : s.SameLimit s' := by
  obtain ⟨_, _, _, _, rfl⟩ := h
  rfl

namespace SameLimit

instance : Counted Pm.SameLimit where
  getpage _ := (Paged.getpage _).mono fun _ _ => Pm.Paged.sameLimit
  freepages _ := (Paged.freepages _).mono fun _ _ => Pm.Paged.sameLimit
  swap _ _ _ _ := (Paged.swapMappings _ _ _ _).mono fun _ _ => Pm.Paged.sameLimit
  prot _ _ := rfl
  file _ _ := rfl
  records _ _ _ := rfl
  buckets _ _ := rfl

theorem growOuter (cont sd so : ℕ) : Keeps Pm.SameLimit (growOuter cont sd so) := Framed.growOuter cont sd so

theorem growInner (cont sd so si : ℕ) : Keeps Pm.SameLimit (growInner cont sd so si) :=
  Framed.growInner cont sd so si

theorem getFreeSlabEntry : Keeps Pm.SameLimit getFreeSlabEntry := Framed.getFreeSlabEntry

end SameLimit

/-- As many buckets were made. -/
def Pm.SameBuckets (s s' : Pm) : Prop := s'.nextSlabBucketId = s.nextSlabBucketId

instance : IsTrans Pm Pm.SameBuckets := ⟨fun _ _ _ h h' => h'.trans h⟩

instance : Std.Refl Pm.SameBuckets := ⟨fun _ => rfl⟩

theorem Pm.Paged.sameBuckets {s s' : Pm} (h : s.Paged s') : s.SameBuckets s' := by
  obtain ⟨_, _, _, _, rfl⟩ := h
  rfl

instance : Framed Pm.SameBuckets where
  getpage _ := (Paged.getpage _).mono fun _ _ => Pm.Paged.sameBuckets
  freepages _ := (Paged.freepages _).mono fun _ _ => Pm.Paged.sameBuckets
  swap _ _ _ _ := (Paged.swapMappings _ _ _ _).mono fun _ _ => Pm.Paged.sameBuckets
  prot _ _ := rfl
  file _ _ := rfl
  records _ _ _ := rfl

end LibPM

import LibPM.Session.Contents
import LibPM.Session.Limit
import LibPM.Session.Order

/-!
# Serving a client

A client gets objects from `container_palloc`, stores bytes to them, registers pointers and makes checkpoints. To it the
container is a memory in which objects are handed out apart from each other and hold what was stored last
(`Client.refines_memory`). This is so as long as no copy of a bucket goes to the slot of another bucket: before the first
checkpoint with the fixed mapper, and with one bucket otherwise. The closure is off, since it rewrites pointers.
-/

namespace LibPM

open Recorded Recorded.Prog Arena

/-- At most one bucket was made. -/
def Pm.OneBucket (s : Pm) : Prop := s.nextSlabBucketId ≤ 1

/-- No page that is free was written. -/
def Pm.Pristine (s : Pm) (v : View) : Prop := ∀ p, p ∈ v.free ∨ v.n ≤ p → s.restBytes v.n p = fun _ => 0

namespace Pm

variable {s s' t : Pm} {v v' w : View} {lost lost' : Multiset ℕ} {A W : Set ℕ} {a i j k n p size : ℕ} {b : UInt8} {u : Unit}

/-! ## Pages that were never written -/

theorem Pristine.evolve (h : s.Pristine v) (hv : s.Evolves v W s' v') (hh : s'.Holds v' lost') (hW : ∀ p ∈ W, v'.IsData p) :
    s'.Pristine v' := by
  intro p hp
  have hrests : v'.Rests p := hp.imp_right .inl
  have hnot : p ∉ W := by
    intro hmem
    obtain ⟨hlt, hfree, -⟩ := hh.ok.isData_facts hh.linked hh.balanced (hW p hmem)
    exact hp.elim hfree (Nat.not_le.mpr hlt)
  rw [hv.bytes p hrests hnot]
  refine h p ?_
  rcases hp with hp | hp
  · exact hv.free p hp
  · exact .inr (hv.n.trans hp)

/-- The page of the next inner node was never written, or no inner node is needed. -/
theorem Idle.cleanNode (h : s.Idle v lost) (hc : s.Pristine v ∨ v.buckets = 1) : s.CleanNode v := by
  intro hfull
  rcases hc with hc | hone
  · have hup : v.upcoming v.outerPages ∈ v.free ∨ v.n ≤ v.upcoming v.outerPages := by
      rcases View.rests_upcoming h.holds.two_le v.outerPages_le with hfree | hn | hdata
      · exact .inl hfree
      · exact .inr hn
      · have hlen : v.outerPages < (v.free ++ List.range' v.n v.n).length := by
          have := h.holds.two_le
          have := v.outerPages_le
          rw [List.length_append, List.length_range']
          omega
        have hmem : v.upcoming v.outerPages ∈ v.free ++ List.range' v.n v.n := by
          unfold View.upcoming
          rw [List.getD_eq_getElem?_getD, List.getElem?_eq_getElem hlen, Option.getD_some]
          exact List.getElem_mem hlen
        exact (List.mem_append.mp hmem).imp_right fun hm => (List.mem_range'_1.mp hm).1
    rw [hc _ hup]
    exact ⟨le32_zero 0, fun i _ => le64_zero (8 + 16 * i)⟩
  · rw [h.complete.linked, hone, slabInnerEntries_eq] at hfull
    omega

/-! ## `container_palloc` -/

theorem Idle.lt_of_oneBucket (h : s.Idle v lost) (hone : v.buckets = 1) (hi : i < v.used) : i / slabBucketEntries = 0 := by
  have hcap := h.holds.lt_cap hi
  unfold Places.cap at hcap
  rw [hone, Nat.one_mul] at hcap
  exact Nat.div_eq_of_lt hcap

/-- **`slab_palloc`**, if no copy of a bucket goes to the slot of another one. -/
theorem Idle.slabPalloc (h : s.Idle v lost) (hclean : v.taken = v.cap → s.CleanNode v) (hslot : ¬ s.IsFixed → s'.OneBucket)
    (hr : Returns (slabPalloc size) s a s') : ∃ i p v' lost', s.Allocated v (round8 size) a i p s' v' lost' := by
  rw [slabPalloc_eq] at hr
  simp only [returns_bind, returns_require] at hr
  obtain ⟨_, _, ⟨hsize, rfl⟩, sd, s₁, h₁, r, s₂, h₂, h₃⟩ := hr
  obtain ⟨rfl, rfl⟩ := h.holds.currentSlab h₁
  obtain ⟨v₁, i, hp, rfl⟩ := h.pallocEntry hclean h₂
  have hsd : v.addr 1 = v₁.addr 1 := (hp.evolves.addr 1).symm
  have hn : round8 size ≤ pageSize := by
    unfold round8 pageSize at *
    omega
  rw [hsd] at h₃
  have hcopy : ¬ s₂.IsFixed → copySlot (i / slabBucketEntries) = i / slabBucketEntries := by
    intro hf
    have hone := hslot fun hf' => hf (Framed.pallocEntry (R := Pm.StaysFixed) _ h₂ hf')
    have hsame : s'.nextSlabBucketId = s₂.nextSlabBucketId := Framed.pallocObject (R := Pm.SameBuckets) _ _ _ h₃
    unfold OneBucket at hone
    rw [hsame, hp.holds.nextBucket] at hone
    have hlt : i / slabBucketEntries < v₁.buckets := Places.div_lt (hp.lt_taken.trans_le hp.holds.ok.taken)
    rw [Nat.lt_one_iff.mp (hlt.trans_le hone)]
    rfl
  obtain ⟨p, v', lost', ha, -⟩ := hp.allocate hcopy hn h₃
  exact ⟨i, p, v', lost', ha⟩

end Pm

/-! ## The client -/

/-- What a client does between checkpoints, and how the objects it relies on and the bytes it stored there change. `cp`
says that there was a checkpoint before. Objects whose slots do not fit in a page are not relied on. -/
inductive Work (cp : Bool) (mem : Memory UInt8) (m : Machine) : Memory UInt8 → Machine → Prop
  | palloc {m' : Machine} {size a : ℕ} : Returns (containerPalloc size) m a m' → cp = false ∧ m.pm.IsFixed ∨ m'.pm.OneBucket →
      Work cp mem m (if a ≠ 0 ∧ SlotsFit (round8 (size % 2 ^ 32)) then
        ⟨⟨a, round8 (size % 2 ^ 32)⟩ :: mem.spans, mem.cells⟩ else mem) m'
  | store {m' : Machine} {t : Span} {a : ℕ} {b : UInt8} : t ∈ mem.spans → t.Has a → Returns (Machine.storeByte a b) m () m' →
      Work cp mem m ⟨mem.spans, Function.update mem.cells a (some b)⟩ m'
  | volatile {m' : Machine} {a : ℕ} {b : UInt8} : m.pm.place a ≠ .container → Returns (Machine.storeByte a b) m () m' →
      Work cp mem m mem m'
  | register {m' : Machine} {act : Action} : (∃ a, act = .setroot a ∨ act = .insertPointer a ∨ act = .pointerat a ∨
      ∃ n, act = .mallocat a n) → Returns act.run m () m' → Work cp mem m mem m'

/-- A session of a client: the process is in state `m`. -/
inductive Client (env : Env) : Bool → Memory UInt8 → Machine → Prop
  | init {cont : ℕ} {m : Machine} : Returns (containerInit env) (Machine.fresh env) cont m → Client env false .empty m
  | work {cp : Bool} {mem mem' : Memory UInt8} {m m' : Machine} : Client env cp mem m → Work cp mem m mem' m' →
      Client env cp mem' m'
  | cpoint {cp : Bool} {mem : Memory UInt8} {m m' : Machine} : Client env cp mem m → m.closure = false → m.pm.OneBucket →
      Returns containerCpoint m () m' → Client env true mem m'

/-- The work after a checkpoint that left `m`. -/
inductive Since (mem : Memory UInt8) (m : Machine) : Memory UInt8 → Machine → Prop
  | refl : Since mem m mem m
  | work {mem' mem'' : Memory UInt8} {m' m'' : Machine} : Since mem m mem' m' → Work true mem' m' mem'' m'' →
      Since mem m mem'' m''

/-- The objects of the client are in use, with their bytes. -/
structure Pm.Serves (s : Pm) (cp : Bool) (mem : Memory UInt8) (v : View) (lost : Multiset ℕ) : Prop where
  idle : s.Idle v lost
  flagged : v.buckets = 1 → v.Flagged
  pristine : cp = false → s.Pristine v
  one : cp = true → v.buckets = 1
  sized : ∀ i < v.used, 0 < (v.entry i).seSize
  given : ∀ t ∈ mem.spans, ∃ i k, t = v.object i k ∧ s.Given v i k
  cells : ∀ a b, mem.cells a = some b → (∃ t ∈ mem.spans, t.Has a) ∧ s.byteAt a = some b

namespace Pm

variable {s s' t : Pm} {v v' w : View} {lost lost' : Multiset ℕ} {A W : Set ℕ} {a i j k n p size : ℕ} {b : UInt8} {u : Unit}
  {cp : Bool} {mem : Memory UInt8}

/-- A step that changes no object. -/
theorem Serves.carry (h : s.Serves cp mem v lost) (hi : s'.Idle v' lost') (hc : s.Carries v ∅ s' v')
    (hf : v'.buckets = 1 → v'.Flagged) {cp' : Bool} (hp : cp' = false → s'.Pristine v') (hone : cp' = true → v'.buckets = 1)
    (hnew : ∀ i, v.used ≤ i → i < v'.used → 0 < (v'.entry i).seSize) : s'.Serves cp' mem v' lost' := by
  refine ⟨hi, hf, hp, hone, fun i hi' => ?_, fun t ht => ?_, fun a b hab => ?_⟩
  · by_cases hlt : i < v.used
    · rw [hc.seSize i hlt]
      exact h.sized i hlt
    · exact hnew i (Nat.not_lt.mp hlt) hi'
  · obtain ⟨i, k, rfl, hg⟩ := h.given t ht
    exact ⟨i, k, (hc.object hg.used).symm, hc.given hg⟩
  · obtain ⟨⟨t, ht, ha⟩, hb⟩ := h.cells a b hab
    obtain ⟨i, k, rfl, hg⟩ := h.given t ht
    refine ⟨⟨_, ht, ha⟩, ?_⟩
    rw [hc.byteAt h.idle.holds hi.holds hg ha (Set.notMem_empty a)]
    exact hb

/-- A step that keeps the tree. -/
theorem Serves.keep (h : s.Serves cp mem v lost) (hh : s'.Holds v' lost) (hk : v.Kept v') (hv : s.Evolves v ∅ s' v') :
    s'.Serves cp mem v' lost :=
  h.carry (h.idle.keep hh hk) (hv.carries h.idle.holds)
    (fun hone => hk.flagged (h.flagged (hk.buckets.symm.trans hone)))
    (fun hcp => (h.pristine hcp).evolve hv hh fun _ hp => hp.elim) (fun hcp => hk.buckets.trans (h.one hcp))
    fun _ hi hi' => absurd (hk.used ▸ hi') (Nat.not_lt.mpr hi)

/-- **A store to an object.** -/
theorem Serves.storeByte (h : s.Serves cp mem v lost) {t : Span} (ht : t ∈ mem.spans) (ha : t.Has a)
    (hr : Returns (LibPM.storeByte a b) s u s') :
    ∃ v' lost', s'.Serves cp ⟨mem.spans, Function.update mem.cells a (some b)⟩ v' lost' ∧ s.Follows v s' v' := by
  obtain ⟨i, k, rfl, hg⟩ := h.given t ht
  obtain ⟨p, v', lost', hp, hopen, hh, hk, hv, hc, hb⟩ := h.idle.holds.storeObject hg ha hr
  refine ⟨v', lost', ?_, hv.follows hk.cap.ge (by rintro q rfl _ _; exact hopen)⟩
  refine ⟨h.idle.keep hh hk, fun hone => hk.flagged (h.flagged (hk.buckets.symm.trans hone)),
    fun hcp => (h.pristine hcp).evolve hv hh ?_, fun hcp => hk.buckets.trans (h.one hcp), fun i hi => ?_, fun t ht => ?_,
    fun x y hxy => ?_⟩
  · rintro q rfl
    exact hv.isData hp
  · rw [hk.used] at hi
    rw [hk.seSize i hi]
    exact h.sized i hi
  · obtain ⟨j, l, rfl, hg'⟩ := h.given t ht
    exact ⟨j, l, (hc.object hg'.used).symm, hc.given hg'⟩
  · dsimp only at hxy
    by_cases hxa : x = a
    · subst hxa
      rw [Function.update_self] at hxy
      obtain rfl : b = y := Option.some.inj hxy
      exact ⟨⟨_, ht, ha⟩, hb⟩
    · rw [Function.update_of_ne hxa] at hxy
      obtain ⟨⟨t, ht', hx⟩, hy⟩ := h.cells x y hxy
      obtain ⟨j, l, rfl, hg'⟩ := h.given t ht'
      refine ⟨⟨_, ht', hx⟩, ?_⟩
      rw [hc.byteAt h.idle.holds hh hg' hx (by simpa using hxa)]
      exact hy

/-- **An allocation.** -/
theorem Serves.slabPalloc (h : s.Serves cp mem v lost) (hr : Returns (slabPalloc size) s a s')
    (hslot : cp = false ∧ s.IsFixed ∨ s'.OneBucket) : ∃ v' lost', s'.Serves cp mem v' lost' ∧ s.Follows v s' v' ∧
      (a ≠ 0 → SlotsFit (round8 size) → s'.Serves cp ⟨⟨a, round8 size⟩ :: mem.spans, mem.cells⟩ v' lost' ∧
        ∀ t ∈ mem.spans, (Span.mk a (round8 size)).Apart t) := by
  have hh := h.idle.holds
  have hclean : v.taken = v.cap → s.CleanNode v := fun _ => h.idle.cleanNode (by
    cases hcp : cp with
    | false => exact .inl (h.pristine hcp)
    | true => exact .inr (h.one hcp))
  obtain ⟨i, p, v', lost', ha⟩ := h.idle.slabPalloc hclean (fun hf => hslot.resolve_left fun hc => hf hc.2) hr
  have hcarry := ha.carries hh
  have hpos : v'.buckets = 1 → v.buckets = 1 := by
    intro hone
    have hcap := ha.cap
    unfold Places.cap at hcap
    have := h.idle.complete.pos
    have := Nat.le_of_mul_le_mul_right hcap (by decide)
    omega
  have hserves : s'.Serves cp mem v' lost' := by
    refine h.carry ha.ready hcarry (fun hone => ?_) (fun hcp => ?_) (fun hcp => ?_) fun j hj hj' => ?_
    · refine ha.flagged ?_ (h.flagged (hpos hone))
      rw [ha.ready.lt_of_oneBucket hone ha.lt]
      rfl
    · refine (h.pristine hcp).evolve ha.evolves ha.ready.holds ?_
      rintro q rfl
      exact ⟨i, ha.lt, ha.maddr⟩
    · rcases hslot with ⟨hf, -⟩ | hone
      · rw [hf] at hcp
        cases hcp
      · unfold OneBucket at hone
        rw [ha.ready.holds.nextBucket] at hone
        have := ha.ready.complete.pos
        omega
    · obtain rfl : j = i := by
        rcases ha.entry with ⟨-, hu⟩ | ⟨hi, hu⟩ <;> omega
      rw [ha.seSize]
      exact Nat.pos_of_ne_zero ha.pos
  refine ⟨v', lost', hserves, ha.evolves.follows ha.cap fun q _ hq => ha.opened q (.inr (.inr hq)),
    fun hne hfit => ⟨?_, fun t ht => ?_⟩⟩
  · obtain ⟨k, hk, hobj, -⟩ := ha.given hne hfit
    refine { hserves with
      given := fun t ht => ?_
      cells := fun x y hxy => ?_ }
    · rcases List.mem_cons.mp ht with rfl | ht
      · exact ⟨i, k, hobj.symm, hk⟩
      · exact hserves.given t ht
    · obtain ⟨⟨t, ht, hx⟩, hy⟩ := hserves.cells x y hxy
      exact ⟨⟨t, List.mem_cons_of_mem _ ht, hx⟩, hy⟩
  · obtain ⟨j, l, rfl, hg⟩ := h.given t ht
    exact ha.apart hh hne hfit hg

end Pm

/-! ## `container_cpoint` -/

/-- The header is `c`. -/
def View.setCont (v : View) (c : Container) : View := { v with cont := c }

/-- The entries of the buckets whose flag is set. -/
def View.flaggedEntries (v : View) : Set ℕ := {i | i < v.used ∧ (v.bucket (i / slabBucketEntries)).sbHasSnapshot ≠ 0}

/-- A checkpoint took `v` to `v'`: the inner nodes are committed, and the buckets whose flag was set with their entries.
No flag is left, and no entry is dirty. -/
structure View.CommitsFlagged (v v' : View) : Prop where
  base : v'.base = v.base
  used : v'.used = v.used
  linked : v'.linked = v.linked
  root : v'.dir.sdSnapshot 0 = v'.dir.sdCurrent 0
  inner : ∀ j < v'.outer.soIndex, v'.outer.soSnapshot j = v'.outer.soCurrent j
  current : ∀ b < v.linked, v'.siCurrent b = v.siCurrent b
  slot : ∀ b < v.linked, v'.siSnapshot b = if (v.bucket b).sbHasSnapshot ≠ 0 then v.siCurrent b else v.siSnapshot b
  flag : ∀ b < v.linked, (v'.bucket b).sbHasSnapshot = 0
  entry : ∀ i < v.used, v'.entry i =
    if (v.bucket (i / slabBucketEntries)).sbHasSnapshot ≠ 0 then (v.entry i).committed else v.entry i
  clean : v'.dir.sdVector.items = []

namespace View

variable {v v' : View} {i : ℕ}

theorem entriesOf_marked (hc : v.Complete) (hok : v.Ok) : v.entriesOf (v.marked v.linked) = v.flaggedEntries := by
  ext i
  refine and_congr_right fun hi => ?_
  have hlt : i / slabBucketEntries < v.linked := hc.linked.symm ▸ Places.div_lt (hok.lt_cap hi)
  exact ⟨fun hm => hm.2.2, fun hf => ⟨hlt, hlt, hf⟩⟩

theorem Checkpoint.commitsFlagged (h : v.Checkpoint v') (hc : v.Complete) (hok : v.Ok) : v.CommitsFlagged v' := by
  have hmarked : ∀ b < v.linked, (b ∈ v.marked v.linked ↔ (v.bucket b).sbHasSnapshot ≠ 0) := fun b hb =>
    ⟨fun hm => hm.2.2, fun hf => ⟨hb, hb, hf⟩⟩
  refine ⟨h.placed.base, h.used, h.linked, ?_, fun j hj => ?_, fun b _ => h.commits.siCurrent b, fun b hb => ?_,
    fun b hb => h.flag (h.linked.symm ▸ hb), fun i hi => ?_, ?_⟩
  · rw [h.dir]
    show Function.update v.dir.sdSnapshot 0 (v.dir.sdCurrent 0) 0 = v.dir.sdCurrent 0
    rw [Function.update_self]
  · have hso : v'.outer.soIndex = v.outer.soIndex := h.commits.soIndex
    rw [hso] at hj
    exact (h.commits.link j hj).trans (congrFun h.commits.soCurrent j).symm
  · split_ifs with hf
    · exact (h.commits.slot b ((hmarked b hb).mpr hf)).1
    · exact (h.commits.others b fun hm => hf ((hmarked b hb).mp hm)).1
  · have hiff : i ∈ v.entriesOf (v.marked v.linked) ↔ (v.bucket (i / slabBucketEntries)).sbHasSnapshot ≠ 0 := by
      rw [entriesOf_marked hc hok]
      exact and_iff_right hi
    split_ifs with hf
    · exact h.commits.done i (hiff.mpr hf)
    · exact h.commits.rest i fun hm => hf (hiff.mp hm)
  · rw [h.dir]
    rfl

end View

namespace Pm

variable {s s' t : Pm} {v v' w : View} {lost lost' : Multiset ℕ} {i j k n p : ℕ} {b : UInt8} {u : Unit} {cp : Bool}
  {mem : Memory UInt8} {m m' : Machine}

/-- A store to the flags of the header. -/
theorem Holds.updateFlags (h : s.Holds v lost) {f : UInt8 → UInt8}
    (hr : Returns (updatePage (v.addr 0) (Page.onContainer fun c => { c with flags := f c.flags })) s u s') :
    s'.Holds (v.setCont { v.cont with flags := f v.cont.flags }) lost ∧
      v.Kept (v.setCont { v.cont with flags := f v.cont.flags }) ∧
      s.Evolves v ∅ s' (v.setCont { v.cont with flags := f v.cont.flags }) ∧ s'.prot = s.prot := by
  obtain ⟨hs, hm⟩ := h.shows.updateCont h.quiet hr
  have hl := h.linked
  have hok := h.ok
  obtain ⟨hh, hv⟩ := h.update (W := ∅) hs hm rfl rfl
    ⟨hl.current, hl.committed, hl.sdIndex, hl.sdCurrent, hl.sdOther, hl.sdSnapshot, hl.sdSame, hl.soIndex, hl.inners,
      hl.soCurrent, hl.soSnapshot, hl.soSame, hl.linked, hl.buckets, hl.siIndex, hl.siCurrent, hl.siSnapshot, hl.siOther,
      hl.sbId⟩
    ⟨hok.used, hok.taken, hok.root, hok.entry, hok.seId, hok.blank, hok.first, hok.last, hok.size, hok.vector⟩
    (h.balanced.same (fun y _ => by cases y <;> rfl) rfl rfl) (fun _ _ => rfl) (fun _ _ => rfl) (fun _ _ _ _ _ => rfl)
    (fun _ _ => rfl) (fun _ ht => .inl ht) (fun _ hr => hr)
    (fun _ hp => ⟨hp.cont, hp.sdCurrent, hp.sdSnapshot, hp.soCurrent, hp.soSnapshot, hp.siCurrent, hp.siSnapshot, hp.entry⟩)
    h.laddr
  exact ⟨hh, ⟨⟨⟨rfl, rfl, rfl, rfl, rfl, rfl, rfl, rfl, fun _ _ _ => rfl⟩, rfl, rfl, fun _ _ => rfl⟩, rfl, fun _ => rfl⟩, hv,
    hm.prot⟩

/-- What `container_cpoint` does to the container when the closure is off. -/
theorem Idle.containerCpoint (h : m.pm.Idle v lost) (hf : v.Flagged) (hoff : m.closure = false)
    (hr : Returns LibPM.containerCpoint m u m') : ∃ v', m'.pm.Idle v' lost ∧ v.CommitsFlagged v' ∧ v'.Flagged ∧
      v'.buckets = v.buckets ∧ m.pm.Carries v ∅ m'.pm v' ∧ m.pm.Shuts .regular v v.flaggedEntries m'.pm ∧
      v'.cont.flags &&& cflagCpointInProgress = 0 ∧ (m.pm.IsFixed → m'.pm.IsFixed) := by
  unfold LibPM.containerCpoint containerCpointAux computeClosure onPm at hr
  simp only [returns_bind, returns_zoom, returns_getContainer, returns_get] at hr
  obtain ⟨cont, _, ⟨_, ⟨hcont, rfl⟩, rfl⟩, _, _, ⟨s₁, h₁, rfl⟩, _, m₂, ⟨_, _, ⟨rfl, rfl⟩, hclosure⟩, s₂,
    ⟨_, s₃, h₃, c, s₄, h₄, _, s₅, h₅, h₆⟩, rfl⟩ := hr
  obtain rfl : m₂ = { m with pm := s₁ } := by
    rcases returns_when.mp hclosure with ⟨hon, -⟩ | ⟨-, rfl⟩
    · rw [show ({ m with pm := s₁ } : Machine).closure = m.closure from rfl, hoff] at hon
      cases hon
    · rfl
  rw [h.holds.shows.containers, Option.some.injEq] at hcont
  subst hcont
  obtain ⟨hh₁, hk₁, hv₁, hprot₁⟩ := h.holds.updateFlags (f := fun x => x ||| cflagCpointInProgress) h₁
  have hi₁ := h.keep hh₁ hk₁
  obtain ⟨w, hi₂, hcp, hsame, hshut⟩ := hi₁.slabCpoint (hk₁.flagged hf) h₃
  have haddr : v.addr 0 = w.addr 0 := (hcp.placed.addr 0).symm
  rw [haddr] at h₄ h₅ h₆
  obtain ⟨rfl, rfl⟩ := hi₂.holds.shows.loadContainer h₄
  -- the directory has one version
  obtain rfl : s₃ = s₅ := by
    rcases returns_when.mp h₅ with ⟨hne, -⟩ | ⟨-, rfl⟩
    · exact absurd (congrArg Slot.maddr hi₂.holds.linked.committed).symm hne
    · rfl
  obtain ⟨hh₃, hk₃, hv₃, hprot₃⟩ := hi₂.holds.updateFlags (f := fun x => x &&& ~~~cflagCpointInProgress) h₆
  have hc := hcp.commitsFlagged hi₁.complete hi₁.holds.ok
  refine ⟨_, hi₂.keep hh₃ hk₃, ⟨hc.base, hc.used, hc.linked, hc.root, hc.inner, hc.current, hc.slot, hc.flag, hc.entry,
      hc.clean⟩, hk₃.flagged hcp.flagged, hk₃.buckets.trans hcp.buckets,
    ((hv₁.carries h.holds).trans (hsame.carries hcp hh₁)).trans (hv₃.carries hi₂.holds), ?_, ?_, fun hfix => ?_⟩
  · rw [View.entriesOf_marked hi₁.complete hi₁.holds.ok] at hshut
    have hshut' := hshut.of_eq hprot₃
    refine ⟨hshut'.shut, fun p => ?_⟩
    rw [← hprot₁]
    exact hshut'.rest p
  · show w.cont.flags &&& ~~~cflagCpointInProgress &&& cflagCpointInProgress = 0
    rw [UInt8.and_assoc, UInt8.not_and_self, UInt8.and_zero]
  · have hfix₁ := Framed.updatePage (R := Pm.StaysFixed) _ _ h₁ hfix
    exact Framed.updatePage (R := Pm.StaysFixed) _ _ h₆ (hsame.kind.mpr hfix₁)

theorem Serves.oneBucket (h : m.pm.Serves cp mem v lost) (hone : m.pm.OneBucket) : v.buckets = 1 := by
  unfold OneBucket at hone
  rw [h.idle.holds.nextBucket] at hone
  have := h.idle.complete.pos
  omega

/-- **A checkpoint.** -/
theorem Serves.containerCpoint (h : m.pm.Serves cp mem v lost) (hone : m.pm.OneBucket) (hoff : m.closure = false)
    (hr : Returns LibPM.containerCpoint m u m') : ∃ v', m'.pm.Serves true mem v' lost ∧ v.CommitsFlagged v' ∧
      m.pm.Shuts .regular v v.flaggedEntries m'.pm ∧ v'.cont.flags &&& cflagCpointInProgress = 0 ∧
      (m.pm.IsFixed → m'.pm.IsFixed) := by
  have hb := h.oneBucket hone
  obtain ⟨v', hi, hcp, hf, hb', hc, hshut, hdone⟩ := h.idle.containerCpoint (h.flagged hb) hoff hr
  exact ⟨v', h.carry hi hc (fun _ => hf) (fun hcp => by cases hcp) (fun _ => hb'.trans hb)
    fun _ hi hi' => absurd (hcp.used ▸ hi') (Nat.not_lt.mpr hi), hcp, hshut, hdone⟩

/-! ## A new container -/

theorem Starts.serves {env : Env} (h : s.Starts env v) : s.Serves false .empty v 0 := by
  have hh := h.begins.holds h.begun
  have hb := h.begun
  refine ⟨⟨hh, hb.complete, ?_, ?_, fun n hn => ?_⟩, fun _ b hlt hne => ?_, fun _ p hp => ?_, fun hcp => ?_, fun i hi => ?_, ?_, ?_⟩
  · rw [hb.taken]
    exact h.free
  · rw [hb.used, hb.taken]
  · unfold View.HasQueue at hn
    rw [hb.sizes] at hn
    cases hn
  · rw [hb.linked, Nat.lt_one_iff] at hlt
    rw [hlt] at hne
    exact absurd hb.flag hne
  · refine h.begins.zero p (Nat.not_lt.mp fun hlt => ?_)
    exact hh.rests_notMeta (hp.imp_right .inl) (hlt.trans_le h.begins.le) (hb.isMeta_iff.mpr hlt)
  · cases hcp
  · rw [hb.used] at hi
    exact absurd hi (Nat.not_lt_zero i)
  · exact fun t ht => absurd ht List.not_mem_nil
  · exact fun a b hab => by cases hab

/-- An address of an object is one of the container. -/
theorem Holds.place (h : s.Holds v lost) (hg : s.Given v i k) (ha : (v.object i k).Has a) : s.place a = .container := by
  obtain ⟨p, hp, -, hlt, -⟩ := h.data hg.used
  obtain ⟨x, rfl, -, hx⟩ := hg.offset hp ha
  have hlen := h.shows.space.len
  have hstart := h.shows.start
  have hmul : (p + 1) * pageSize ≤ v.n * pageSize := Nat.mul_le_mul_right pageSize hlt
  rw [Nat.add_one_mul] at hmul
  unfold Places.addr
  refine if_pos ⟨?_, ?_⟩ <;> omega

end Pm

/-! ## Runs -/

namespace Client

variable {env : Env} {cp : Bool} {mem : Memory UInt8} {m : Machine} {a : ℕ} {b : UInt8}

/-- Registrations change no object. -/
theorem register {m' : Machine} {v : View} {lost : Multiset ℕ} {act : Action} (h : m.pm.Serves cp mem v lost)
    (ha : ∃ a, act = .setroot a ∨ act = .insertPointer a ∨ act = .pointerat a ∨ ∃ n, act = .mallocat a n)
    (hr : Returns act.run m () m') : ∃ v', m'.pm.Serves cp mem v' lost ∧ m.pm.Follows v m'.pm v' := by
  have hh := h.idle.holds
  obtain ⟨a, rfl | rfl | rfl | ⟨n, rfl⟩⟩ := ha
  · unfold Action.run containerSetroot onPm at hr
    simp only [returns_bind, returns_zoom, returns_pure] at hr
    obtain ⟨r, _, ⟨s, hs, rfl⟩, -, rfl⟩ := hr
    obtain ⟨v', hh', hk, hv⟩ := hh.slabSetroot hs
    exact ⟨v', h.keep hh' hk hv, hv.follows hk.cap.ge fun _ hq => hq.elim⟩
  · unfold Action.run onPm at hr
    obtain ⟨s, hs, rfl⟩ := returns_zoom.mp hr
    obtain ⟨v', hh', hk, hv⟩ := hh.slabInsertPointer hs
    exact ⟨v', h.keep hh' hk hv, hv.follows hk.cap.ge fun _ hq => hq.elim⟩
  · obtain rfl := returns_modify.mp hr
    exact ⟨v, h, .refl _ v⟩
  · unfold Action.run LibPM.mallocat at hr
    simp only [returns_bind, returns_require, returns_modify] at hr
    obtain ⟨_, _, ⟨-, rfl⟩, rfl⟩ := hr
    exact ⟨v, h, .refl _ v⟩

/-- A store to ordinary memory. -/
theorem pm_of_volatile {m' : Machine} {u : Unit} (ha : m.pm.place a ≠ .container)
    (hr : Returns (Machine.storeByte a b) m u m') : m'.pm = m.pm := by
  unfold Machine.storeByte at hr
  rw [returns_bind] at hr
  obtain ⟨_, _, hget, hr⟩ := hr
  obtain ⟨rfl, rfl⟩ := returns_get.mp hget
  cases hp : m.pm.place a with
  | container => exact absurd hp ha
  | nowhere =>
    rw [hp] at hr
    exact (returns_fail hr).elim
  | ordinary =>
    rw [hp] at hr
    obtain rfl := returns_modify.mp hr
    rfl

theorem returns_container_store {m' : Machine} {u : Unit} (ha : m.pm.place a = .container)
    (hr : Returns (Machine.storeByte a b) m u m') : Returns (LibPM.storeByte a b) m.pm () m'.pm := by
  unfold Machine.storeByte at hr
  rw [returns_bind] at hr
  obtain ⟨_, _, hget, hr⟩ := hr
  obtain ⟨rfl, rfl⟩ := returns_get.mp hget
  rw [ha] at hr
  obtain ⟨s, hs, rfl⟩ := returns_zoom.mp hr
  exact hs

theorem returns_container_load (ha : m.pm.place a = .container) (hb : m.pm.byteAt a = some b) :
    Returns (Machine.loadByte a) m b m := by
  unfold Machine.loadByte
  rw [returns_bind]
  refine ⟨m, m, returns_get.mpr ⟨rfl, rfl⟩, ?_⟩
  rw [ha]
  exact returns_zoom.mpr ⟨m.pm, returns_loadByte.mpr ⟨hb, rfl⟩, rfl⟩

/-- One step. -/
theorem work_serves {mem' : Memory UInt8} {m' : Machine} {v : View} {lost : Multiset ℕ} (hs : m.pm.Serves cp mem v lost)
    (hmem : mem.Reachable) (hw : Work cp mem m mem' m') :
    mem'.Reachable ∧ ∃ v' lost', m'.pm.Serves cp mem' v' lost' ∧ m.pm.Follows v m'.pm v' := by
  cases hw with
  | palloc hr hok =>
    unfold containerPalloc onPm at hr
    obtain ⟨s, hp, rfl⟩ := returns_zoom.mp hr
    obtain ⟨v', lost', hs', hv, hnew⟩ := hs.slabPalloc hp hok
    split_ifs with hne
    · obtain ⟨hs'', hapart⟩ := hnew hne.1 hne.2
      exact ⟨hmem.step (.grant hapart), v', lost', hs'', hv⟩
    · exact ⟨hmem, v', lost', hs', hv⟩
  | store ht ha hr =>
    obtain ⟨i, k, rfl, hg⟩ := hs.given _ ht
    obtain ⟨v', lost', hs', hv⟩ := hs.storeByte ht ha (returns_container_store (hs.idle.holds.place hg ha) hr)
    exact ⟨hmem.step (.store ht ha), v', lost', hs', hv⟩
  | volatile ha hr =>
    rw [pm_of_volatile ha hr]
    exact ⟨hmem, v, lost, hs, .refl _ v⟩
  | register ha hr =>
    obtain ⟨v', hs', hv⟩ := register hs ha hr
    exact ⟨hmem, v', lost, hs', hv⟩

/-- **Every run** keeps the objects, and what the client relies on is a memory. -/
theorem serves (h : Client env cp mem m) : mem.Reachable ∧ ∃ v lost, m.pm.Serves cp mem v lost := by
  induction h with
  | init hr =>
    obtain ⟨v, hv⟩ := Pm.starts_containerInit hr
    exact ⟨.empty, v, 0, hv.serves⟩
  | work _ hw ih =>
    obtain ⟨hmem, v, lost, hs⟩ := ih
    obtain ⟨hmem', v', lost', hs', -⟩ := work_serves hs hmem hw
    exact ⟨hmem', v', lost', hs'⟩
  | cpoint _ hoff hone hr ih =>
    obtain ⟨hmem, v, lost, hs⟩ := ih
    obtain ⟨v', hs', -⟩ := hs.containerCpoint hone hoff hr
    exact ⟨hmem, v', lost, hs'⟩

/-- The container is a memory to its client: the objects it was given are apart from each other, and every byte it stored
to them is there, checkpoints or not. -/
theorem refines_memory (h : Client env cp mem m) : mem.Reachable ∧ mem.spans.Pairwise Span.Apart ∧
    ∀ a b, mem.cells a = some b → Returns (Machine.loadByte a) m b m := by
  obtain ⟨hmem, v, lost, hs⟩ := h.serves
  refine ⟨hmem, hmem.pairwise, fun a b hab => ?_⟩
  obtain ⟨⟨t, ht, ha⟩, hb⟩ := hs.cells a b hab
  obtain ⟨i, k, rfl, hg⟩ := hs.given t ht
  exact returns_container_load (hs.idle.holds.place hg ha) hb

/-- The default settings without the closure. -/
def noClosure (kind : MapperKind) : Env := { Env.standard kind with closure := false }

/-- A session with one object, a byte stored to it, a checkpoint and one more byte. -/
def session (env : Env) : MachineProg (ℕ × List ℕ × Bool × List (Option UInt8)) := do
  let _ ← containerInit env
  let a ← containerPalloc 512
  let m₁ ← get
  Machine.storeByte a 7
  let m₂ ← get
  containerCpoint
  let m₃ ← get
  Machine.storeByte (a + 1) 8
  let m₄ ← get
  return (a, [m₁.pm.nextSlabBucketId, m₂.pm.nextSlabBucketId], m₂.closure, [m₃.pm.byteAt (a + 1), m₄.pm.byteAt (a + 1)])

theorem since {mem' : Memory UInt8} {m' : Machine} (h : Client env true mem m) (hs : Since mem m mem' m') :
    Client env true mem' m' := by
  induction hs with
  | refl => exact h
  | work _ hw ih => exact ih.work hw

/-- The states of the session: new, with the object, before the checkpoint, after it, and last. -/
theorem exists_session : ∃ a m₀ m₁ mem m m' mem' m'', Client (noClosure .fixedMapper) false .empty m₀ ∧
    Returns (containerPalloc 512) m₀ a m₁ ∧ m₁.pm.OneBucket ∧ Client (noClosure .fixedMapper) false mem m ∧
    m.closure = false ∧ m.pm.OneBucket ∧ Returns containerCpoint m () m' ∧ Since mem m' mem' m'' ∧
    mem'.cells a = some 7 ∧ mem'.cells (a + 1) = some 8 ∧ m'.pm.byteAt (a + 1) = some 0 ∧ m''.pm.byteAt (a + 1) = some 8 := by
  have hrun : (session (noClosure .fixedMapper) (Machine.fresh (noClosure .fixedMapper))).value? =
      some (2 ^ 40 + 6 * pageSize, [1, 1], false, [some 0, some 8]) := by
    decide +kernel
  obtain ⟨m, h⟩ := exists_returns_of_value hrun
  unfold session at h
  simp only [returns_bind, returns_get, returns_pure, Prod.mk.injEq, List.cons.injEq] at h
  obtain ⟨cont, m₀, h₀, a, m₁, h₁, _, _, ⟨rfl, rfl⟩, _, m₂, h₂, _, _, ⟨rfl, rfl⟩, _, m₃, h₃, _, _, ⟨rfl, rfl⟩,
    _, m₄, h₄, _, _, ⟨rfl, rfl⟩, ⟨rfl, ⟨hone₁, hone₂, -⟩, hoff, hb, hb', -⟩, rfl⟩ := h
  have hs₁ := (Client.init h₀).work (.palloc h₁ (.inr hone₁.le))
  have hfit : 2 ^ 40 + 6 * pageSize ≠ 0 ∧ SlotsFit (round8 (512 % 2 ^ 32)) := by decide
  rw [if_pos hfit] at hs₁
  have hs₂ := hs₁.work (.store List.mem_cons_self (by decide) h₂)
  refine ⟨2 ^ 40 + 6 * pageSize, m₀, m₁, _, m₂, m₃, _, m₄, .init h₀, h₁, hone₁.le, hs₂, hoff, hone₂.le, h₃,
    .work .refl (.store List.mem_cons_self (by decide) h₄), ?_, ?_, hb, hb'⟩
  · dsimp only
    rw [Function.update_of_ne (by decide), Function.update_self]
  · dsimp only
    rw [Function.update_self]

theorem refines_memory_session : ∃ a m, Returns (Machine.loadByte a) m 7 m ∧ Returns (Machine.loadByte (a + 1)) m 8 m := by
  obtain ⟨a, -, -, mem, m, m', mem', m'', -, -, -, hs, hoff, hone, hr, hw, ha, hb, -⟩ := exists_session
  have hserved := (hs.cpoint hoff hone hr).since hw
  exact ⟨a, m'', hserved.refines_memory.2.2 a 7 ha, hserved.refines_memory.2.2 (a + 1) 8 hb⟩

/-- Before the first checkpoint a request that returns is served. -/
theorem containerPalloc_ne_zero {m' : Machine} {size : ℕ} (h : Client env false mem m) (hok : m.pm.IsFixed ∨ m'.pm.OneBucket)
    (hr : Returns (containerPalloc size) m a m') : a ≠ 0 := by
  obtain ⟨-, v, lost, hs⟩ := h.serves
  have hh := hs.idle.holds
  have hpristine := hs.pristine rfl
  unfold containerPalloc onPm at hr
  obtain ⟨s, hp, rfl⟩ := returns_zoom.mp hr
  have hsize : round8 (size % 2 ^ 32) ≤ pageSize := by
    rw [slabPalloc_eq, returns_bind] at hp
    obtain ⟨_, _, hle, -⟩ := hp
    have hle := (returns_require.mp hle).1
    unfold round8 pageSize at *
    omega
  obtain ⟨i, p, v', lost', ha⟩ := hs.idle.slabPalloc (fun _ => hs.idle.cleanNode (.inl hpristine))
    (fun hf => hok.resolve_left hf) hp
  rintro rfl
  rcases ha.object with ⟨-, rfl, hall⟩ | ⟨k, -, -, hav, -⟩
  · -- a new entry has its page from the free ones
    have hfree : p ∈ v.free ∨ v.n ≤ p := by
      rcases ha.evolves.rests p (.inr (.inr ⟨_, ha.lt, ha.maddr⟩)) with hfree | hn | ⟨j, hj, hjp⟩
      · exact .inl hfree
      · exact .inr hn
      · have hh' := ha.ready.holds
        have heq : j = v.used := hh'.ok.data_inj hh'.linked hh'.balanced (hj.trans_le ha.evolves.used) ha.lt
          (by rw [ha.evolves.maddr j hj, hjp, ← ha.evolves.addr, ha.maddr])
        omega
    have hbit := hall 0 (slabEntryCapacity_pos ha.pos hsize)
    unfold Pm.bitBefore at hbit
    rw [if_neg (Nat.lt_irrefl _), hpristine p hfree, Bool.and_eq_true] at hbit
    exact absurd hbit.2 (by decide)
  · have := hh.shows.addr_ne_zero p
    rw [ha.evolves.addr] at hav
    omega

theorem containerPalloc_ne_zero_session : ∃ (m m' : Machine) (a : ℕ), Returns (containerPalloc 512) m a m' ∧ a ≠ 0 := by
  obtain ⟨a, m₀, m₁, -, -, -, -, -, h₀, hr, hone, -⟩ := exists_session
  exact ⟨m₀, m₁, a, hr, h₀.containerPalloc_ne_zero (.inr hone) hr⟩

/-- A checkpoint commits the inner nodes, and of the buckets and entries those whose flag is set and no others. The data
pages of these entries are read-only after it, and the protection of no other page changes. No page is lost. -/
theorem cpoint_commits {m' : Machine} (h : Client env cp mem m) (hoff : m.closure = false) (hone : m.pm.OneBucket)
    (hr : Returns containerCpoint m () m') : ∃ v v' lost, m.pm.Idle v lost ∧ m'.pm.Idle v' lost ∧ v.CommitsFlagged v' ∧
      m.pm.Shuts .regular v v.flaggedEntries m'.pm := by
  obtain ⟨-, v, lost, hs⟩ := h.serves
  obtain ⟨v', hs', hcp, hshut, -⟩ := hs.containerCpoint hone hoff hr
  exact ⟨v, v', lost, hs.idle, hs'.idle, hcp, hshut⟩

theorem cpoint_commits_session : ∃ (m m' : Machine) (v v' : View) (lost : Multiset ℕ), Returns containerCpoint m () m' ∧
    m.pm.Idle v lost ∧ m'.pm.Idle v' lost ∧ v.CommitsFlagged v' ∧ m.pm.Shuts .regular v v.flaggedEntries m'.pm := by
  obtain ⟨-, -, -, mem, m, m', -, -, -, -, -, hs, hoff, hone, hr, -⟩ := exists_session
  obtain ⟨v, v', lost, hv⟩ := hs.cpoint_commits hoff hone hr
  exact ⟨m, m', v, v', lost, hr, hv⟩

end Client

end LibPM

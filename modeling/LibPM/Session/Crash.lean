import LibPM.Session.Registered

/-!
# A crash between two checkpoints

A container with the fixed mapper and one bucket, the flag of which is set, goes through a checkpoint. Then the client
stores to its objects and registers pointers, and the process stops before or in the middle of any store. What the file
holds is the checkpoint: the entries with their data as they were in memory, and this is what a restore gives back
(`Client.survives_crash`). The file may not grow before the crash, since that closes the pages that were opened, and the
next store to one of them would be taken for the first.
-/

namespace LibPM

open Recorded Recorded.Prog Arena

/-! ## After a checkpoint -/

/-- The container has one bucket, and the links to its nodes are committed. -/
structure View.Sealed (v : View) : Prop where
  inners : v.inners = 1
  buckets : v.buckets = 1
  linked : v.linked = 1
  soIndex : v.outer.soIndex = 1
  flags : v.cont.flags &&& cflagCpointInProgress = 0
  root : v.dir.sdSnapshot 0 = v.dir.sdCurrent 0
  inner : v.outer.soSnapshot 0 = v.outer.soCurrent 0
  slot : v.siSnapshot 0 = v.siCurrent 0

/-- The bucket that a container with one bucket has. -/
def Pm.firstBucket (s : Pm) : Option SlabBucket := do
  let c ← s.readContainer (← s.containers)
  let d ← s.readDir c.currentSlab.maddr
  let o ← s.readOuter (d.sdCurrent 0).maddr
  let n ← s.readInner (o.soCurrent 0).maddr
  s.readBucket (n.siCurrent 0).maddr

namespace Pm

variable {e₀ : ℕ → SlabEntry} {P : ℕ → Page} {s s' t : Pm} {v v' w : View} {lost lost' : Multiset ℕ} {a i p q : ℕ}
  {b : SlabBucket} {cp : Bool} {mem : Memory UInt8}

theorem Idle.inners_eq_one (h : s.Idle v lost) (hone : v.buckets = 1) : v.inners = 1 := by
  have hspan := h.complete.span
  have hle := h.holds.linked.buckets
  rw [h.complete.soIndex] at hle
  rw [slabInnerEntries_eq] at hspan hle
  omega

theorem Holds.firstBucket (h : s.Holds v lost) (hso : 0 < v.outer.soIndex) (hl : 0 < v.linked) :
    s.firstBucket = some (v.bucket 0) := by
  have hi : 0 < v.inners := hso.trans_le h.linked.soIndex
  have hsi : ((v.inner 0).siCurrent 0).maddr = v.addr (v.bucketPage 0) := h.linked.siCurrent 0 hl
  unfold Pm.firstBucket
  simp only [Option.bind_eq_bind, h.shows.containers, Option.bind_some, h.shows.readContainer, h.linked.current,
    h.shows.readDir, h.linked.sdCurrent, h.shows.readOuter, h.linked.soCurrent 0 hso, h.shows.readInner hi, hsi]
  exact h.shows.readBucket (hl.trans_le h.linked.linked)

/-- The offset of a slot that is committed to a page. -/
theorem laddr_of_paired {x : Slot} (hs : s.Shows v) (hx : x.Paired v.base) (hp : x.maddr = v.addr p) :
    x.laddr = p * pageSize := by
  rcases hx with ⟨h0, -⟩ | heq
  · exact absurd (hp.symm.trans h0) (hs.addr_ne_zero p)
  · rw [hp] at heq
    exact (Nat.add_left_cancel heq).symm

/-- The page of the snapshot of each entry. -/
def savedPages (s : Pm) (v : View) (i : ℕ) : Page := s.page ((v.entry i).dataSnapshot.laddr / pageSize)

namespace Holds

theorem lt_cap_sealed (hv : v.Sealed) (hi : i < slabBucketEntries) : i < v.cap := by
  unfold Places.cap
  rwa [hv.buckets, Nat.one_mul]

/-- A sealed container is what its file holds. -/
theorem saves (h : s.Holds v lost) (hv : v.Sealed) (hf : s.IsFixed) : s.Saves v.entry (s.savedPages v) v := by
  have hl := h.linked
  have hp := h.paired hf
  have hso : 0 < v.outer.soIndex := hv.soIndex.symm ▸ Nat.one_pos
  have hlinked : 0 < v.linked := hv.linked.symm ▸ Nat.one_pos
  have hsi : v.siCurrent 0 = (v.inner 0).siCurrent 0 := rfl
  have hcont : v.cont.snapshotSlab.laddr = 1 * pageSize := by
    rw [hl.committed]
    exact laddr_of_paired h.shows hp.cont hl.current
  have hroot : (v.dir.sdSnapshot 0).laddr = 2 * pageSize := by
    rw [hv.root]
    exact laddr_of_paired h.shows hp.sdCurrent hl.sdCurrent
  have hinner : (v.outer.soSnapshot 0).laddr = v.innerPage 0 * pageSize := by
    rw [hv.inner]
    exact laddr_of_paired h.shows (hp.soCurrent 0 hso) (hl.soCurrent 0 hso)
  have hslot : (v.siSnapshot 0).laddr = v.bucketPage 0 * pageSize := by
    rw [hv.slot]
    exact laddr_of_paired h.shows (hp.siCurrent 0 hlinked) (hl.siCurrent 0 hlinked)
  have hindex : (v.inner 0).siIndex = 1 := by
    rw [hl.siIndex 0 (hv.inners.symm ▸ Nat.one_pos), hv.linked]
    decide
  refine ⟨⟨h.shows, h.shows.vmap_of_isFixed hf, hv.inners, hv.buckets, ?_, hv.flags, hl.sdIndex, hroot, hv.soIndex,
    hl.soCurrent 0 hso, hinner, hindex, hsi ▸ hl.siCurrent 0 hlinked, hslot, fun _ _ _ => rfl⟩, fun i hi hin => ?_,
    fun i hi j hj hin hin' heq => ?_⟩
  · rw [hcont, Nat.one_mul]
  · obtain ⟨-, q, -, hql, -, hlt, hmeta⟩ := h.savedPage hf (lt_cap_sealed hv hi) hin
    refine ⟨q, hlt, hql, hmeta, ?_⟩
    unfold savedPages
    rw [hql, Nat.mul_div_cancel _ pageSize_pos]
  · obtain ⟨hused, q, -, hql, hmem, -⟩ := h.savedPage hf (lt_cap_sealed hv hj) hin'
    exact (h.eq_of_saved hf hused hmem (lt_cap_sealed hv hi) hin (heq.trans hql)).1

/-- Memory has the same entries if all have one version. -/
theorem entries_memory (h : s.Holds v lost) (hv : v.Sealed) (hf : s.IsFixed)
    (hone : ∀ i < v.used, (v.entry i).dataSnapshot.maddr = (v.entry i).dataCurrent.maddr) :
    Way.memory.entries s (v.addr 1) =
      (List.range slabBucketEntries).map fun i => some ((v.entry i).saved (some (s.savedPages v i))) := by
  have hl := h.linked
  have hp := h.paired hf
  have hso : 0 < v.outer.soIndex := hv.soIndex.symm ▸ Nat.one_pos
  have hlinked : 0 < v.linked := hv.linked.symm ▸ Nat.one_pos
  have hinners : 0 < v.inners := hv.inners.symm ▸ Nat.one_pos
  have hbuckets : 0 < v.buckets := hv.buckets.symm ▸ Nat.one_pos
  have hne : ∀ {x : Node}, v.Has x → x ≠ .cont → v.pageOf x * pageSize ≠ 0 := fun hx hc =>
    mul_pageSize_ne_zero (Nat.pos_of_ne_zero fun h0 => hc (h.shows.wf.inj _ .cont hx trivial h0))
  have hindex : (v.inner 0).siIndex = 1 := by
    rw [hl.siIndex 0 hinners, hv.linked]
    decide
  have htree : s.TreeAt .memory (v.addr 1) (v.addr 2) (v.addr (v.innerPage 0)) (v.addr (v.bucketPage 0)) v.dir v.outer
      (v.inner 0) (v.bucket 0) := by
    refine ⟨h.shows.pageAt_node (x := .dir) trivial, h.shows.pageAt_node (x := .outer) trivial,
      h.shows.pageAt_node (x := .inner 0) hinners, h.shows.pageAt_node (x := .bucket 0) hbuckets, hl.sdIndex, hl.sdCurrent,
      ?_, hv.soIndex, hl.soCurrent 0 hso, ?_, hindex, hl.siCurrent 0 hlinked, ?_⟩
    · exact (laddr_of_paired h.shows hp.sdCurrent hl.sdCurrent).trans_ne (hne (x := .outer) trivial (by simp))
    · exact (laddr_of_paired h.shows (hp.soCurrent 0 hso) (hl.soCurrent 0 hso)).trans_ne
        (hne (x := .inner 0) hinners (by simp))
    · exact (laddr_of_paired h.shows (hp.siCurrent 0 hlinked) (hl.siCurrent 0 hlinked)).trans_ne
        (hne (x := .bucket 0) hbuckets (by simp))
  rw [htree.entries]
  refine List.map_congr_left fun i hi => congrArg some ?_
  have hi := List.mem_range.mp hi
  rw [← v.entry_zero hi]
  by_cases hin : (v.entry i).isInit = true
  · obtain ⟨hused, q, hq, hql, -, hlt, -⟩ := h.savedPage hf (lt_cap_sealed hv hi) hin
    have hpage : s.pageAt (v.entry i).dataCurrent.maddr = some (s.savedPages v i) := by
      unfold savedPages
      rw [← hone i hused, hq, h.shows.pageAt hlt, hql, Nat.mul_div_cancel _ pageSize_pos]
    show SlabEntry.saved _ (s.pageAt (v.entry i).dataCurrent.maddr) = _
    rw [hpage]
  · unfold SlabEntry.saved
    rw [if_neg hin, if_neg hin]

end Holds

/-- **A checkpoint** of a container whose bucket has a version of its own. -/
theorem Serves.secure {m m' : Machine} {u : Unit} (h : m.pm.Serves cp mem v lost) (hf : m.pm.IsFixed)
    (hone : m.pm.OneBucket) (hb : m.pm.firstBucket = some b) (hflag : b.sbHasSnapshot ≠ 0) (hoff : m.closure = false)
    (hr : Returns LibPM.containerCpoint m u m') : ∃ v', m'.pm.Serves true mem v' lost ∧
      m'.pm.Secure v'.entry (m'.pm.savedPages v') v' lost ∧ Way.memory.entries m'.pm (v'.addr 1) =
        (List.range slabBucketEntries).map fun i => some ((v'.entry i).saved (some (m'.pm.savedPages v' i))) := by
  obtain ⟨v', hs, hcp, hshut, hdone, hfix⟩ := h.containerCpoint hone hoff hr
  have hfix := hfix hf
  have hbuckets := hs.one rfl
  have hlinked : v'.linked = 1 := hs.idle.complete.linked.trans hbuckets
  have hinners := hs.idle.inners_eq_one hbuckets
  have hso : v'.outer.soIndex = 1 := hs.idle.complete.soIndex.trans hinners
  have hl : v.linked = 1 := hcp.linked.symm.trans hlinked
  -- the flag is that of the bucket
  have hflag : (v.bucket 0).sbHasSnapshot ≠ 0 := by
    have hso : 0 < v.outer.soIndex := by
      rw [h.idle.complete.soIndex, h.idle.inners_eq_one (h.oneBucket hone)]
      exact Nat.one_pos
    rw [h.idle.holds.firstBucket hso (hl.symm ▸ Nat.one_pos), Option.some.injEq] at hb
    rwa [hb]
  have hsealed : v'.Sealed := by
    refine ⟨hinners, hbuckets, hlinked, hso, hdone, hcp.root, hcp.inner 0 (hso.symm ▸ Nat.one_pos), ?_⟩
    rw [hcp.slot 0 (hl.symm ▸ Nat.one_pos), if_pos hflag, hcp.current 0 (hl.symm ▸ Nat.one_pos)]
  have hdiv : ∀ i < v'.used, i / slabBucketEntries = 0 := fun i hi => hs.idle.lt_of_oneBucket hbuckets hi
  have hentry : ∀ i < v'.used, v'.entry i = (v.entry i).committed := by
    intro i hi
    have hcommit := hcp.entry i (hcp.used ▸ hi)
    rwa [hdiv i hi, if_pos hflag] at hcommit
  have hversion : ∀ i < v'.used, (v'.entry i).dataSnapshot.maddr = (v'.entry i).dataCurrent.maddr := by
    intro i hi
    rw [hentry i hi]
    rfl
  have hh := hs.idle.holds
  refine ⟨v', hs, ⟨⟨hh, hh.saves hsealed hfix, hfix⟩, fun i hi p hp => ?_, fun i _ hmem => ?_, hs.sized⟩,
    hh.entries_memory hsealed hfix hversion⟩
  · -- the page was closed
    refine iff_of_false (fun hopen => ?_) (not_not.mpr (hversion i hi))
    have hp' : (v.entry i).dataCurrent.maddr = v.addr p := by
      rw [hentry i hi] at hp
      unfold Places.addr at hp ⊢
      rw [← hcp.base]
      exact hp
    have hprot : m'.pm.prot p = paProtRead := by
      refine hshut.shut rfl i ⟨hcp.used ▸ hi, ?_⟩ p hp'
      rwa [hdiv i hi]
    have hwrite := hopen.2
    rw [hprot] at hwrite
    cases hwrite
  · rw [hcp.clean] at hmem
    exact absurd hmem List.not_mem_nil

/-! ## Stores to objects -/

/-- The addresses of the objects are in the data pages of the entries. -/
def Covers (spans : List Span) (v : View) : Prop := ∀ t ∈ spans, ∀ a, t.Has a →
  ∃ i < v.used, ∃ p x, (v.entry i).dataCurrent.maddr = v.addr p ∧ a = v.addr p + x ∧ x < pageSize

theorem Serves.covers (h : s.Serves cp mem v lost) : Covers mem.spans v := by
  intro t ht a ha
  obtain ⟨i, k, rfl, hg⟩ := h.given t ht
  obtain ⟨p, hp, -⟩ := h.idle.holds.data hg.used
  obtain ⟨x, hx, -, hlt⟩ := hg.offset hp ha
  exact ⟨i, hg.used, p, x, hp, hx, hlt⟩

theorem Covers.evolve {spans : List Span} {W : Set ℕ} (h : Covers spans v) (hv : s.Evolves v W s' v') :
    Covers spans v' := by
  intro t ht a ha
  obtain ⟨i, hi, p, x, hp, hx, hlt⟩ := h t ht a ha
  refine ⟨i, hi.trans_le hv.used, p, x, ?_, ?_, hlt⟩
  · rw [hv.maddr i hi, hp, hv.addr]
  · rw [hx, hv.addr]

theorem Holds.place_data (h : s.Holds v lost) (hi : i < v.used) (hp : (v.entry i).dataCurrent.maddr = v.addr p) {x : ℕ}
    (hx : x < pageSize) : s.place (v.addr p + x) = .container := by
  obtain ⟨hlt, -⟩ := h.ok.isData_facts h.linked h.balanced ⟨i, hi, hp⟩
  have hlen := h.shows.space.len
  have hstart := h.shows.start
  have hmul : (p + 1) * pageSize ≤ v.n * pageSize := Nat.mul_le_mul_right pageSize hlt
  rw [Nat.add_one_mul] at hmul
  unfold Places.addr
  refine if_pos ⟨?_, ?_⟩ <;> omega

/-- The invariant of a transaction over the objects `spans`. -/
def Guards (e₀ : ℕ → SlabEntry) (P : ℕ → Page) (spans : List Span) (s : Pm) : Prop :=
  ∃ v lost, s.Secure e₀ P v lost ∧ Covers spans v

variable {spans : List Span}

/-- **A store to an object.** -/
theorem Guards.storeByte {x : Span} {y : UInt8} (h : s.Guards e₀ P spans) (hx : x ∈ spans) (ha : x.Has a) :
    s.place a = .container ∧ Passes (Backs e₀ P) (storeByte a y) s fun _ t =>
      t.mapLen = s.mapLen → t.Guards e₀ P spans := by
  obtain ⟨v, lost, hs, hc⟩ := h
  obtain ⟨i, hi, p, o, hp, rfl, hlt⟩ := hc x hx a ha
  obtain ⟨hround, -⟩ := hs.holds.shows.addr_add p hlt
  refine ⟨hs.holds.place_data hi hp hlt, ?_⟩
  unfold LibPM.storeByte
  rw [hround]
  refine ⟨(hs.updateData hi hp _).visits, fun _ t hr hlen => ?_⟩
  obtain ⟨v', lost', hs', hv⟩ := hs.storeData hi hp hr hlen
  exact ⟨v', lost', hs', hc.evolve hv⟩

/-- A registration. -/
theorem Guards.register {α : Type} {c : PmProg α} (h : s.Guards e₀ P spans)
    (hc : ∀ v lost, s.Safe e₀ P v lost → Passes (Backs e₀ P) c s (fun _ => StillBacks e₀ P v) ∧
      ∀ u t, Returns c s u t → t.IsFixed ∧ ∃ v', t.Holds v' lost ∧ v.Kept v' ∧ s.Evolves v ∅ t v') :
    Passes (Backs e₀ P) c s fun _ t => t.mapLen = s.mapLen → t.Guards e₀ P spans := by
  obtain ⟨v, lost, hs, hcov⟩ := h
  obtain ⟨hpass, hret⟩ := hc v lost hs.toSafe
  refine ⟨hpass.visits, fun u t hr hlen => ?_⟩
  obtain ⟨hf, v', hh, hk, hv⟩ := hret u t hr
  exact ⟨v', lost, hs.retain hh hk hv (hpass.returns u t hr) hf hlen, hcov.evolve hv⟩

end Pm

/-! ## Transactions -/

/-- What a client does in a transaction: it stores to objects that it has, or to memory outside of the container, and
registers pointers. -/
inductive Transact (spans : List Span) (m : Machine) : MachineProg Unit → Prop
  | store {x : Span} {a : ℕ} {y : UInt8} : x ∈ spans → x.Has a → Transact spans m (Machine.storeByte a y)
  | volatile {a : ℕ} {y : UInt8} : m.pm.place a ≠ .container → Transact spans m (Machine.storeByte a y)
  | setroot {a : ℕ} : Transact spans m (Action.setroot a).run
  | insertPointer {a : ℕ} : Transact spans m (Action.insertPointer a).run
  | pointerat {a : ℕ} : Transact spans m (Action.pointerat a).run
  | mallocat {a n : ℕ} : Transact spans m (Action.mallocat a n).run

/-- A transaction from `m`, in which the file does not grow. -/
inductive Transaction (spans : List Span) (m : Machine) : Machine → Prop
  | refl : Transaction spans m m
  | step {m' m'' : Machine} {c : MachineProg Unit} : Transaction spans m m' → Transact spans m' c → Returns c m' () m'' →
      m''.pm.mapLen = m'.pm.mapLen → Transaction spans m m''

namespace Transact

variable {e₀ : ℕ → SlabEntry} {P : ℕ → Page} {spans : List Span} {m : Machine} {c : MachineProg Unit} {a : ℕ} {y : UInt8}

/-- A program of the container. -/
theorem passes_onPm {α : Type} {d : PmProg α} (h : Passes (Pm.Backs e₀ P) d m.pm fun _ t =>
      t.mapLen = m.pm.mapLen → t.Guards e₀ P spans) :
    Passes (fun t => t.pm.Backs e₀ P) (onPm d) m fun _ t => t.pm.mapLen = m.pm.mapLen → t.pm.Guards e₀ P spans := by
  refine ⟨fun t ht => ?_, fun u t hr => ?_⟩
  · obtain ⟨s, hs, rfl⟩ := exposes_zoom.mp ht
    exact h.visits s hs
  · obtain ⟨s, hs, rfl⟩ := returns_zoom.mp hr
    exact h.returns u s hs

/-- A program that leaves the container alone. -/
theorem passes_keeps (h : m.pm.Guards e₀ P spans) (hc : ∀ t, ¬ Exposes c m t) (hk : ∀ u t, Returns c m u t → t.pm = m.pm) :
    Passes (fun t => t.pm.Backs e₀ P) c m fun _ t => t.pm.mapLen = m.pm.mapLen → t.pm.Guards e₀ P spans := by
  refine passes_of_not_exposes hc fun u t hr _ => ?_
  rw [hk u t hr]
  exact h

theorem storeByte_of_place {p : Place} (hp : m.pm.place a = p) : ∀ {Q : Unit → Machine → Prop} {T : Machine → Prop},
    Passes T (match p with
      | .container => onPm (LibPM.storeByte a y)
      | .nowhere => fail .sigsegv
      | .ordinary => modify fun m => { m with mem := Function.update m.mem a y }) m Q →
    Passes T (Machine.storeByte a y) m Q := by
  intro Q T h
  unfold Machine.storeByte
  refine Silent.passes_bind silent_get fun m' hr => ?_
  obtain ⟨rfl, -⟩ := returns_get.mp hr
  rw [hp]
  exact h

/-- **One step.** What it exposes is the checkpoint, and the invariant holds after it. -/
theorem passes (hc : Transact spans m c) (h : m.pm.Guards e₀ P spans) :
    Passes (fun t => t.pm.Backs e₀ P) c m fun _ t => t.pm.mapLen = m.pm.mapLen → t.pm.Guards e₀ P spans := by
  cases hc with
  | store hx ha =>
    obtain ⟨hplace, hpass⟩ := h.storeByte hx ha
    exact storeByte_of_place hplace (passes_onPm hpass)
  | @volatile a y hne =>
    cases hp : m.pm.place a with
    | container => exact absurd hp hne
    | nowhere =>
      refine storeByte_of_place hp (passes_keeps h (fun _ => not_exposes_fail) fun _ _ hr => ?_)
      exact (returns_fail hr).elim
    | ordinary =>
      refine storeByte_of_place hp (passes_keeps h (fun _ => not_exposes_modify) fun _ t hr => ?_)
      obtain rfl := returns_modify.mp hr
      rfl
  | setroot =>
    refine (passes_onPm (h.register fun v lost hs => ⟨hs.slabSetroot, fun u t hr => ?_⟩)).bind fun _ _ ht => passes_pure ht
    exact ⟨Framed.slabSetroot (R := Pm.StaysFixed) _ hr hs.fixed, hs.holds.slabSetroot hr⟩
  | insertPointer =>
    refine passes_onPm (h.register fun v lost hs => ⟨hs.slabInsertPointer, fun u t hr => ?_⟩)
    exact ⟨Framed.slabInsertPointer (R := Pm.StaysFixed) _ hr hs.fixed, hs.holds.slabInsertPointer hr⟩
  | pointerat =>
    refine passes_keeps h (fun _ => not_exposes_modify) fun _ t hr => ?_
    obtain rfl := returns_modify.mp hr
    rfl
  | mallocat =>
    refine passes_keeps h (fun t ht => ?_) fun _ t hr => ?_
    · rcases exposes_bind.mp ht with ht | ⟨_, _, -, ht⟩
      · exact not_exposes_require ht
      · exact not_exposes_modify ht
    · obtain ⟨_, _, hreq, hmod⟩ := returns_bind.mp hr
      obtain ⟨-, rfl⟩ := returns_require.mp hreq
      obtain rfl := returns_modify.mp hmod
      rfl

end Transact

/-- **Every run** keeps the invariant. -/
theorem Transaction.guards {e₀ : ℕ → SlabEntry} {P : ℕ → Page} {spans : List Span} {m m' : Machine}
    (h : m.pm.Guards e₀ P spans) (hw : Transaction spans m m') : m'.pm.Guards e₀ P spans := by
  induction hw with
  | refl => exact h
  | step _ hc hr hlen ih => exact (hc.passes ih).returns _ _ hr hlen

/-! ## The file after a crash -/

theorem Pm.Reopened.pageAt {s : Pm} (h : s.Reopened) {p : ℕ} (hp : (p + 1) * pageSize ≤ s.mapLen) :
    s.pageAt (s.startAddr + p * pageSize) = some (s.file p) := by
  have hpos := pageSize_pos
  rw [Nat.add_one_mul] at hp
  refine pageAt_eq_some.mpr ⟨?_, p, ?_, ?_⟩
  · rw [Nat.add_mul_mod_self_right]
    exact h.aligned
  · unfold Pm.vpage
    rw [if_pos ⟨Nat.le_add_right .., by omega⟩, Nat.add_sub_cancel_left, Nat.mul_div_cancel _ hpos]
  · rw [h.vmap]
    rfl

/-- The file that is opened does not change. -/
theorem file_openWritable {size : ℕ} {s s' : Pm} {u : Unit} (hr : Returns (openWritable size) s u s') :
    s'.file = s.file := by
  unfold openWritable pageAllocatorInit at hr
  simp only [returns_bind, returns_modify] at hr
  obtain ⟨_, _, ⟨fm, t, hinit, rfl⟩, rfl⟩ := hr
  have hgrow : ∀ fm size, Keeps Pm.Paged (fixedMapperGrowFile fm size) := fun fm size => by
    refine keeps_ofResult.bind fun _ => Keeps.bind (Paged.modify ?_) fun _ => keeps_pure
    exact fun _ => ⟨_, _, _, _, rfl⟩
  have hkeeps : Keeps Pm.Paged (fixedMapperInit size) := by
    refine keeps_get.bind fun s => Keeps.bind (Keeps.ite (hgrow _ _) keeps_pure) fun fm => ?_
    exact Paged.mapFile fm false
  obtain ⟨_, _, _, _, rfl⟩ := hkeeps hinit
  rfl

namespace Pm.Saves

variable {e₀ : ℕ → SlabEntry} {P : ℕ → Page} {s s' t : Pm} {w : View} {a : ℕ}

/-- The header is complete, and the directory that it leads to has the entries. -/
theorem header (h : t.Saves e₀ P w) : t.readContainer t.startAddr = some w.cont ∧
    Way.image.entries t (t.startAddr + w.cont.snapshotSlab.laddr) =
      (List.range slabBucketEntries).map fun i => some ((e₀ i).saved (some (P i))) := by
  have haddr : w.addr 0 = t.startAddr := by
    rw [h.shows.start]
    unfold Places.addr
    rw [Nat.zero_mul, Nat.add_zero]
  refine ⟨haddr ▸ h.shows.readContainer, ?_⟩
  rw [h.cont]
  refine h.entries fun p hp => ?_
  rw [h.shows.start]
  exact h.shows.pageAt hp

/-- Another process that has mapped the file gets the entries from it, or refuses it. -/
theorem restored (h : t.Saves e₀ P w) (hs : s.Reopened) (hfile : s.file = t.file) (hlen : t.mapLen ≤ s.mapLen)
    (hr : Returns (LibPM.slabMap w.cont.snapshotSlab.laddr .complete) s a s') :
    s.OneVersion w.cont.snapshotSlab.laddr ∧ Way.memory.entries s' a =
      (List.range slabBucketEntries).map fun i => some ((e₀ i).saved (some (P i))) := by
  rw [h.cont] at hr ⊢
  refine h.slabMap hs (fun p hp => ?_) hr
  rw [hs.pageAt, hfile]
  · unfold Pm.page
    rw [h.vmap]
    rfl
  · have hn : (p + 1) * pageSize ≤ w.n * pageSize := Nat.mul_le_mul_right pageSize hp
    rw [← h.shows.space.len] at hn
    exact hn.trans hlen

end Pm.Saves

namespace Client

variable {env : Env} {cp : Bool} {mem : Memory UInt8} {m m' m'' t : Machine} {b : SlabBucket}

/-- **A crash in a transaction loses nothing of the checkpoint before it.** Wherever the process stops, the header says
that the checkpoint is complete, and the file holds the entries and data pages that memory held after it. A restore of
the tree in another process that has mapped the file refuses it if an entry has two versions, and gives back these
entries otherwise. -/
theorem survives_crash (h : Client env cp mem m) (hf : m.pm.IsFixed) (hone : m.pm.OneBucket) (hoff : m.closure = false)
    (hb : m.pm.firstBucket = some b) (hflag : b.sbHasSnapshot ≠ 0) (hr : Returns containerCpoint m () m')
    (hw : Transaction mem.spans m' m'') (ht : t = m'' ∨ ∃ c, Transact mem.spans m'' c ∧ Exposes c m'' t) :
    ∃ c c', m'.pm.CurContainer c ∧ t.pm.readContainer t.pm.startAddr = some c' ∧
      c'.flags &&& cflagCpointInProgress = 0 ∧ Way.image.entries t.pm (t.pm.startAddr + c'.snapshotSlab.laddr) =
        Way.memory.entries m'.pm c.currentSlab.maddr ∧
      ∀ s s' a, s.Reopened → s.file = t.pm.file → t.pm.mapLen ≤ s.mapLen →
        Returns (slabMap c'.snapshotSlab.laddr .complete) s a s' → s.OneVersion c'.snapshotSlab.laddr ∧
          Way.memory.entries s' a = Way.memory.entries m'.pm c.currentSlab.maddr := by
  obtain ⟨-, v, lost, hs⟩ := h.serves
  obtain ⟨v', hs', hsecure, hmemory⟩ := hs.secure hf hone hb hflag hoff hr
  have hguards := hw.guards ⟨v', lost, hsecure, hs'.covers⟩
  have hbacks : t.pm.Backs v'.entry (m'.pm.savedPages v') := by
    rcases ht with rfl | ⟨c, hc, ht⟩
    · obtain ⟨w, lost', hw, -⟩ := hguards
      exact ⟨w, hw.saves⟩
    · exact (hc.passes hguards).visits t ht
  obtain ⟨w, hw⟩ := hbacks
  obtain ⟨hcont, hentries⟩ := hw.header
  refine ⟨v'.cont, w.cont, hs'.idle.holds.curContainer, hcont, hw.flags, ?_, fun s s' a hre hfile hlen hmap => ?_⟩
  · rw [hs'.idle.holds.linked.current, hmemory]
    exact hentries
  · rw [hs'.idle.holds.linked.current, hmemory]
    exact hw.restored hre hfile hlen hmap

instance : DecidablePred Pm.IsFixed := fun s => match h : s.pa with
  | .fixed fm => isTrue ⟨fm, h⟩
  | .unset => isFalse fun hf => PageAllocator.noConfusion (h.symm.trans hf.choose_spec)
  | .nonlinear _ => isFalse fun hf => PageAllocator.noConfusion (h.symm.trans hf.choose_spec)

/-- A session with one object, and two ways to go on after its checkpoint: a store to the object, and a root, after which
another process maps the tree. -/
def crashed (env : Env) : MachineProg (ℕ × Bool × Bool × Option ℕ × List ℕ) := do
  let _ ← containerInit env
  let a ← containerPalloc 512
  let m₁ ← get
  Machine.storeByte a 7
  let m₂ ← get
  containerCpoint
  let m₃ ← get
  Machine.storeByte (a + 1) 8
  let m₄ ← get
  modify fun _ => m₃
  (Action.setroot a).run
  let m₅ ← get
  let c ← onPm (loadContainer m₅.pm.startAddr)
  modify fun m => m.restart env
  onPm (openWritable env.initSize)
  let m₆ ← get
  let _ ← onPm (slabMap c.snapshotSlab.laddr .complete)
  return (a, decide m₂.pm.IsFixed, m₂.closure, m₂.pm.firstBucket.map (·.sbHasSnapshot),
    [m₁.pm.nextSlabBucketId, m₂.pm.nextSlabBucketId, m₃.pm.mapLen, m₄.pm.mapLen, m₅.pm.mapLen, m₅.pm.fileLen,
      m₆.pm.mapLen])

/-- With a store after the checkpoint the file holds it, and with a root another process restores it. -/
theorem survives_crash_session : ∃ (m m' t : Machine) (c c' d : Container) (s s' : Pm) (a : ℕ),
    Returns containerCpoint m () m' ∧ m'.pm.CurContainer c ∧ t.pm.readContainer t.pm.startAddr = some c' ∧
      Way.image.entries t.pm (t.pm.startAddr + c'.snapshotSlab.laddr) = Way.memory.entries m'.pm c.currentSlab.maddr ∧
      Returns (slabMap d.snapshotSlab.laddr .complete) s a s' ∧
      Way.memory.entries s' a = Way.memory.entries m'.pm c.currentSlab.maddr := by
  have hrun : (crashed (noClosure .fixedMapper) (Machine.fresh (noClosure .fixedMapper))).value? =
      some (2 ^ 40 + 6 * pageSize, true, false, some 1, [1, 1, 8 * pageSize, 8 * pageSize, 8 * pageSize, 12 * pageSize,
        12 * pageSize]) := by
    decide +kernel
  obtain ⟨m, h⟩ := exists_returns_of_value hrun
  unfold crashed at h
  simp only [returns_bind, returns_get, returns_modify, returns_pure, Prod.mk.injEq, List.cons.injEq,
    decide_eq_true_iff] at h
  obtain ⟨cont, m₀, h₀, a, m₁, h₁, _, _, ⟨rfl, rfl⟩, _, m₂, h₂, _, _, ⟨rfl, rfl⟩, _, m₃, h₃, _, _, ⟨rfl, rfl⟩,
    _, m₄, h₄, _, _, ⟨rfl, rfl⟩, _, _, rfl, _, m₅, h₅, _, _, ⟨rfl, rfl⟩, d, _, h₆, _, _, rfl, _, m₆, h₇, _, _, ⟨rfl, rfl⟩,
    x, m₇, h₈, ⟨rfl, hfix, hoff, hflag, hone', hone, hlen₃, hlen₄, hlen₅, hfile, hlen₆, -⟩, rfl⟩ := h
  unfold onPm at h₆ h₇ h₈
  obtain ⟨_, hload, rfl⟩ := returns_zoom.mp h₆
  obtain ⟨hd, rfl⟩ := returns_loadContainer.mp hload
  obtain ⟨s, hopen, rfl⟩ := returns_zoom.mp h₇
  obtain ⟨s', hmap, rfl⟩ := returns_zoom.mp h₈
  obtain ⟨b, hb, hflag⟩ := Option.map_eq_some_iff.mp hflag
  have hfit : 2 ^ 40 + 6 * pageSize ≠ 0 ∧ SlotsFit (round8 (512 % 2 ^ 32)) := by decide
  have hs₁ := (Client.init h₀).work (.palloc h₁ (.inr hone'.le))
  rw [if_pos hfit] at hs₁
  have hs₂ := hs₁.work (.store List.mem_cons_self (by decide) h₂)
  have hflag : b.sbHasSnapshot ≠ 0 := hflag.trans_ne Nat.one_ne_zero
  -- the store after the checkpoint
  obtain ⟨c, c', hc, hc', -, himage, -⟩ := hs₂.survives_crash hfix hone.le hoff hb hflag h₃
    (.step .refl (.store List.mem_cons_self (by decide)) h₄ (hlen₄.trans hlen₃.symm)) (.inl rfl)
  -- the root after the checkpoint
  obtain ⟨c₁, d', hc₁, hd', -, -, hrestored⟩ := hs₂.survives_crash hfix hone.le hoff hb hflag h₃
    (.step .refl .setroot h₅ (hlen₅.trans hlen₃.symm)) (.inl rfl)
  obtain rfl : d' = d := Option.some.inj (hd'.symm.trans hd)
  obtain rfl : c₁ = c := by
    obtain ⟨_, hx, hx'⟩ := hc
    obtain ⟨_, hy, hy'⟩ := hc₁
    rw [Option.some.inj (hx.symm.trans hy)] at hx'
    exact Option.some.inj (hy'.symm.trans hx')
  have hsame := file_openWritable hopen
  have hle : pageSize ≤ m₅.pm.fileLen := by
    rw [hfile]
    decide
  obtain ⟨-, hentries⟩ := hrestored s s' x (.openWritable hle hopen) hsame (by
    rw [hlen₅]
    exact (by decide : 8 * pageSize ≤ 12 * pageSize).trans hlen₆.ge) hmap
  exact ⟨m₂, m₃, m₄, c₁, c', d', s, s', x, h₃, hc, hc', himage, hmap, hentries⟩

end Client

end LibPM

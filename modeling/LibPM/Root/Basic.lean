import LibPM.Recovery.Relocation
import LibPM.Memory.Words

/-!
# The root of a container

`container_setroot` packs the id of the entry and an offset into one word. The offset is the address
of the page less the address of the object, the wrong way round: it is zero for an object at the start
of its page, and otherwise its high bits cover the id (`unpack_pack_of_ne`). So `container_getroot`
gives back the address exactly if it is that of a page (`exists_getroot_iff`).
-/

namespace LibPM

open Recorded Recorded.Prog

/-! ## The root word -/

/-- The difference of a page address and an address in the page, as an unsigned word. -/
theorem rootOffset_eq (p : ℕ) : roundDwnPg p + 2 ^ 64 - p = 2 ^ 64 - p % pageSize := by
  have := Nat.div_add_mod p pageSize
  unfold roundDwnPg
  rw [Nat.mul_comm]
  omega

theorem unpack_pack_of_aligned {seid : ℕ} (h : seid < 2 ^ 32) :
    unpackContRoot (packContRoot seid (2 ^ 64)) = (seid, 0) := by
  unfold unpackContRoot packContRoot
  rw [Nat.mod_self, Nat.or_zero, Nat.shiftLeft_eq, Nat.shiftRight_eq_div_pow]
  refine Prod.ext ?_ ?_ <;> dsimp only <;> omega

/-- A number with ones in the low `n` bits is not changed by ones there. -/
theorem or_ones {x n : ℕ} (h : x < 2 ^ n) : x ||| (2 ^ n - 1) = 2 ^ n - 1 := by
  refine Nat.eq_of_testBit_eq fun i => ?_
  rw [Nat.testBit_or, Nat.testBit_two_pow_sub_one]
  by_cases hi : i < n
  · simp [hi]
  · have hle : 2 ^ n ≤ 2 ^ i := Nat.pow_le_pow_right (by decide) (by omega)
    simp [hi, Nat.testBit_lt_two_pow (Nat.lt_of_lt_of_le h hle)]

/-- An offset that is not zero covers the id. -/
theorem unpack_pack_of_ne {seid r : ℕ} (h : seid < 2 ^ 32) (h0 : r ≠ 0) (hr : r < pageSize) :
    unpackContRoot (packContRoot seid (2 ^ 64 - r)) = (2 ^ 32 - 1, 2 ^ 16 - r) := by
  have hr' : r < 2 ^ 12 := hr
  have hword : seid <<< 16 < 2 ^ 64 := by
    rw [Nat.shiftLeft_eq]
    omega
  unfold unpackContRoot packContRoot
  rw [Nat.mod_eq_of_lt (show 2 ^ 64 - r < 2 ^ 64 by omega), Nat.mod_eq_of_lt hword]
  refine Prod.ext ?_ ?_
  · have hshift : (2 ^ 64 - r) >>> 16 = 2 ^ 48 - 1 := by
      rw [Nat.shiftRight_eq_div_pow]
      omega
    have hid : (seid <<< 16 ||| (2 ^ 64 - r)) >>> 16 = 2 ^ 48 - 1 := by
      rw [Nat.shiftRight_or_distrib, hshift, Nat.shiftLeft_shiftRight, or_ones (by omega)]
    have hones : (2 ^ 48 - 1) % 2 ^ 32 = 2 ^ 32 - 1 := by decide
    exact (congrArg (· % 2 ^ 32) hid).trans hones
  · dsimp only
    rw [Nat.or_mod_two_pow, Nat.shiftLeft_eq, Nat.mul_mod_left, Nat.zero_or]
    omega

/-! ## In one process -/

variable {s s' : Pm} {sd i p v seid a : ℕ} {d : SlabDir}

/-- The current directory is at `sd`, on a page that can be written. -/
structure Pm.DirAt (s : Pm) (sd i : ℕ) (d : SlabDir) : Prop where
  current : ∃ cont c, s.containers = some cont ∧ s.readContainer cont = some c ∧
    c.currentSlab.maddr = sd
  aligned : sd % pageSize = 0
  vpage : s.vpage sd = some i
  page : s.file (s.vmap i) = .dir d
  writable : (s.prot i).write = true

/-- The entry that is found by the id `seid` has its data page at `a`. -/
def Pm.HeldById (s : Pm) (seid a : ℕ) : Prop :=
  ∃ r e, Returns (getSlabEntryById seid) s r s ∧ s.readEntry r = some e ∧ e.dataCurrent.maddr = a

/-- The state with another root word. -/
def Pm.withRoot (s : Pm) (i : ℕ) (d : SlabDir) (v : ℕ) : Pm :=
  s.setPage (s.vmap i) (.dir { d with sdContRoot := v })

namespace Pm.DirAt

theorem readDir (h : s.DirAt sd i d) : s.readDir sd = some d :=
  readDir_eq_some.mpr (pageAt_eq_some.mpr ⟨h.aligned, i, h.vpage, h.page⟩)

theorem returns_currentSlabMaddr (h : s.DirAt sd i d) {b : ℕ} :
    Returns LibPM.currentSlabMaddr s b s' ↔ b = sd ∧ s = s' := by
  rw [LibPM.returns_currentSlabMaddr]
  refine and_congr_left fun _ => ⟨?_, fun hb => hb ▸ h.current⟩
  rintro ⟨cont, c, hcont, hc, rfl⟩
  obtain ⟨cont', c', hcont', hc', rfl⟩ := h.current
  obtain rfl := Option.some.inj (hcont.symm.trans hcont')
  obtain rfl := Option.some.inj (hc.symm.trans hc')
  rfl

theorem returns_currentDir (h : s.DirAt sd i d) {b : SlabDir} :
    Returns LibPM.currentDir s b s' ↔ b = d ∧ s = s' := by
  unfold LibPM.currentDir
  simp only [returns_bind, h.returns_currentSlabMaddr, returns_loadDir]
  constructor
  · rintro ⟨_, _, ⟨rfl, rfl⟩, hb, rfl⟩
    exact ⟨Option.some.inj (hb.symm.trans h.readDir), rfl⟩
  · rintro ⟨rfl, rfl⟩
    exact ⟨sd, s, ⟨rfl, rfl⟩, h.readDir, rfl⟩

/-- Pages of other kinds stay. -/
theorem pageAt_withRoot (h : s.DirAt sd i d) {b : ℕ} {x : Page} (hx : ∀ d', x ≠ .dir d') :
    (s.withRoot i d v).pageAt b = some x ↔ s.pageAt b = some x := by
  rw [pageAt_eq_some, pageAt_eq_some]
  refine and_congr_right fun _ => exists_congr fun j => and_congr_right fun _ => ?_
  show Function.update s.file (s.vmap i) _ (s.vmap j) = x ↔ _
  by_cases hj : s.vmap j = s.vmap i
  · rw [hj, Function.update_self, h.page]
    exact ⟨fun he => (hx _ he.symm).elim, fun he => (hx _ he.symm).elim⟩
  · rw [Function.update_of_ne hj]

theorem readContainer_withRoot (h : s.DirAt sd i d) {b : ℕ} {c : Container} :
    (s.withRoot i d v).readContainer b = some c ↔ s.readContainer b = some c := by
  rw [readContainer_eq_some, readContainer_eq_some, h.pageAt_withRoot (by simp)]

theorem readOuter_withRoot (h : s.DirAt sd i d) {b : ℕ} {o : SlabOuter} :
    (s.withRoot i d v).readOuter b = some o ↔ s.readOuter b = some o := by
  rw [readOuter_eq_some, readOuter_eq_some, h.pageAt_withRoot (by simp)]

theorem readInner_withRoot (h : s.DirAt sd i d) {b : ℕ} {n : SlabInner} :
    (s.withRoot i d v).readInner b = some n ↔ s.readInner b = some n := by
  rw [readInner_eq_some, readInner_eq_some, h.pageAt_withRoot (by simp)]

theorem readBucket_withRoot (h : s.DirAt sd i d) {b : ℕ} {x : SlabBucket} :
    (s.withRoot i d v).readBucket b = some x ↔ s.readBucket b = some x := by
  rw [readBucket_eq_some, readBucket_eq_some, h.pageAt_withRoot (by simp)]

theorem withRoot (h : s.DirAt sd i d) (v : ℕ) :
    (s.withRoot i d v).DirAt sd i { d with sdContRoot := v } := by
  obtain ⟨cont, c, hcont, hc, hsd⟩ := h.current
  exact ⟨⟨cont, c, hcont, h.readContainer_withRoot.mpr hc, hsd⟩, h.aligned, h.vpage,
    Function.update_self .., h.writable⟩

theorem readEntry_withRoot (h : s.DirAt sd i d) {r : EntryRef} {e : SlabEntry} :
    (s.withRoot i d v).readEntry r = some e ↔ s.readEntry r = some e := by
  simp only [readEntry_eq_some, h.readBucket_withRoot]

theorem returns_getSlabEntryById (h : s.DirAt sd i d) {r : EntryRef} :
    Returns (LibPM.getSlabEntryById seid) s r s ↔ ∃ o n,
      s.readOuter (d.sdCurrent (seid / slabBucketEntries / slabInnerEntries / slabOuterEntries %
        slabDirEntries)).maddr = some o ∧
      s.readInner (o.soCurrent (seid / slabBucketEntries / slabInnerEntries %
        slabOuterEntries)).maddr = some n ∧
      r = ⟨(n.siCurrent (seid / slabBucketEntries % slabInnerEntries)).maddr,
        seid % slabBucketEntries⟩ := by
  unfold LibPM.getSlabEntryById
  simp only [returns_bind, h.returns_currentDir, returns_loadOuter, returns_loadInner, returns_pure]
  constructor
  · rintro ⟨_, _, ⟨rfl, rfl⟩, o, _, ⟨ho, rfl⟩, n, _, ⟨hn, rfl⟩, rfl, -⟩
    exact ⟨o, n, ho, hn, rfl⟩
  · rintro ⟨o, n, ho, hn, rfl⟩
    exact ⟨d, s, ⟨rfl, rfl⟩, o, s, ⟨ho, rfl⟩, n, s, ⟨hn, rfl⟩, rfl, rfl⟩

theorem heldById_withRoot (h : s.DirAt sd i d) :
    (s.withRoot i d v).HeldById seid a ↔ s.HeldById seid a := by
  unfold Pm.HeldById
  simp only [(h.withRoot v).returns_getSlabEntryById, h.returns_getSlabEntryById,
    h.readOuter_withRoot, h.readInner_withRoot, h.readEntry_withRoot]

/-- What `container_getroot` gives. -/
theorem exists_returns_getroot (h : s.DirAt sd i d) :
    (∃ s', Returns slabGetroot s a s') ↔
      ∃ b, s.HeldById (unpackContRoot d.sdContRoot).1 b ∧ b + (unpackContRoot d.sdContRoot).2 = a := by
  unfold slabGetroot Pm.HeldById
  simp only [returns_bind, h.returns_currentDir, returns_loadEntry, returns_pure]
  constructor
  · rintro ⟨_, _, _, ⟨rfl, rfl⟩, r, t, hr, e, _, ⟨he, rfl⟩, rfl, rfl⟩
    obtain rfl : s = t := by
      unfold LibPM.getSlabEntryById at hr
      simp only [returns_bind, h.returns_currentDir, returns_loadOuter, returns_loadInner,
        returns_pure] at hr
      obtain ⟨_, _, ⟨-, rfl⟩, _, _, ⟨-, rfl⟩, _, _, ⟨-, rfl⟩, -, rfl⟩ := hr
      rfl
    exact ⟨_, ⟨r, e, hr, he, rfl⟩, rfl⟩
  · rintro ⟨b, ⟨r, e, hr, he, rfl⟩, rfl⟩
    exact ⟨s, d, s, ⟨rfl, rfl⟩, r, s, hr, e, s, ⟨he, rfl⟩, rfl, rfl⟩

/-- What `container_setroot` does when it answers `1`. -/
theorem returns_setroot (h : s.DirAt sd i d) (hr : Returns (slabSetroot p) s 1 s') :
    ∃ se e, s.findEntry (searchNormal (roundDwnPg p)) d.sdMaddrRoot = some (some se) ∧
      s.readEntry se = some e ∧
      s' = s.withRoot i d (packContRoot e.seId (2 ^ 64 - p % pageSize)) := by
  unfold slabSetroot at hr
  simp only [returns_bind, h.returns_currentSlabMaddr, returns_usedFind] at hr
  obtain ⟨_, _, ⟨rfl, rfl⟩, o, _, ⟨⟨d', hd', hfind⟩, rfl⟩, hr⟩ := hr
  obtain rfl := Option.some.inj (h.readDir.symm.trans hd')
  cases o with
  | none => exact absurd (returns_pure.mp hr).1 (by decide)
  | some se =>
    dsimp only at hr
    unfold updatePage at hr
    simp only [returns_bind, returns_loadEntry, returns_makeWritable, returns_putPage,
      returns_pure] at hr
    obtain ⟨e, _, ⟨he, rfl⟩, _, _, ⟨_, _, ⟨j, hj, hw⟩, k, x, hk, -, hx, rfl⟩, -, rfl⟩ := hr
    obtain rfl := Option.some.inj (h.vpage.symm.trans hj)
    rcases hw with ⟨-, rfl⟩ | ⟨hw, -⟩
    · obtain rfl := Option.some.inj (h.vpage.symm.trans hk)
      rw [h.page] at hx
      obtain rfl := Option.some.inj hx
      refine ⟨se, e, hfind, he, ?_⟩
      rw [rootOffset_eq]
      rfl
    · rw [h.writable] at hw
      cases hw

end Pm.DirAt

/-- **The root in one process.** `container_getroot` gives back the address `p` exactly if it is that of
a page and the entry is where its id says, or if another entry happens to lie right. -/
theorem exists_getroot_iff (h : s.DirAt sd i d) (hr : Returns (slabSetroot p) s 1 s')
    (hid : ∀ se e, s.findEntry (searchNormal (roundDwnPg p)) d.sdMaddrRoot = some (some se) →
      s.readEntry se = some e → e.seId = seid) (hlt : seid < 2 ^ 32) :
    (∃ t, Returns slabGetroot s' p t) ↔
      if p % pageSize = 0 then s.HeldById seid p
      else ∃ b, s.HeldById (2 ^ 32 - 1) b ∧ b + (2 ^ 16 - p % pageSize) = p := by
  obtain ⟨se, e, hfind, he, rfl⟩ := h.returns_setroot hr
  obtain rfl := hid se e hfind he
  rw [(h.withRoot _).exists_returns_getroot]
  simp only [h.heldById_withRoot]
  split_ifs with h0
  · rw [h0, Nat.sub_zero, unpack_pack_of_aligned hlt]
    simp
  · rw [unpack_pack_of_ne hlt h0 (Nat.mod_lt _ pageSize_pos)]

/-! ## Across processes -/

/-- The root `p`, set in a process that was in state `m₁` right after and in `m₂` at the end, where a
checkpoint was made: it is given back as long as the process lives, and the process that runs next
gets the address of the same byte. -/
structure KeepsRoot (env : Env) (p : ℕ) (m₁ m₂ : Machine) : Prop where
  set : ∃ m', Returns containerGetroot m₁ p m'
  kept : ∃ m', Returns containerGetroot m₂ p m'
  restored : ∃ cont m' a m'', Returns (containerRestore env) (m₂.restart env) cont m' ∧
    Returns containerGetroot m' a m'' ∧ ∀ id off, m₂.pm.LocatedAt p id off → m'.pm.LocatedAt a id off

/-- **The root of a container** is never kept, whatever the process does between the call and the
checkpoint. -/
theorem not_keepsRoot (env env' : Env) (saved : Option Machine) (m m₁ m₂ m₃ : Machine) (p : ℕ)
    (actions : List Action) (_hs : Session anyAction env saved m)
    (_hp : ∃ id off, m.pm.LocatedAt p id off) (_hset : Returns (containerSetroot p) m 1 m₁)
    (_hno : ∀ a ∈ actions, ∀ b, a ≠ .setroot b) (_hrun : Returns (actions.forM Action.run) m₁ () m₂)
    (_hcp : Returns containerCpoint m₂ () m₃) : ¬ KeepsRoot env' p m₁ m₃ := by
  intro h
  obtain ⟨cont, m', a, m'', hr, -⟩ := h.restored
  exact not_returns_containerRestore hr

/-- The entry of the first object of a container, as the current tree leads to it. -/
def loadFirstEntry : PmProg (Bool × EntryRef × SlabEntry) := do
  let d ← currentDir
  let o ← loadOuter (d.sdCurrent 0).maddr
  let n ← loadInner (o.soCurrent 0).maddr
  let r : EntryRef := ⟨(n.siCurrent 0).maddr, 0⟩
  let e ← loadEntry r
  return (decide (0 < d.sdIndex ∧ 0 < o.soIndex ∧ 0 < n.siIndex), r, e)

theorem curEntry_loadFirstEntry {r : EntryRef} {e : SlabEntry}
    (hr : Returns loadFirstEntry s (true, r, e) s') : s = s' ∧ (e.isInit = true → s.CurEntry r e) := by
  unfold loadFirstEntry currentDir at hr
  simp only [returns_bind, returns_currentSlabMaddr, returns_loadDir, returns_loadOuter,
    returns_loadInner, returns_loadEntry, returns_pure, Prod.mk.injEq, decide_eq_true_iff] at hr
  obtain ⟨d, _, ⟨_, _, ⟨⟨cont, c, hcont, hc, rfl⟩, rfl⟩, hd, rfl⟩, o, _, ⟨ho, rfl⟩, n, _, ⟨hn, rfl⟩, _, _,
    ⟨hentry, rfl⟩, ⟨⟨hd0, ho0, hn0⟩, rfl, rfl⟩, rfl⟩ := hr
  exact ⟨rfl, fun he =>
    ⟨⟨0, 0, 0, n, ⟨o, ⟨d, ⟨c, ⟨cont, hcont, hc⟩, hd⟩, hd0, ho⟩, ho0, hn⟩, hn0, rfl⟩, hentry, he⟩⟩

/-- A session with one object and the root at the offset `off` of its data page; whether the entry is the
object's, the answer of `container_setroot`, and how `container_getroot` stops. -/
def sessionRoot (env : Env) (off : ℕ) : MachineProg (Bool × ℕ × Option Fault) := do
  let _ ← containerInit env
  [Action.palloc 512].forM Action.run
  let (ok, _, e) ← onPm loadFirstEntry
  let set ← containerSetroot (2 ^ 40 + 6 * pageSize + off)
  let m ← get
  [].forM Action.run
  containerCpoint
  return (ok && decide (e.isInit = true ∧ e.dataCurrent.maddr = 2 ^ 40 + 6 * pageSize), set,
    stopsWith containerGetroot m)

theorem exists_sessionRoot (off : ℕ) {o : Option Fault} (hoff : off < pageSize)
    (hrun : (sessionRoot (Env.standard .fixedMapper) off
      (Machine.fresh (Env.standard .fixedMapper))).value? = some (true, 1, o)) :
    ∃ saved m m₁ m₂, Session anyAction (Env.standard .fixedMapper) saved m ∧
      (∃ id off', m.pm.LocatedAt (2 ^ 40 + 6 * pageSize + off) id off') ∧
      Returns (containerSetroot (2 ^ 40 + 6 * pageSize + off)) m 1 m₁ ∧
      Returns ([].forM Action.run) m₁ () m₁ ∧ Returns containerCpoint m₁ () m₂ ∧
      stopsWith containerGetroot m₁ = o := by
  obtain ⟨t, h⟩ := exists_returns_of_value hrun
  unfold sessionRoot onPm at h
  simp only [returns_bind, returns_get, returns_pure, Prod.mk.injEq, returns_zoom,
    Bool.and_eq_true, decide_eq_true_iff] at h
  obtain ⟨cont, m₀, hinit, _, m, hacts, ⟨ok, r, e⟩, _, ⟨s, hentry, rfl⟩, v, m₁, hset, _, _, ⟨rfl, rfl⟩, _, m₃, hno,
    _, m₂, hcp, ⟨⟨hok, hinit', hdata⟩, hv, hstop⟩, -⟩ := h
  dsimp only at hok hinit' hdata
  subst hok hv
  obtain ⟨rfl, hcur⟩ := curEntry_loadFirstEntry hentry
  obtain rfl := (returns_forM_nil.mp hno)
  obtain ⟨saved, hs⟩ := (Session.init hinit).forM hacts
  exact ⟨saved, m, m₁, m₂, hs, ⟨e.seId, off, r, e, hcur hinit', rfl, hoff, by rw [hdata]⟩, hset,
    hno, hcp, hstop⟩

/-- For a root at the start of a page. -/
theorem not_keepsRoot_session : ∃ m₁ m₂ : Machine,
    ¬ KeepsRoot (Env.standard .fixedMapper) (2 ^ 40 + 6 * pageSize + 0) m₁ m₂ := by
  obtain ⟨saved, m, m₁, m₂, hs, hp, hset, hno, hcp, -⟩ := exists_sessionRoot 0 (by decide)
    (show _ = some (true, 1, none) by decide +kernel)
  exact ⟨m₁, m₂, not_keepsRoot _ _ saved m m₁ m₁ m₂ _ [] hs hp hset (by simp) hno hcp⟩

/-- Inside one process, `container_getroot` faults for a root that is not at the start of a page. -/
theorem not_forall_keepsRoot : ∃ saved m m₁,
    Session anyAction (Env.standard .fixedMapper) saved m ∧
      (∃ id off, m.pm.LocatedAt (2 ^ 40 + 6 * pageSize + 8) id off) ∧
      Returns (containerSetroot (2 ^ 40 + 6 * pageSize + 8)) m 1 m₁ ∧
      ¬ ∃ a m', Returns containerGetroot m₁ a m' := by
  obtain ⟨saved, m, m₁, -, hs, hp, hset, -, -, hstop⟩ := exists_sessionRoot 8 (by decide)
    (show _ = some (true, 1, some Fault.sigsegv) by decide +kernel)
  refine ⟨saved, m, m₁, hs, hp, hset, ?_⟩
  rintro ⟨a, m', hget⟩
  unfold stopsWith at hstop
  rw [show (containerGetroot m₁).result = _ from hget] at hstop
  cases hstop

end LibPM

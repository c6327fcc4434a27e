import LibPM.Records.Sessions
import LibPM.Memory.Words

/-!
# The room for pointer records

A pointer page has room for 341 records. A registration that finds 341 of them stores the next one
outside of the page; every other one stays inside (`records_run`).
-/

namespace LibPM

open Recorded Recorded.Prog

/-! ## The registrations of an action -/

/-- `container_cpoint` up to the loop over the vector of pointers. -/
def beforeDrain : MachineProg Unit := do
  let cont ← onPm getContainer
  onPm (updatePage cont (Page.onContainer fun c =>
    { c with flags := c.flags ||| cflagCpointInProgress }))
  buildMallocatTree
  classifyPointers

/-- The loop over the vector of pointers has made `i` rounds. -/
inductive Drained (m : Machine) : ℕ → Machine → Prop
  | zero : Drained m 0 m
  | succ {i ptrLoc : ℕ} {m₁ m₂ m₃ : Machine} : Drained m i m₁ →
      m₁.pptrVec.items[i]? = some ptrLoc → Returns (persistValloc ptrLoc) m₁ () m₂ →
      Returns (onPm (slabInsertPointer ptrLoc)) m₂ () m₃ → Drained m (i + 1) m₃

/-- The action, begun in `m`, registers `ptrLoc` in the state `t`. -/
inductive Registers (m : Machine) : Action → ℕ → Machine → Prop
  | call (ptrLoc : ℕ) : Registers m (.insertPointer ptrLoc) ptrLoc m
  | closure {i ptrLoc : ℕ} {m₁ m₂ t : Machine} : m.closure = true → Returns beforeDrain m () m₁ →
      Drained m₁ i m₂ → i ≤ intMax → m₂.pptrVec.items[i]? = some ptrLoc →
      Returns (persistValloc ptrLoc) m₂ () t → Registers m .cpoint ptrLoc t

/-- A registration of the action has a record outside of the page. -/
def Machine.Overruns (m : Machine) (a : Action) : Prop :=
  ∃ ptrLoc t, Registers m a ptrLoc t ∧ Stops (slabInsertPointer ptrLoc) t.pm .outOfBounds

/-- Every registration of the action finds fewer than 341 records in its entry. -/
def Machine.HasRoom (m : Machine) (a : Action) : Prop :=
  ∀ ptrLoc t, Registers m a ptrLoc t → ∀ e, t.pm.Records ptrLoc e → e.ptrCurrent.idx < 341

/-- **Pointer records stay inside their pages**: those of every state, and the new ones of an action
exactly if there is room for them. -/
theorem records_run {env : Env} {saved : Option Machine} {m : Machine}
    (hs : Session anyAction env saved m) :
    m.pm.RecordsFit ∧ ∀ a, ¬ m.Overruns a ↔ m.HasRoom a := by
  refine ⟨hs.recordsFit, fun a => ⟨fun hno ptrLoc t hreg e he => ?_, ?_⟩⟩
  · by_contra hge
    exact hno ⟨ptrLoc, t, hreg, stops_insert_iff.mpr ⟨e, he, fun h => hge (e.hasRoom_iff.mp h)⟩⟩
  · rintro hroom ⟨ptrLoc, t, hreg, hstop⟩
    obtain ⟨e, he, hfull⟩ := stops_insert_iff.mp hstop
    exact hfull (e.hasRoom_iff.mpr (hroom ptrLoc t hreg e he))

/-! ## An action that overruns stops -/

section Filling

variable {s s' : Pm} {ptrLoc sd sptr k : ℕ} {se : EntryRef}

/-- The same page but for pointer records and their number. -/
def Page.SameButRecords : Page → Page → Prop
  | .ptrs _, .ptrs _ => True
  | .bucket b, .bucket b' => ∀ i, (b'.sbEntries i).dataCurrent = (b.sbEntries i).dataCurrent
  | p, p' => p' = p

theorem Page.SameButRecords.refl (p : Page) : p.SameButRecords p := by
  cases p with
  | bucket b => exact fun _ => rfl
  | ptrs q => trivial
  | _ => rfl

theorem Page.SameButRecords.trans {p p' p'' : Page} (h : p.SameButRecords p')
    (h' : p'.SameButRecords p'') : p.SameButRecords p'' := by
  cases p with
  | bucket b =>
    cases p' with
    | bucket b' =>
      cases p'' with
      | bucket b'' => exact fun i => (h' i).trans (h i)
      | _ => cases h'
    | _ => cases h
  | ptrs q =>
    cases p' with
    | ptrs q' =>
      cases p'' with
      | ptrs q'' => trivial
      | _ => cases h'
    | _ => cases h
  | _ =>
    obtain rfl : p' = _ := h
    exact h'

/-- The location `ptrLoc` holds `NULL`, and its entry `se` has `k` records in the page at `sptr`. -/
structure Pm.Filling (s : Pm) (ptrLoc sd sptr : ℕ) (se : EntryRef) (k : ℕ) : Prop where
  fixPtrs : s.fixPtrs = true
  current : ∃ cont c, s.containers = some cont ∧ s.readContainer cont = some c ∧
    c.currentSlab.maddr = sd
  found : ∃ d, s.readDir sd = some d ∧
    s.findEntry (searchNormal (roundDwnPg ptrLoc)) d.sdMaddrRoot = some (some se)
  word : s.wordAt ptrLoc = some 0
  data : ∀ x, ptrLoc ≤ x → x < ptrLoc + 8 → ∃ b, s.pageAt (roundDwnPg x) = some (.data b)
  entry : ∃ e, s.readEntry se = some e ∧ e.ptrCurrent.idx = k ∧ e.ptrCurrent.maddr = sptr
  ne : sptr ≠ 0
  ptrs : ∃ i p, s.vpage sptr = some i ∧ (s.prot i).write = true ∧ s.file (s.vmap i) = .ptrs p
  bucket : ∃ j, s.vpage se.sb = some j ∧ (s.prot j).write = true

/-- Records were stored. -/
def Pm.Recorded (s s' : Pm) : Prop :=
  ∃ file, s' = { s with file := file } ∧ ∀ i, (s.file i).SameButRecords (file i)

theorem Pm.Recorded.trans {s'' : Pm} (h : s.Recorded s') (h' : s'.Recorded s'') : s.Recorded s'' := by
  obtain ⟨f, rfl, hf⟩ := h
  obtain ⟨f', rfl, hf'⟩ := h'
  exact ⟨f', rfl, fun i => (hf i).trans (hf' i)⟩

theorem Pm.Recorded.setPage {i : ℕ} {p : Page} (h : (s.file i).SameButRecords p) :
    s.Recorded (s.setPage i p) := by
  refine ⟨_, rfl, fun j => ?_⟩
  by_cases hj : j = i
  · rw [hj, Function.update_self]
    exact h
  · rw [Function.update_of_ne hj]
    exact .refl _

theorem Pm.Recorded.pageAt (h : s.Recorded s') {a : ℕ} {p : Page} (hp : s.pageAt a = some p) :
    ∃ p', s'.pageAt a = some p' ∧ p.SameButRecords p' := by
  obtain ⟨file, rfl, hfile⟩ := h
  obtain ⟨hmod, i, hi, rfl⟩ := pageAt_eq_some.mp hp
  exact ⟨_, pageAt_eq_some.mpr ⟨hmod, i, hi, rfl⟩, hfile _⟩

theorem Pm.Recorded.readEntry (h : s.Recorded s') {r : EntryRef} {e : SlabEntry}
    (he : s.readEntry r = some e) : ∃ e', s'.readEntry r = some e' ∧ e'.dataCurrent = e.dataCurrent := by
  obtain ⟨hidx, b, hb, rfl⟩ := readEntry_eq_some.mp he
  obtain ⟨p', hp', hsame⟩ := h.pageAt (readBucket_eq_some.mp hb)
  cases p' with
  | bucket b' =>
    exact ⟨_, readEntry_eq_some.mpr ⟨hidx, b', readBucket_eq_some.mpr hp', rfl⟩, hsame r.idx⟩
  | _ => cases hsame

theorem Pm.Recorded.findEntry (h : s.Recorded s') {a : ℕ} {l : List EntryRef} {o : Option EntryRef}
    (ho : s.findEntry (searchNormal a) l = some o) : s'.findEntry (searchNormal a) l = some o := by
  induction l with
  | nil => exact ho
  | cons r l ih =>
    unfold Pm.findEntry at ho ⊢
    cases he : s.readEntry r with
    | none =>
      rw [he] at ho
      cases ho
    | some e =>
      obtain ⟨e', he', hdata⟩ := h.readEntry he
      have hsearch : searchNormal a e' = searchNormal a e := by
        unfold searchNormal
        rw [hdata]
      rw [he] at ho
      rw [he']
      dsimp only at ho ⊢
      rw [hsearch]
      split_ifs at ho ⊢ with hp
      · exact ho
      · exact ih ho

/-- Every record stored leaves the rest as it was. -/
theorem Pm.Filling.recorded (h : s.Filling ptrLoc sd sptr se k) (hs : s.Recorded s') {k' : ℕ}
    (he : ∃ e, s'.readEntry se = some e ∧ e.ptrCurrent.idx = k' ∧ e.ptrCurrent.maddr = sptr) :
    s'.Filling ptrLoc sd sptr se k' := by
  obtain ⟨cont, c, hcont, hc, hsd⟩ := h.current
  obtain ⟨d, hd, hfind⟩ := h.found
  obtain ⟨pc, hpc, hsame⟩ := hs.pageAt (readContainer_eq_some.mp hc)
  obtain rfl : pc = .container c := hsame
  obtain ⟨pd, hpd, hsame⟩ := hs.pageAt (readDir_eq_some.mp hd)
  obtain rfl : pd = .dir d := hsame
  have hbyte : ∀ x, ptrLoc ≤ x → x < ptrLoc + 8 → s'.pageAt (roundDwnPg x) = s.pageAt (roundDwnPg x) := by
    intro x hx hx'
    obtain ⟨b, hb⟩ := h.data x hx hx'
    obtain ⟨p, hp, hsame⟩ := hs.pageAt hb
    obtain rfl : p = .data b := hsame
    rw [hp, hb]
  obtain ⟨i, p, hi, hwi, hp⟩ := h.ptrs
  obtain ⟨j, hj, hwj⟩ := h.bucket
  have hfind' := hs.findEntry hfind
  obtain ⟨file, rfl, hfile⟩ := hs
  refine ⟨h.fixPtrs, ⟨cont, c, hcont, readContainer_eq_some.mpr hpc, hsd⟩,
    ⟨d, readDir_eq_some.mpr hpd, hfind'⟩, ?_, fun x hx hx' => ?_, he, h.ne, ?_, ⟨j, hj, hwj⟩⟩
  · rw [wordAt_congr fun x hx hx' => ?_]
    · exact h.word
    · unfold Pm.byteAt
      rw [hbyte x hx hx', Option.map_congr]
      intro q hq
      obtain ⟨b, hb⟩ := h.data x hx hx'
      obtain rfl := Option.some.inj (hq.symm.trans hb)
      rfl
  · rw [hbyte x hx hx']
    exact h.data x hx hx'
  · have hsame := hfile (s.vmap i)
    rw [hp] at hsame
    cases hq : file (s.vmap i) with
    | ptrs q => exact ⟨i, q, hi, hwi, hq⟩
    | _ => rw [hq] at hsame; cases hsame

theorem Pm.Filling.locate (h : s.Filling ptrLoc sd sptr se k) :
    Returns (locatePointer ptrLoc) s (se, slabPtrSeidNull, slabPtrOffsetNull) s := by
  obtain ⟨e, he, -, hsptr⟩ := h.entry
  unfold locatePointer
  refine (returns_currentSlabMaddr.mpr ⟨h.current, rfl⟩).bind
    ((returns_loadWord.mpr ⟨h.word, rfl⟩).bind ((returns_usedFind.mpr ⟨h.found, rfl⟩).bind
      ((returns_loadEntry.mpr ⟨he, rfl⟩).bind (Returns.seq (returns_when.mpr (.inr ⟨?_, rfl⟩)) ?_))))
  · rw [hsptr]
    exact h.ne
  · rw [if_pos rfl]
    exact returns_pure.mpr ⟨rfl, rfl⟩

theorem Pm.Filling.records (h : s.Filling ptrLoc sd sptr se k) {e : SlabEntry}
    (he : s.readEntry se = some e) : s.Records ptrLoc e :=
  ⟨h.fixPtrs, se, _, _, s, h.locate, he⟩

/-- A store to a page that can be written. -/
theorem returns_updatePage {a i : ℕ} {g : Page → Option Page} {p : Page} (hi : s.vpage a = some i)
    (hw : (s.prot i).write = true) (hp : g (s.file (s.vmap i)) = some p) :
    Returns (updatePage a g) s () (s.setPage (s.vmap i) p) :=
  (returns_makeWritable.mpr ⟨i, hi, .inl ⟨hw, rfl⟩⟩).seq (returns_putPage.mpr ⟨i, p, hi, hw, hp, rfl⟩)

/-- The pages `i` of records and `j` of the bucket `b`, while a record is stored. -/
structure Pm.Storing (s : Pm) (i j : ℕ) (b : SlabBucket) (t : Pm) : Prop where
  recorded : s.Recorded t
  ptrs : ∃ q, t.file (s.vmap i) = .ptrs q
  bucket : t.file (s.vmap j) = .bucket b

/-- A store to one field of the record. -/
theorem Pm.Storing.store {t : Pm} {i j : ℕ} {b : SlabBucket} (h : s.Storing i j b t)
    (hi : s.vpage sptr = some i) (hw : (s.prot i).write = true) (f : SlabPtrRec → SlabPtrRec) :
    ∃ t', Returns (updatePage sptr (Page.onPtrRec k f)) t () t' ∧ s.Storing i j b t' := by
  obtain ⟨q, hq⟩ := h.ptrs
  have hb := h.bucket
  have hne : s.vmap j ≠ s.vmap i := by
    intro hij
    rw [hij, hq] at hb
    cases hb
  obtain ⟨file, rfl, hfile⟩ := h.recorded
  refine ⟨_, returns_updatePage (g := Page.onPtrRec k f)
    hi hw (congrArg (Page.onPtrRec k f) hq),
    h.recorded.trans (.setPage ?_), ⟨_, Function.update_self ..⟩, ?_⟩
  · dsimp only at hq ⊢
    rw [hq]
    trivial
  · exact (Function.update_of_ne hne ..).trans hb

/-- **One more record**, if there is room. -/
theorem Pm.Filling.insert (h : s.Filling ptrLoc sd sptr se k) (hk : k < 341) :
    ∃ s', Returns (slabInsertPointer ptrLoc) s () s' ∧ s'.Filling ptrLoc sd sptr se (k + 1) := by
  obtain ⟨e, he, hidx, hsptr⟩ := h.entry
  obtain ⟨i, p, hi, hwi, hp⟩ := h.ptrs
  obtain ⟨j, hj, hwj⟩ := h.bucket
  obtain ⟨hlt, b, hb, hbe⟩ := readEntry_eq_some.mp he
  obtain ⟨hmod, j', hj', hbj⟩ := pageAt_eq_some.mp (readBucket_eq_some.mp hb)
  obtain rfl := Option.some.inj (hj.symm.trans hj')
  have hroom : e.HasRoom := e.hasRoom_iff.mpr (by omega)
  have h₀ : s.Storing i j b s := ⟨⟨s.file, rfl, fun _ => .refl _⟩, ⟨p, hp⟩, hbj⟩
  obtain ⟨s₁, hr₁, h₁⟩ := h₀.store (k := k) hi hwi fun r => { r with plocOffset := ptrLoc % pageSize }
  obtain ⟨s₂, hr₂, h₂⟩ := h₁.store (k := k) hi hwi fun r => { r with pvalSeid := slabPtrSeidNull }
  obtain ⟨s₃, hr₃, h₃⟩ := h₂.store (k := k) hi hwi fun r => { r with pvalOffset := slabPtrOffsetNull }
  have hb₃ := h₃.bucket
  have hrec₃ := h₃.recorded
  obtain ⟨file, rfl, hfile⟩ := h₃.recorded
  obtain ⟨b', hb'⟩ : ∃ b' : SlabBucket, b' = { b with sbEntries :=
    (Function.update b.sbEntries se.idx { e with ptrCurrent.idx := (k + 1) % 2 ^ 16 }) } := ⟨_, rfl⟩
  have hentry : Page.onEntry se.idx (fun e => { e with ptrCurrent.idx := (k + 1) % 2 ^ 16 })
      (file (s.vmap j)) = some (.bucket b') := by
    dsimp only at hb₃
    rw [hb₃, hb', ← hbe]
    exact if_pos hlt
  have hbe' : b'.sbEntries se.idx = { e with ptrCurrent.idx := (k + 1) % 2 ^ 16 } := by
    rw [hb']
    exact Function.update_self ..
  have hr₄ := returns_updatePage (s := { s with file := file }) hj hwj hentry
  have hidx' : (k + 1) % 2 ^ 16 = k + 1 := Nat.mod_eq_of_lt (by omega)
  refine ⟨_, ?_, h.recorded (hrec₃.trans (.setPage ?_))
    ⟨{ e with ptrCurrent.idx := (k + 1) % 2 ^ 16 }, readEntry_eq_some.mpr ⟨hlt, b',
      readBucket_eq_some.mpr (pageAt_eq_some.mpr ⟨hmod, j, hj, Function.update_self ..⟩), hbe'⟩,
      hidx', hsptr⟩⟩
  · refine (returns_get.mpr ⟨rfl, rfl⟩).bind ((returns_when_true h.fixPtrs).mpr ?_)
    rw [doInsertPointer_eq]
    refine h.locate.bind ((returns_loadEntry.mpr ⟨he, rfl⟩).bind
      ((returns_require.mpr ⟨hroom, rfl⟩).seq ?_))
    rw [hidx, hsptr]
    exact hr₁.seq (hr₂.seq (hr₃.seq hr₄))
  · dsimp only at hb₃ ⊢
    rw [hb₃, hb']
    intro x
    dsimp only
    by_cases hx : x = se.idx
    · rw [hx, Function.update_self, hbe]
    · rw [Function.update_of_ne hx]

/-- The page is full after `341` records. -/
theorem Pm.Filling.overruns (h : s.Filling ptrLoc sd sptr se 341) :
    Stops (slabInsertPointer ptrLoc) s .outOfBounds := by
  obtain ⟨e, he, hidx, -⟩ := h.entry
  refine stops_insert_iff.mpr ⟨e, h.records he, fun hroom => ?_⟩
  have := e.hasRoom_iff.mp hroom
  omega

/-- A session goes on registering until the page is full. -/
theorem exists_filled {env : Env} {saved : Option Machine} {m : Machine}
    (hs : Session anyAction env saved m) (h : m.pm.Filling ptrLoc sd sptr se k) (hk : k ≤ 341) :
    ∃ m', Session anyAction env saved m' ∧ m'.pm.Filling ptrLoc sd sptr se 341 := by
  induction hk using Nat.decreasingInduction generalizing m with
  | self => exact ⟨m, hs, h⟩
  | of_succ k hlt ih =>
    obtain ⟨s', hr, h'⟩ := h.insert hlt
    exact ih (hs.step (a := .insertPointer ptrLoc) trivial (returns_zoom.mpr ⟨s', hr, rfl⟩)) h'

end Filling

/-- A session that registers the first word of an object of 512 bytes, and whether the page of its
records can be filled. -/
def sessionFilling (env : Env) : MachineProg Bool := do
  let ptrLoc := 2 ^ 40 + 6 * pageSize
  let se : EntryRef := ⟨2 ^ 40 + 4 * pageSize, 0⟩
  let _ ← containerInit env
  [Action.palloc 512, .insertPointer ptrLoc].forM Action.run
  let sd ← onPm currentSlabMaddr
  let found ← onPm (usedFind sd (searchNormal (roundDwnPg ptrLoc)))
  let v ← onPm (loadWord ptrLoc)
  let e ← onPm (loadEntry se)
  let _ ← onPm (loadPtrRec e.ptrCurrent.maddr 0)
  let m ← get
  let data := match m.pm.pageAt ptrLoc with
    | some (.data _) => true
    | _ => false
  return data && decide (m.pm.fixPtrs = true ∧ sd = 2 ^ 40 + pageSize ∧ found = some se ∧ v = 0 ∧
    e.ptrCurrent.idx = 1 ∧ e.ptrCurrent.maddr = 2 ^ 40 + 7 * pageSize ∧
    ((m.pm.vpage e.ptrCurrent.maddr).map fun i => (m.pm.prot i).write) = some true ∧
    ((m.pm.vpage se.sb).map fun i => (m.pm.prot i).write) = some true)

theorem exists_filling : ∃ saved m, Session anyAction (Env.standard .fixedMapper) saved m ∧
    m.pm.Filling (2 ^ 40 + 6 * pageSize) (2 ^ 40 + pageSize) (2 ^ 40 + 7 * pageSize)
      ⟨2 ^ 40 + 4 * pageSize, 0⟩ 1 := by
  have hrun : (sessionFilling (Env.standard .fixedMapper)
      (Machine.fresh (Env.standard .fixedMapper))).value? = some true := by
    decide +kernel
  obtain ⟨t, h⟩ := exists_returns_of_value hrun
  unfold sessionFilling at h
  obtain ⟨cont, m₀, hinit, h⟩ := returns_bind.mp h
  obtain ⟨_, m, hacts, h⟩ := returns_bind.mp h
  unfold onPm loadPtrRec at h
  simp only [returns_bind, returns_zoom, returns_get, returns_pure, returns_require, returns_ofOption,
    returns_currentSlabMaddr, returns_usedFind, returns_loadWord, returns_loadEntry] at h
  obtain ⟨sd, _, ⟨_, ⟨hcur, rfl⟩, rfl⟩, found, _, ⟨_, ⟨hfound, rfl⟩, rfl⟩, v, _, ⟨_, ⟨hword, rfl⟩, rfl⟩,
    e, _, ⟨_, ⟨he, rfl⟩, rfl⟩, r, _, ⟨_, ⟨_, _, ⟨-, rfl⟩, _, _, ⟨rfl, rfl⟩, p, _, ⟨hp, rfl⟩, -, rfl⟩, rfl⟩,
    _, _, ⟨rfl, rfl⟩, hall, -⟩ := h
  obtain ⟨saved, hs⟩ := (Session.init hinit).forM hacts
  rw [Bool.and_eq_true, decide_eq_true_iff] at hall
  obtain ⟨hdata, hfix, rfl, rfl, rfl, hidx, hsptr, hwp, hwb⟩ := hall
  obtain ⟨i, hi, hwi⟩ := Option.map_eq_some_iff.mp hwp
  obtain ⟨j, hj, hwj⟩ := Option.map_eq_some_iff.mp hwb
  obtain ⟨-, i', hi', hpage⟩ := pageAt_eq_some.mp (readPtrs_eq_some.mp hp)
  obtain rfl := Option.some.inj (hi.symm.trans hi')
  rw [hsptr] at hi
  refine ⟨saved, m, hs, hfix, hcur, hfound, hword, fun x hx hx' => ?_, ⟨e, he, hidx, hsptr⟩, by decide,
    ⟨i, p, hi, hwi, hpage⟩, ⟨j, hj, hwj⟩⟩
  -- the word lies in one page
  have hround : roundDwnPg x = 2 ^ 40 + 6 * pageSize := by
    unfold roundDwnPg pageSize at *
    omega
  rw [hround]
  split at hdata
  · exact ⟨_, ‹_›⟩
  · cases hdata

/-- With one record. -/
theorem records_run_one : ∃ m : Machine, ∃ ptrLoc,
    m.pm.RecordsFit ∧ (¬ m.Overruns (.insertPointer ptrLoc) ↔ m.HasRoom (.insertPointer ptrLoc)) := by
  obtain ⟨saved, m, hs, -⟩ := exists_filling
  exact ⟨m, _, (records_run hs).1, (records_run hs).2 (.insertPointer (2 ^ 40 + 6 * pageSize))⟩

/-- The promise is broken by the registration after the first 341 for one page. -/
theorem not_forall_registers_inside : ∃ saved m ptrLoc,
    Session anyAction (Env.standard .fixedMapper) saved m ∧ m.Overruns (.insertPointer ptrLoc) := by
  obtain ⟨saved, m, hs, h⟩ := exists_filling
  obtain ⟨m', hs', h'⟩ := exists_filled hs h (by decide)
  exact ⟨saved, m', _, hs', _, m', .call _, h'.overruns⟩

end LibPM

import LibPM.Restore.Opened
import LibPM.Session.Basic

/-!
# Mapping the entries of a bucket

`slab_bucket_map` gives every initialised entry the addresses of its pages in the new mapping
(`mapEntry`). The address of offset zero is the header page, not `NULL`, so an entry without a
pointer page has one afterwards (`pointersAbsent_iff`).
-/

namespace LibPM

open Recorded Recorded.Prog

variable {s s' : Pm} {u : Unit} {se : EntryRef} {e : SlabEntry}

/-! ## One entry -/

/-- The entry `e` of the bucket becomes `e'`, and nothing else changes. -/
def Pm.Sets (s : Pm) (se : EntryRef) (e e' : SlabEntry) (s' : Pm) : Prop :=
  ∃ q b, se.sb % pageSize = 0 ∧ se.idx < slabBucketEntries ∧ s.vpage se.sb = some q ∧
    s.file q = .bucket b ∧ b.sbEntries se.idx = e ∧
    s' = s.setPage q (.bucket { b with sbEntries := Function.update b.sbEntries se.idx e' })

namespace Pm.Sets

variable {e' : SlabEntry}

theorem edits (h : s.Sets se e e' s') : s.Edits s' := by
  obtain ⟨q, b, -, -, -, -, -, rfl⟩ := h
  exact .setPage s q _

theorem trans {s'' : Pm} {e₁ e₂ : SlabEntry} (h : s.Sets se e e₁ s') (h' : s'.Sets se e₁ e₂ s'') :
    s.Sets se e e₂ s'' := by
  obtain ⟨q, b, hmod, hidx, hq, hb, he, rfl⟩ := h
  obtain ⟨q', b', -, -, hq', hb', -, rfl⟩ := h'
  obtain rfl := Option.some.inj (hq.symm.trans hq')
  have hpage : (s.setPage q (.bucket { b with
      sbEntries := Function.update b.sbEntries se.idx e₁ })).file q = .bucket { b with
      sbEntries := Function.update b.sbEntries se.idx e₁ } := Function.update_self ..
  obtain rfl := Page.bucket.inj (hpage.symm.trans hb')
  refine ⟨q, b, hmod, hidx, hq, hb, he, ?_⟩
  unfold Pm.setPage
  dsimp only
  rw [Function.update_idem, Function.update_idem]

theorem readEntry (h : s.Sets se e e' s') (hs : s.Reopened) : s'.readEntry se = some e' := by
  obtain ⟨q, b, hmod, hidx, hq, -, -, rfl⟩ := h
  refine readEntry_eq_some.mpr ⟨hidx, { b with
    sbEntries := Function.update b.sbEntries se.idx e' }, readBucket_eq_some.mpr
    (pageAt_eq_some.mpr ⟨hmod, q, hq, ?_⟩), Function.update_self ..⟩
  unfold Pm.setPage
  dsimp only
  rw [hs.vmap]
  exact Function.update_self ..

end Pm.Sets

/-- The page an entry is read from. -/
theorem Pm.Reopened.readEntry (h : s.Reopened) (he : s.readEntry se = some e) :
    se.sb % pageSize = 0 ∧ se.idx < slabBucketEntries ∧ ∃ q b, s.vpage se.sb = some q ∧
      s.file q = .bucket b ∧ b.sbEntries se.idx = e := by
  obtain ⟨hidx, b, hb, he⟩ := readEntry_eq_some.mp he
  obtain ⟨hmod, q, hq, hpage⟩ := pageAt_eq_some.mp (readBucket_eq_some.mp hb)
  rw [h.vmap] at hpage
  exact ⟨hmod, hidx, q, b, hq, hpage, he⟩

theorem Pm.Reopened.updateEntry (h : s.Reopened) (he : s.readEntry se = some e)
    {f : SlabEntry → SlabEntry} (hr : Returns (LibPM.updateEntry se f) s u s') :
    s.Sets se e (f e) s' := by
  obtain ⟨hmod, hidx, q, b, hq, hb, rfl⟩ := h.readEntry he
  obtain ⟨i, p, hi, -, hp, rfl⟩ := h.updatePage hr
  obtain rfl := Option.some.inj (hq.symm.trans hi)
  rw [hb] at hp
  unfold Page.onEntry at hp
  dsimp only at hp
  rw [if_pos hidx] at hp
  cases hp
  exact ⟨q, b, hmod, hidx, hq, hb, rfl, rfl⟩

/-- A store to the entry, after those that made it `e₁`. -/
theorem Pm.Sets.updateEntry {s'' : Pm} {e₁ : SlabEntry} (h : s.Sets se e e₁ s') (hs : s.Reopened)
    {f : SlabEntry → SlabEntry} (hr : Returns (LibPM.updateEntry se f) s' u s'') :
    s.Sets se e (f e₁) s'' :=
  h.trans ((h.edits.reopened hs).updateEntry (h.readEntry hs) hr)

/-- What `slab_bucket_map` makes of an initialised entry, in a mapping at `start`. -/
def mapEntry (start : ℕ) (type : CpointType) (e : SlabEntry) : SlabEntry :=
  match type with
  | .incomplete => { e with
      dataCurrent.maddr := start + e.dataCurrent.laddr
      dataSnapshot.maddr := start + e.dataSnapshot.laddr
      ptrCurrent.maddr := start + e.ptrCurrent.laddr
      ptrSnapshot.maddr := start + e.ptrSnapshot.laddr }
  | _ => { e with
      dataCurrent := ⟨start + e.dataSnapshot.laddr, e.dataSnapshot.laddr, e.dataCurrent.bitmap⟩
      dataSnapshot.maddr := start + e.dataSnapshot.laddr
      ptrCurrent := ⟨e.ptrCurrent.idx, start + e.ptrSnapshot.laddr, e.ptrSnapshot.laddr⟩
      ptrSnapshot.maddr := start + e.ptrSnapshot.laddr }

/-- The assertions of `slab_bucket_map`. -/
def Mappable (type : CpointType) (e : SlabEntry) : Prop :=
  match type with
  | .incomplete => True
  | .complete => e.dataCurrent.laddr = e.dataSnapshot.laddr ∧ e.ptrCurrent.laddr = e.ptrSnapshot.laddr
  | _ => False

theorem returns_mappage {laddr a : ℕ} :
    Returns (pageAllocatorMappage laddr) s a s' ↔ a = s.startAddr + laddr ∧ s = s' := by
  unfold pageAllocatorMappage
  simp only [returns_bind, returns_get, returns_pure]
  constructor
  · rintro ⟨_, _, ⟨rfl, rfl⟩, rfl, rfl⟩
    exact ⟨rfl, rfl⟩
  · rintro ⟨rfl, rfl⟩
    exact ⟨s, s, ⟨rfl, rfl⟩, rfl, rfl⟩

/-- **Mapping one entry.** -/
theorem Pm.Reopened.slabEntryMap (h : s.Reopened) {type : CpointType}
    (hr : Returns (LibPM.slabEntryMap se type) s u s') :
    ∃ e, s.readEntry se = some e ∧ Mappable type e ∧
      s.Sets se e (mapEntry s.startAddr type e) s' := by
  unfold LibPM.slabEntryMap at hr
  rw [returns_bind] at hr
  obtain ⟨e, _, hload, hr⟩ := hr
  obtain ⟨he, rfl⟩ := returns_loadEntry.mp hload
  clear hload
  cases type with
  | incomplete =>
    simp only [returns_bind, returns_mappage] at hr
    obtain ⟨_, _, ⟨rfl, rfl⟩, _, s₁, h₁, _, _, ⟨rfl, rfl⟩, _, s₂, h₂, _, _, ⟨rfl, rfl⟩, _, s₃, h₃, _, _,
      ⟨rfl, rfl⟩, h₄⟩ := hr
    have hs₁ := h.updateEntry he h₁
    have hs₂ := hs₁.updateEntry h h₂
    have hs₃ := hs₂.updateEntry h h₃
    have hs₄ := hs₃.updateEntry h h₄
    rw [hs₁.edits.startAddr, hs₂.edits.startAddr, hs₃.edits.startAddr] at hs₄
    exact ⟨e, he, trivial, hs₄⟩
  | complete =>
    simp only [returns_bind, returns_mappage, returns_require, returns_loadEntry] at hr
    obtain ⟨_, _, ⟨hd, rfl⟩, _, _, ⟨rfl, rfl⟩, _, s₁, h₁, _, s₂, h₂, _, s₃, h₃, e', _, ⟨he', rfl⟩, _, _,
      ⟨hp, rfl⟩, _, _, ⟨rfl, rfl⟩, _, s₄, h₄, _, s₅, h₅, h₆⟩ := hr
    have hs₁ := h.updateEntry he h₁
    have hs₂ := hs₁.updateEntry h h₂
    have hs₃ := hs₂.updateEntry h h₃
    obtain rfl := Option.some.inj ((hs₃.readEntry h).symm.trans he')
    have hs₄ := hs₃.updateEntry h h₄
    have hs₅ := hs₄.updateEntry h h₅
    have hs₆ := hs₅.updateEntry h h₆
    rw [hs₃.edits.startAddr] at hs₆
    exact ⟨e, he, ⟨hd, hp⟩, hs₆⟩
  | _ => exact (returns_fail hr).elim

/-! ## A bucket -/

/-- What `slab_bucket_map` makes of an entry. -/
def mappedEntry (start : ℕ) (type : CpointType) (e : SlabEntry) : SlabEntry :=
  if e.isInit = true then mapEntry start type e else e

theorem unlinked_mappedEntry {start : ℕ} {type : CpointType} {e e' : SlabEntry}
    (h : e'.unlinked = e.unlinked) :
    (mappedEntry start type e').unlinked = (mappedEntry start type e).unlinked := by
  obtain ⟨id, size, dc, ds, pc, ps, link⟩ := e
  obtain ⟨id', size', dc', ds', pc', ps', link'⟩ := e'
  unfold SlabEntry.unlinked at h
  cases h
  unfold mappedEntry mapEntry SlabEntry.isInit SlabEntry.unlinked
  dsimp only
  split_ifs
  · cases type <;> rfl
  · rfl

theorem isInit_of_unlinked {e e' : SlabEntry} (h : e'.unlinked = e.unlinked) :
    e'.isInit = e.isInit := by
  have hsize : e'.seSize = e.seSize := (congrArg SlabEntry.seSize h :)
  have hdata : e'.dataCurrent = e.dataCurrent := (congrArg SlabEntry.dataCurrent h :)
  unfold SlabEntry.isInit
  rw [hsize, hdata]

theorem mappable_of_unlinked {type : CpointType} {e e' : SlabEntry} (h : e'.unlinked = e.unlinked)
    (hm : Mappable type e') : Mappable type e := by
  have hdc : e'.dataCurrent = e.dataCurrent := (congrArg SlabEntry.dataCurrent h :)
  have hds : e'.dataSnapshot = e.dataSnapshot := (congrArg SlabEntry.dataSnapshot h :)
  have hpc : e'.ptrCurrent = e.ptrCurrent := (congrArg SlabEntry.ptrCurrent h :)
  have hps : e'.ptrSnapshot = e.ptrSnapshot := (congrArg SlabEntry.ptrSnapshot h :)
  unfold Mappable at *
  rwa [hdc, hds, hpc, hps] at hm

/-- The first `k` entries of the bucket `b` on page `q` are mapped. -/
structure Pm.BucketMapped (s : Pm) (type : CpointType) (q : ℕ) (b : SlabBucket) (k : ℕ) (s' : Pm)
    (b' : SlabBucket) : Prop where
  edits : s.Edits s'
  page : s'.file q = .bucket b'
  flag : b'.sbHasSnapshot = b.sbHasSnapshot
  sbId : b'.sbId = b.sbId
  done : ∀ i < k, (b'.sbEntries i).unlinked = (mappedEntry s.startAddr type (b.sbEntries i)).unlinked
  rest : ∀ i, k ≤ i → (b'.sbEntries i).unlinked = (b.sbEntries i).unlinked
  mappable : ∀ i < k, (b.sbEntries i).isInit = true → Mappable type (b.sbEntries i)
  other : ∀ p, p ≠ q → (s.file p).SameButLinks (s'.file p)

theorem Pm.BucketMapped.relink {s'' : Pm} {type : CpointType} {q k : ℕ} {b b' : SlabBucket}
    (h : s.BucketMapped type q b k s' b') (hr : s'.Relinks s'') :
    ∃ b'', s.BucketMapped type q b k s'' b'' := by
  have hq := hr.2 q
  rw [h.page] at hq
  cases hb : s''.file q with
  | bucket b'' =>
    rw [hb] at hq
    obtain ⟨hflag, hid, hent⟩ := hq
    exact ⟨b'', h.edits.trans hr.1, hb, hflag.trans h.flag, hid.trans h.sbId,
      fun i hi => (hent i).trans (h.done i hi), fun i hi => (hent i).trans (h.rest i hi), h.mappable,
      fun p hp => (h.other p hp).trans (hr.2 p)⟩
  | _ => rw [hb] at hq; cases hq

/-- The entry in turn is mapped. -/
theorem Pm.BucketMapped.mapNext {s'' : Pm} {type : CpointType} {q k sb : ℕ} {b b' : SlabBucket}
    {e : SlabEntry} (h : s.BucketMapped type q b k s' b') (hs : s.Reopened)
    (hq : s.vpage sb = some q) (he : s'.readEntry ⟨sb, k⟩ = some e)
    (hr : Returns (when (e.isInit = true) (slabEntryMap ⟨sb, k⟩ type)) s' u s'') :
    ∃ b'', s.BucketMapped type q b (k + 1) s'' b'' := by
  have hs' := h.edits.reopened hs
  have hvq : s'.vpage sb = some q := (h.edits.vpage sb).trans hq
  obtain ⟨-, -, q', b₁, hq', hb₁, rfl⟩ := hs'.readEntry he
  obtain rfl := Option.some.inj (hvq.symm.trans hq')
  obtain rfl := Page.bucket.inj (h.page.symm.trans hb₁)
  have hk := h.rest k (Nat.le_refl k)
  have hinit := isInit_of_unlinked hk
  by_cases hi : (b'.sbEntries k).isInit = true
  · rw [returns_when_true hi] at hr
    obtain ⟨e, he', hm, hset⟩ := hs'.slabEntryMap hr
    obtain rfl := Option.some.inj (he.symm.trans he')
    obtain ⟨q', b₁, -, -, hq', hb₁, hbe, rfl⟩ := hset
    obtain rfl := Option.some.inj (hvq.symm.trans hq')
    obtain rfl := Page.bucket.inj (h.page.symm.trans hb₁)
    have hnew : ∀ i, Function.update b'.sbEntries k
        (mapEntry s'.startAddr type (b'.sbEntries k)) i =
        if i = k then mappedEntry s.startAddr type (b'.sbEntries k) else b'.sbEntries i := by
      intro i
      by_cases hik : i = k
      · rw [hik, Function.update_self, if_pos rfl, h.edits.startAddr]
        exact (if_pos hi).symm
      · rw [Function.update_of_ne hik, if_neg hik]
    refine ⟨_, h.edits.trans (.setPage s' q _), Function.update_self .., h.flag, h.sbId,
      fun i hik => ?_, fun i hik => ?_, fun i hik hii => ?_, fun p hp => ?_⟩
    · dsimp only
      rw [hnew]
      by_cases heq : i = k
      · rw [if_pos heq, heq]
        exact unlinked_mappedEntry hk
      · rw [if_neg heq]
        exact h.done i (by omega)
    · dsimp only
      rw [hnew, if_neg (by omega)]
      exact h.rest i (by omega)
    · by_cases heq : i = k
      · rw [heq]
        exact mappable_of_unlinked hk hm
      · exact h.mappable i (by omega) hii
    · unfold Pm.setPage
      dsimp only
      rw [Function.update_of_ne hp]
      exact h.other p hp
  · rw [returns_when_false hi] at hr
    subst hr
    have hno : ¬ (b.sbEntries k).isInit = true := by
      rw [← hinit]
      exact hi
    refine ⟨b', h.edits, h.page, h.flag, h.sbId, fun i hik => ?_, fun i hik => h.rest i (by omega),
      fun i hik hii => ?_, h.other⟩
    · by_cases heq : i = k
      · rw [heq, hk]
        unfold mappedEntry
        rw [if_neg hno]
      · exact h.done i (by omega)
    · by_cases heq : i = k
      · rw [heq] at hii
        exact (hno hii).elim
      · exact h.mappable i (by omega) hii

/-- **Mapping a bucket.** -/
theorem Pm.Reopened.slabBucketMap (h : s.Reopened) {sd laddr sb : ℕ} {type : CpointType}
    {indexing : Bool} (hr : Returns (LibPM.slabBucketMap sd laddr type indexing) s sb s') :
    sb = s.startAddr + laddr ∧ ∃ q b b', sb % pageSize = 0 ∧ s.vpage sb = some q ∧
      s.file q = .bucket b ∧ s.BucketMapped type q b slabBucketEntries s' b' := by
  unfold LibPM.slabBucketMap at hr
  simp only [returns_bind, returns_mappage, returns_pure] at hr
  obtain ⟨_, _, ⟨rfl, rfl⟩, _, _, hloop, rfl, rfl⟩ := hr
  refine ⟨rfl, ?_⟩
  -- the first round reads the bucket
  obtain ⟨q, b, hmod, hq, hb⟩ : ∃ q b, (s.startAddr + laddr) % pageSize = 0 ∧
      s.vpage (s.startAddr + laddr) = some q ∧ s.file q = .bucket b := by
    rw [show List.range slabBucketEntries = 0 :: List.range' 1 27 by decide] at hloop
    obtain ⟨_, hround, -⟩ := returns_forM_cons.mp hloop
    simp only [returns_bind, returns_loadEntry] at hround
    obtain ⟨e, _, ⟨he, -⟩, -⟩ := hround
    obtain ⟨hmod, -, q, b, hq, hb, -⟩ := h.readEntry he
    exact ⟨q, b, hmod, hq, hb⟩
  have hrun := Returns.forM_range_induct
    (Q := fun k t => ∃ b', s.BucketMapped type q b k t b') (s := s)
    ⟨b, .refl s, hb, rfl, rfl, fun _ hi => (Nat.not_lt_zero _ hi).elim, fun _ _ => rfl,
      fun _ hi => (Nat.not_lt_zero _ hi).elim, fun _ _ => .refl _⟩
    (fun k _ t t' hQ hround => ?_) hloop
  · obtain ⟨b', hb'⟩ := hrun
    exact ⟨q, b, b', hmod, hq, hb, hb'⟩
  · obtain ⟨b', hb'⟩ := hQ
    simp only [returns_bind, returns_loadEntry] at hround
    obtain ⟨e, _, ⟨he, rfl⟩, _, t₁, hmap, hindex⟩ := hround
    obtain ⟨b₁, hb₁⟩ := hb'.mapNext h hq he hmap
    refine hb₁.relink (?_ : t₁.Relinks t')
    exact (Keeps.when (keeps_indexSlabEntry _ _)) hindex (hb₁.edits.reopened h)

/-! ## Pointer pages -/

/-- No version of an entry of the bucket has an address for a pointer page it does not have. -/
def Pm.PointersAbsent (s : Pm) (sb : ℕ) : Prop :=
  ∀ i e, s.readEntry ⟨sb, i⟩ = some e →
    (e.ptrCurrent.laddr = 0 → e.ptrCurrent.maddr = 0) ∧
      (e.ptrSnapshot.laddr = 0 → e.ptrSnapshot.maddr = 0)

/-- Every initialised entry of the bucket has a pointer page in both versions. -/
def Pm.PointersPresent (s : Pm) (sb : ℕ) : Prop :=
  ∀ i e, s.readEntry ⟨sb, i⟩ = some e →
    if e.isInit = true then e.ptrCurrent.laddr ≠ 0 ∧ e.ptrSnapshot.laddr ≠ 0
    else (e.ptrCurrent.laddr = 0 → e.ptrCurrent.maddr = 0) ∧
      (e.ptrSnapshot.laddr = 0 → e.ptrSnapshot.maddr = 0)

/-- The addresses of the pointer pages of a mapped entry. -/
theorem ptr_mapEntry (start : ℕ) {type : CpointType} {e : SlabEntry} (h : Mappable type e) :
    (mapEntry start type e).ptrCurrent.laddr = e.ptrCurrent.laddr ∧
      (mapEntry start type e).ptrSnapshot.laddr = e.ptrSnapshot.laddr ∧
      (mapEntry start type e).ptrCurrent.maddr = start + e.ptrCurrent.laddr ∧
      (mapEntry start type e).ptrSnapshot.maddr = start + e.ptrSnapshot.laddr := by
  cases type with
  | incomplete => exact ⟨rfl, rfl, rfl, rfl⟩
  | complete =>
    refine ⟨h.2.symm, rfl, ?_, rfl⟩
    rw [h.2]
    rfl
  | _ => exact h.elim

/-- The entry is good after the mapping exactly if it was before. -/
theorem absent_mappedEntry_iff {start : ℕ} {type : CpointType} {e e' : SlabEntry} (h0 : start ≠ 0)
    (hm : e.isInit = true → Mappable type e)
    (he : e'.unlinked = (mappedEntry start type e).unlinked) :
    ((e'.ptrCurrent.laddr = 0 → e'.ptrCurrent.maddr = 0) ∧
      (e'.ptrSnapshot.laddr = 0 → e'.ptrSnapshot.maddr = 0)) ↔
    if e.isInit = true then e.ptrCurrent.laddr ≠ 0 ∧ e.ptrSnapshot.laddr ≠ 0
    else (e.ptrCurrent.laddr = 0 → e.ptrCurrent.maddr = 0) ∧
      (e.ptrSnapshot.laddr = 0 → e.ptrSnapshot.maddr = 0) := by
  have hpc : e'.ptrCurrent = (mappedEntry start type e).ptrCurrent :=
    (congrArg SlabEntry.ptrCurrent he :)
  have hps : e'.ptrSnapshot = (mappedEntry start type e).ptrSnapshot :=
    (congrArg SlabEntry.ptrSnapshot he :)
  rw [hpc, hps]
  unfold mappedEntry
  split_ifs with hi
  · obtain ⟨hcl, hsl, hcm, hsm⟩ := ptr_mapEntry start (hm hi)
    rw [hcl, hsl, hcm, hsm]
    omega
  · rfl

/-- **An absent pointer page stays absent** exactly when there is none in an initialised entry. -/
theorem pointersAbsent_iff (h : s.Reopened) {sd laddr sb : ℕ} {type : CpointType} {indexing : Bool}
    (hr : Returns (slabBucketMap sd laddr type indexing) s sb s') :
    s'.PointersAbsent sb ↔ s.PointersPresent sb := by
  obtain ⟨-, q, b, b', hmod, hq, hb, hm⟩ := h.slabBucketMap hr
  have hs' := hm.edits.reopened h
  have hread : ∀ {t : Pm} {x : SlabBucket}, t.Reopened → t.vpage sb = some q →
      t.file q = .bucket x → ∀ i e, t.readEntry ⟨sb, i⟩ = some e ↔
        i < slabBucketEntries ∧ x.sbEntries i = e := by
    intro t x ht hvq hx i e
    constructor
    · intro he
      obtain ⟨-, hidx, q', x', hq', hx', hxe⟩ := ht.readEntry he
      obtain rfl := Option.some.inj (hvq.symm.trans hq')
      obtain rfl := Page.bucket.inj (hx.symm.trans hx')
      exact ⟨hidx, hxe⟩
    · rintro ⟨hidx, hxe⟩
      refine readEntry_eq_some.mpr ⟨hidx, x, readBucket_eq_some.mpr
        (pageAt_eq_some.mpr ⟨hmod, q, hvq, ?_⟩), hxe⟩
      rw [ht.vmap]
      exact hx
  have hold := hread h hq hb
  have hnew := hread hs' ((hm.edits.vpage sb).trans hq) hm.page
  have hiff : ∀ i < slabBucketEntries, _ := fun i hi =>
    absent_mappedEntry_iff h.start (hm.mappable i hi) (hm.done i hi)
  unfold Pm.PointersAbsent Pm.PointersPresent
  constructor
  · intro hall i e he
    obtain ⟨hi, rfl⟩ := (hold i e).mp he
    exact (hiff i hi).mp (hall i _ ((hnew i _).mpr ⟨hi, rfl⟩))
  · intro hall i e he
    obtain ⟨hi, rfl⟩ := (hnew i e).mp he
    exact (hiff i hi).mpr (hall i _ ((hold i _).mpr ⟨hi, rfl⟩))

/-- A session with one object and a checkpoint, and the bucket of the object mapped by another
process: the length of the file, and the offset and the address of the pointer page of the entry. -/
def sessionBucketMapped (env : Env) (type : CpointType) : MachineProg (ℕ × ℕ × ℕ) := do
  let _ ← containerInit env
  [Action.palloc 512, .cpoint].forM Action.run
  let m ← get
  modify fun m => m.restart env
  onPm (openWritable env.initSize)
  let sb ← onPm (slabBucketMap (2 ^ 40 + pageSize) (4 * pageSize) type true)
  let e ← onPm (loadEntry ⟨sb, 0⟩)
  return (m.pm.fileLen, e.ptrCurrent.laddr, e.ptrCurrent.maddr)

theorem exists_bucketMapped (type : CpointType)
    (hrun : (sessionBucketMapped (Env.standard .fixedMapper) type
      (Machine.fresh (Env.standard .fixedMapper))).value? = some (12 * pageSize, 0, 2 ^ 40)) :
    ∃ saved m s s' sb, Session anyAction (Env.standard .fixedMapper) saved m ∧ s.Reopened ∧
      Returns (openWritable (Env.standard .fixedMapper).initSize)
        (m.restart (Env.standard .fixedMapper)).pm () s ∧
      Returns (slabBucketMap (2 ^ 40 + pageSize) (4 * pageSize) type true) s sb s' ∧
      ∃ e, s'.readEntry ⟨sb, 0⟩ = some e ∧ e.ptrCurrent.laddr = 0 ∧ e.ptrCurrent.maddr = 2 ^ 40 := by
  obtain ⟨t, h⟩ := exists_returns_of_value hrun
  unfold sessionBucketMapped onPm at h
  simp only [returns_bind, returns_get, returns_modify, returns_pure, Prod.mk.injEq, returns_zoom,
    returns_loadEntry] at h
  obtain ⟨cont, m₀, hinit, _, m₁, hacts, _, _, ⟨rfl, rfl⟩, _, _, rfl, _, _, ⟨s, hopen, rfl⟩, sb, _,
    ⟨s', hmap, rfl⟩, e, _, ⟨_, ⟨he, rfl⟩, rfl⟩, ⟨hlen, hladdr, hmaddr⟩, rfl⟩ := h
  obtain ⟨saved, hs⟩ := (Session.init hinit).forM hacts
  have hlen' : pageSize ≤ m₁.pm.fileLen := by
    rw [hlen]
    decide
  exact ⟨saved, m₁, s, s', sb, hs, .openWritable hlen' hopen, hopen, hmap, e, he, hladdr,
    hmaddr⟩

/-- For the bucket of the first object of a container. -/
theorem pointersAbsent_iff_session : ∃ s s' : Pm, ∃ sb,
    s.Reopened ∧ (s'.PointersAbsent sb ↔ s.PointersPresent sb) := by
  obtain ⟨_, _, s, s', sb, -, hs, -, hmap, -⟩ := exists_bucketMapped .complete
    (by decide +kernel)
  exact ⟨s, s', sb, hs, pointersAbsent_iff hs hmap⟩

/-- The promise is broken for an object that has no pointers, and by both ways of mapping. -/
theorem exists_not_pointersAbsent {type : CpointType} (htype : type ∈ [CpointType.complete, .incomplete]) :
    ∃ saved m s s' sb, Session anyAction (Env.standard .fixedMapper) saved m ∧
      Returns (openWritable (Env.standard .fixedMapper).initSize)
        (m.restart (Env.standard .fixedMapper)).pm () s ∧
      Returns (slabBucketMap (2 ^ 40 + pageSize) (4 * pageSize) type true) s sb s' ∧
      ¬ s'.PointersAbsent sb := by
  have hrun : ∀ type ∈ [CpointType.complete, .incomplete],
      (sessionBucketMapped (Env.standard .fixedMapper) type
        (Machine.fresh (Env.standard .fixedMapper))).value? = some (12 * pageSize, 0, 2 ^ 40) := by
    decide +kernel
  obtain ⟨saved, m, s, s', sb, hs, -, hopen, hmap, e, he, hladdr, hmaddr⟩ :=
    exists_bucketMapped type (hrun type htype)
  refine ⟨saved, m, s, s', sb, hs, hopen, hmap, fun habs => ?_⟩
  have h0 := (habs 0 e he).1 hladdr
  rw [hmaddr] at h0
  cases h0

/-- The same for a bucket that is mapped after its checkpoint was completed. -/
theorem not_forall_pointersAbsent :
    ∃ saved m s s' sb, Session anyAction (Env.standard .fixedMapper) saved m ∧
      Returns (openWritable (Env.standard .fixedMapper).initSize)
        (m.restart (Env.standard .fixedMapper)).pm () s ∧
      Returns (slabBucketMap (2 ^ 40 + pageSize) (4 * pageSize) .complete true) s sb s' ∧
      ¬ s'.PointersAbsent sb := exists_not_pointersAbsent (by decide)

end LibPM

import LibPM.Session.Basic
import LibPM.Allocator.Space

/-!
# What a container holds

A `View` is what the metadata pages of a container hold: the header, the directory, the one outer node,
and the inner nodes and buckets, in the order in which they were made. `Shows` says that a state has
this view, and the lemmas say how a store changes it.
-/

namespace LibPM

open Recorded Recorded.Prog

/-! ## Views -/

/-- Where the metadata pages lie in the mapping. The header, the directory and the outer node are its
first three pages. -/
structure Places where
  base : ℕ
  n : ℕ
  free : List ℕ
  inners : ℕ
  innerPage : ℕ → ℕ
  buckets : ℕ
  bucketPage : ℕ → ℕ

/-- The metadata pages and what they hold. The buckets before `linked` are linked from their inner
nodes, the entries before `taken` have left the free list, those before `used` are initialised. An
entry is `torn` if its pointer page was copied and the offset of the copy was not recorded. -/
structure View extends Places where
  linked : ℕ
  taken : ℕ
  used : ℕ
  torn : Set ℕ
  cont : Container
  dir : SlabDir
  outer : SlabOuter
  inner : ℕ → SlabInner
  bucket : ℕ → SlabBucket
  sizes : List SlabEntrySize

/-- A metadata page. -/
inductive Node where
  | cont
  | dir
  | outer
  | inner (j : ℕ)
  | bucket (b : ℕ)
  deriving DecidableEq

namespace Places

/-- The address of a page. -/
def addr (l : Places) (p : ℕ) : ℕ := l.base + p * pageSize

def Has (l : Places) : Node → Prop
  | .inner j => j < l.inners
  | .bucket b => b < l.buckets
  | _ => True

def pageOf (l : Places) : Node → ℕ
  | .cont => 0
  | .dir => 1
  | .outer => 2
  | .inner j => l.innerPage j
  | .bucket b => l.bucketPage b

def IsMeta (l : Places) (p : ℕ) : Prop := ∃ x, l.Has x ∧ l.pageOf x = p

/-- The entries of all buckets are numbered through. -/
def cap (l : Places) : ℕ := l.buckets * slabBucketEntries

/-- The reference to entry `i`. -/
def ref (l : Places) (i : ℕ) : EntryRef :=
  ⟨l.addr (l.bucketPage (i / slabBucketEntries)), i % slabBucketEntries⟩

/-- Metadata pages are distinct pages of the mapping. -/
structure Wf (l : Places) : Prop where
  lt : ∀ x, l.Has x → l.pageOf x < l.n
  inj : ∀ x y, l.Has x → l.Has y → l.pageOf x = l.pageOf y → x = y

theorem addr_injective (l : Places) {p q : ℕ} (h : l.addr p = l.addr q) : p = q :=
  LibPM.addr_injective h

variable {l : Places} {i j : ℕ}

theorem div_lt (hi : i < l.cap) : i / slabBucketEntries < l.buckets := Nat.div_lt_of_lt_mul (by
  rw [Nat.mul_comm]
  exact hi)

theorem has_bucket (hi : i < l.cap) : l.Has (.bucket (i / slabBucketEntries)) := div_lt hi

theorem mod_lt (i : ℕ) : i % slabBucketEntries < slabBucketEntries := Nat.mod_lt _ (by decide)

theorem Wf.bucketPage_inj (h : l.Wf) {b c : ℕ} (hb : b < l.buckets) (hc : c < l.buckets)
    (heq : l.bucketPage b = l.bucketPage c) : b = c :=
  Node.bucket.inj (h.inj (.bucket b) (.bucket c) hb hc heq)

theorem Wf.innerPage_inj (h : l.Wf) {b c : ℕ} (hb : b < l.inners) (hc : c < l.inners)
    (heq : l.innerPage b = l.innerPage c) : b = c :=
  Node.inner.inj (h.inj (.inner b) (.inner c) hb hc heq)

theorem Wf.ref_inj (h : l.Wf) (hi : i < l.cap) (hj : j < l.cap) (heq : l.ref i = l.ref j) :
    i = j := by
  unfold ref at heq
  rw [EntryRef.mk.injEq] at heq
  have hdiv := h.bucketPage_inj (div_lt hi) (div_lt hj) (l.addr_injective heq.1)
  rw [← Nat.div_add_mod i slabBucketEntries, ← Nat.div_add_mod j slabBucketEntries, hdiv, heq.2]

end Places

namespace View

def content (v : View) : Node → Page
  | .cont => .container v.cont
  | .dir => .dir v.dir
  | .outer => .outer v.outer
  | .inner j => .inner (v.inner j)
  | .bucket b => .bucket (v.bucket b)

def entry (v : View) (i : ℕ) : SlabEntry :=
  (v.bucket (i / slabBucketEntries)).sbEntries (i % slabBucketEntries)

def setInner (v : View) (j : ℕ) (x : SlabInner) : View :=
  { v with inner := Function.update v.inner j x }

def setBucket (v : View) (b : ℕ) (x : SlabBucket) : View :=
  { v with bucket := Function.update v.bucket b x }

def setEntry (v : View) (i : ℕ) (e : SlabEntry) : View :=
  v.setBucket (i / slabBucketEntries) { v.bucket (i / slabBucketEntries) with
    sbEntries := Function.update (v.bucket (i / slabBucketEntries)).sbEntries
      (i % slabBucketEntries) e }

@[simp] theorem setInner_inner (v : View) (j : ℕ) (x : SlabInner) : (v.setInner j x).inner j = x :=
  Function.update_self ..

theorem setInner_setInner (v : View) (j : ℕ) (x y : SlabInner) :
    (v.setInner j x).setInner j y = v.setInner j y := by
  unfold setInner
  dsimp only
  rw [Function.update_idem]

theorem setInner_inner_of_ne (v : View) {j k : ℕ} (x : SlabInner) (h : k ≠ j) :
    (v.setInner j x).inner k = v.inner k := Function.update_of_ne h ..

@[simp] theorem setBucket_bucket (v : View) (b : ℕ) (x : SlabBucket) :
    (v.setBucket b x).bucket b = x := Function.update_self ..

theorem setBucket_bucket_of_ne (v : View) {b c : ℕ} (x : SlabBucket) (h : c ≠ b) :
    (v.setBucket b x).bucket c = v.bucket c := Function.update_of_ne h ..

@[simp] theorem setEntry_entry (v : View) (i : ℕ) (e : SlabEntry) : (v.setEntry i e).entry i = e := by
  unfold setEntry entry
  rw [setBucket_bucket]
  exact Function.update_self ..

theorem setEntry_entry_of_ne (v : View) {i j : ℕ} (e : SlabEntry) (h : j ≠ i) :
    (v.setEntry i e).entry j = v.entry j := by
  unfold setEntry entry
  by_cases hb : j / slabBucketEntries = i / slabBucketEntries
  · rw [hb, setBucket_bucket]
    refine Function.update_of_ne (fun hm => h ?_) ..
    rw [← Nat.div_add_mod j slabBucketEntries, ← Nat.div_add_mod i slabBucketEntries, hb, hm]
  · rw [setBucket_bucket_of_ne _ _ hb]

theorem setEntry_setEntry (v : View) (i : ℕ) (e e' : SlabEntry) :
    (v.setEntry i e).setEntry i e' = v.setEntry i e' := by
  unfold setEntry
  rw [setBucket_bucket]
  unfold setBucket
  dsimp only
  rw [Function.update_idem, Function.update_idem]

theorem setEntry_sbId (v : View) (i : ℕ) (e : SlabEntry) (b : ℕ) :
    ((v.setEntry i e).bucket b).sbId = (v.bucket b).sbId := by
  unfold setEntry
  by_cases hb : b = i / slabBucketEntries
  · rw [hb, setBucket_bucket]
  · rw [setBucket_bucket_of_ne _ _ hb]

theorem setEntry_sbHasSnapshot (v : View) (i : ℕ) (e : SlabEntry) (b : ℕ) :
    ((v.setEntry i e).bucket b).sbHasSnapshot = (v.bucket b).sbHasSnapshot := by
  unfold setEntry
  by_cases hb : b = i / slabBucketEntries
  · rw [hb, setBucket_bucket]
  · rw [setBucket_bucket_of_ne _ _ hb]

/-- Every entry of the tree of data pages in use has its data outside the metadata. -/
def Rooted (v : View) : Prop :=
  ∀ r ∈ v.dir.sdMaddrRoot, ∃ i p, r = v.ref i ∧ i < v.cap ∧ ¬ v.IsMeta p ∧
    (v.entry i).dataCurrent.maddr = v.addr p

/-- A fault on a metadata page is not survived: there is no directory yet, or it does not list the
page. -/
def Quiet (v : View) : Prop :=
  v.cont.currentSlab.maddr = 0 ∨ v.cont.currentSlab.maddr = v.addr 1 ∧ v.Rooted

end View

/-- The state `s` has the view `v`. -/
structure Pm.Shows (s : Pm) (v : View) : Prop where
  space : s.Space v.n v.free
  start : s.startAddr = v.base
  containers : s.containers = some (v.addr 0)
  page : ∀ x, v.Has x → s.page (v.pageOf x) = v.content x
  sizes : s.sizes = v.sizes
  wf : v.Wf

namespace Pm.Shows

variable {s s' : Pm} {v : View}

theorem addr_eq (h : s.Shows v) (p : ℕ) : v.addr p = s.addr p := by
  unfold Places.addr Pm.addr
  rw [h.start]

theorem vpage (h : s.Shows v) {p : ℕ} (hp : p < v.n) : s.vpage (v.addr p) = some p := by
  rw [h.addr_eq]
  exact h.space.vpage hp

theorem pageAt (h : s.Shows v) {p : ℕ} (hp : p < v.n) : s.pageAt (v.addr p) = some (s.page p) := by
  rw [h.addr_eq]
  exact h.space.pageAt hp

theorem pageAt_node (h : s.Shows v) {x : Node} (hx : v.Has x) :
    s.pageAt (v.addr (v.pageOf x)) = some (v.content x) := by
  rw [h.pageAt (h.wf.lt x hx), h.page x hx]

theorem base_ne (h : s.Shows v) : v.base ≠ 0 := by
  rw [← h.start]
  exact h.space.start_ne

theorem addr_ne_zero (h : s.Shows v) (p : ℕ) : v.addr p ≠ 0 := by
  rw [h.addr_eq]
  exact h.space.addr_ne_zero p

theorem roundDwnPg_addr (h : s.Shows v) (p : ℕ) : roundDwnPg (v.addr p) = v.addr p := by
  have := h.space.addr_mod p
  rw [h.addr_eq]
  unfold roundDwnPg pageSize at *
  omega

/-- An address in the mapping is in one of its pages. -/
theorem exists_of_vpage (h : s.Shows v) {a p : ℕ} (hp : s.vpage a = some p) :
    p < v.n ∧ roundDwnPg a = v.addr p := by
  rw [h.addr_eq]
  exact h.space.exists_of_vpage hp

/-! ## Loads -/

theorem readContainer (h : s.Shows v) : s.readContainer (v.addr 0) = some v.cont :=
  readContainer_eq_some.mpr (h.pageAt_node (x := .cont) trivial)

theorem readDir (h : s.Shows v) : s.readDir (v.addr 1) = some v.dir :=
  readDir_eq_some.mpr (h.pageAt_node (x := .dir) trivial)

theorem readOuter (h : s.Shows v) : s.readOuter (v.addr 2) = some v.outer :=
  readOuter_eq_some.mpr (h.pageAt_node (x := .outer) trivial)

theorem readInner (h : s.Shows v) {j : ℕ} (hj : j < v.inners) :
    s.readInner (v.addr (v.innerPage j)) = some (v.inner j) :=
  readInner_eq_some.mpr (h.pageAt_node (x := .inner j) hj)

theorem readBucket (h : s.Shows v) {b : ℕ} (hb : b < v.buckets) :
    s.readBucket (v.addr (v.bucketPage b)) = some (v.bucket b) :=
  readBucket_eq_some.mpr (h.pageAt_node (x := .bucket b) hb)

theorem readEntry (h : s.Shows v) {i : ℕ} (hi : i < v.cap) :
    s.readEntry (v.ref i) = some (v.entry i) := by
  unfold Pm.readEntry Places.ref
  rw [if_pos (Places.mod_lt i), h.readBucket (Places.div_lt hi)]
  rfl

/-- The search of the write-fault handler does not find a metadata page. -/
theorem not_returns_handler (h : s.Shows v) (hq : v.Quiet) {p : ℕ} (hp : v.IsMeta p) {u : Unit} :
    ¬ Returns (handleMemoryUpdate (v.addr p)) s u s' := by
  intro hr
  unfold handleMemoryUpdate at hr
  simp only [returns_bind, returns_currentSlabMaddr, returns_usedFind] at hr
  obtain ⟨sd, _, ⟨⟨cont, c, hcont, hc, rfl⟩, rfl⟩, o, _, ⟨⟨d, hd, hfind⟩, rfl⟩, hr⟩ := hr
  rw [h.containers, Option.some.injEq] at hcont
  subst hcont
  rw [h.readContainer, Option.some.injEq] at hc
  subst hc
  rcases hq with h0 | ⟨hsd, hroot⟩
  · -- there is no page at address zero
    rw [h0] at hd
    have hstart := h.space.start_ne
    obtain ⟨-, j, hj, -⟩ := pageAt_eq_some.mp (readDir_eq_some.mp hd)
    unfold Pm.vpage at hj
    rw [if_neg (by omega)] at hj
    cases hj
  · rw [hsd, h.readDir, Option.some.injEq] at hd
    subst hd
    cases o with
    | none => exact returns_fail hr
    | some r =>
      obtain ⟨hmem, e, he, hse⟩ := findEntry_eq_some_some hfind
      obtain ⟨i, q, rfl, hi, hq, haddr⟩ := hroot r hmem
      rw [h.readEntry hi, Option.some.injEq] at he
      subst he
      unfold searchNormal at hse
      rw [h.roundDwnPg_addr, haddr, beq_iff_eq] at hse
      exact hq (v.addr_injective hse ▸ hp)

/-! ## Stores -/

/-- A store to a metadata page. -/
theorem updatePage_node (h : s.Shows v) (hq : v.Quiet) {x : Node} (hx : v.Has x)
    {g : Page → Option Page} {u : Unit}
    (hr : Returns (updatePage (v.addr (v.pageOf x)) g) s u s') :
    ∃ p, g (v.content x) = some p ∧ s' = s.setPage (s.vmap (v.pageOf x)) p := by
  unfold updatePage at hr
  simp only [returns_bind, returns_makeWritable, returns_putPage] at hr
  obtain ⟨_, t, ⟨j, hj, hw⟩, j', p, hj', -, hp, rfl⟩ := hr
  rcases hw with ⟨-, rfl⟩ | ⟨-, hfault⟩
  · rw [h.vpage (h.wf.lt x hx), Option.some.injEq] at hj'
    subst hj'
    refine ⟨p, ?_, rfl⟩
    rw [← h.page x hx]
    exact hp
  · exact (h.not_returns_handler hq ⟨x, hx, rfl⟩ hfault).elim

theorem putPage_node (h : s.Shows v) {x : Node} (hx : v.Has x) {g : Page → Option Page} {u : Unit}
    (hr : Returns (putPage (v.addr (v.pageOf x)) g) s u s') :
    ∃ p, g (v.content x) = some p ∧ s' = s.setPage (s.vmap (v.pageOf x)) p := by
  obtain ⟨j, p, hj, -, hp, rfl⟩ := returns_putPage.mp hr
  rw [h.vpage (h.wf.lt x hx), Option.some.injEq] at hj
  subst hj
  refine ⟨p, ?_, rfl⟩
  rw [← h.page x hx]
  exact hp

theorem page_set (h : s.Shows v) {p q : ℕ} (hp : p < v.n) (hq : q < v.n) (x : Page) :
    (s.setPage (s.vmap p) x).page q = if q = p then x else s.page q :=
  h.space.page_setPage hp hq x

/-- A new content of one metadata page. -/
theorem set (h : s.Shows v) {x : Node} (hx : v.Has x) {v' : View} (hl : v'.toPlaces = v.toPlaces)
    (hsz : v'.sizes = v.sizes) (hsame : ∀ y, v.Has y → y ≠ x → v'.content y = v.content y) :
    (s.setPage (s.vmap (v.pageOf x)) (v'.content x)).Shows v' := by
  have hpage : ∀ y, v.Has y → (s.setPage (s.vmap (v.pageOf x)) (v'.content x)).page (v.pageOf y) =
      v'.content y := by
    intro y hy
    rw [h.page_set (h.wf.lt x hx) (h.wf.lt y hy)]
    by_cases hxy : y = x
    · rw [if_pos (by rw [hxy]), hxy]
    · rw [if_neg fun heq => hxy (h.wf.inj y x hy hx heq), h.page y hy, hsame y hy hxy]
  obtain ⟨l, linked, taken, used, torn, cont, dir, outer, inner, bucket, sizes⟩ := v'
  obtain rfl : l = v.toPlaces := hl
  exact ⟨h.space.setPage _ _, h.start, h.containers, hpage, h.sizes.trans hsz.symm, h.wf⟩

/-- A store to a page that holds no metadata. -/
theorem setData (h : s.Shows v) {p : ℕ} (hp : p < v.n) (hm : ¬ v.IsMeta p) (x : Page) :
    (s.setPage (s.vmap p) x).Shows v := by
  refine ⟨h.space.setPage _ _, h.start, h.containers, fun y hy => ?_, h.sizes, h.wf⟩
  rw [h.page_set hp (h.wf.lt y hy), if_neg fun heq => hm ⟨y, hy, heq⟩, h.page y hy]

end Pm.Shows

/-! ## Programs that store to metadata pages -/

/-- Only metadata pages and the heads of the lists of sizes may differ. -/
structure Pm.SameData (l : Places) (s s' : Pm) : Prop where
  same : ∃ file sizes, s' = { s with file := file, sizes := sizes }
  page : ∀ p < l.n, ¬ l.IsMeta p → s'.page p = s.page p
  beyond : ∀ p, l.n ≤ p → s'.file p = s.file p

namespace Pm.SameData

variable {l : Places} {s t u : Pm}

theorem refl (l : Places) (s : Pm) : s.SameData l s :=
  ⟨⟨s.file, s.sizes, rfl⟩, fun _ _ _ => rfl, fun _ _ => rfl⟩

theorem trans (h : Pm.SameData l s t) (h' : Pm.SameData l t u) : Pm.SameData l s u := by
  refine ⟨?_, fun p hp hm => (h'.page p hp hm).trans (h.page p hp hm),
    fun p hp => (h'.beyond p hp).trans (h.beyond p hp)⟩
  obtain ⟨file, sizes, rfl⟩ := h.same
  obtain ⟨file', sizes', rfl⟩ := h'.same
  exact ⟨file', sizes', rfl⟩

theorem prot (h : Pm.SameData l s t) : t.prot = s.prot := by
  obtain ⟨file, sizes, rfl⟩ := h.same
  rfl

theorem vmap (h : Pm.SameData l s t) : t.vmap = s.vmap := by
  obtain ⟨file, sizes, rfl⟩ := h.same
  rfl

theorem pa (h : Pm.SameData l s t) : t.pa = s.pa := by
  obtain ⟨file, sizes, rfl⟩ := h.same
  rfl

theorem heap (h : Pm.SameData l s t) : t.heap = s.heap := by
  obtain ⟨file, sizes, rfl⟩ := h.same
  rfl

theorem isFixed (h : Pm.SameData l s t) : t.IsFixed ↔ s.IsFixed := by
  unfold Pm.IsFixed
  rw [h.pa]

end Pm.SameData

namespace Pm.Shows

variable {s s' : Pm} {v : View} {u : Unit}

theorem sameData (h : s.Shows v) {x : Node} (hx : v.Has x) (p : Page) :
    s.SameData v.toPlaces (s.setPage (s.vmap (v.pageOf x)) p) := by
  refine ⟨⟨_, _, rfl⟩, fun q hq hm => ?_, fun q hq => ?_⟩
  · rw [h.page_set (h.wf.lt x hx) hq, if_neg fun heq => hm ⟨x, hx, heq.symm⟩]
  · have := h.space.maps _ (h.wf.lt x hx)
    exact Function.update_of_ne (by omega) _ _

theorem updateCont (h : s.Shows v) (hq : v.Quiet) {f : Container → Container}
    (hr : Returns (updatePage (v.addr 0) (Page.onContainer f)) s u s') :
    s'.Shows { v with cont := f v.cont } ∧ s.SameData v.toPlaces s' := by
  obtain ⟨p, hp, rfl⟩ := h.updatePage_node hq (x := .cont) trivial hr
  cases hp
  refine ⟨@Pm.Shows.set s v h .cont trivial { v with cont := f v.cont } rfl rfl
    fun y _ hy => ?_, h.sameData (x := .cont) trivial _⟩
  cases y <;> first | exact (hy rfl).elim | rfl

theorem updateDir (h : s.Shows v) (hq : v.Quiet) {f : SlabDir → SlabDir}
    (hr : Returns (updatePage (v.addr 1) (Page.onDir f)) s u s') :
    s'.Shows { v with dir := f v.dir } ∧ s.SameData v.toPlaces s' := by
  obtain ⟨p, hp, rfl⟩ := h.updatePage_node hq (x := .dir) trivial hr
  cases hp
  refine ⟨@Pm.Shows.set s v h .dir trivial { v with dir := f v.dir } rfl rfl
    fun y _ hy => ?_, h.sameData (x := .dir) trivial _⟩
  cases y <;> first | exact (hy rfl).elim | rfl

theorem putDir (h : s.Shows v) {f : SlabDir → SlabDir}
    (hr : Returns (putPage (v.addr 1) (Page.onDir f)) s u s') :
    s'.Shows { v with dir := f v.dir } ∧ s.SameData v.toPlaces s' := by
  obtain ⟨p, hp, rfl⟩ := h.putPage_node (x := .dir) trivial hr
  cases hp
  refine ⟨@Pm.Shows.set s v h .dir trivial { v with dir := f v.dir } rfl rfl
    fun y _ hy => ?_, h.sameData (x := .dir) trivial _⟩
  cases y <;> first | exact (hy rfl).elim | rfl

theorem updateOuter (h : s.Shows v) (hq : v.Quiet) {f : SlabOuter → SlabOuter}
    (hr : Returns (updatePage (v.addr 2) (Page.onOuter f)) s u s') :
    s'.Shows { v with outer := f v.outer } ∧ s.SameData v.toPlaces s' := by
  obtain ⟨p, hp, rfl⟩ := h.updatePage_node hq (x := .outer) trivial hr
  cases hp
  refine ⟨@Pm.Shows.set s v h .outer trivial { v with outer := f v.outer } rfl rfl
    fun y _ hy => ?_, h.sameData (x := .outer) trivial _⟩
  cases y <;> first | exact (hy rfl).elim | rfl

theorem updateInner (h : s.Shows v) (hq : v.Quiet) {j : ℕ} (hj : j < v.inners)
    {f : SlabInner → SlabInner}
    (hr : Returns (updatePage (v.addr (v.innerPage j)) (Page.onInner f)) s u s') :
    s'.Shows (v.setInner j (f (v.inner j))) ∧ s.SameData v.toPlaces s' := by
  obtain ⟨p, hp, rfl⟩ := h.updatePage_node hq (x := .inner j) hj hr
  cases hp
  have hset := @Pm.Shows.set s v h (.inner j) hj (v.setInner j (f (v.inner j))) rfl rfl
    fun y _ hy => ?_
  · refine ⟨?_, h.sameData (x := .inner j) hj _⟩
    rwa [show (v.setInner j (f (v.inner j))).content (.inner j) = .inner (f (v.inner j)) from
      congrArg Page.inner (v.setInner_inner j _)] at hset
  · cases y with
    | inner k =>
      exact congrArg Page.inner (v.setInner_inner_of_ne _ fun hk => hy (congrArg _ hk))
    | _ => rfl

theorem setBucket (h : s.Shows v) {b : ℕ} (hb : b < v.buckets) (x : SlabBucket) :
    (s.setPage (s.vmap (v.bucketPage b)) (.bucket x)).Shows (v.setBucket b x) ∧
      s.SameData v.toPlaces (s.setPage (s.vmap (v.bucketPage b)) (.bucket x)) := by
  have hset := @Pm.Shows.set s v h (.bucket b) hb (v.setBucket b x) rfl rfl fun y _ hy => ?_
  · refine ⟨?_, h.sameData (x := .bucket b) hb _⟩
    rwa [show (v.setBucket b x).content (.bucket b) = .bucket x from
      congrArg Page.bucket (v.setBucket_bucket b _)] at hset
  · cases y with
    | bucket c =>
      exact congrArg Page.bucket (v.setBucket_bucket_of_ne _ fun hc => hy (congrArg _ hc))
    | _ => rfl

theorem updateBucket (h : s.Shows v) (hq : v.Quiet) {b : ℕ} (hb : b < v.buckets)
    {f : SlabBucket → SlabBucket}
    (hr : Returns (updatePage (v.addr (v.bucketPage b)) (Page.onBucket f)) s u s') :
    s'.Shows (v.setBucket b (f (v.bucket b))) ∧ s.SameData v.toPlaces s' := by
  obtain ⟨p, hp, rfl⟩ := h.updatePage_node hq (x := .bucket b) hb hr
  cases hp
  exact h.setBucket hb _

theorem entry_of_store (h : s.Shows v) {i : ℕ} (hi : i < v.cap) {f : SlabEntry → SlabEntry}
    {p : Page} (hp : Page.onEntry (i % slabBucketEntries) f
      (v.content (.bucket (i / slabBucketEntries))) = some p) :
    (s.setPage (s.vmap (v.bucketPage (i / slabBucketEntries))) p).Shows
        (v.setEntry i (f (v.entry i))) ∧
      s.SameData v.toPlaces (s.setPage (s.vmap (v.bucketPage (i / slabBucketEntries))) p) := by
  unfold Page.onEntry View.content at hp
  dsimp only at hp
  rw [if_pos (Places.mod_lt i)] at hp
  cases hp
  exact h.setBucket (Places.div_lt hi) _

theorem updateEntry (h : s.Shows v) (hq : v.Quiet) {i : ℕ} (hi : i < v.cap)
    {f : SlabEntry → SlabEntry} (hr : Returns (updateEntry (v.ref i) f) s u s') :
    s'.Shows (v.setEntry i (f (v.entry i))) ∧ s.SameData v.toPlaces s' := by
  unfold LibPM.updateEntry at hr
  obtain ⟨p, hp, rfl⟩ := h.updatePage_node hq (Places.has_bucket hi) hr
  exact h.entry_of_store hi hp

theorem putEntry (h : s.Shows v) {i : ℕ} (hi : i < v.cap) {f : SlabEntry → SlabEntry}
    (hr : Returns (putEntry (v.ref i) f) s u s') :
    s'.Shows (v.setEntry i (f (v.entry i))) ∧ s.SameData v.toPlaces s' := by
  unfold LibPM.putEntry at hr
  obtain ⟨p, hp, rfl⟩ := h.putPage_node (Places.has_bucket hi) hr
  exact h.entry_of_store hi hp

theorem currentSlab (h : s.Shows v) {sd : ℕ} (hr : Returns currentSlabMaddr s sd s') :
    v.cont.currentSlab.maddr = sd ∧ s = s' := by
  obtain ⟨⟨cont, c, hcont, hc, hsd⟩, rfl⟩ := returns_currentSlabMaddr.mp hr
  rw [h.containers, Option.some.injEq] at hcont
  subst hcont
  rw [h.readContainer, Option.some.injEq] at hc
  subst hc
  exact ⟨hsd, rfl⟩

theorem loadContainer (h : s.Shows v) {c : Container}
    (hr : Returns (loadContainer (v.addr 0)) s c s') : v.cont = c ∧ s = s' := by
  rw [returns_loadContainer, h.readContainer, Option.some.injEq] at hr
  exact hr

theorem loadDir (h : s.Shows v) {d : SlabDir} (hr : Returns (loadDir (v.addr 1)) s d s') :
    v.dir = d ∧ s = s' := by
  rw [returns_loadDir, h.readDir, Option.some.injEq] at hr
  exact hr

theorem loadOuter (h : s.Shows v) {o : SlabOuter} (hr : Returns (loadOuter (v.addr 2)) s o s') :
    v.outer = o ∧ s = s' := by
  rw [returns_loadOuter, h.readOuter, Option.some.injEq] at hr
  exact hr

theorem loadInner (h : s.Shows v) {j : ℕ} (hj : j < v.inners) {i : SlabInner}
    (hr : Returns (loadInner (v.addr (v.innerPage j))) s i s') : v.inner j = i ∧ s = s' := by
  rw [returns_loadInner, h.readInner hj, Option.some.injEq] at hr
  exact hr

theorem loadBucket (h : s.Shows v) {b : ℕ} (hb : b < v.buckets) {x : SlabBucket}
    (hr : Returns (loadBucket (v.addr (v.bucketPage b))) s x s') : v.bucket b = x ∧ s = s' := by
  rw [returns_loadBucket, h.readBucket hb, Option.some.injEq] at hr
  exact hr

theorem loadEntry (h : s.Shows v) {i : ℕ} (hi : i < v.cap) {e : SlabEntry}
    (hr : Returns (loadEntry (v.ref i)) s e s') : v.entry i = e ∧ s = s' := by
  rw [returns_loadEntry, h.readEntry hi, Option.some.injEq] at hr
  exact hr

end Pm.Shows

end LibPM

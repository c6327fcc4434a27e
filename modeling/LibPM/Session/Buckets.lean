import LibPM.Session.Tree

/-!
# New buckets

The growth path of `get_free_slab_entry` as a whole: a cleared bucket, whose entries join the free list,
and its link from the last inner node. An entry that leaves the free list is the next one in the order of
the entries.
-/

namespace LibPM

open Recorded Recorded.Prog

/-! ## The free list -/

theorem View.freeRange_nil {v : View} {k : ℕ} (hf : (v.queue .free).first = none)
    (hl : (v.queue .free).last = none) : v.FreeRange k k := by
  refine ⟨?_, ?_, fun i hi hi' => absurd hi' (Nat.not_lt.mpr hi)⟩
  · rw [hf, if_neg (Nat.lt_irrefl k)]
  · rw [hl, if_neg (Nat.lt_irrefl k)]

theorem View.FreeRange.reshaped {v v' : View} {k c : ℕ} (h : v.FreeRange k c) (hr : v.Reshaped v')
    (hc : c ≤ v.cap) : v'.FreeRange k c := by
  have hqueue : v'.queue .free = v.queue .free := hr.freeList
  refine ⟨?_, ?_, fun i hk hi => ?_⟩
  · rw [hqueue, h.first]
    split_ifs with hlt
    · rw [hr.ref (by omega)]
    · rfl
  · rw [hqueue, h.last]
    split_ifs with hlt
    · rw [hr.ref (by omega)]
    · rfl
  · rw [hr.entry (by omega), h.next i hk hi]
    split_ifs with hlt
    · rw [hr.ref (by omega)]
    · rfl

/-- The free list is empty before the entries of a new bucket join it. -/
theorem View.FreeRange.addBucket {v : View} (hf : v.FreeRange v.cap v.cap) (n : ℕ) (free : List ℕ)
    (p : ℕ) (x : SlabBucket) :
    ((v.sized n free).addBucket p x).FreeRange v.cap (v.buckets * slabBucketEntries) := by
  refine View.freeRange_nil ?_ ?_
  · have := hf.first
    rwa [if_neg (Nat.lt_irrefl _)] at this
  · have := hf.last
    rwa [if_neg (Nat.lt_irrefl _)] at this

/-! ## Trees with more buckets -/

/-- `v'` has the entries of `v`, up to their links, and may have more buckets. -/
structure View.Grown (v v' : View) : Prop where
  base : v'.base = v.base
  used : v'.used = v.used
  torn : v'.torn = v.torn
  cont : v'.cont = v.cont
  root : v'.dir.sdMaddrRoot = v.dir.sdMaddrRoot
  vector : v'.dir.sdVector = v.dir.sdVector
  buckets : v.buckets ≤ v'.buckets
  linked : v.linked ≤ v'.linked
  queue : ∀ q, q ≠ .free → v'.queue q = v.queue q
  has : ∀ q, v'.HasQueue q ↔ v.HasQueue q
  bucketPage : ∀ b < v.buckets, v'.bucketPage b = v.bucketPage b
  flag : ∀ b < v.buckets, (v'.bucket b).sbHasSnapshot = (v.bucket b).sbHasSnapshot
  newFlag : ∀ b, v.buckets ≤ b → b < v'.buckets → (v'.bucket b).sbHasSnapshot = 0
  entry : ∀ i < v.cap, ∃ r, v'.entry i = { v.entry i with seList := r }
  slot : ∀ b < v.linked, v'.siCurrent b = v.siCurrent b ∧ v'.siSnapshot b = v.siSnapshot b
  newSlot : ∀ b, v.linked ≤ b → b < v'.linked → v'.siSnapshot b = v'.siCurrent b

namespace View

variable {v v' v'' : View} {i : ℕ}

theorem Grown.refl (v : View) : v.Grown v :=
  ⟨rfl, rfl, rfl, rfl, rfl, rfl, Nat.le_refl _, Nat.le_refl _, fun _ _ => rfl, fun _ => Iff.rfl,
    fun _ _ => rfl, fun _ _ => rfl, fun _ hb hb' => absurd hb' (Nat.not_lt.mpr hb),
    fun _ _ => ⟨_, rfl⟩, fun _ _ => ⟨rfl, rfl⟩, fun _ hb hb' => absurd hb' (Nat.not_lt.mpr hb)⟩

theorem Grown.cap (h : v.Grown v') : v.cap ≤ v'.cap := Nat.mul_le_mul_right _ h.buckets

theorem Grown.ref (h : v.Grown v') (hi : i < v.cap) : v'.ref i = v.ref i := by
  unfold Places.ref Places.addr
  rw [h.bucketPage _ (Places.div_lt hi), h.base]

theorem Grown.trans (h : v.Grown v') (h' : v'.Grown v'') : v.Grown v'' := by
  refine ⟨h'.base.trans h.base, h'.used.trans h.used, h'.torn.trans h.torn, h'.cont.trans h.cont,
    h'.root.trans h.root, h'.vector.trans h.vector, h.buckets.trans h'.buckets,
    h.linked.trans h'.linked, fun q hq => (h'.queue q hq).trans (h.queue q hq),
    fun q => (h'.has q).trans (h.has q), fun b hb => ?_, fun b hb => ?_, fun b hb hb' => ?_,
    fun i hi => ?_, fun b hb => ?_, fun b hb hb' => ?_⟩
  · rw [h'.bucketPage b (hb.trans_le h.buckets), h.bucketPage b hb]
  · rw [h'.flag b (hb.trans_le h.buckets), h.flag b hb]
  · by_cases hlt : b < v'.buckets
    · rw [h'.flag b hlt]
      exact h.newFlag b hb hlt
    · exact h'.newFlag b (Nat.not_lt.mp hlt) hb'
  · obtain ⟨r, hr⟩ := h.entry i hi
    obtain ⟨r', hr'⟩ := h'.entry i (hi.trans_le h.cap)
    exact ⟨r', by rw [hr', hr]⟩
  · obtain ⟨hc, hs⟩ := h'.slot b (hb.trans_le h.linked)
    obtain ⟨hc', hs'⟩ := h.slot b hb
    exact ⟨hc.trans hc', hs.trans hs'⟩
  · by_cases hlt : b < v'.linked
    · obtain ⟨hc, hs⟩ := h'.slot b hlt
      rw [hc, hs]
      exact h.newSlot b hb hlt
    · exact h'.newSlot b (Nat.not_lt.mp hlt) hb'

theorem Reshaped.grown (h : v.Reshaped v') : v.Grown v' := by
  refine ⟨h.base, h.used, h.torn, h.cont, h.root, h.vector, h.buckets.ge, h.linked.ge,
    fun q hq => ?_, fun q => ?_, h.bucketPage, fun b hb => by rw [h.bucket b hb],
    fun b hb hb' => ?_, fun i hi => ⟨(v.entry i).seList, h.entry hi⟩, h.slot, fun b hb hb' => ?_⟩
  · cases q with
    | free => exact (hq rfl).elim
    | size n =>
      unfold View.queue
      dsimp only
      rw [h.sizes]
  · cases q with
    | free => rfl
    | size n =>
      unfold HasQueue
      rw [h.sizes]
  · rw [h.buckets] at hb'
    omega
  · rw [h.linked] at hb'
    omega

theorem Relinked.grown (h : v.Relinked v') (hqueue : ∀ q, q ≠ .free → v'.queue q = v.queue q)
    (hhas : ∀ q, v'.HasQueue q ↔ v.HasQueue q) : v.Grown v' := by
  obtain ⟨f, hdir⟩ := h.dir
  have hbuckets : v'.buckets = v.buckets := congrArg Places.buckets h.places
  refine ⟨h.base, h.used, h.torn, h.cont, by rw [hdir], by rw [hdir], hbuckets.ge, h.linked.ge, hqueue,
    hhas, fun b _ => by rw [h.places], fun b _ => h.flag b, fun b hb hb' => ?_, fun i _ => h.entry i,
    fun b _ => ?_, fun b hb hb' => ?_⟩
  · rw [hbuckets] at hb'
    omega
  · unfold View.siCurrent View.siSnapshot
    rw [h.inner]
    exact ⟨rfl, rfl⟩
  · rw [h.linked] at hb'
    omega

theorem grown_addBucket (ho : v.Ok) {x : SlabBucket} (hx : x.sbHasSnapshot = 0) (p : ℕ) :
    v.Grown (v.addBucket p x) := by
  have hadds := adds_addBucket v p x
  refine ⟨rfl, rfl, rfl, rfl, rfl, rfl, Nat.le_succ _, Nat.le_refl _, fun q hq => ?_, fun q => ?_,
    fun b hb => hadds.page (.bucket b) hb, fun b hb => ?_, fun b hb hb' => ?_, fun i hi => ?_,
    fun _ _ => ⟨rfl, rfl⟩, fun b hb hb' => absurd hb' (Nat.not_lt.mpr hb)⟩
  · cases q with
    | free => exact (hq rfl).elim
    | size n => rfl
  · cases q <;> rfl
  · rw [addBucket_bucket hb]
  · have hb : b = v.buckets := by
      have hb' : b < v.buckets + 1 := hb'
      omega
    rw [hb, show (v.addBucket p x).bucket v.buckets = x from Function.update_self ..]
    exact hx
  · exact ⟨(v.entry i).seList, hadds.entry hi⟩

theorem grown_linkBucket (v : View) (l : ℕ) : v.Grown (v.linkBucket l) := by
  refine ⟨rfl, rfl, rfl, rfl, rfl, rfl, Nat.le_refl _, Nat.le_succ _, fun q hq => ?_, fun q => ?_,
    fun _ _ => rfl, fun _ _ => rfl, fun b hb hb' => absurd hb' (Nat.not_lt.mpr hb),
    fun _ _ => ⟨_, rfl⟩, fun b hb => ?_, fun b hb hb' => ?_⟩
  · cases q with
    | free => exact (hq rfl).elim
    | size n => rfl
  · cases q <;> rfl
  · rw [linkBucket_siCurrent, linkBucket_siSnapshot, if_neg (by omega), if_neg (by omega)]
    exact ⟨rfl, rfl⟩
  · have hb : b = v.linked := by
      have hb' : b < v.linked + 1 := hb'
      omega
    rw [linkBucket_siCurrent, linkBucket_siSnapshot, if_pos hb, if_pos hb]

end View

namespace Pm

variable {s s' : Pm} {v v' : View} {lost lost' : Multiset ℕ} {i k c p q a l j : ℕ} {u : Unit}

/-- An operation on the free list. -/
theorem Holds.onFree (h : s.Holds v lost) (hs : s'.Shows v') (hm : s.SameData v.toPlaces s')
    (hr : v.Relinked v') (hqueue : ∀ q, q ≠ .free → v'.queue q = v.queue q) :
    s'.Holds v' lost ∧ s.Evolves v ∅ s' v' := by
  refine h.relink hs hm hr (fun n => ?_) (fun n => ?_) (fun n i hf hi => ?_)
  · rw [hqueue _ (by simp)]
    exact h.ok.first n
  · rw [hqueue _ (by simp)]
    exact h.ok.last n
  · rw [hqueue _ (by simp)] at hf
    exact h.ok.size n i hf hi

/-- The first `d` entries of bucket `b` have joined the free list, which began at entry `k`. -/
structure Frees (s : Pm) (v : View) (k b d : ℕ) (t : Pm) (v' : View) : Prop where
  shows : t.Shows v'
  same : s.SameData v.toPlaces t
  relinked : v.Relinked v'
  free : v'.FreeRange k (b * slabBucketEntries + d)
  queue : ∀ q, q ≠ .free → v'.queue q = v.queue q
  has : ∀ q, v'.HasQueue q ↔ v.HasQueue q

namespace Frees

variable {t t' : Pm} {b d : ℕ}

theorem ref (h : s.Frees v k b d t v') (hd : d < slabBucketEntries) :
    (⟨v.addr (v.bucketPage b), d⟩ : EntryRef) = v'.ref (b * slabBucketEntries + d) := by
  rw [h.relinked.ref]
  unfold Places.ref
  rw [Nat.add_comm, Nat.add_mul_div_right _ _ (by decide), Nat.div_eq_of_lt hd, Nat.zero_add,
    Nat.add_mul_mod_self_right, Nat.mod_eq_of_lt hd]

theorem lt_cap (h : s.Frees v k b d t v') (hb : b < v.buckets) (hd : d < slabBucketEntries) :
    b * slabBucketEntries + d < v'.cap := by
  rw [h.relinked.cap]
  have := Nat.mul_le_mul_right slabBucketEntries (Nat.succ_le_of_lt hb)
  unfold Places.cap
  rw [Nat.succ_mul] at this
  omega

/-- The next entry joins. -/
theorem step (h : s.Frees v k b d t v') (hq : v.Quiet) (hb : b < v.buckets)
    (hk : k ≤ b * slabBucketEntries) (hd : d < slabBucketEntries)
    (hr : Returns (stailqInsertTail (sdFreeListAt (v.addr 1)) ⟨v.addr (v.bucketPage b), d⟩) t u t') :
    ∃ v'', s.Frees v k b (d + 1) t' v'' := by
  rw [h.ref hd, ← h.relinked.addr] at hr
  obtain ⟨v₂, hre₂, hs₂, hm₂, hf₂, hqueue₂, hhas₂⟩ :=
    h.shows.freeNext (h.relinked.quiet hq) h.free (by omega) (h.lt_cap hb hd) hr
  rw [h.relinked.places] at hm₂
  exact ⟨v₂, hs₂, h.same.trans hm₂, h.relinked.trans hre₂, hf₂,
    fun q hq => (hqueue₂ q hq).trans (h.queue q hq), fun q => (hhas₂ q).trans (h.has q)⟩

end Frees

theorem Shows.frees (h : s.Shows v) {b : ℕ} (hf : v.FreeRange k (b * slabBucketEntries)) :
    s.Frees v k b 0 s v :=
  ⟨h, .refl _ s, .refl v, hf, fun _ _ => rfl, fun _ => Iff.rfl⟩

/-- **The entries of a bucket join the free list.** -/
theorem Shows.freeBucketEntries {b : ℕ} (h : s.Shows v) (hq : v.Quiet) (hb : b < v.buckets)
    (hf : v.FreeRange k (b * slabBucketEntries)) (hk : k ≤ b * slabBucketEntries)
    (hr : Returns (freeBucketEntries (v.addr 1) (v.addr (v.bucketPage b))) s u s') :
    ∃ v', s.Frees v k b slabBucketEntries s' v' :=
  @Returns.forM_range_induct _ _ _ (fun d t => ∃ v', s.Frees v k b d t v') _ _ _ _
    ⟨v, h.frees hf⟩ (fun _ hd _ _ ⟨_, hP⟩ ht => hP.step hq hb hk hd ht) hr

/-! ## A new bucket -/

/-- A store that does not fault. -/
theorem Shows.updateOpen (h : s.Shows v) (hp : p < v.n) (hw : (s.prot p).write = true)
    {g : Page → Option Page} (hr : Returns (updatePage (v.addr p) g) s u s') :
    ∃ x, g (s.page p) = some x ∧ s' = s.setPage (s.vmap p) x := by
  have hvpage := h.vpage hp
  unfold updatePage at hr
  simp only [returns_bind, returns_makeWritable, returns_putPage] at hr
  obtain ⟨_, t, ⟨j, hj, hmade⟩, j', x, hj', -, hx, rfl⟩ := hr
  rw [hvpage, Option.some.injEq] at hj
  subst hj
  rcases hmade with ⟨-, rfl⟩ | ⟨hw', -⟩
  · rw [hvpage, Option.some.injEq] at hj'
    subst hj'
    exact ⟨x, hx, rfl⟩
  · rw [hw] at hw'
    cases hw'

/-- A cleared bucket with an id. -/
def newBucket (id : ℕ) : SlabBucket := { bucketOfBytes (fun _ => 0) with sbId := id }

theorem newBucket_blank (id k : ℕ) : ((newBucket id).sbEntries k).Blank := by
  unfold newBucket bucketOfBytes SlabEntry.Blank
  dsimp only
  rw [entryOfBytes_zero]
  rfl

theorem newBucket_sbHasSnapshot (id : ℕ) : (newBucket id).sbHasSnapshot = 0 := le32_zero 0

/-- The page that was handed out, cleared and given the next id. -/
theorem Got.bucket {n id : ℕ} {free : List ℕ} {s₁ s₂ s₃ s₄ : Pm} {u' : Unit}
    (hg : s.Got v lost s₁ (v.addr p) l p n free) (h : s.Holds v lost)
    (hlt : v.buckets < slabInnerEntries * v.outer.soIndex)
    (h₂ : Returns (updatePage (v.addr p) fun _ => some (.bucket (bucketOfBytes fun _ => 0))) s₁ u s₂)
    (h₃ : Returns getNextBucketId s₂ id s₃)
    (h₄ : Returns (updatePage (v.addr p) (Page.onBucket fun b => { b with sbId := id })) s₃ u' s₄) :
    s₄.Holds ((v.sized n free).addBucket p (newBucket v.buckets)) lost ∧
      s₁.Evolves (v.sized n free) ∅ s₄ ((v.sized n free).addBucket p (newBucket v.buckets)) ∧
      s₄.vmap = s₁.vmap := by
  have hh₁ := hg.holds
  have hlt₁ : p < (v.sized n free).n := hg.took.takes.lt
  have hw : (s₁.prot p).write = true := hg.took.prot.writable rfl
  obtain ⟨x, hx, rfl⟩ := hh₁.shows.updateOpen hlt₁ hw h₂
  cases hx
  unfold getNextBucketId at h₃
  simp only [returns_bind, returns_get, returns_modify, returns_pure] at h₃
  obtain ⟨_, _, ⟨rfl, rfl⟩, _, _, rfl, rfl, rfl⟩ := h₃
  have hshows := (hh₁.setLost (p := p) (by simp) (.bucket (bucketOfBytes fun _ => 0))).1.shows
  obtain ⟨y, hy, hs₄⟩ := (hshows.setNextBucket _).updateOpen hlt₁ hw h₄
  have hid : s₁.nextSlabBucketId = v.buckets := hh₁.nextBucket
  have hmod : (v.buckets + 1) % 2 ^ 32 = v.buckets + 1 := by
    have := h.linked.buckets_le
    have : View.maxBuckets < 2 ^ 20 := by decide
    omega
  have hpage : (s₁.setPage (s₁.vmap p) (.bucket (bucketOfBytes fun _ => 0))).page p =
      .bucket (bucketOfBytes fun _ => 0) := by
    rw [hh₁.shows.page_set hlt₁ hlt₁, if_pos rfl]
  replace hy : Page.onBucket (fun b => { b with sbId := s₁.nextSlabBucketId })
    ((s₁.setPage (s₁.vmap p) (.bucket (bucketOfBytes fun _ => 0))).page p) = some y := hy
  rw [hpage, hid] at hy
  replace hy : y = .bucket (newBucket v.buckets) := (Option.some.inj hy).symm
  replace hs₄ : s₄ = { s₁.setPage (s₁.vmap p) (.bucket (newBucket v.buckets)) with
      nextSlabBucketId := (s₁.nextSlabBucketId + 1) % 2 ^ 32 } := by
    rw [hs₄, hy]
    exact congrArg (fun f => ({ s₁ with
      file := f
      nextSlabBucketId := (s₁.nextSlabBucketId + 1) % 2 ^ 32 } : Pm)) (Function.update_idem ..)
  have hadds := View.adds_addBucket (v.sized n free) p (newBucket v.buckets)
  have hcontent : ((v.sized n free).addBucket p (newBucket v.buckets)).content (.bucket v.buckets) =
      .bucket (newBucket v.buckets) := congrArg Page.bucket (Function.update_self ..)
  obtain ⟨hh₄, hv₄⟩ := @Holds.addNode s₁ s₄ (v.sized n free)
    ((v.sized n free).addBucket p (newBucket v.buckets)) lost p (.bucket v.buckets) hh₁ hw hadds
    (hh₁.linked.addBucket hlt rfl p) (hh₁.ok.addBucket (newBucket_blank _) p)
    (hh₁.balanced.addBucket hh₁.ok (newBucket v.buckets))
    (fun hpair => hpair.addBucket hh₁.ok p (newBucket v.buckets))
    (fun b hb => by
      rw [show ((v.sized n free).addBucket p (newBucket v.buckets)).bucketPage b = v.bucketPage b from
        Function.update_of_ne (Nat.ne_of_lt (hb.trans_le h.linked.linked)) ..]
      exact hh₁.laddr b hb)
    (by
      rw [hcontent, hs₄, hid]
      exact congrArg (fun id => { s₁.setPage _ _ with nextSlabBucketId := id }) hmod)
  exact ⟨hh₄, hv₄, by rw [hs₄]; rfl⟩

/-- **`slab_bucket_init`.** -/
theorem Holds.slabBucketInit (h : s.Holds v lost)
    (hlt : v.buckets < slabInnerEntries * v.outer.soIndex) (hf : v.FreeRange v.cap v.cap) {sb : ℕ}
    (hr : Returns slabBucketInit s (sb, l) s') :
    ∃ v', s'.Holds v' lost ∧ s.Evolves v ∅ s' v' ∧ v.Grown v' ∧ v'.buckets = v.buckets + 1 ∧
      v'.linked = v.linked ∧ v'.inners = v.inners ∧ v'.innerPage = v.innerPage ∧
      v'.outer = v.outer ∧ v'.taken = v.taken ∧ v'.FreeRange v.cap v'.cap ∧
      sb = v'.addr (v'.bucketPage v.buckets) ∧ l = s'.vmap (v'.bucketPage v.buckets) * pageSize := by
  unfold LibPM.slabBucketInit at hr
  simp only [returns_bind, returns_pure] at hr
  obtain ⟨sd, s₀, h₀, ⟨sb', l'⟩, s₁, h₁, _, s₂, h₂, id, s₃, h₃, _, s₄, h₄, _, s₅, h₅, heq, rfl⟩ := hr
  obtain ⟨rfl, rfl⟩ := h.currentSlab h₀
  obtain ⟨p, n, free, hg⟩ := h.getpage h₁
  obtain ⟨rfl, hh₁, hv₁⟩ := And.intro hg.maddr (And.intro hg.holds hg.evolves)
  obtain ⟨rfl, rfl⟩ := Prod.mk.inj heq
  obtain ⟨hh₄, hv₄, hvmap₄⟩ := hg.bucket h hlt h₂ h₃ h₄
  have hbp : ((v.sized n free).addBucket p (newBucket v.buckets)).bucketPage v.buckets = p :=
    Function.update_self ..
  rw [← hbp] at h₅
  obtain ⟨v', hs', hm', hre, hf', hqueue, hhas⟩ :=
    @Shows.freeBucketEntries s₄ _ ((v.sized n free).addBucket p (newBucket v.buckets)) v.cap ()
      v.buckets hh₄.shows hh₄.quiet (Nat.lt_succ_self _) (hf.addBucket n free p _) (Nat.le_refl _) h₅
  obtain ⟨hh, hv⟩ := hh₄.onFree hs' hm' hre hqueue
  have hcap' : v'.cap = (v.buckets + 1) * slabBucketEntries := hre.cap
  have hbp' : v'.bucketPage v.buckets = p := by
    rw [hre.places]
    exact hbp
  refine ⟨v', hh, hh₁.trans hv₁ (hh₄.trans hv₄ hv ?_) (Nat.le_refl _),
    (View.Reshaped.sized v n free).grown.trans ((View.grown_addBucket hh₁.ok
      (newBucket_sbHasSnapshot v.buckets) p).trans (hre.grown hqueue hhas)),
    congrArg Places.buckets hre.places, hre.linked, ?_, ?_, hre.outer, hre.taken, ?_, ?_, ?_⟩
  · rw [View.addBucket_cap]
    exact Nat.le_add_right _ _
  · rw [hre.places]
    rfl
  · rw [hre.places]
    rfl
  · rw [hcap', Nat.succ_mul]
    exact hf'
  · rw [hbp', hre.addr]
    rfl
  · rw [hm'.vmap, hbp', hvmap₄]
    exact hg.took.laddr

/-- The next slot of an inner node leads to the bucket. -/
theorem Shows.installBucket (h : s.Shows v) (hq : v.Quiet)
    (hj : v.linked / slabInnerEntries < v.inners)
    (hsi : (v.inner (v.linked / slabInnerEntries)).siIndex = v.linked % slabInnerEntries)
    (hr : Returns (LibPM.installBucket (v.addr (v.innerPage (v.linked / slabInnerEntries)))
      (v.addr (v.bucketPage v.linked)) l) s u s') :
    s'.Shows (v.linkBucket l) ∧ s.SameData v.toPlaces s' := by
  unfold LibPM.installBucket at hr
  simp only [returns_bind, returns_require] at hr
  obtain ⟨x, s₀, h₀, _, _, ⟨-, rfl⟩, _, s₁, h₁, _, s₂, h₂, _, s₃, h₃, _, s₄, h₄, h₅⟩ := hr
  obtain ⟨rfl, rfl⟩ := h.loadInner hj h₀
  rw [hsi] at h₁ h₂ h₃ h₄ h₅
  obtain ⟨hs₁, hm₁⟩ := h.updateInner hq hj h₁
  obtain ⟨hs₂, hm₂⟩ := hs₁.updateInner (u := ()) hq hj h₂
  obtain ⟨hs₃, hm₃⟩ := hs₂.updateInner (u := ()) hq hj h₃
  obtain ⟨hs₄, hm₄⟩ := hs₃.updateInner (u := ()) hq hj h₄
  obtain ⟨hs₅, hm₅⟩ := hs₄.updateInner (u := ()) hq hj h₅
  simp only [View.setInner_inner, View.setInner_setInner, setLaddr_setMaddr] at hs₅
  exact ⟨⟨hs₅.space, hs₅.start, hs₅.containers, hs₅.page, hs₅.sizes, hs₅.wf⟩,
    hm₁.trans (hm₂.trans (hm₃.trans (hm₄.trans hm₅)))⟩

/-- **A new bucket in the next slot of the last inner node.** -/
theorem Holds.installBucket (h : s.Holds v lost) (hlt : v.linked < v.buckets)
    (hl : l = s.vmap (v.bucketPage v.linked) * pageSize)
    (hr : Returns (installBucket (v.addr (v.innerPage (v.linked / slabInnerEntries)))
      (v.addr (v.bucketPage v.linked)) l) s u s') :
    s'.Holds (v.linkBucket l) lost ∧ s.Evolves v ∅ s' (v.linkBucket l) := by
  obtain ⟨hs, hm⟩ := h.shows.installBucket h.quiet (h.linked.has_inner hlt)
    (h.linked.siIndex_linked hlt) hr
  have hlin : s.IsFixed → v.addr (v.bucketPage v.linked) = v.base + l := fun hf => by
    rw [hl, h.shows.vmap_of_isFixed hf]
    rfl
  refine h.retree hs hm rfl rfl rfl rfl rfl rfl rfl
    rfl (h.linked.linkBucket hlt l) (h.balanced.linkBucket l)
    (fun hf hpair => hpair.linkBucket (hlin hf)) (fun b hb => ?_)
  rw [View.linkBucket_siCurrent]
  split_ifs with hbl
  · rw [hbl]
    exact hl
  · exact h.laddr b (by
      have hb : b < v.linked + 1 := hb
      omega)

end Pm

/-! ## Free entries -/

/-- All buckets and inner nodes are linked, and the last inner node is in use. -/
structure View.Complete (v : View) : Prop where
  soIndex : v.outer.soIndex = v.inners
  linked : v.linked = v.buckets
  pos : 0 < v.buckets
  span : slabInnerEntries * v.inners < v.buckets + slabInnerEntries

namespace Pm

variable {s s' : Pm} {v v' : View} {lost lost' : Multiset ℕ} {u : Unit}

/-- **The growth path of `get_free_slab_entry`.** -/
theorem Holds.growTree (h : s.Holds v lost) (hc : v.Complete) (hf : v.FreeRange v.cap v.cap)
    (hclean : s.CleanNode v) (hr : Returns (growTree (v.addr 0) (v.addr 1)) s u s') :
    ∃ v', s'.Holds v' lost ∧ s.Evolves v ∅ s' v' ∧ v.Grown v' ∧ v'.Complete ∧
      v'.taken = v.taken ∧ v'.buckets = v.buckets + 1 ∧ v'.FreeRange v.cap v'.cap := by
  have hle : v.buckets ≤ slabInnerEntries * v.inners := by
    rw [← hc.soIndex]
    exact h.linked.buckets
  have hpos : 0 < v.inners := by
    rcases Nat.eq_zero_or_pos v.inners with h0 | hpos
    · have := hc.pos
      rw [h0, Nat.mul_zero] at hle
      omega
    · exact hpos
  unfold LibPM.growTree at hr
  simp only [returns_bind, returns_require] at hr
  obtain ⟨d, s₀, h₀, _, _, ⟨-, rfl⟩, o, s₁, h₁, _, _, ⟨-, rfl⟩, si, s₂, h₂, ⟨sb, l⟩, s₃, h₃, h₄⟩ := hr
  obtain ⟨rfl, rfl⟩ := h.shows.loadDir h₀
  rw [h.linked.sdIndex, Nat.sub_self, h.linked.sdCurrent] at h₁ h₂
  obtain ⟨rfl, rfl⟩ := h.shows.loadOuter h₁
  rw [h.linked.soCurrent _ (by rw [hc.soIndex]; omega), hc.soIndex] at h₂
  obtain ⟨v₁, hh₁, hv₁, hre, hso, hin, rfl⟩ := h.growInner hc.soIndex hpos (by rwa [hc.linked])
    (by rw [hc.linked]; exact hc.span) hclean h₂
  have hlt : v₁.buckets < slabInnerEntries * v₁.outer.soIndex := by
    rw [hso, hin, hre.buckets, hc.linked]
    exact Nat.lt_mul_div_succ _ (by decide)
  have hf₁ : v₁.FreeRange v₁.cap v₁.cap := by
    rw [hre.cap]
    exact hf.reshaped hre (Nat.le_refl _)
  obtain ⟨v₂, hh₂, hv₂, hg₂, hb₂, hl₂, hin₂, hpage₂, hout₂, ht₂, hf₂, rfl, hl⟩ :=
    hh₁.slabBucketInit hlt hf₁ h₃
  have hlinked₁ : v₁.linked = v₁.buckets := by rw [hre.linked, hre.buckets, hc.linked]
  have hlt₂ : v₂.linked < v₂.buckets := by
    rw [hl₂, hb₂, hlinked₁]
    exact Nat.lt_succ_self _
  rw [← hv₂.addr, ← hpage₂, ← hre.linked, ← hl₂, ← hlinked₁, ← hl₂] at h₄
  rw [← hlinked₁, ← hl₂] at hl
  obtain ⟨hh₃, hv₃⟩ := hh₂.installBucket hlt₂ hl h₄
  have hgrown := hre.grown.trans (hg₂.trans (View.grown_linkBucket v₂ l))
  have hbuckets : (v₂.linkBucket l).buckets = v.buckets + 1 := by
    rw [← hre.buckets]
    exact hb₂
  have hinners : (v₂.linkBucket l).inners = v.linked / slabInnerEntries + 1 := by
    rw [← hin, ← hin₂]
    rfl
  refine ⟨_, hh₃, hh₁.trans hv₁ (hh₂.trans hv₂ hv₃ (hg₂.cap)) hre.cap.ge, hgrown,
    ⟨?_, ?_, ?_, ?_⟩, ?_, hbuckets, ?_⟩
  · show v₂.outer.soIndex = v₂.inners
    rw [hout₂, hin₂, hso]
  · show v₂.linked + 1 = v₂.buckets
    rw [hl₂, hb₂, hlinked₁]
  · rw [hbuckets]
    exact Nat.succ_pos _
  · rw [hbuckets, hinners, hc.linked]
    simp only [slabInnerEntries_eq]
    omega
  · show v₂.taken = v.taken
    rw [ht₂, hre.taken]
  · rw [← hre.cap]
    exact ⟨hf₂.first, hf₂.last, hf₂.next⟩

/-- An entry of the view may leave the free list. -/
theorem Holds.setTaken (h : s.Holds v lost) {k : ℕ} (hk : v.taken ≤ k) (hc : k ≤ v.cap) :
    s.Holds { v with taken := k } lost ∧ s.Evolves v ∅ s { v with taken := k } :=
  ⟨⟨⟨h.shows.space, h.shows.start, h.shows.containers, h.shows.page, h.shows.sizes, h.shows.wf⟩,
    ⟨h.linked.current, h.linked.committed, h.linked.sdIndex, h.linked.sdCurrent, h.linked.sdOther,
      h.linked.sdSnapshot, h.linked.sdSame, h.linked.soIndex, h.linked.inners, h.linked.soCurrent,
      h.linked.soSnapshot, h.linked.soSame, h.linked.linked, h.linked.buckets, h.linked.siIndex,
      h.linked.siCurrent, h.linked.siSnapshot, h.linked.siOther, h.linked.sbId⟩,
    ⟨h.ok.used.trans hk, hc, h.ok.root, h.ok.entry, h.ok.seId, h.ok.blank,
      fun n r hr => (h.ok.first n r hr).imp fun _ hi => ⟨hi.1.trans_le hk, hi.2⟩,
      fun n r hr => (h.ok.last n r hr).imp fun _ hi => ⟨hi.1.trans_le hk, hi.2⟩, h.ok.size,
      h.ok.vector⟩,
    ⟨h.guarded.metadata, h.guarded.synced, h.guarded.data⟩, h.balanced,
    fun hf => ⟨(h.paired hf).cont, (h.paired hf).sdCurrent, (h.paired hf).sdSnapshot,
      (h.paired hf).soCurrent, (h.paired hf).soSnapshot, (h.paired hf).siCurrent,
      (h.paired hf).siSnapshot, (h.paired hf).entry⟩, h.laddr, h.nextBucket, h.nextEntry⟩,
    { Evolves.refl s v ∅ with }⟩

theorem Holds.takeFree (h : s.Holds v lost) (hc : v.Complete) (hf : v.FreeRange v.taken v.cap)
    (hlt : v.taken < v.cap) (hr : Returns (stailqRemoveHead (sdFreeListAt (v.addr 1))) s u s') :
    ∃ v', s'.Holds v' lost ∧ s.Evolves v ∅ s' v' ∧ v.Grown v' ∧ v'.Complete ∧
      v'.taken = v.taken + 1 ∧ v'.FreeRange v'.taken v'.cap ∧ v'.toPlaces = v.toPlaces ∧
      s'.prot = s.prot := by
  obtain ⟨v₁, hre, hs, hm, hf₁, hqueue, hhas⟩ := h.shows.freeTake h.quiet hf hlt (Nat.le_refl _) hr
  obtain ⟨hh₁, hv₁⟩ := h.onFree hs hm hre hqueue
  have ht : v₁.taken = v.taken := hre.taken
  have hcap : v₁.cap = v.cap := hre.cap
  obtain ⟨hh, hv⟩ := hh₁.setTaken (k := v.taken + 1) (by omega) (by omega)
  refine ⟨_, hh, hh₁.trans hv₁ hv (Nat.le_of_eq hcap.symm), ?_, ⟨?_, ?_, ?_, ?_⟩, rfl, ?_, hre.places,
    hm.prot⟩
  · have hg := hre.grown hqueue hhas
    exact ⟨hg.base, hg.used, hg.torn, hg.cont, hg.root, hg.vector, hg.buckets, hg.linked, hg.queue, hg.has,
      hg.bucketPage, hg.flag, hg.newFlag, hg.entry, hg.slot, hg.newSlot⟩
  · show v₁.outer.soIndex = v₁.inners
    rw [hre.outer, hre.places]
    exact hc.soIndex
  · show v₁.linked = v₁.buckets
    rw [hre.linked, hre.places]
    exact hc.linked
  · show 0 < v₁.buckets
    rw [hre.places]
    exact hc.pos
  · show slabInnerEntries * v₁.inners < v₁.buckets + slabInnerEntries
    rw [hre.places]
    exact hc.span
  · rw [← hcap] at hf₁
    exact ⟨hf₁.first, hf₁.last, hf₁.next⟩

/-- **`get_free_slab_entry`.** The entries leave the free list in their order. -/
theorem Holds.getFreeSlabEntry (h : s.Holds v lost) (hc : v.Complete) (hf : v.FreeRange v.taken v.cap)
    (hclean : v.taken = v.cap → s.CleanNode v) {r : EntryRef}
    (hr : Returns getFreeSlabEntry s r s') :
    ∃ v', s'.Holds v' lost ∧ s.Evolves v ∅ s' v' ∧ v.Grown v' ∧ v'.Complete ∧
      v'.taken = v.taken + 1 ∧ v'.FreeRange v'.taken v'.cap ∧ r = v'.ref v.taken ∧
      (v.taken < v.cap → v'.toPlaces = v.toPlaces ∧ s'.prot = s.prot) ∧
      (v.taken = v.cap → v'.buckets = v.buckets + 1) := by
  have hle := h.ok.taken
  unfold LibPM.getFreeSlabEntry at hr
  simp only [returns_bind, returns_getContainer, returns_pure, returns_ofOption] at hr
  obtain ⟨cont, _, ⟨hcont, rfl⟩, c, s₁, h₁, d, s₂, h₂, _, s₃, h₃, d', s₄, h₄, se, _, ⟨h₅, rfl⟩, _, s₆, h₆,
    rfl, rfl⟩ := hr
  rw [h.shows.containers, Option.some.injEq] at hcont
  subst hcont
  obtain ⟨rfl, rfl⟩ := h.shows.loadContainer h₁
  rw [h.linked.current] at h₂ h₃ h₄ h₆
  obtain ⟨rfl, rfl⟩ := h.shows.loadDir h₂
  have hfirst : v.dir.sdFreeList.first = if v.taken < v.cap then some (v.ref v.taken) else none := hf.first
  rw [returns_when] at h₃
  rcases h₃ with ⟨hnil, h₃⟩ | ⟨hnil, rfl⟩
  · -- the list is empty
    have hcap : v.taken = v.cap := by
      by_contra hne
      rw [hfirst, if_pos (by omega)] at hnil
      cases hnil
    rw [hcap] at hf
    obtain ⟨v₁, hh₁, hv₁, hg₁, hc₁, ht₁, hb₁, hf₁⟩ := h.growTree hc hf (hclean hcap) h₃
    have hlt : v₁.taken < v₁.cap := by
      rw [ht₁, hcap]
      unfold Places.cap
      rw [hb₁, Nat.succ_mul]
      exact Nat.lt_add_of_pos_right (by decide)
    rw [← hcap, ← ht₁] at hf₁
    rw [← hv₁.addr] at h₄ h₆
    obtain ⟨rfl, rfl⟩ := hh₁.shows.loadDir h₄
    have hse : se = v₁.ref v₁.taken := by
      have hfirst₁ := hf₁.first
      rw [if_pos hlt] at hfirst₁
      exact Option.some.inj (h₅.symm.trans hfirst₁)
    obtain ⟨v', hh, hv, hg, hc', ht, hf', hplaces, -⟩ := hh₁.takeFree hc₁ hf₁ hlt h₆
    refine ⟨v', hh, hh₁.trans hv₁ hv hg₁.cap, hg₁.trans hg, hc', by rw [ht, ht₁], hf', ?_,
      fun hlt' => absurd hcap (Nat.ne_of_lt hlt'), fun _ => ?_⟩
    · rw [hse, ht₁, hplaces]
    · rw [hplaces, hb₁]
  · have hlt : v.taken < v.cap := by
      by_contra hnlt
      exact hnil (by rw [hfirst, if_neg hnlt])
    obtain ⟨rfl, rfl⟩ := h.shows.loadDir h₄
    have hse : se = v.ref v.taken := by
      rw [if_pos hlt] at hfirst
      exact Option.some.inj (h₅.symm.trans hfirst)
    obtain ⟨v', hh, hv, hg, hc', ht, hf', hplaces, hprot⟩ := h.takeFree hc hf hlt h₆
    exact ⟨v', hh, hv, hg, hc', ht, hf', by rw [hse, hplaces], fun _ => ⟨hplaces, hprot⟩,
      fun hcap => absurd hcap (Nat.ne_of_lt hlt)⟩

end Pm

end LibPM

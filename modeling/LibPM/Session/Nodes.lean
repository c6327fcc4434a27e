import LibPM.Session.Fault

/-!
# New nodes of the tree

A page that was handed out becomes an inner node or a bucket, or the snapshot of a node in the slot of its
parent.
-/

namespace LibPM

open Recorded Recorded.Prog

/-! ## Slots -/

theorem setMaddr_setLaddr (t : ℕ → Slot) (i l a : ℕ) :
    setMaddr (setLaddr t i l) i a = Function.update t i ⟨a, l⟩ := by
  unfold setMaddr
  rw [setLaddr_self]
  exact Function.update_idem ..

theorem setLaddr_setMaddr (t : ℕ → Slot) (i l a : ℕ) :
    setLaddr (setMaddr t i a) i l = Function.update t i ⟨a, l⟩ := by
  unfold setLaddr
  rw [setMaddr_self]
  exact Function.update_idem ..

/-! ## One more node -/

/-- `v'` has the nodes of `v` and the node `x` on page `p`. -/
structure View.Adds (v v' : View) (x : Node) (p : ℕ) : Prop where
  base : v'.base = v.base
  n : v'.n = v.n
  free : v'.free = v.free
  used : v'.used = v.used
  torn : v'.torn = v.torn
  sizes : v'.sizes = v.sizes
  old : ∀ y, v.Has y → v'.Has y
  has : ∀ y, v'.Has y → v.Has y ∨ y = x
  page : ∀ y, v.Has y → v'.pageOf y = v.pageOf y
  new : v'.pageOf x = p
  content : ∀ y, v.Has y → v'.content y = v.content y

namespace View.Adds

variable {v v' : View} {x : Node} {p i : ℕ}

theorem isMeta (h : v.Adds v' x p) {q : ℕ} (hq : v'.IsMeta q) : v.IsMeta q ∨ q = p := by
  obtain ⟨y, hy, rfl⟩ := hq
  rcases h.has y hy with hy | rfl
  · exact .inl ⟨y, hy, (h.page y hy).symm⟩
  · exact .inr h.new

theorem entry (h : v.Adds v' x p) (hi : i < v.cap) : v'.entry i = v.entry i := by
  have hb := h.content _ (Places.has_bucket hi)
  unfold View.entry
  rw [Page.bucket.inj hb]

theorem ref (h : v.Adds v' x p) (hi : i < v.cap) : v'.ref i = v.ref i := by
  have hb : v'.bucketPage (i / slabBucketEntries) = v.bucketPage (i / slabBucketEntries) :=
    h.page _ (Places.has_bucket hi)
  unfold Places.ref Places.addr
  rw [hb, h.base]

theorem dir (h : v.Adds v' x p) : v'.dir = v.dir := Page.dir.inj (h.content .dir trivial)

theorem isData (h : v.Adds v' x p) (hcap : v.used ≤ v.cap) (q : ℕ) : v'.IsData q ↔ v.IsData q := by
  unfold View.IsData Places.addr
  rw [h.used, h.base]
  exact exists_congr fun i => and_congr_right fun hi => by rw [h.entry (hi.trans_le hcap)]

end View.Adds

namespace Pm

variable {s s' : Pm} {v v' : View} {lost : Multiset ℕ} {i p q a n : ℕ} {u : Unit} {x : Node}

theorem Shows.addNode (h : s.Shows v) (hp : p < v.n) (hm : ¬ v.IsMeta p) (ha : v.Adds v' x p) :
    (s.setPage (s.vmap p) (v'.content x)).Shows v' := by
  refine ⟨?_, h.start.trans ha.base.symm, ?_, fun y hy => ?_, h.sizes.trans ha.sizes.symm,
    ⟨fun y hy => ?_, fun y z hy hz heq => ?_⟩⟩
  · rw [ha.n, ha.free]
    exact h.space.setPage _ _
  · show s.containers = _
    rw [h.containers]
    unfold Places.addr
    rw [ha.base]
  · rcases ha.has y hy with hy' | rfl
    · rw [ha.page y hy', h.page_set hp (h.wf.lt y hy'), if_neg fun heq => hm ⟨y, hy', heq⟩,
        h.page y hy', ha.content y hy']
    · rw [ha.new, h.page_set hp hp, if_pos rfl]
  · rw [ha.n]
    rcases ha.has y hy with hy' | rfl
    · rw [ha.page y hy']
      exact h.wf.lt y hy'
    · rwa [ha.new]
  · rcases ha.has y hy with hy' | rfl
    · rcases ha.has z hz with hz' | rfl
      · rw [ha.page y hy', ha.page z hz'] at heq
        exact h.wf.inj y z hy' hz' heq
      · rw [ha.page y hy', ha.new] at heq
        exact (hm ⟨y, hy', heq⟩).elim
    · rcases ha.has z hz with hz' | rfl
      · rw [ha.page z hz', ha.new] at heq
        exact (hm ⟨z, hz', heq.symm⟩).elim
      · rfl

/-- The id counter of the buckets changes. -/
theorem Shows.setNextBucket (h : s.Shows v) (k : ℕ) : Pm.Shows { s with nextSlabBucketId := k } v :=
  ⟨⟨h.space.serves, h.space.aligned, h.space.inj, h.space.maps⟩, h.start, h.containers,
    fun x hx => h.page x hx, h.sizes, h.wf⟩

/-- **A page that no one held becomes a node.** -/
theorem Holds.addNode (h : s.Holds v (lost + {p})) (hw : (s.prot p).write = true)
    (ha : v.Adds v' x p) (hl : v'.Linked) (hok : v'.Ok) (hb : v'.Balanced lost)
    (hpaired : v.Paired → v'.Paired)
    (hladdr : ∀ b < v'.linked, (v'.siCurrent b).laddr = s.vmap (v'.bucketPage b) * pageSize)
    (hs : s' = { s.setPage (s.vmap p) (v'.content x) with nextSlabBucketId := v'.buckets }) :
    s'.Holds v' lost ∧ s.Evolves v ∅ s' v' := by
  have hmem : p ∈ lost + {p} := by simp
  have hlt := h.lost_lt hmem
  have hcap := h.ok.used.trans h.ok.taken
  have hset := h.setLost hmem (v'.content x)
  have hfile : ∀ q, s'.filePage v'.n q = s.filePage v.n q := by
    intro q
    rw [hs, ha.n]
    rfl
  have hrests : ∀ q, v'.Rests q ↔ v.Rests q := by
    intro q
    unfold View.Rests
    rw [ha.isData hcap, ha.n, ha.free]
  have hopen : ∀ q, s'.Open v'.n q ↔ s.Open v.n q := by
    intro q
    rw [hs, ha.n]
    rfl
  refine ⟨⟨?_, hl, hok, ⟨fun q hq => ?_, fun q hq hd hf => ?_, fun q hd => ?_⟩, hb, fun hf => ?_,
      fun b hb => ?_, ?_, ?_⟩,
    ⟨ha.base, ha.n.ge, ha.used.ge, fun i hi => ha.ref hi, fun i hi => ?_, fun i hi => ?_,
      fun i hi _ _ _ => ?_, fun i hi => ?_, fun i hi hi' => ?_, fun i hi => .inl (ha.torn ▸ hi), fun r hr => ?_,
      fun q hq => .inl (ha.free ▸ hq), fun q => (hrests q).mp, fun q _ => hfile q,
      fun q hq _ => ?_, fun q _ hq => .inl ((hopen q).mp hq), fun q _ hq => (hopen q).mpr hq,
      fun q _ hq => .inl ((hopen q).mpr hq)⟩⟩
  · rw [hs]
    exact (h.shows.addNode hlt (h.balanced.lost_notMeta hmem) ha).setNextBucket _
  · rw [hs]
    rcases ha.isMeta hq with hq | rfl
    · exact h.guarded.metadata q hq
    · exact hw
  · rw [ha.isData hcap] at hd
    rw [hs] at hf ⊢
    rw [ha.n] at hq
    exact h.guarded.synced q hq hd hf
  · rw [ha.isData hcap] at hd
    rw [hs]
    exact h.guarded.data q hd
  · rw [hs] at hf
    exact hpaired (h.paired hf)
  · rw [hladdr b hb, hs]
    rfl
  · rw [hs]
  · rw [hs, ha.used]
    exact h.nextEntry
  · rw [ha.entry (hi.trans_le hcap)]
  · rw [ha.entry (hi.trans_le hcap)]
  · rw [ha.entry (hi.trans_le hcap)]
  · rw [ha.entry (hi.trans_le hcap)]
  · rw [ha.used] at hi'
    omega
  · rwa [ha.dir]
  · have hbytes := hset.2.bytes q ((hrests q).mp hq) (Set.notMem_empty q)
    rw [← hbytes, hs, ha.n]
    rfl

end Pm

/-! ## Inner nodes and buckets -/

/-- The new inner node `x` is on page `p`. -/
def View.addInner (v : View) (p : ℕ) (x : SlabInner) : View :=
  { v with
    inners := v.inners + 1
    innerPage := Function.update v.innerPage v.inners p
    inner := Function.update v.inner v.inners x }

/-- The new bucket `x` is on page `p`. -/
def View.addBucket (v : View) (p : ℕ) (x : SlabBucket) : View :=
  { v with
    buckets := v.buckets + 1
    bucketPage := Function.update v.bucketPage v.buckets p
    bucket := Function.update v.bucket v.buckets x }

/-- No slot of an inner node is in use. -/
structure SlabInner.Clean (x : SlabInner) : Prop where
  siIndex : x.siIndex = 0
  siCurrent : ∀ k < slabInnerEntries, (x.siCurrent k).maddr = 0

namespace View

variable {v : View} {lost : Multiset ℕ} {p : ℕ}

section Inner

variable {x : SlabInner}

theorem adds_addInner (v : View) (p : ℕ) (x : SlabInner) :
    v.Adds (v.addInner p x) (.inner v.inners) p := by
  refine ⟨rfl, rfl, rfl, rfl, rfl, rfl, fun y hy => ?_, fun y hy => ?_, fun y hy => ?_,
    Function.update_self .., fun y hy => ?_⟩
  · cases y with
    | inner j => exact Nat.lt_succ_of_lt hy
    | _ => exact hy
  · cases y with
    | inner j =>
      rcases Nat.lt_succ_iff_lt_or_eq.mp hy with hj | rfl
      · exact .inl hj
      · exact .inr rfl
    | _ => exact .inl hy
  · cases y with
    | inner j => exact Function.update_of_ne (Nat.ne_of_lt hy) ..
    | _ => rfl
  · cases y with
    | inner j => exact congrArg Page.inner (Function.update_of_ne (Nat.ne_of_lt hy) ..)
    | _ => rfl

theorem addInner_inner {j : ℕ} (hj : j < v.inners) : (v.addInner p x).inner j = v.inner j :=
  Function.update_of_ne (Nat.ne_of_lt hj) ..

theorem addInner_siCurrent (h : v.Linked) {b : ℕ} (hb : b < v.linked) :
    (v.addInner p x).siCurrent b = v.siCurrent b := by
  unfold View.siCurrent
  rw [addInner_inner (h.has_inner (hb.trans_le h.linked))]

theorem addInner_siSnapshot (h : v.Linked) {b : ℕ} (hb : b < v.linked) :
    (v.addInner p x).siSnapshot b = v.siSnapshot b := by
  unfold View.siSnapshot
  rw [addInner_inner (h.has_inner (hb.trans_le h.linked))]

theorem Linked.addInner (h : v.Linked) (hfull : v.linked ≤ slabInnerEntries * v.inners)
    (hlt : v.inners ≤ slabDirEntries) (hx : x.Clean) (p : ℕ) : (v.addInner p x).Linked := by
  refine ⟨h.current, h.committed, h.sdIndex, h.sdCurrent, h.sdOther, h.sdSnapshot, h.sdSame,
    h.soIndex.trans (Nat.le_succ _), Nat.succ_le_succ hlt, fun j hj => ?_, h.soSnapshot, h.soSame, h.linked,
    h.buckets, fun j hj => ?_, fun b hb => ?_, fun b hb => ?_, fun j hj k hk hk' => ?_, h.sbId⟩
  · rw [show (v.addInner p x).innerPage j = v.innerPage j from
      Function.update_of_ne (Nat.ne_of_lt (hj.trans_le h.soIndex)) ..]
    exact h.soCurrent j hj
  · rcases Nat.lt_succ_iff_lt_or_eq.mp hj with hj | rfl
    · rw [addInner_inner hj]
      exact h.siIndex j hj
    · show (Function.update v.inner v.inners x v.inners).siIndex = min _ (v.linked - _)
      rw [Function.update_self, hx.siIndex, Nat.sub_eq_zero_of_le hfull, Nat.min_zero]
  · rw [addInner_siCurrent h hb]
    exact h.siCurrent b hb
  · rw [addInner_siSnapshot h hb]
    exact h.siSnapshot b hb
  · rcases Nat.lt_succ_iff_lt_or_eq.mp hj with hj | rfl
    · rw [addInner_inner hj] at hk ⊢
      exact h.siOther j hj k hk hk'
    · show ((Function.update v.inner v.inners x v.inners).siCurrent k).maddr = 0
      rw [Function.update_self]
      exact hx.siCurrent k hk'

theorem Ok.addInner (h : v.Ok) (p : ℕ) (x : SlabInner) : (v.addInner p x).Ok :=
  ⟨h.used, h.taken, h.root, h.entry, h.seId, h.blank, h.first, h.last, h.size, h.vector⟩

theorem Balanced.addInner (h : v.Balanced (lost + {p})) (hl : v.Linked) (x : SlabInner) :
    (v.addInner p x).Balanced lost := by
  rw [← add_zero lost]
  refine h.move metadata_mem ?_ (fun y _ hy => ?_) rfl rfl
  · have hpages : (Multiset.range v.inners).map (Function.update v.innerPage v.inners p) =
        (Multiset.range v.inners).map v.innerPage := Multiset.map_congr rfl fun j hj =>
      Function.update_of_ne (Nat.ne_of_lt (Multiset.mem_range.mp hj)) ..
    show (v.addInner p x).metaPages + 0 = v.metaPages + {p}
    unfold metaPages View.addInner
    dsimp only
    rw [Multiset.range_succ, Multiset.map_cons, Function.update_self, hpages,
      ← Multiset.singleton_add]
    abel
  · cases y with
    | metadata => exact (hy rfl).elim
    | bucketSlot b =>
      unfold held
      dsimp only
      by_cases hb : b < v.linked
      · rw [addInner_siCurrent hl hb, addInner_siSnapshot hl hb]
        rfl
      · rw [if_neg hb]
        exact if_neg hb
    | _ => rfl

theorem Paired.addInner (h : v.Paired) (hl : v.Linked) (p : ℕ) (x : SlabInner) :
    (v.addInner p x).Paired :=
  ⟨h.cont, h.sdCurrent, h.sdSnapshot, h.soCurrent, h.soSnapshot,
    fun b hb => by
      rw [addInner_siCurrent hl hb]
      exact h.siCurrent b hb,
    fun b hb => by
      rw [addInner_siSnapshot hl hb]
      exact h.siSnapshot b hb,
    h.entry⟩

end Inner

section Bucket

variable {x : SlabBucket}

theorem adds_addBucket (v : View) (p : ℕ) (x : SlabBucket) :
    v.Adds (v.addBucket p x) (.bucket v.buckets) p := by
  refine ⟨rfl, rfl, rfl, rfl, rfl, rfl, fun y hy => ?_, fun y hy => ?_, fun y hy => ?_,
    Function.update_self .., fun y hy => ?_⟩
  · cases y with
    | bucket j => exact Nat.lt_succ_of_lt hy
    | _ => exact hy
  · cases y with
    | bucket j =>
      rcases Nat.lt_succ_iff_lt_or_eq.mp hy with hj | rfl
      · exact .inl hj
      · exact .inr rfl
    | _ => exact .inl hy
  · cases y with
    | bucket j => exact Function.update_of_ne (Nat.ne_of_lt hy) ..
    | _ => rfl
  · cases y with
    | bucket j => exact congrArg Page.bucket (Function.update_of_ne (Nat.ne_of_lt hy) ..)
    | _ => rfl

theorem addBucket_bucket {b : ℕ} (hb : b < v.buckets) : (v.addBucket p x).bucket b = v.bucket b :=
  Function.update_of_ne (Nat.ne_of_lt hb) ..

theorem addBucket_cap (v : View) (p : ℕ) (x : SlabBucket) :
    (v.addBucket p x).cap = v.cap + slabBucketEntries := Nat.succ_mul ..

theorem Linked.addBucket (h : v.Linked) (hlt : v.buckets < slabInnerEntries * v.outer.soIndex)
    (hx : x.sbId = v.buckets) (p : ℕ) : (v.addBucket p x).Linked := by
  refine ⟨h.current, h.committed, h.sdIndex, h.sdCurrent, h.sdOther, h.sdSnapshot, h.sdSame,
    h.soIndex, h.inners, h.soCurrent, h.soSnapshot, h.soSame, h.linked.trans (Nat.le_succ _), hlt,
    h.siIndex, fun b hb => ?_, h.siSnapshot, h.siOther, fun b hb => ?_⟩
  · rw [show (v.addBucket p x).bucketPage b = v.bucketPage b from
      Function.update_of_ne (Nat.ne_of_lt (hb.trans_le h.linked)) ..]
    exact h.siCurrent b hb
  · rcases Nat.lt_succ_iff_lt_or_eq.mp hb with hb | rfl
    · rw [addBucket_bucket hb]
      exact h.sbId b hb
    · show (Function.update v.bucket v.buckets x v.buckets).sbId = v.buckets
      rw [Function.update_self, hx]

theorem refsTaken_addBucket (h : v.Ok) {r : Option EntryRef} (hr : v.RefsTaken v.taken r) :
    (v.addBucket p x).RefsTaken v.taken r := by
  intro y hy
  obtain ⟨i, hi, rfl⟩ := hr y hy
  exact ⟨i, hi, ((adds_addBucket v p x).ref (hi.trans_le h.taken)).symm⟩

theorem Ok.addBucket (h : v.Ok) (hx : ∀ k, (x.sbEntries k).Blank) (p : ℕ) :
    (v.addBucket p x).Ok := by
  have hadds := adds_addBucket v p x
  have hcap := addBucket_cap v p x
  have hused := h.used.trans h.taken
  have href : ∀ r, (∃ i < v.used, r = (v.addBucket p x).ref i) ↔ ∃ i < v.used, r = v.ref i :=
    fun r => exists_congr fun i => and_congr_right fun hi => by rw [hadds.ref (hi.trans_le hused)]
  refine ⟨h.used, h.taken.trans (by omega), fun r => ?_, fun i hi => ?_, fun i hi => ?_,
    fun i hi hc => ?_, fun n => refsTaken_addBucket h (h.first n),
    fun n => refsTaken_addBucket h (h.last n), fun n i hf hi => ?_, fun r hr => ?_⟩
  · exact (h.root r).trans (href r).symm
  · rw [hadds.entry (hi.trans_le hused)]
    exact h.entry i hi
  · rw [hadds.entry (hi.trans_le hused)]
    exact h.seId i hi
  · by_cases hlt : i < v.cap
    · rw [hadds.entry hlt]
      exact h.blank i hi hlt
    · have hb : i / slabBucketEntries = v.buckets := by
        rw [hcap] at hc
        unfold Places.cap at hc hlt
        simp only [slabBucketEntries_eq] at *
        omega
      unfold View.entry
      rw [hb, show (v.addBucket p x).bucket v.buckets = x from Function.update_self ..]
      exact hx _
  · rw [hadds.ref (hi.trans_le hused)] at hf
    rw [hadds.entry (hi.trans_le hused)]
    exact h.size n i hf hi
  · exact (href r).mpr (h.vector r hr)

theorem Balanced.addBucket (h : v.Balanced (lost + {p})) (ho : v.Ok) (x : SlabBucket) :
    (v.addBucket p x).Balanced lost := by
  rw [← add_zero lost]
  refine h.move metadata_mem ?_ (fun y _ hy => ?_) rfl rfl
  · have hpages : (Multiset.range v.buckets).map (Function.update v.bucketPage v.buckets p) =
        (Multiset.range v.buckets).map v.bucketPage := Multiset.map_congr rfl fun j hj =>
      Function.update_of_ne (Nat.ne_of_lt (Multiset.mem_range.mp hj)) ..
    show (v.addBucket p x).metaPages + 0 = v.metaPages + {p}
    unfold metaPages View.addBucket
    dsimp only
    rw [Multiset.range_succ, Multiset.map_cons, Function.update_self, hpages,
      ← Multiset.singleton_add]
    abel
  · cases y with
    | metadata => exact (hy rfl).elim
    | entry i =>
      unfold held
      dsimp only
      by_cases hi : i < v.used
      · rw [(adds_addBucket v p x).entry (hi.trans_le (ho.used.trans ho.taken))]
        rfl
      · rw [if_neg hi]
        exact if_neg hi
    | _ => rfl

theorem Paired.addBucket (h : v.Paired) (ho : v.Ok) (p : ℕ) (x : SlabBucket) :
    (v.addBucket p x).Paired :=
  ⟨h.cont, h.sdCurrent, h.sdSnapshot, h.soCurrent, h.soSnapshot, h.siCurrent, h.siSnapshot,
    fun i hi => by
      rw [(adds_addBucket v p x).entry (hi.trans_le (ho.used.trans ho.taken))]
      exact h.entry i hi⟩

end Bucket

end View

end LibPM

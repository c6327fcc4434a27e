import LibPM.Session.Growth

/-!
# The programs that grow the tree

One lemma for each program on the growth path of `get_free_slab_entry`. The page a new inner node gets must
be clean: the node is read from it without being cleared.
-/

namespace LibPM

open Recorded Recorded.Prog

/-! ## The next pages -/

/-- The page that is handed out after `k` more. -/
def View.upcoming (v : View) (k : ℕ) : ℕ := (v.free ++ List.range' v.n v.n).getD k 0

section

variable {v : View} {p n' : ℕ} {free' : List ℕ}

theorem TakesPage.eq_upcoming (h : TakesPage p v.n v.free n' free') : p = v.upcoming 0 := by
  unfold View.upcoming
  rcases h.cases with ⟨-, hfree⟩ | ⟨-, hnil, hrange⟩
  · rw [hfree]
    rfl
  · rw [hnil, ← hrange]
    rfl

theorem TakesPage.upcoming_sized (h : TakesPage p v.n v.free n' free') (hn : 2 ≤ v.n) :
    (v.sized n' free').upcoming 0 = v.upcoming 1 := by
  unfold View.upcoming View.sized
  dsimp only
  rcases h.cases with ⟨hn', hfree⟩ | ⟨hn', hnil, hrange⟩
  · rw [hfree, hn', List.cons_append, List.getD_cons_succ]
  · rw [hnil, ← hrange, List.nil_append, List.getD_cons_succ]
    cases free' with
    | nil =>
      have hlen := congrArg List.length hrange
      rw [List.length_range', List.length_singleton] at hlen
      omega
    | cons q l => rfl

theorem View.rests_upcoming (hn : 2 ≤ v.n) {k : ℕ} (hk : k ≤ 1) : v.Rests (v.upcoming k) := by
  have hlen : k < (v.free ++ List.range' v.n v.n).length := by
    rw [List.length_append, List.length_range']
    omega
  unfold View.upcoming
  rw [List.getD_eq_getElem?_getD, List.getElem?_eq_getElem hlen, Option.getD_some]
  rcases List.mem_append.mp (List.getElem_mem hlen) with hmem | hmem
  · exact .inl hmem
  · exact .inr (.inl (List.mem_range'_1.mp hmem).1)

end

/-- The pages the outer node takes before it gets one more child. -/
def View.outerPages (v : View) : ℕ :=
  if v.outer.soIndex = 1 ∧ (v.dir.sdSnapshot 0).maddr = (v.dir.sdCurrent 0).maddr then 1 else 0

theorem View.outerPages_le (v : View) : v.outerPages ≤ 1 := by
  unfold View.outerPages
  split_ifs <;> omega

/-! ## Trees over the same entries -/

/-- `v'` has the buckets and entries of `v`, under nodes that may be others. -/
structure View.Reshaped (v v' : View) : Prop where
  base : v'.base = v.base
  buckets : v'.buckets = v.buckets
  linked : v'.linked = v.linked
  taken : v'.taken = v.taken
  used : v'.used = v.used
  torn : v'.torn = v.torn
  cont : v'.cont = v.cont
  sizes : v'.sizes = v.sizes
  root : v'.dir.sdMaddrRoot = v.dir.sdMaddrRoot
  freeList : v'.dir.sdFreeList = v.dir.sdFreeList
  vector : v'.dir.sdVector = v.dir.sdVector
  bucketPage : ∀ b < v.buckets, v'.bucketPage b = v.bucketPage b
  bucket : ∀ b < v.buckets, v'.bucket b = v.bucket b
  slot : ∀ b < v.linked, v'.siCurrent b = v.siCurrent b ∧ v'.siSnapshot b = v.siSnapshot b

namespace View.Reshaped

variable {v v' v'' : View} {i : ℕ}

theorem refl (v : View) : v.Reshaped v :=
  ⟨rfl, rfl, rfl, rfl, rfl, rfl, rfl, rfl, rfl, rfl, rfl, fun _ _ => rfl, fun _ _ => rfl,
    fun _ _ => ⟨rfl, rfl⟩⟩

theorem trans (h : v.Reshaped v') (h' : v'.Reshaped v'') : v.Reshaped v'' := by
  refine ⟨h'.base.trans h.base, h'.buckets.trans h.buckets, h'.linked.trans h.linked,
    h'.taken.trans h.taken, h'.used.trans h.used, h'.torn.trans h.torn, h'.cont.trans h.cont,
    h'.sizes.trans h.sizes, h'.root.trans h.root, h'.freeList.trans h.freeList,
    h'.vector.trans h.vector, fun b hb => ?_, fun b hb => ?_, fun b hb => ?_⟩
  · rw [h'.bucketPage b (h.buckets.symm ▸ hb), h.bucketPage b hb]
  · rw [h'.bucket b (h.buckets.symm ▸ hb), h.bucket b hb]
  · obtain ⟨hc, hs⟩ := h'.slot b (h.linked.symm ▸ hb)
    obtain ⟨hc', hs'⟩ := h.slot b hb
    exact ⟨hc.trans hc', hs.trans hs'⟩

theorem cap (h : v.Reshaped v') : v'.cap = v.cap := by
  unfold Places.cap
  rw [h.buckets]

theorem entry (h : v.Reshaped v') (hi : i < v.cap) : v'.entry i = v.entry i := by
  unfold View.entry
  rw [h.bucket _ (Places.div_lt hi)]

theorem ref (h : v.Reshaped v') (hi : i < v.cap) : v'.ref i = v.ref i := by
  unfold Places.ref Places.addr
  rw [h.bucketPage _ (Places.div_lt hi), h.base]

theorem sized (v : View) (n : ℕ) (free : List ℕ) : v.Reshaped (v.sized n free) :=
  ⟨rfl, rfl, rfl, rfl, rfl, rfl, rfl, rfl, rfl, rfl, rfl, fun _ _ => rfl, fun _ _ => rfl,
    fun _ _ => ⟨rfl, rfl⟩⟩

end View.Reshaped

namespace Pm

variable {s s' : Pm} {v v' : View} {lost lost' : Multiset ℕ} {i p q a l j : ℕ} {u : Unit}

theorem Holds.two_le (h : s.Holds v lost) : 2 ≤ v.n := by
  have := h.shows.wf.lt .outer trivial
  have hpage : v.pageOf .outer = 2 := rfl
  omega

/-- Stores to the nodes above the buckets. -/
theorem Holds.retree (h : s.Holds v lost) (hs : s'.Shows v') (hm : s.SameData v.toPlaces s')
    (hplaces : v'.toPlaces = v.toPlaces) (htaken : v'.taken = v.taken) (hused : v'.used = v.used)
    (htorn : v'.torn = v.torn) (hsizes : v'.sizes = v.sizes) (hbucket : v'.bucket = v.bucket)
    (hroot : v'.dir.sdMaddrRoot = v.dir.sdMaddrRoot) (hvec : v'.dir.sdVector = v.dir.sdVector)
    (hl : v'.Linked) (hb : v'.Balanced lost') (hpaired : s.IsFixed → v.Paired → v'.Paired)
    (hladdr : ∀ b < v'.linked, (v'.siCurrent b).laddr = s.vmap (v.bucketPage b) * pageSize) :
    s'.Holds v' lost' ∧ s.Evolves v ∅ s' v' := by
  have hentry : ∀ i, v'.entry i = v.entry i := fun i => by
    unfold View.entry
    rw [hbucket]
  have hqueue : ∀ n, v'.queue (.size n) = v.queue (.size n) := fun n => by
    unfold View.queue
    dsimp only
    rw [hsizes]
  refine h.update hs hm hplaces hused hl ?_ hb (fun i _ => by rw [hentry]) (fun i _ => by rw [hentry])
    (fun i _ _ _ _ => by rw [hentry]) (fun i _ => by rw [hentry]) (fun i hi => .inl (htorn ▸ hi))
    (fun r hr => by rwa [hvec]) hpaired hladdr
  refine ⟨?_, ?_, fun r => ?_, fun i hi => ?_, fun i hi => ?_, fun i hi hc => ?_, fun n => ?_,
    fun n => ?_, fun n i hf hi => ?_, fun r hr => ?_⟩
  · rw [hused, htaken]
    exact h.ok.used
  · rw [htaken, hplaces]
    exact h.ok.taken
  · rw [hroot, hused, hplaces]
    exact h.ok.root r
  · rw [hused] at hi
    rw [hentry, hplaces]
    exact h.ok.entry i hi
  · rw [hused] at hi
    rw [hentry]
    exact h.ok.seId i hi
  · rw [hused] at hi
    rw [hplaces] at hc
    rw [hentry]
    exact h.ok.blank i hi hc
  · unfold View.RefsTaken
    rw [hqueue, htaken, hplaces]
    exact h.ok.first n
  · unfold View.RefsTaken
    rw [hqueue, htaken, hplaces]
    exact h.ok.last n
  · rw [hqueue, hplaces] at hf
    rw [hused] at hi
    rw [hentry]
    exact h.ok.size n i hf hi
  · rw [hvec] at hr
    rw [hused, hplaces]
    exact h.ok.vector r hr

/-! ## Snapshots of nodes -/

/-- The copy of a node is on the next page. -/
theorem Holds.nodeSnapshot (h : s.Holds v lost) {f : ℕ → PmProg Unit} {c : ℕ}
    (hr : Returns (nodeSnapshot a f) s c s') :
    ∃ p n free l t, c = v.addr p ∧ TakesPage p v.n v.free n free ∧
      t.Holds (v.sized n free) (lost + {p}) ∧ s.Evolves v ∅ t (v.sized n free) ∧
      (t.IsFixed ↔ s.IsFixed) ∧ (s.IsFixed → v.addr p = v.base + l) ∧ Returns (f l) t () s' := by
  unfold LibPM.nodeSnapshot at hr
  rw [returns_bind] at hr
  obtain ⟨⟨c, l⟩, s₁, h₁, hr⟩ := hr
  obtain ⟨p, n, free, hg⟩ := h.getpage h₁
  obtain ⟨rfl, hh₁, hv₁⟩ := And.intro hg.maddr (And.intro hg.holds hg.evolves)
  simp only [returns_bind, returns_pure] at hr
  obtain ⟨_, t, h₂, _, _, h₃, rfl, rfl⟩ := hr
  obtain ⟨x, -, ht, hh₂, hv₂⟩ := hh₁.copyPage (by simp) h₂
  refine ⟨p, n, free, l, t, rfl, hg.took.takes, hh₂, hh₁.trans hv₁ hv₂ (Nat.le_refl _), ?_, fun hf => ?_,
    h₃⟩
  · rw [ht]
    exact hg.kind
  · rw [hg.laddr_of_isFixed hf]
    rfl

/-- A copy of the inner node in slot `j` of the outer node. -/
theorem Holds.snapInner (h : s.Holds v lost) (hj : j < v.outer.soIndex)
    (hk : v.outer.soIndex - 1 = j)
    (hsame : (v.outer.soSnapshot j).maddr = (v.outer.soCurrent j).maddr) {sis : ℕ} {t : Pm}
    (h₁ : Returns (slabInnerSnapshot a fun l => updatePage (v.addr 2) (Page.onOuter fun o =>
      { o with soSnapshot := setLaddr o.soSnapshot (o.soIndex - 1) l })) s sis t)
    (h₂ : Returns (updatePage (v.addr 2) (Page.onOuter fun o =>
      { o with soSnapshot := setMaddr o.soSnapshot (o.soIndex - 1) sis })) t u s') :
    ∃ v', s'.Holds v' lost ∧ s.Evolves v ∅ s' v' ∧ v.Reshaped v' ∧ v'.inners = v.inners ∧
      v'.outer.soIndex = v.outer.soIndex ∧ v'.innerPage = v.innerPage := by
  obtain ⟨p, n, free, l, t₁, rfl, -, hh₁, hv₁, hfix, hlin, h₃⟩ := h.nodeSnapshot h₁
  have hq := hh₁.quiet
  obtain ⟨hs₂, hm₂⟩ := hh₁.shows.updateOuter hq h₃
  obtain ⟨hs₃, hm₃⟩ := hs₂.updateOuter (u := ()) hq h₂
  have hp : ¬ v.IsMeta p := hh₁.balanced.lost_notMeta (by simp)
  have hview : (v.sized n free).snapInner j p l = { v.sized n free with outer := { v.outer with
      soSnapshot := setMaddr (setLaddr v.outer.soSnapshot (v.outer.soIndex - 1) l)
        (v.outer.soIndex - 1) (v.addr p) } } := by
    rw [setMaddr_setLaddr, hk]
    rfl
  replace hs₃ : s'.Shows ((v.sized n free).snapInner j p l) := by
    rw [hview]
    exact hs₃
  obtain ⟨hh, hv⟩ := hh₁.retree hs₃ (hm₂.trans hm₃) rfl rfl rfl rfl rfl rfl rfl rfl
    (hh₁.linked.snapInner hp hj l) (hh₁.balanced.snapInner hh₁.linked hj hsame l)
    (fun hf hpair => hpair.snapInner (hlin (hfix.mp hf)) j) hh₁.laddr
  exact ⟨_, hh, hh₁.trans hv₁ hv (Nat.le_refl _), ⟨rfl, rfl, rfl, rfl, rfl, rfl, rfl, rfl, rfl, rfl, rfl,
    fun _ _ => rfl, fun _ _ => rfl, fun _ _ => ⟨rfl, rfl⟩⟩, rfl, rfl, rfl⟩

/-- A copy of the outer node in the slot of the directory. -/
theorem Holds.snapOuter (h : s.Holds v lost)
    (hsame : (v.dir.sdSnapshot 0).maddr = (v.dir.sdCurrent 0).maddr) {sos : ℕ} {t : Pm}
    (h₁ : Returns (slabOuterSnapshot a fun l => updatePage (v.addr 1) (Page.onDir fun d =>
      { d with sdSnapshot := setLaddr d.sdSnapshot (d.sdIndex - 1) l })) s sos t)
    (h₂ : Returns (updatePage (v.addr 1) (Page.onDir fun d =>
      { d with sdSnapshot := setMaddr d.sdSnapshot (d.sdIndex - 1) sos })) t u s') :
    ∃ p n free v', TakesPage p v.n v.free n free ∧ s'.Holds v' lost ∧ s.Evolves v ∅ s' v' ∧
      v.Reshaped v' ∧ v'.inners = v.inners ∧ v'.outer = v.outer ∧ v'.n = n ∧ v'.free = free := by
  obtain ⟨p, n, free, l, t₁, rfl, ht, hh₁, hv₁, hfix, hlin, h₃⟩ := h.nodeSnapshot h₁
  have hq := hh₁.quiet
  obtain ⟨hs₂, hm₂⟩ := hh₁.shows.updateDir hq h₃
  obtain ⟨hs₃, hm₃⟩ := hs₂.updateDir (u := ()) hq h₂
  have hp : ¬ v.IsMeta p := hh₁.balanced.lost_notMeta (by simp)
  have hview : (v.sized n free).snapOuter p l = { v.sized n free with dir := { v.dir with
      sdSnapshot := setMaddr (setLaddr v.dir.sdSnapshot (v.dir.sdIndex - 1) l)
        (v.dir.sdIndex - 1) (v.addr p) } } := by
    rw [setMaddr_setLaddr, h.linked.sdIndex]
    rfl
  replace hs₃ : s'.Shows ((v.sized n free).snapOuter p l) := by
    rw [hview]
    exact hs₃
  obtain ⟨hh, hv⟩ := hh₁.retree hs₃ (hm₂.trans hm₃) rfl rfl rfl rfl rfl rfl rfl rfl
    (hh₁.linked.snapOuter hp l) (hh₁.balanced.snapOuter hh₁.linked hsame l)
    (fun hf hpair => hpair.snapOuter (hlin (hfix.mp hf))) hh₁.laddr
  exact ⟨p, n, free, _, ht, hh, hh₁.trans hv₁ hv (Nat.le_refl _), ⟨rfl, rfl, rfl, rfl, rfl, rfl, rfl, rfl,
    rfl, rfl, rfl, fun _ _ => rfl, fun _ _ => rfl, fun _ _ => ⟨rfl, rfl⟩⟩, rfl, rfl, rfl, rfl⟩

/-! ## Room for an inner node -/

/-- The outer node is copied when it has one child and no snapshot yet. -/
theorem Holds.growOuter (h : s.Holds v lost) {so : ℕ}
    (hr : Returns (growOuter (v.addr 0) (v.addr 1) (v.addr 2)) s so s') :
    so = v.addr 2 ∧ v.outer.soIndex ≤ slabDirEntries ∧ ∃ v', s'.Holds v' lost ∧
      s.Evolves v ∅ s' v' ∧ v.Reshaped v' ∧ v'.inners = v.inners ∧ v'.outer = v.outer ∧
      v'.upcoming 0 = v.upcoming v.outerPages := by
  unfold LibPM.growOuter at hr
  rw [returns_bind] at hr
  obtain ⟨o, s₁, h₁, hr⟩ := hr
  obtain ⟨rfl, rfl⟩ := h.shows.loadOuter h₁
  have hle := h.linked.soIndex.trans h.linked.inners
  have hne : v.outer.soIndex ≠ slabOuterEntries := by
    simp only [slabDirEntries_eq, slabOuterEntries_eq] at hle ⊢
    omega
  rw [if_neg hne] at hr
  simp only [returns_bind, returns_require, returns_pure] at hr
  obtain ⟨d, s₂, h₂, _, _, ⟨⟨hpos, hlt⟩, rfl⟩, _, s₃, h₃, rfl, rfl⟩ := hr
  obtain ⟨rfl, rfl⟩ := h.shows.loadDir h₂
  refine ⟨rfl, by omega, ?_⟩
  have hsnap0 : (v.dir.sdSnapshot 0).maddr ≠ 0 := by
    obtain ⟨p, hp⟩ := h.linked.sdSnapshot
    rw [hp]
    exact h.shows.addr_ne_zero p
  have hiff : (v.dir.sdCurrent (v.outer.soIndex - 1)).maddr =
      (v.dir.sdSnapshot (v.dir.sdIndex - 1)).maddr ↔ v.outer.soIndex = 1 ∧
        (v.dir.sdSnapshot 0).maddr = (v.dir.sdCurrent 0).maddr := by
    rw [h.linked.sdIndex]
    by_cases h1 : v.outer.soIndex = 1
    · rw [h1]
      exact ⟨fun heq => ⟨rfl, heq.symm⟩, fun heq => heq.2.symm⟩
    · rw [h.linked.sdOther _ (by omega)]
      exact iff_of_false (fun heq => hsnap0 heq.symm) (fun hand => h1 hand.1)
  rw [returns_when] at h₃
  rcases h₃ with ⟨hdue, h₃⟩ | ⟨hdue, rfl⟩
  · rw [hiff] at hdue
    rw [returns_bind] at h₃
    obtain ⟨sos, t, h₄, h₅⟩ := h₃
    obtain ⟨p, n, free, v', ht, hh, hv, hre, hin, hout, hn, hfree⟩ := h.snapOuter hdue.2 h₄ h₅
    refine ⟨v', hh, hv, hre, hin, hout, ?_⟩
    rw [View.outerPages, if_pos hdue, ← ht.upcoming_sized h.two_le]
    unfold View.upcoming
    rw [hn, hfree]
    rfl
  · rw [hiff] at hdue
    refine ⟨v, h, .refl s v ∅, .refl v, rfl, rfl, ?_⟩
    rw [View.outerPages, if_neg hdue]

/-- A page becomes the next inner node. -/
theorem Holds.slabInnerInit (h : s.Holds v lost) (hfull : v.linked ≤ slabInnerEntries * v.inners)
    (hlt : v.inners ≤ slabDirEntries)
    (hclean : (innerOfBytes (s.restBytes v.n (v.upcoming 0))).Clean) {si : ℕ} {t : Pm}
    (hr : Returns slabInnerInit s (si, l) t) :
    ∃ p n free x, si = v.addr p ∧ t.Holds ((v.sized n free).addInner p x) lost ∧
      s.Evolves v ∅ t ((v.sized n free).addInner p x) ∧ (t.IsFixed → v.addr p = v.base + l) := by
  unfold LibPM.slabInnerInit at hr
  rw [returns_bind] at hr
  obtain ⟨⟨maddr, laddr⟩, s₁, hget, h₁⟩ := hr
  obtain ⟨p, n, free, hg⟩ := h.getpage hget
  obtain ⟨rfl, hh₁, hv₁⟩ := And.intro hg.maddr (And.intro hg.holds hg.evolves)
  simp only [returns_bind, returns_pure] at h₁
  obtain ⟨_, s₂, h₃, heq, rfl⟩ := h₁
  obtain ⟨rfl, rfl⟩ := Prod.mk.inj heq
  obtain ⟨hs₂, -, -⟩ := hh₁.retypePage (by simp) h₃
  rw [hg.bytes, hg.took.takes.eq_upcoming] at hs₂
  -- the page becomes the node
  obtain ⟨x, hx⟩ : ∃ x, x = innerOfBytes (s.restBytes v.n (v.upcoming 0)) := ⟨_, rfl⟩
  rw [← hx] at hclean hs₂
  rw [← hg.took.takes.eq_upcoming] at hs₂
  have hadds := View.adds_addInner (v.sized n free) p x
  have hcontent : ((v.sized n free).addInner p x).content (.inner v.inners) = .inner x :=
    congrArg Page.inner (Function.update_self ..)
  obtain ⟨hh₂, hv₂⟩ := @Holds.addNode s₁ s₂ (v.sized n free) ((v.sized n free).addInner p x) lost p
    (.inner v.inners) hh₁ (hg.took.prot.writable rfl) hadds
    (hh₁.linked.addInner hfull hlt hclean p) (hh₁.ok.addInner p x) (hh₁.balanced.addInner hh₁.linked x)
    (fun hpair => hpair.addInner hh₁.linked p x)
    (fun b hb => by
      rw [View.addInner_siCurrent hh₁.linked hb]
      exact hh₁.laddr b hb)
    (by
      rw [hcontent, hs₂, show ((v.sized n free).addInner p x).buckets = v.buckets from rfl,
        ← show s₁.nextSlabBucketId = v.buckets from hh₁.nextBucket]
      rfl)
  refine ⟨p, n, free, x, rfl, hh₂, hh₁.trans hv₁ hv₂ (Nat.le_refl _), fun hf => ?_⟩
  rw [hs₂] at hf
  rw [hg.laddr_of_isFixed (hg.kind.mp hf)]
  rfl

/-- The next slot of the outer node leads to a page. -/
theorem Shows.installInner (h : s.Shows v) (hq : v.Quiet)
    (hr : Returns (LibPM.installInner (v.addr 2) (v.addr p) l) s u s') :
    s'.Shows (v.linkInner p l) ∧ s.SameData v.toPlaces s' := by
  unfold LibPM.installInner at hr
  simp only [returns_bind, returns_require] at hr
  obtain ⟨o, s₁, h₁, _, _, ⟨-, rfl⟩, _, s₂, h₂, _, s₃, h₃, _, s₄, h₄, _, s₅, h₅, h₆⟩ := hr
  obtain ⟨rfl, rfl⟩ := h.loadOuter h₁
  obtain ⟨hs₂, hm₂⟩ := h.updateOuter hq h₂
  obtain ⟨hs₃, hm₃⟩ := hs₂.updateOuter (u := ()) hq h₃
  obtain ⟨hs₄, hm₄⟩ := hs₃.updateOuter (u := ()) hq h₄
  obtain ⟨hs₅, hm₅⟩ := hs₄.updateOuter (u := ()) hq h₅
  obtain ⟨hs₆, hm₆⟩ := hs₅.updateOuter (u := ()) hq h₆
  have hview : v.linkInner p l = { v with outer := {
      soIndex := v.outer.soIndex + 1
      soCurrent := setLaddr (setMaddr v.outer.soCurrent v.outer.soIndex (v.addr p)) v.outer.soIndex l
      soSnapshot :=
        setLaddr (setMaddr v.outer.soSnapshot v.outer.soIndex (v.addr p)) v.outer.soIndex l } } := by
    rw [setLaddr_setMaddr, setLaddr_setMaddr]
    rfl
  rw [hview]
  exact ⟨hs₆, hm₂.trans (hm₃.trans (hm₄.trans (hm₅.trans hm₆)))⟩

/-- A new inner node in the next slot of the outer node. -/
theorem Holds.newInner (h : s.Holds v lost) (hfull : v.linked ≤ slabInnerEntries * v.inners)
    (hin : v.outer.soIndex = v.inners) (hlt : v.inners ≤ slabDirEntries)
    (hclean : (innerOfBytes (s.restBytes v.n (v.upcoming 0))).Clean) {si : ℕ} {t : Pm}
    (h₁ : Returns LibPM.slabInnerInit s (si, l) t)
    (h₂ : Returns (installInner (v.addr 2) si l) t u s') :
    ∃ v', s'.Holds v' lost ∧ s.Evolves v ∅ s' v' ∧ v.Reshaped v' ∧ v'.inners = v.inners + 1 ∧
      v'.outer.soIndex = v'.inners ∧ si = v'.addr (v'.innerPage v.inners) := by
  obtain ⟨p, n, free, x, rfl, hh₂, hv₂, hlin⟩ := h.slabInnerInit hfull hlt hclean h₁
  have hold := (h.linked.sized n free)
  have hpage : ((v.sized n free).addInner p x).innerPage v.outer.soIndex = p := by
    rw [hin]
    exact Function.update_self ..
  -- the slot leads to it
  obtain ⟨hs₈, hm₈⟩ := hh₂.shows.installInner hh₂.quiet h₂
  have hlink := hh₂.linked.linkInner (hin.trans_lt (Nat.lt_succ_self _)) l
  rw [show ((v.sized n free).addInner p x).innerPage ((v.sized n free).addInner p x).outer.soIndex = p
    from hpage] at hlink
  obtain ⟨hh, hv⟩ := hh₂.retree hs₈ hm₈ rfl rfl rfl rfl rfl rfl rfl rfl hlink (hh₂.balanced.linkInner p l)
    (fun hf hpair => hpair.linkInner (hlin hf)) hh₂.laddr
  refine ⟨_, hh, hh₂.trans hv₂ hv (Nat.le_refl _), ⟨rfl, rfl, rfl, rfl,
    rfl, rfl, rfl, rfl, rfl, rfl, rfl, fun _ _ => rfl, fun _ _ => rfl, fun b hb => ⟨?_, ?_⟩⟩, rfl, ?_, ?_⟩
  · exact View.addInner_siCurrent (p := p) hold hb
  · exact View.addInner_siSnapshot (p := p) hold hb
  · show v.outer.soIndex + 1 = v.inners + 1
    rw [hin]
  · show v.addr p = v.addr (Function.update v.innerPage v.inners p v.inners)
    rw [Function.update_self]

/-! ## Room for a bucket -/

/-- The page of the next inner node has no slot in use. -/
def CleanNode (s : Pm) (v : View) : Prop :=
  v.linked = slabInnerEntries * v.inners →
    (innerOfBytes (s.restBytes v.n (v.upcoming v.outerPages))).Clean

/-- The last inner node has room, or there is a new one. -/
theorem Holds.growInner (h : s.Holds v lost) (hin : v.outer.soIndex = v.inners) (hpos : 0 < v.inners)
    (hle : v.linked ≤ slabInnerEntries * v.inners)
    (hspan : slabInnerEntries * v.inners < v.linked + slabInnerEntries) (hclean : s.CleanNode v)
    {si : ℕ} (hr : Returns (growInner (v.addr 0) (v.addr 1) (v.addr 2)
      (v.addr (v.innerPage (v.inners - 1)))) s si s') :
    ∃ v', s'.Holds v' lost ∧ s.Evolves v ∅ s' v' ∧ v.Reshaped v' ∧ v'.outer.soIndex = v'.inners ∧
      v'.inners = v.linked / slabInnerEntries + 1 ∧
      si = v'.addr (v'.innerPage (v.linked / slabInnerEntries)) := by
  have hlast : v.inners - 1 < v.inners := by omega
  unfold LibPM.growInner at hr
  rw [returns_bind] at hr
  obtain ⟨i, s₁, h₁, hr⟩ := hr
  obtain ⟨rfl, rfl⟩ := h.shows.loadInner hlast h₁
  rw [h.linked.siIndex _ hlast] at hr
  by_cases hfull : v.linked = slabInnerEntries * v.inners
  · rw [if_pos (by
      simp only [slabInnerEntries_eq] at hfull ⊢
      omega)] at hr
    simp only [returns_bind, returns_pure] at hr
    obtain ⟨so, s₂, h₂, ⟨si', l⟩, s₃, h₃, _, s₄, h₄, rfl, rfl⟩ := hr
    obtain ⟨rfl, hlt, v₂, hh₂, hv₂, hre₂, hin₂, hout₂, hup⟩ := h.growOuter h₂
    rw [hin] at hlt
    have hbytes : s₂.restBytes v₂.n (v₂.upcoming 0) = s.restBytes v.n (v.upcoming v.outerPages) := by
      rw [hv₂.bytes _ (View.rests_upcoming hh₂.two_le (by omega)) (Set.notMem_empty _), hup]
    rw [← hv₂.addr] at h₄
    obtain ⟨v', hh, hv, hre, hin', hso, hsi⟩ := hh₂.newInner (by rw [hre₂.linked, hin₂, hfull])
      (by rw [hout₂, hin₂, hin]) (by rw [hin₂]; exact hlt) (by
        rw [hbytes]
        exact hclean hfull) h₃ h₄
    have hdiv : v.linked / slabInnerEntries = v.inners := by
      rw [hfull, Nat.mul_div_cancel_left _ (by decide)]
    refine ⟨v', hh, hh₂.trans hv₂ hv hre₂.cap.ge, hre₂.trans hre, hso, ?_, ?_⟩
    · rw [hin', hin₂, hdiv]
    · rw [hsi, hin₂, hdiv]
  · have hdiv : v.linked / slabInnerEntries = v.inners - 1 := by
      simp only [slabInnerEntries_eq] at *
      omega
    rw [if_neg (by
      simp only [slabInnerEntries_eq] at *
      omega)] at hr
    simp only [returns_bind, returns_pure] at hr
    obtain ⟨o, s₂, h₂, _, s₃, h₃, rfl, rfl⟩ := hr
    obtain ⟨rfl, rfl⟩ := h.shows.loadOuter h₂
    rw [returns_when] at h₃
    have hj : v.inners - 1 < v.outer.soIndex := by omega
    rcases h₃ with ⟨hdue, h₃⟩ | ⟨-, rfl⟩
    · rw [returns_bind] at h₃
      obtain ⟨sis, t, h₄, h₅⟩ := h₃
      rw [hin] at hdue
      obtain ⟨v', hh, hv, hre, hin', hso, hpage⟩ :=
        h.snapInner hj (by rw [hin]) hdue.symm h₄ h₅
      refine ⟨v', hh, hv, hre, ?_, ?_, ?_⟩
      · rw [hso, hin', hin]
      · rw [hin', hdiv]
        omega
      · rw [hv.addr, hpage, hdiv]
    · refine ⟨v, h, .refl s v ∅, .refl v, hin, by omega, by rw [hdiv]⟩

end Pm

end LibPM

import LibPM.Restore.Opened
import LibPM.Session.Commit

/-!
# Committing the slab tree

A bucket is visited only if its flag is set, and then its old version is given back without a look at the links: this is
right if the slot of every such bucket has a snapshot of its own.
-/

namespace LibPM

open Recorded Recorded.Prog

/-! ## Buckets -/

namespace View

variable {v : View} {b : ℕ}

theorem setSlot_eq_setInner (v : View) (b : ℕ) : v.setSlot b (v.siCurrent b) (v.siCurrent b) =
    v.setInner (b / slabInnerEntries) { v.inner (b / slabInnerEntries) with
      siSnapshot := setMaddr (setLaddr (v.inner (b / slabInnerEntries)).siSnapshot (b % slabInnerEntries) (v.siCurrent b).laddr)
        (b % slabInnerEntries) (v.siCurrent b).maddr } := by
  unfold View.setSlot View.putSlot
  rw [setMaddr_setLaddr]
  unfold View.siCurrent
  rw [Function.update_eq_self]

/-- The slot of one bucket, and its flag. -/
theorem Commits.setSlot (v : View) (b : ℕ) (free : List ℕ) :
    v.Commits ∅ {b} ∅ (((v.setSlot b (v.siCurrent b) (v.siCurrent b)).sized v.n free).setFlag b 0) := by
  refine ⟨⟨rfl⟩, rfl, rfl, rfl, rfl, rfl, rfl, rfl, ⟨_, rfl⟩, fun j => ?_, fun _ hi => hi.elim, fun i _ => ?_,
    fun c hc => ?_, fun c hc => ?_, fun _ hj => hj.elim, fun _ _ => rfl⟩
  · rw [setSlot_eq_setInner]
    by_cases hj : j = b / slabInnerEntries
    · rw [hj]
      exact ⟨_, v.setInner_inner _ _⟩
    · exact ⟨(v.inner j).siSnapshot, v.setInner_inner_of_ne _ hj⟩
  · exact setFlag_entry _ b 0 i
  · obtain rfl : c = b := hc
    refine ⟨?_, ?_⟩
    · exact (v.setSlot_siSnapshot c _ _ c).trans (if_pos rfl)
    · rw [setFlag_sbHasSnapshot, if_pos rfl]
  · refine ⟨?_, ?_⟩
    · exact (v.setSlot_siSnapshot b _ _ c).trans (if_neg hc)
    · have hcb : c ≠ b := hc
      rw [setFlag_sbHasSnapshot, if_neg hcb]
      rfl

end View

namespace Pm

variable {s s' t : Pm} {v v' w : View} {lost : Multiset ℕ} {L : List ℕ} {b i j k n p : ℕ} {u : Unit} {type : CpointType}

/-- The slot of a bucket with two versions is committed, and its flag cleared. -/
theorem Holds.commitSlot {si : ℕ} {x : SlabInner} {s₁ s₂ s₃ s₄ : Pm} {u₁ u₃ u₄ : Unit} (h : s.Holds v lost) (hb : b < v.linked)
    (hne : (v.siSnapshot b).maddr ≠ (v.siCurrent b).maddr) (hsi : si = v.addr (v.innerPage (b / slabInnerEntries)))
    (h₁ : Returns (updatePage si (Page.onInner fun n => { n with
      siSnapshot := setLaddr n.siSnapshot (b % slabInnerEntries) (n.siCurrent (b % slabInnerEntries)).laddr })) s u₁ s₁)
    (h₂ : Returns (loadInner si) s₁ x s₂)
    (h₃ : Returns (pageAllocatorFreepages (x.siSnapshot (b % slabInnerEntries)).maddr) s₂ u₃ s₃)
    (h₄ : Returns (updatePage si (Page.onInner fun n => { n with
      siSnapshot := setMaddr n.siSnapshot (b % slabInnerEntries) (n.siCurrent (b % slabInnerEntries)).maddr })) s₃ u₄ s₄)
    (h₅ : Returns (updatePage (v.addr (v.bucketPage b)) (Page.onBucket fun y => { y with sbHasSnapshot := 0 })) s₄ u s') :
    ∃ v', s.Checkpointed type v lost ∅ {b} ∅ s' v' := by
  have hbb := hb.trans_le h.linked.linked
  have hin := h.linked.has_inner hbb
  subst hsi
  obtain ⟨p, hp⟩ := h.linked.siSnapshot b hb
  replace hp : (v.siSnapshot b).maddr = v.addr p := hp
  -- the old version is the one the slot holds
  have hold : oldPages v.base (v.siCurrent b).maddr (v.siSnapshot b).maddr = {p} := by
    rw [oldPages_of_ne hne, hp]
    exact congrArg ({·}) (pageNo_add v.base p)
  have hlt : p < v.n := by
    refine h.balanced.lt_n (h.linked.bucketSlot_mem hb) ?_
    show p ∈ if b < v.linked then oldPages v.base (v.siCurrent b).maddr (v.siSnapshot b).maddr else 0
    rw [if_pos hb, hold]
    exact Multiset.mem_singleton_self p
  have hc₁ := h.dropped.updateInner hin h₁
  obtain ⟨rfl, rfl⟩ := hc₁.loadInner hin h₂
  rw [View.setInner_inner] at h₃
  dsimp only at h₃
  rw [setLaddr_self, show ((v.inner (b / slabInnerEntries)).siSnapshot (b % slabInnerEntries)).maddr = v.addr p from hp] at h₃
  have hc₄ := (hc₁.give hlt h₃).updateInner hin h₄
  rw [View.setInner_inner, View.setInner_setInner] at hc₄
  replace hc₄ : s.Dropped v (v.setSlot b (v.siCurrent b) (v.siCurrent b)) [p] s₄ := by
    rw [View.setSlot_eq_setInner]
    exact hc₄
  have hcur := h.linked.siCurrent b hb
  have hbal : (v.setSlot b (v.siCurrent b) (v.siCurrent b)).Balanced (lost + ↑[p]) := by
    have hbal := h.balanced
    rw [← add_zero lost] at hbal
    refine hbal.setSlot h.linked hb ?_
    rw [oldPages_self, hold, zero_add, add_zero]
    rfl
  have hh : s₄.Holds ((v.setSlot b (v.siCurrent b) (v.siCurrent b)).sized v.n (v.free ++ [p])) lost :=
    hc₄.holds h rfl (h.linked.setSlot rfl fun _ => ⟨_, hcur⟩)
      ⟨h.ok.used, h.ok.taken, h.ok.root, h.ok.entry, h.ok.seId, h.ok.blank, h.ok.first, h.ok.last, h.ok.size, h.ok.vector⟩
      hbal (fun _ _ => rfl) (fun hpair => hpair.setSlot (hpair.siCurrent b) (hpair.siCurrent b)) rfl fun c _ => by
        rw [View.setSlot_siCurrent]
        split_ifs with hcb
        · rw [hcb]
        · rfl
  obtain ⟨hh', -⟩ := hh.setFlag (b := b) (f := 0) hbb h₅
  have hm := (hh.shows.updateBucket hh.quiet (b := b) hbb h₅).2
  exact ⟨_, hh', .setSlot v b _, hc₄.same.sameContents.trans (hm.sameMapping.sameContents.congr (v := v) ⟨rfl⟩),
    .of_prot (hm.prot.trans hc₄.same.prot)⟩

end Pm

namespace View

/-- The linked buckets before `m` whose flag is set. -/
def marked (v : View) (m : ℕ) : Set ℕ := {b | b < v.linked ∧ b < m ∧ (v.bucket b).sbHasSnapshot ≠ 0}

/-- The entries of the buckets of `B`. -/
def entriesOf (v : View) (B : Set ℕ) : Set ℕ := {i | i < v.used ∧ i / slabBucketEntries ∈ B}

variable {v : View} {m b : ℕ}

theorem marked_succ (hb : b < v.linked) (hf : (v.bucket b).sbHasSnapshot ≠ 0) (c : ℕ) :
    c ∈ v.marked (b + 1) ↔ c ∈ v.marked b ∨ c = b := by
  unfold marked
  constructor
  · rintro ⟨hc, hcb, hcf⟩
    exact (Nat.lt_succ_iff_lt_or_eq.mp hcb).imp_left fun hlt => ⟨hc, hlt, hcf⟩
  · rintro (⟨hc, hcb, hcf⟩ | rfl)
    · exact ⟨hc, Nat.lt_succ_of_lt hcb, hcf⟩
    · exact ⟨hb, Nat.lt_succ_self c, hf⟩

theorem marked_succ_of_zero (hf : (v.bucket b).sbHasSnapshot = 0) : v.marked (b + 1) = v.marked b := by
  ext c
  unfold marked
  refine and_congr_right fun _ => ⟨fun ⟨hcb, hcf⟩ => ⟨?_, hcf⟩, fun ⟨hcb, hcf⟩ => ⟨Nat.lt_succ_of_lt hcb, hcf⟩⟩
  refine (Nat.lt_succ_iff_lt_or_eq.mp hcb).resolve_right ?_
  rintro rfl
  exact hcf hf

theorem marked_of_le {k : ℕ} (hm : v.linked ≤ m) (hk : v.linked ≤ k) : v.marked m = v.marked k := by
  ext c
  unfold marked
  exact ⟨fun ⟨hc, _, hcf⟩ => ⟨hc, hc.trans_le hk, hcf⟩, fun ⟨hc, _, hcf⟩ => ⟨hc, hc.trans_le hm, hcf⟩⟩

theorem notMem_marked (v : View) (b : ℕ) : b ∉ v.marked b := fun hb => Nat.lt_irrefl b hb.2.1

end View

namespace Pm

variable {s s' t : Pm} {v v' w : View} {lost : Multiset ℕ} {L : List ℕ} {b i j k m n p : ℕ} {u : Unit} {type : CpointType}

/-- The buckets before `m` are committed if their flag was set, and the inner nodes before `j`. -/
def CommittedTo (s : Pm) (type : CpointType) (v : View) (lost : Multiset ℕ) (m j : ℕ) (t : Pm) : Prop :=
  ∃ w, s.Checkpointed type v lost (v.entriesOf (v.marked m)) (v.marked m) (Set.Iio j) t w

/-- One round of `slab_inner_cpoint`. -/
theorem Checkpointed.round {si : ℕ} (hc : s.Checkpointed type v lost (v.entriesOf (v.marked b)) (v.marked b) (Set.Iio j) t w) (hf : v.Flagged)
    (hl : v.Linked) (hb : b < v.linked) (hsi : si = v.addr (v.innerPage (b / slabInnerEntries))) (hk : k = b % slabInnerEntries)
    (hr : Returns (do
      let n ← loadInner si
      let sb := (n.siCurrent k).maddr
      let x ← loadBucket sb
      when (x.sbHasSnapshot ≠ 0) do
        slabBucketCpoint sb type
        updatePage si (Page.onInner fun n => { n with siSnapshot := setLaddr n.siSnapshot k (n.siCurrent k).laddr })
        let n ← loadInner si
        pageAllocatorFreepages (n.siSnapshot k).maddr
        updatePage si (Page.onInner fun n => { n with siSnapshot := setMaddr n.siSnapshot k (n.siCurrent k).maddr })
        updatePage sb (Page.onBucket fun b => { b with sbHasSnapshot := 0 })) t u s') :
    s.CommittedTo type v lost (b + 1) j s' := by
  have hp := hc.commits.placed
  have hbb := hb.trans_le hl.linked
  have hbw : b < w.buckets := hp.buckets.symm ▸ hbb
  have hin : b / slabInnerEntries < w.inners := hp.inners.symm ▸ hl.has_inner hbb
  have hlw : b < w.linked := hc.commits.linked.symm ▸ hb
  have hsi' : si = w.addr (w.innerPage (b / slabInnerEntries)) := by rw [hsi, hp.addr, hp.innerPage]
  subst hk
  rw [returns_bind] at hr
  obtain ⟨x, t₁, h₁, hr⟩ := hr
  rw [hsi'] at h₁
  obtain ⟨rfl, rfl⟩ := hc.holds.shows.loadInner hin h₁
  have hsb : ((w.inner (b / slabInnerEntries)).siCurrent (b % slabInnerEntries)).maddr = w.addr (w.bucketPage b) :=
    hc.holds.linked.siCurrent b hlw
  dsimp only at hr
  rw [hsb, returns_bind] at hr
  obtain ⟨y, t₂, h₂, hr⟩ := hr
  obtain ⟨rfl, rfl⟩ := hc.holds.shows.loadBucket hbw h₂
  obtain ⟨hsnap, hflag⟩ := hc.commits.others b (v.notMem_marked b)
  rw [hflag] at hr
  rcases returns_when.mp hr with ⟨hne, hr⟩ | ⟨h0, rfl⟩
  · simp only [returns_bind] at hr
    obtain ⟨_, t₃, h₃, _, t₄, h₄, x, t₅, h₅, _, t₆, h₆, _, t₇, h₇, h₈⟩ := hr
    obtain ⟨w₁, hc₁⟩ := hc.holds.slabBucketCpoint hbw h₃
    have hp₁ := hc₁.commits.placed
    have hsnap₁ : (w₁.siSnapshot b).maddr ≠ (w₁.siCurrent b).maddr := by
      rw [(hc₁.commits.others b (Set.notMem_empty b)).1, hc₁.commits.siCurrent, hsnap, hc.commits.siCurrent]
      exact hf b hb hne
    rw [← hp₁.addr, ← hp₁.bucketPage] at h₈
    obtain ⟨w₂, hc₂⟩ := hc₁.holds.commitSlot (hc₁.commits.linked.symm ▸ hlw) hsnap₁
      (by rw [hsi', hp₁.addr, hp₁.innerPage]) h₄ h₅ h₆ h₇ h₈
    refine ⟨w₂, ((hc.trans hc₁).trans hc₂).congr (fun i => ?_) (fun c => ?_) fun i => ?_⟩
    · have hiff := View.marked_succ hb hne (i / slabBucketEntries)
      constructor
      · rintro ⟨hi, hm⟩
        rcases hiff.mp hm with hm | hm
        · exact .inl (.inl ⟨hi, hm⟩)
        · exact .inl (.inr ⟨hc.commits.used.symm ▸ hi, hm⟩)
      · rintro ((⟨hi, hm⟩ | ⟨hi, hm⟩) | hm)
        · exact ⟨hi, hiff.mpr (.inl hm)⟩
        · exact ⟨hc.commits.used ▸ hi, hiff.mpr (.inr hm)⟩
        · exact hm.elim
    · rw [View.marked_succ hb hne c]
      exact or_congr_left (Iff.of_eq (or_false _).symm)
    · exact (Iff.of_eq (or_false _)).symm.trans (Iff.of_eq (or_false _)).symm
  · unfold CommittedTo
    rw [View.marked_succ_of_zero (not_not.mp h0)]
    exact ⟨w, hc⟩

/-- **`slab_inner_cpoint`.** -/
theorem CommittedTo.slabInnerCpoint (hc : s.CommittedTo type v lost (slabInnerEntries * j) i t) (hf : v.Flagged) (hl : v.Linked)
    (hj : j < v.inners) (hr : Returns (slabInnerCpoint (v.addr (v.innerPage j)) type) t u s') :
    s.CommittedTo type v lost (slabInnerEntries * (j + 1)) i s' := by
  unfold LibPM.slabInnerCpoint at hr
  have hloop := Returns.forSlots_induct (n := (v.inner j).siIndex)
    (Q := fun k t => s.CommittedTo type v lost (slabInnerEntries * j + k) i t) (fun _ t k t' hQ hk => ?_) hc
    (fun k hk _ t t' hQ hr => ?_) hr
  · obtain ⟨hc, -⟩ := hloop
    have hn := hl.siIndex j hj
    unfold CommittedTo at hc ⊢
    rwa [show v.marked (slabInnerEntries * (j + 1)) = v.marked (slabInnerEntries * j + (v.inner j).siIndex) from ?_]
    rw [hn]
    by_cases hle : slabInnerEntries ≤ v.linked - slabInnerEntries * j
    · rw [Nat.min_eq_left hle]
      rfl
    · refine View.marked_of_le ?_ ?_ <;> simp only [slabInnerEntries_eq] at * <;> omega
  · obtain ⟨w, hw⟩ := hQ
    have hp := hw.commits.placed
    obtain ⟨x, hx, rfl⟩ := returns_map.mp hk
    rw [← hp.addr, ← hp.innerPage] at hx
    obtain ⟨rfl, rfl⟩ := hw.holds.shows.loadInner (hp.inners.symm ▸ hj) hx
    exact ⟨hw.commits.siIndex j, rfl⟩
  · obtain ⟨w, hw⟩ := hQ
    have hn := hl.siIndex j hj
    have hk' : k < slabInnerEntries := by omega
    refine hw.round hf hl ?_ ?_ ?_ hr
    · omega
    · rw [Nat.mul_add_div (by decide), Nat.div_eq_of_lt hk', Nat.add_zero]
    · rw [Nat.mul_add_mod, Nat.mod_eq_of_lt hk']

end Pm

/-! ## Inner nodes and the outer node -/

namespace View

variable {v : View} {lost : Multiset ℕ} {j : ℕ} {drop : Multiset ℕ}

/-- The slot `j` of the outer node is committed. -/
def commitInner (v : View) (j : ℕ) : View :=
  { v with outer := { v.outer with soSnapshot := Function.update v.outer.soSnapshot j (v.outer.soCurrent j) } }

/-- The slot of the outer node is committed. -/
def commitOuter (v : View) : View :=
  { v with dir := { v.dir with sdSnapshot := Function.update v.dir.sdSnapshot 0 (v.dir.sdCurrent 0) } }

theorem Linked.commitInner (h : v.Linked) (hj : j < v.outer.soIndex) : (v.commitInner j).Linked := by
  refine ⟨h.current, h.committed, h.sdIndex, h.sdCurrent, h.sdOther, h.sdSnapshot, h.sdSame, h.soIndex, h.inners, h.soCurrent,
    fun k hk => ?_, fun k hk heq => ?_, h.linked, h.buckets, h.siIndex, h.siCurrent, h.siSnapshot, h.siOther, h.sbId⟩
  · show IsPage v.base (Function.update v.outer.soSnapshot j (v.outer.soCurrent j) k).maddr
    rw [Function.update_apply]
    split_ifs
    · exact ⟨_, h.soCurrent j hj⟩
    · exact h.soSnapshot k hk
  · show Function.update v.outer.soSnapshot j (v.outer.soCurrent j) k = v.outer.soCurrent k
    replace heq : (Function.update v.outer.soSnapshot j (v.outer.soCurrent j) k).maddr = (v.outer.soCurrent k).maddr := heq
    rw [Function.update_apply] at heq ⊢
    split_ifs at heq ⊢ with hkj
    · rw [hkj]
    · exact h.soSame k hk heq

theorem Balanced.commitInner (h : v.Balanced lost) (hl : v.Linked) (hj : j < v.outer.soIndex) : (v.commitInner j).Balanced
    (lost + oldPages v.base (v.outer.soCurrent j).maddr (v.outer.soSnapshot j).maddr) := by
  rw [← add_zero lost] at h
  refine h.move (hl.innerSlot_mem hj) ?_ (fun y _ hy => ?_) rfl rfl
  · unfold held View.commitInner
    dsimp only
    rw [if_pos hj, if_pos hj, Function.update_self, oldPages_self, zero_add, add_zero]
  · cases y with
    | innerSlot k =>
      have hkj : k ≠ j := fun hk => hy (congrArg _ hk)
      unfold held View.commitInner
      dsimp only
      rw [Function.update_of_ne hkj]
    | _ => rfl

theorem Paired.commitInner (h : v.Paired) (hj : j < v.outer.soIndex) : (v.commitInner j).Paired := by
  refine ⟨h.cont, h.sdCurrent, h.sdSnapshot, h.soCurrent, fun k hk => ?_, h.siCurrent, h.siSnapshot, h.entry⟩
  show (Function.update v.outer.soSnapshot j (v.outer.soCurrent j) k).Paired v.base
  rw [Function.update_apply]
  split_ifs
  · exact h.soCurrent j hj
  · exact h.soSnapshot k hk

theorem Linked.commitOuter (h : v.Linked) : v.commitOuter.Linked := by
  refine ⟨h.current, h.committed, h.sdIndex, h.sdCurrent, h.sdOther, ?_, fun _ => ?_, h.soIndex, h.inners, h.soCurrent,
    h.soSnapshot, h.soSame, h.linked, h.buckets, h.siIndex, h.siCurrent, h.siSnapshot, h.siOther, h.sbId⟩
  · show IsPage v.base (Function.update v.dir.sdSnapshot 0 (v.dir.sdCurrent 0) 0).maddr
    rw [Function.update_self]
    exact ⟨2, h.sdCurrent⟩
  · show Function.update v.dir.sdSnapshot 0 (v.dir.sdCurrent 0) 0 = v.dir.sdCurrent 0
    rw [Function.update_self]

theorem Balanced.commitOuter (h : v.Balanced lost) : v.commitOuter.Balanced
    (lost + oldPages v.base (v.dir.sdCurrent 0).maddr (v.dir.sdSnapshot 0).maddr) := by
  rw [← add_zero lost] at h
  refine h.move outerSlot_mem ?_ (fun y _ hy => ?_) rfl rfl
  · unfold held View.commitOuter
    dsimp only
    rw [Function.update_self, oldPages_self, zero_add, add_zero]
  · cases y with
    | outerSlot => exact (hy rfl).elim
    | _ => rfl

theorem Paired.commitOuter (h : v.Paired) : v.commitOuter.Paired := by
  refine ⟨h.cont, h.sdCurrent, ?_, h.soCurrent, h.soSnapshot, h.siCurrent, h.siSnapshot, h.entry⟩
  show (Function.update v.dir.sdSnapshot 0 (v.dir.sdCurrent 0) 0).Paired v.base
  rw [Function.update_self]
  exact h.sdCurrent

theorem Commits.commitInner (v : View) (j : ℕ) (free : List ℕ) :
    v.Commits ∅ ∅ {j} ((v.commitInner j).sized v.n free) := by
  refine ⟨⟨rfl⟩, rfl, rfl, rfl, rfl, rfl, rfl, rfl, ⟨_, rfl⟩, fun _ => ⟨_, rfl⟩, fun _ hi => hi.elim, fun _ _ => rfl,
    fun _ hb => hb.elim, fun _ _ => ⟨rfl, rfl⟩, fun k hk => ?_, fun k hk => ?_⟩
  · obtain rfl : k = j := hk
    exact Function.update_self _ _ _
  · exact Function.update_of_ne hk _ _

end View

namespace Pm

variable {s s' t : Pm} {v v' w : View} {lost : Multiset ℕ} {L : List ℕ} {b i j k m n p : ℕ} {u : Unit} {type : CpointType}

/-- The end of a round of `slab_outer_cpoint`. -/
theorem Holds.commitLink (h : s.Holds v lost) (hj : j < v.outer.soIndex)
    (hr : Returns (when ((v.outer.soCurrent j).maddr ≠ (v.outer.soSnapshot j).maddr) do
      updatePage (v.addr 2) (Page.onOuter fun o => { o with soSnapshot := setLaddr o.soSnapshot j (o.soCurrent j).laddr })
      pageAllocatorFreepages (v.outer.soSnapshot j).maddr
      updatePage (v.addr 2) (Page.onOuter fun o => { o with soSnapshot := setMaddr o.soSnapshot j (o.soCurrent j).maddr }))
      s u s') : ∃ v', s.Checkpointed type v lost ∅ ∅ {j} s' v' := by
  rcases returns_when.mp hr with ⟨hne, hr⟩ | ⟨heq, rfl⟩
  · simp only [returns_bind] at hr
    obtain ⟨_, s₁, h₁, _, s₂, h₂, h₃⟩ := hr
    obtain ⟨p, hp⟩ := h.linked.soSnapshot j hj
    replace hp : (v.outer.soSnapshot j).maddr = v.addr p := hp
    have hold : oldPages v.base (v.outer.soCurrent j).maddr (v.outer.soSnapshot j).maddr = {p} := by
      rw [oldPages_of_ne (Ne.symm hne), hp]
      exact congrArg ({·}) (pageNo_add v.base p)
    have hlt : p < v.n := by
      refine h.balanced.lt_n (h.linked.innerSlot_mem hj) ?_
      show p ∈ if j < v.outer.soIndex then oldPages v.base (v.outer.soCurrent j).maddr (v.outer.soSnapshot j).maddr else 0
      rw [if_pos hj, hold]
      exact Multiset.mem_singleton_self p
    rw [hp] at h₂
    have hc := ((h.dropped.updateOuter h₁).give hlt h₂).updateOuter h₃
    dsimp only at hc
    rw [setMaddr_setLaddr] at hc
    replace hc : s.Dropped v (v.commitInner j) [p] s' := hc
    have hb := h.balanced.commitInner h.linked hj
    rw [hold] at hb
    exact ⟨_, hc.holds h rfl (h.linked.commitInner hj)
      ⟨h.ok.used, h.ok.taken, h.ok.root, h.ok.entry, h.ok.seId, h.ok.blank, h.ok.first, h.ok.last, h.ok.size, h.ok.vector⟩
      hb (fun _ _ => rfl) (fun hpair => hpair.commitInner hj) rfl fun _ _ => rfl, .commitInner v j _, hc.same.sameContents,
      .of_prot hc.same.prot⟩
  · have heq := (not_not.mp heq).symm
    refine ⟨v, h, ?_, .refl _ s, .of_prot rfl⟩
    have hc := View.Commits.commitInner v j v.free
    unfold View.commitInner at hc
    rw [← h.linked.soSame j hj heq, Function.update_eq_self] at hc
    exact hc

/-- **`slab_outer_cpoint`.** -/
theorem Holds.slabOuterCpoint (h : s.Holds v lost) (hf : v.Flagged)
    (hr : Returns (slabOuterCpoint (v.addr 2) type) s u s') : s.CommittedTo type v lost v.linked v.outer.soIndex s' := by
  have hl := h.linked
  unfold LibPM.slabOuterCpoint at hr
  have hloop := Returns.forSlots_induct (n := v.outer.soIndex)
    (Q := fun j t => s.CommittedTo type v lost (slabInnerEntries * j) j t) (fun j t k t' hQ hk => ?_) ?_
    (fun j hj _ t t' hQ hr => ?_) hr
  · obtain ⟨hloop, -⟩ := hloop
    unfold CommittedTo at hloop ⊢
    rwa [View.marked_of_le (Nat.le_refl v.linked) (hl.linked.trans hl.buckets)]
  · obtain ⟨w, hw⟩ := hQ
    obtain ⟨x, hx, rfl⟩ := returns_map.mp hk
    rw [← hw.commits.placed.addr] at hx
    obtain ⟨rfl, rfl⟩ := hw.holds.shows.loadOuter hx
    exact ⟨hw.commits.soIndex, rfl⟩
  · refine ⟨v, (Checkpointed.refl h).congr (fun i => ?_) (fun b => ?_) fun j => ?_⟩
    · exact iff_of_false (fun hi => Nat.not_lt_zero _ hi.2.2.1) id
    · exact iff_of_false (fun hb => Nat.not_lt_zero _ hb.2.1) id
    · exact iff_of_false (Nat.not_lt_zero j) id
  · have hin : j < v.inners := hj.trans_le hl.soIndex
    rw [returns_bind] at hr
    obtain ⟨o, t₁, h₁, hr⟩ := hr
    have hloaded : o.soCurrent = v.outer.soCurrent ∧ t = t₁ := by
      obtain ⟨w, hw⟩ := hQ
      rw [← hw.commits.placed.addr] at h₁
      obtain ⟨rfl, rfl⟩ := hw.holds.shows.loadOuter h₁
      exact ⟨hw.commits.soCurrent, rfl⟩
    obtain ⟨ho, rfl⟩ := hloaded
    rw [ho, hl.soCurrent j hj, returns_bind] at hr
    obtain ⟨_, t₂, h₂, hr⟩ := hr
    obtain ⟨w, hw⟩ := hQ.slabInnerCpoint hf hl hin h₂
    have hp := hw.commits.placed
    rw [← hp.addr, returns_bind] at hr
    obtain ⟨o, t₃, h₃, hr⟩ := hr
    obtain ⟨rfl, rfl⟩ := hw.holds.shows.loadOuter h₃
    have hjw : j < w.outer.soIndex := hw.commits.soIndex.symm ▸ hj
    obtain ⟨w', hw'⟩ := hw.holds.commitLink hjw hr
    refine ⟨w', (hw.trans hw').congr (fun i => (Iff.of_eq (or_false _)).symm) (fun b => (Iff.of_eq (or_false _)).symm)
      fun i => ?_⟩
    exact Nat.lt_succ_iff_lt_or_eq

end Pm

/-! ## The directory -/

/-- What `slab_cpoint` leaves: the marked buckets and their entries, all inner nodes and the outer node are committed, and
no entry is dirty. -/
structure View.Checkpoint (v v' : View) : Prop where
  commits : v.Commits (v.entriesOf (v.marked v.linked)) (v.marked v.linked) (Set.Iio v.outer.soIndex) { v' with dir := v.dir }
  dir : v'.dir = { v.dir with
    sdSnapshot := Function.update v.dir.sdSnapshot 0 (v.dir.sdCurrent 0)
    sdVector := CVector.free }

namespace View.Checkpoint

variable {v v' : View} {b i j : ℕ}

theorem placed (h : v.Checkpoint v') : v.Placed v' := ⟨h.commits.placed.places⟩

theorem linked (h : v.Checkpoint v') : v'.linked = v.linked := h.commits.linked

theorem taken (h : v.Checkpoint v') : v'.taken = v.taken := h.commits.taken

theorem used (h : v.Checkpoint v') : v'.used = v.used := h.commits.used

theorem buckets (h : v.Checkpoint v') : v'.buckets = v.buckets := h.placed.buckets

theorem sizes (h : v.Checkpoint v') : v'.sizes = v.sizes := h.commits.sizes

/-- No flag is left. -/
theorem flag (h : v.Checkpoint v') (hb : b < v'.linked) : (v'.bucket b).sbHasSnapshot = 0 := by
  rw [h.linked] at hb
  by_cases hm : b ∈ v.marked v.linked
  · exact (h.commits.slot b hm).2
  · have hf := (h.commits.others b hm).2
    by_contra hne
    exact hm ⟨hb, hb, fun h0 => hne (hf.trans h0)⟩

theorem flagged (h : v.Checkpoint v') : v'.Flagged := fun _ hb hne => absurd (h.flag hb) hne

theorem entry_or (h : v.Checkpoint v') (i : ℕ) : v'.entry i = (v.entry i).committed ∨ v'.entry i = v.entry i := by
  by_cases hi : i ∈ v.entriesOf (v.marked v.linked)
  · exact .inl (h.commits.done i hi)
  · exact .inr (h.commits.rest i hi)

/-- A checkpoint changes nothing on the current side of an entry. -/
theorem current (h : v.Checkpoint v') (i : ℕ) : (v'.entry i).dataCurrent = (v.entry i).dataCurrent ∧
    (v'.entry i).ptrCurrent = (v.entry i).ptrCurrent ∧ (v'.entry i).seSize = (v.entry i).seSize ∧
      (v'.entry i).seList = (v.entry i).seList := by
  rcases h.entry_or i with he | he <;> rw [he]
  · exact ⟨rfl, rfl, rfl, rfl⟩
  · exact ⟨rfl, rfl, rfl, rfl⟩

theorem touched (h : v.Checkpoint v') : v.Touched v' := by
  have hp := h.placed
  refine ⟨⟨hp.base, hp.inners, hp.buckets, hp.bucketPage, h.linked, h.taken, h.commits.soIndex, ?_, fun i _ _ => ?_⟩,
    h.used, h.sizes, fun i _ => (h.current i).2.2.1⟩
  · rw [h.dir]
  · exact (h.current i).2.2.2

end View.Checkpoint

namespace Pm

variable {s s' t : Pm} {v v' w : View} {lost : Multiset ℕ} {L : List ℕ} {b i j k m n p : ℕ} {u : Unit} {type : CpointType}

/-- The end of the round of `slab_dir_cpoint`. -/
theorem Holds.commitRoot (h : s.Holds v lost)
    (hr : Returns (when ((v.dir.sdCurrent 0).maddr ≠ (v.dir.sdSnapshot 0).maddr) do
      updatePage (v.addr 1) (Page.onDir fun d => { d with sdSnapshot := setLaddr d.sdSnapshot 0 (d.sdCurrent 0).laddr })
      pageAllocatorFreepages (v.dir.sdSnapshot 0).maddr
      updatePage (v.addr 1) (Page.onDir fun d => { d with sdSnapshot := setMaddr d.sdSnapshot 0 (d.sdCurrent 0).maddr }))
      s u s') : ∃ free, s'.Holds (v.commitOuter.sized v.n free) lost ∧ s.SameContents v.toPlaces s' ∧ s'.prot = s.prot := by
  have hok : v.commitOuter.Ok :=
    ⟨h.ok.used, h.ok.taken, h.ok.root, h.ok.entry, h.ok.seId, h.ok.blank, h.ok.first, h.ok.last, h.ok.size, h.ok.vector⟩
  rcases returns_when.mp hr with ⟨hne, hr⟩ | ⟨heq, rfl⟩
  · simp only [returns_bind] at hr
    obtain ⟨_, s₁, h₁, _, s₂, h₂, h₃⟩ := hr
    obtain ⟨p, hp⟩ := h.linked.sdSnapshot
    replace hp : (v.dir.sdSnapshot 0).maddr = v.addr p := hp
    have hold : oldPages v.base (v.dir.sdCurrent 0).maddr (v.dir.sdSnapshot 0).maddr = {p} := by
      rw [oldPages_of_ne (Ne.symm hne), hp]
      exact congrArg ({·}) (pageNo_add v.base p)
    have hlt : p < v.n := by
      refine h.balanced.lt_n View.outerSlot_mem ?_
      show p ∈ oldPages v.base (v.dir.sdCurrent 0).maddr (v.dir.sdSnapshot 0).maddr
      rw [hold]
      exact Multiset.mem_singleton_self p
    rw [hp] at h₂
    have hc := ((h.dropped.updateDir rfl h₁).give hlt h₂).updateDir
      (f := fun d => { d with sdSnapshot := setMaddr d.sdSnapshot 0 (d.sdCurrent 0).maddr }) rfl h₃
    dsimp only at hc
    rw [setMaddr_setLaddr] at hc
    replace hc : s.Dropped v v.commitOuter [p] s' := hc
    have hb := h.balanced.commitOuter
    rw [hold] at hb
    exact ⟨_, hc.holds h rfl h.linked.commitOuter hok hb (fun _ _ => rfl) (fun hpair => hpair.commitOuter) rfl
      fun _ _ => rfl, hc.same.sameContents, hc.same.prot⟩
  · have heq := (not_not.mp heq).symm
    refine ⟨v.free, ?_, .refl _ s, rfl⟩
    have hv : v.commitOuter.sized v.n v.free = v := by
      unfold View.commitOuter View.sized
      rw [← h.linked.sdSame heq, Function.update_eq_self]
    rw [hv]
    exact h

/-- **`slab_dir_cpoint`.** -/
theorem Holds.slabDirCpoint (h : s.Holds v lost) (hf : v.Flagged)
    (hr : Returns (slabDirCpoint (v.addr 1) type) s u s') : ∃ w free, s'.Holds (w.commitOuter.sized w.n free) lost ∧
      v.Commits (v.entriesOf (v.marked v.linked)) (v.marked v.linked) (Set.Iio v.outer.soIndex) w ∧
        s.SameContents v.toPlaces s' ∧ s.Shuts type v (v.entriesOf (v.marked v.linked)) s' := by
  have hl := h.linked
  unfold LibPM.slabDirCpoint at hr
  -- the outer node is the only one
  have hloop := Returns.forSlots_induct (n := 1) (Q := fun i t => (i = 0 → t = s) ∧ (i = 1 → ∃ w free,
      t.Holds (w.commitOuter.sized w.n free) lost ∧ v.Commits (v.entriesOf (v.marked v.linked)) (v.marked v.linked)
        (Set.Iio v.outer.soIndex) w ∧ s.SameContents v.toPlaces t ∧ s.Shuts type v (v.entriesOf (v.marked v.linked)) t) ∧ i ≤ 1) (fun i t k t' hQ hk => ?_) ?_
    (fun i hi _ t t' hQ hround => ?_) hr
  · exact hloop.1.2.1 rfl
  · obtain ⟨d, hd, rfl⟩ := returns_map.mp hk
    by_cases hi : i = 0
    · obtain rfl := hQ.1 hi
      obtain ⟨rfl, rfl⟩ := h.shows.loadDir hd
      exact ⟨hl.sdIndex, rfl⟩
    · obtain ⟨w, free, hw, hc, -⟩ := hQ.2.1 (by omega)
      rw [← hc.placed.addr] at hd
      obtain ⟨rfl, rfl⟩ := hw.shows.loadDir hd
      exact ⟨hw.linked.sdIndex, rfl⟩
  · exact ⟨fun _ => rfl, fun h01 => absurd h01 Nat.zero_ne_one, Nat.zero_le 1⟩
  · obtain rfl : i = 0 := by omega
    obtain rfl := hQ.1 rfl
    refine ⟨fun h10 => absurd h10 Nat.one_ne_zero, fun _ => ?_, Nat.le_refl 1⟩
    rw [returns_bind] at hround
    obtain ⟨d, t₁, h₁, hround⟩ := hround
    obtain ⟨rfl, rfl⟩ := h.shows.loadDir h₁
    rw [hl.sdCurrent, returns_bind] at hround
    obtain ⟨_, t₂, h₂, hround⟩ := hround
    obtain ⟨w, hw⟩ := h.slabOuterCpoint hf h₂
    rw [← hw.commits.placed.addr, returns_bind] at hround
    obtain ⟨d, t₃, h₃, hround⟩ := hround
    obtain ⟨rfl, rfl⟩ := hw.holds.shows.loadDir h₃
    obtain ⟨free, hh, hm, hprot⟩ := hw.holds.commitRoot hround
    exact ⟨w, free, hh, hw.commits, hw.same.trans (hm.congr hw.commits.placed), hw.shuts.of_eq hprot⟩

/-- The second walk of `slab_cpoint` only reads. -/
theorem returns_forDirty_load {sd : ℕ} (hr : Returns (forDirty sd fun se => do let _ ← loadEntry se) s u s') : s = s' := by
  have hdir : ∀ a, Keeps Eq (loadDir a) := fun _ => keeps_get.bind fun _ => keeps_ofOption
  have hload : Keeps Eq (forDirty sd fun se => do let _ ← loadEntry se) := Keeps.upTo ((hdir sd).bind fun _ => keeps_pure)
    (fun _ => ((hdir sd).bind fun _ => keeps_get.bind fun _ => keeps_require.bind fun _ => keeps_ofOption).bind
      fun _ => (keeps_get.bind fun _ => keeps_ofOption).bind fun _ => keeps_pure) _ _
  exact hload hr

/-- **`slab_cpoint`**: the pages of the old versions are given back, and nothing is lost. -/
theorem Idle.slabCpoint (h : s.Idle v lost) (hf : v.Flagged) (hr : Returns (slabCpoint type) s u s') :
    ∃ v', s'.Idle v' lost ∧ v.Checkpoint v' ∧ s.SameContents v.toPlaces s' ∧
      s.Shuts type v (v.entriesOf (v.marked v.linked)) s' := by
  unfold LibPM.slabCpoint at hr
  rw [returns_bind] at hr
  obtain ⟨sd, s₁, h₁, hr⟩ := hr
  obtain ⟨rfl, rfl⟩ := h.holds.currentSlab h₁
  simp only [returns_bind] at hr
  obtain ⟨_, s₂, h₂, _, s₃, h₃, h₄⟩ := hr
  obtain ⟨w, free, hw, hc, hm, hshut⟩ := h.holds.slabDirCpoint hf h₂
  obtain rfl := returns_forDirty_load h₃
  rw [← hc.placed.addr] at h₄
  obtain ⟨hs, hd⟩ := hw.shows.updateDir hw.quiet h₄
  have hh := hw.rewrite hs hd rfl rfl ⟨hw.linked.current, hw.linked.committed, hw.linked.sdIndex, hw.linked.sdCurrent,
      hw.linked.sdOther, hw.linked.sdSnapshot, hw.linked.sdSame, hw.linked.soIndex, hw.linked.inners, hw.linked.soCurrent,
      hw.linked.soSnapshot, hw.linked.soSame, hw.linked.linked, hw.linked.buckets, hw.linked.siIndex, hw.linked.siCurrent,
      hw.linked.siSnapshot, hw.linked.siOther, hw.linked.sbId⟩
    ⟨hw.ok.used, hw.ok.taken, hw.ok.root, hw.ok.entry, hw.ok.seId, hw.ok.blank, hw.ok.first, hw.ok.last, hw.ok.size,
      fun _ hr => absurd hr List.not_mem_nil⟩
    (hw.balanced.same (fun y _ => by cases y <;> rfl) rfl rfl) (fun _ _ => rfl)
    (fun _ hp => ⟨hp.cont, hp.sdCurrent, hp.sdSnapshot, hp.soCurrent, hp.soSnapshot, hp.siCurrent, hp.siSnapshot, hp.entry⟩)
    hw.laddr
  have hcheck : v.Checkpoint { w.commitOuter.sized w.n free with
      dir := { (w.commitOuter.sized w.n free).dir with sdVector := CVector.free } } := by
    refine ⟨⟨⟨?_⟩, hc.linked, hc.taken, hc.used, hc.torn, hc.cont, hc.sizes, rfl, hc.outer, hc.inner, hc.done, hc.rest,
      hc.slot, hc.others, hc.link, hc.links⟩, ?_⟩
    · show ({ w.toPlaces with n := w.n, free := free } : Places) = { v.toPlaces with free := free }
      rw [hc.placed.places]
    · show ({ w.dir with
        sdSnapshot := Function.update w.dir.sdSnapshot 0 (w.dir.sdCurrent 0)
        sdVector := CVector.free } : SlabDir) = _
      rw [hc.dir]
  refine ⟨_, ⟨hh, ?_, ?_, ?_, ?_⟩, hcheck, hm.trans (hd.sameMapping.sameContents.congr ?_), hshut.of_eq hd.prot⟩
  · exact hcheck.touched.complete h.complete
  · exact hcheck.touched.freeRange h.free
  · rw [hcheck.used, hcheck.taken, h.used]
  · exact hcheck.touched.headed h.headed
  · exact ⟨hcheck.placed.places⟩

end Pm

end LibPM

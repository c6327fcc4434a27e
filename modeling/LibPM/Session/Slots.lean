import LibPM.Session.Buckets

/-!
# Snapshots of buckets

Both bucket functions compute the index of the slot from the number of the inner node, not from the
place of the bucket in it: they copy the bucket they are given, and look at and change the slot
`copySlot b`, which is the slot of bucket `b` only if the two numbers agree. With the fixed mapper the
copy is linked from the wrong slot. The nonlinear mapper exchanges the pages of the slot, and the result
is a tree only if the slot is that of the bucket.
-/

namespace LibPM

open Recorded Recorded.Prog

/-- The slot that the functions take for that of bucket `b`. -/
def copySlot (b : ℕ) : ℕ := slabInnerEntries * (b / slabInnerEntries) + b / slabInnerEntries

theorem copySlot_div {b : ℕ} (hb : b / slabInnerEntries < slabInnerEntries) :
    copySlot b / slabInnerEntries = b / slabInnerEntries := by
  unfold copySlot
  rw [Nat.mul_add_div (by decide), Nat.div_eq_of_lt hb, Nat.add_zero]

theorem copySlot_mod {b : ℕ} (hb : b / slabInnerEntries < slabInnerEntries) :
    copySlot b % slabInnerEntries = b / slabInnerEntries := by
  unfold copySlot
  rw [Nat.mul_add_mod, Nat.mod_eq_of_lt hb]

namespace View.Linked

variable {v : View} {b : ℕ}

theorem div_lt_entries (h : v.Linked) (hb : b < v.buckets) :
    b / slabInnerEntries < slabInnerEntries := by
  have := (h.has_inner hb).trans_le h.inners
  simp only [slabDirEntries_eq, slabInnerEntries_eq] at *
  omega

/-- A slot that is not in use links nothing. -/
theorem siCurrent_unused (h : v.Linked) (hb : b / slabInnerEntries < v.inners) (hlt : v.linked ≤ b) :
    (v.siCurrent b).maddr = 0 := by
  refine h.siOther _ hb _ ?_ (Nat.mod_lt _ (by decide))
  rw [h.siIndex _ hb]
  simp only [slabInnerEntries_eq]
  omega

end View.Linked

namespace Pm

variable {s s' : Pm} {v v' : View} {lost lost' : Multiset ℕ} {b p l : ℕ} {u : Unit}

theorem Holds.bucketInner (h : s.Holds v lost) (hb : b < v.buckets) {x : ℕ × ℕ}
    (hr : Returns (bucketInner (v.addr (v.bucketPage b))) s x s') :
    s = s' ∧ x = (v.addr (v.innerPage (b / slabInnerEntries)), b / slabInnerEntries) := by
  have hdiv := h.linked.div_lt hb
  have hlt := h.linked.div_lt_entries hb
  have hso : b / slabInnerEntries / slabOuterEntries = 0 := Nat.div_eq_of_lt hlt
  unfold LibPM.bucketInner bucketIndices currentDir at hr
  simp only [returns_bind, returns_require, returns_pure] at hr
  obtain ⟨y, s₁, h₁, d, s₂, ⟨sd, _, hsd, h₂⟩, o, s₃, h₃, _, _, ⟨-, rfl⟩, rfl, rfl⟩ := hr
  obtain ⟨rfl, rfl⟩ := h.shows.loadBucket hb h₁
  obtain ⟨rfl, rfl⟩ := h.currentSlab hsd
  obtain ⟨rfl, rfl⟩ := h.shows.loadDir h₂
  rw [h.linked.sbId b hb, hso, Nat.zero_mod, h.linked.sdCurrent] at h₃
  obtain ⟨rfl, rfl⟩ := h.shows.loadOuter h₃
  refine ⟨rfl, ?_⟩
  have hmod : b / slabInnerEntries % slabOuterEntries = b / slabInnerEntries := Nat.mod_eq_of_lt hlt
  rw [h.linked.sbId b hb, hmod, h.linked.soCurrent _ hdiv]

end Pm

/-- The pages that the snapshot of bucket `b` adds to those lost: none if the slot is in use. -/
def View.slotLost (v : View) (b p : ℕ) : Multiset ℕ := if copySlot b < v.linked then 0 else {p}

/-- What the snapshot of bucket `b` leaves: nothing changed if the slot has one already. -/
inductive Pm.BucketCopied (s : Pm) (v : View) (lost : Multiset ℕ) (b : ℕ) :
    ℕ → Pm → View → Multiset ℕ → Prop
  | skip : (v.siSnapshot (copySlot b)).maddr ≠ (v.siCurrent (copySlot b)).maddr →
      BucketCopied s v lost b 0 s v lost
  | copy {s' : Pm} {n p : ℕ} {free : List ℕ} {cur snap : Slot} :
      (v.siSnapshot (copySlot b)).maddr = (v.siCurrent (copySlot b)).maddr →
      TakesPage p v.n v.free n free → cur.maddr = (v.siCurrent (copySlot b)).maddr →
      snap.maddr = v.addr p →
      s'.Holds ((v.sized n free).setSlot (copySlot b) cur snap) (lost + v.slotLost b p) →
      s.Evolves v ∅ s' ((v.sized n free).setSlot (copySlot b) cur snap) →
      BucketCopied s v lost b 1 s' ((v.sized n free).setSlot (copySlot b) cur snap)
        (lost + v.slotLost b p)

namespace Pm

variable {s s' : Pm} {v v' : View} {lost lost' : Multiset ℕ} {b p l : ℕ} {u : Unit}

theorem setSlot_copySlot (v : View) (hlt : b / slabInnerEntries < slabInnerEntries) (cur snap : Slot) :
    v.setSlot (copySlot b) cur snap = v.setInner (b / slabInnerEntries) {
      siIndex := (v.inner (b / slabInnerEntries)).siIndex
      siCurrent := Function.update (v.inner (b / slabInnerEntries)).siCurrent (b / slabInnerEntries) cur
      siSnapshot := Function.update (v.inner (b / slabInnerEntries)).siSnapshot (b / slabInnerEntries)
        snap } := by
  unfold View.setSlot View.putSlot
  rw [copySlot_div hlt, copySlot_mod hlt]

theorem slotPage_ne {cur : Slot} (h : v.Balanced (lost + {p})) (hl : v.Linked) {d : ℕ}
    (hd : d < v.linked) (hcur : cur.maddr = (v.siCurrent d).maddr) : v.addr p ≠ cur.maddr := by
  rw [hcur, hl.siCurrent d hd]
  intro heq
  refine h.lost_notMeta (Multiset.mem_add.mpr (.inr (Multiset.mem_singleton_self p))) ?_
  exact ⟨.bucket d, hd.trans_le hl.linked, (v.addr_injective heq).symm⟩

/-- A slot takes a page that no one holds for the snapshot. -/
theorem takeSlot {cur snap : Slot} (h : v.Balanced (lost + {p})) (hl : v.Linked) {d : ℕ}
    (hsame : (v.siSnapshot d).maddr = (v.siCurrent d).maddr)
    (hcur : cur.maddr = (v.siCurrent d).maddr) (hsnap : snap.maddr = v.addr p) :
    (v.setSlot d cur snap).Balanced (lost + if d < v.linked then 0 else {p}) := by
  by_cases hd : d < v.linked
  · rw [if_pos hd]
    refine h.setSlot hl hd ?_
    rw [hsnap, oldPages_of_ne (slotPage_ne h hl hd hcur), hsame, oldPages_self, add_zero, zero_add]
    exact congrArg _ (pageNo_add v.base p)
  · rw [if_neg hd]
    exact h.setSlot_unused (Nat.not_lt.mp hd)

/-- **`slab_bucket_snapshot`.** -/
theorem Holds.slabBucketSnapshot (h : s.Holds v lost) (hb : b < v.buckets) {t : ℕ}
    (hr : Returns (slabBucketSnapshot (v.addr (v.bucketPage b))) s t s') :
    ∃ v' lost', s.BucketCopied v lost b t s' v' lost' := by
  have hin := h.linked.has_inner hb
  have hlt := h.linked.div_lt_entries hb
  have hcs : v.siCurrent (copySlot b) =
      (v.inner (b / slabInnerEntries)).siCurrent (b / slabInnerEntries) := by
    unfold View.siCurrent
    rw [copySlot_div hlt, copySlot_mod hlt]
  have hss : v.siSnapshot (copySlot b) =
      (v.inner (b / slabInnerEntries)).siSnapshot (b / slabInnerEntries) := by
    unfold View.siSnapshot
    rw [copySlot_div hlt, copySlot_mod hlt]
  unfold LibPM.slabBucketSnapshot at hr
  rw [returns_bind] at hr
  obtain ⟨x, s₁, h₁, hr⟩ := hr
  obtain ⟨rfl, rfl⟩ := h.bucketInner hb h₁
  rw [returns_bind] at hr
  obtain ⟨i, s₂, h₂, hr⟩ := hr
  obtain ⟨rfl, rfl⟩ := h.shows.loadInner hin h₂
  dsimp only at hr
  rw [← hcs, ← hss] at hr
  by_cases hsame : (v.siCurrent (copySlot b)).maddr = (v.siSnapshot (copySlot b)).maddr
  · rw [if_pos hsame] at hr
    simp only [returns_bind, returns_pure] at hr
    obtain ⟨⟨sbs, l⟩, s₃, h₃, _, s₄, h₄, _, s₅, h₅, _, s₆, h₆, rfl, rfl⟩ := hr
    obtain ⟨p, n, free, hg⟩ := h.getpage h₃
    obtain ⟨rfl, hh₃, hv₃⟩ := And.intro hg.maddr (And.intro hg.holds hg.evolves)
    obtain ⟨y, -, rfl, hh₄, hv₄⟩ := hh₃.copyPage (by simp) h₄
    obtain ⟨hs₅, hm₅⟩ := hh₄.shows.updateInner hh₄.quiet hin h₅
    obtain ⟨hs₆, hm₆⟩ := hs₅.updateInner (u := ()) hh₄.quiet hin h₆
    rw [View.setInner_inner, View.setInner_setInner] at hs₆
    have hview := setSlot_copySlot (v.sized n free) hlt (v.siCurrent (copySlot b)) ⟨v.addr p, l⟩
    rw [show (v.sized n free).inner = v.inner from rfl, hcs, Function.update_eq_self,
      ← setMaddr_setLaddr] at hview
    rw [← hcs] at hview
    replace hs₆ : s₆.Shows ((v.sized n free).setSlot (copySlot b) (v.siCurrent (copySlot b))
        ⟨v.addr p, l⟩) := by
      rw [hview]
      exact hs₆
    have hfix : (s₃.setPage (s₃.vmap p) y).IsFixed → v.addr p = v.base + l := fun hf => by
      rw [hg.laddr_of_isFixed (hg.kind.mp hf)]
      rfl
    have hladdr : ∀ c < v.linked, (((v.sized n free).setSlot (copySlot b) (v.siCurrent (copySlot b))
        ⟨v.addr p, l⟩).siCurrent c).laddr = s₃.vmap (v.bucketPage c) * pageSize := by
      intro c hc
      rw [View.setSlot_siCurrent]
      split_ifs with hcd
      · rw [← hcd]
        exact hh₃.laddr c hc
      · exact hh₃.laddr c hc
    obtain ⟨hh, hv⟩ := hh₄.retree hs₆ (hm₅.trans hm₆) rfl rfl rfl rfl rfl rfl rfl rfl
      (hh₄.linked.setSlot rfl fun _ => ⟨p, rfl⟩)
      (takeSlot hh₄.balanced hh₄.linked hsame.symm rfl rfl) (fun hf hpair => hpair.setSlot (hpair.siCurrent _) fun _ => .inr (hfix hf)) hladdr
    exact ⟨_, _, .copy hsame.symm hg.took.takes rfl rfl hh
      (hh₃.trans hv₃ (hh₄.trans hv₄ hv (Nat.le_refl _)) (Nat.le_refl _))⟩
  · rw [if_neg hsame, returns_pure] at hr
    obtain ⟨rfl, rfl⟩ := hr
    exact ⟨v, lost, .skip (Ne.symm hsame)⟩

/-- The mapping of the page of a bucket is exchanged with that of its copy. -/
theorem Shows.swapBucket (h : s.Shows v) (hb : b < v.buckets) (hbf : v.bucketPage b ∉ v.free)
    (hp : p < v.n) (hm : ¬ v.IsMeta p) (hpf : p ∉ v.free) (hpage : s.page p = .bucket (v.bucket b))
    (hr : Returns (pageAllocatorSwapMappings (v.addr (v.bucketPage b)) (s.vmap p * pageSize) (v.addr p)
      (s.vmap (v.bucketPage b) * pageSize)) s u s') :
    s'.Shows v ∧ s'.vmap = swapVmap s.vmap (v.bucketPage b) p ∧ ¬ s.IsFixed ∧
      ∃ nlm, s' = { s with pa := .nonlinear nlm, vmap := s'.vmap } := by
  obtain ⟨nlm, hpa, i, j, -, -, hs'⟩ := returns_swapMappings hr
  have hlt := h.wf.lt (.bucket b) hb
  rw [h.addr_eq, h.addr_eq] at hr
  obtain ⟨hspace, hstart, hvmap, -⟩ := h.space.swap hlt hp hbf hpf (fun _ => rfl) hr
  have hfile : s'.file = s.file := by rw [hs']
  refine ⟨⟨hspace, hstart.trans h.start, ?_, fun x hx => ?_, ?_, h.wf⟩, hvmap, not_isFixed hpa,
    nlm.swap (v.addr (v.bucketPage b)) (v.addr p) (s.vmap (v.bucketPage b) * pageSize), by rw [hs']⟩
  · rw [hs']
    exact h.containers
  · have hxp : v.pageOf x ≠ p := fun heq => hm ⟨x, hx, heq⟩
    unfold Pm.page
    rw [hfile, hvmap]
    by_cases hxb : x = .bucket b
    · rw [hxb]
      show s.file (swapVmap s.vmap (v.bucketPage b) p (v.bucketPage b)) = .bucket (v.bucket b)
      rw [swapVmap_left, ← hpage]
      rfl
    · rw [swapVmap_of_ne _ (fun heq => hxb (h.wf.inj x (.bucket b) hx hb heq)) hxp]
      exact h.page x hx
  · rw [hs']
    exact h.sizes

/-- **The exchange in `slab_bucket_copynswap`**, and the stores to the slot after it. -/
theorem Holds.swapSlot {t : Pm} {cur snap : Slot} (h : s.Holds v (lost + {p})) (hb : b < v.linked)
    (hpage : s.page p = .bucket (v.bucket b))
    (hr : Returns (pageAllocatorSwapMappings (v.addr (v.bucketPage b)) (s.vmap p * pageSize) (v.addr p)
      (s.vmap (v.bucketPage b) * pageSize)) s u t)
    (hs : s'.Shows (v.setSlot b cur snap)) (hm : t.SameData v.toPlaces s')
    (hsame : (v.siSnapshot b).maddr = (v.siCurrent b).maddr)
    (hcur : cur.maddr = (v.siCurrent b).maddr) (hladdr : cur.laddr = s.vmap p * pageSize)
    (hsnap : snap.maddr = v.addr p) :
    s'.Holds (v.setSlot b cur snap) lost ∧ s.Evolves v ∅ s' (v.setSlot b cur snap) := by
  have hmem : p ∈ lost + {p} := by simp
  have hbb := hb.trans_le h.linked.linked
  have hmeta : v.IsMeta (v.bucketPage b) := ⟨.bucket b, hbb, rfl⟩
  have hbf : v.bucketPage b ∉ v.free := fun hf => h.balanced.free_notMeta hf hmeta
  have hpm := h.balanced.lost_notMeta hmem
  obtain ⟨ht, hvmap, hfix, nlm, hpa⟩ := h.shows.swapBucket hbb hbf (h.lost_lt hmem) hpm
    (h.balanced.lost_notMem_free hmem) hpage hr
  have hfix' : ¬ s'.IsFixed := by
    rw [hm.isFixed, hpa]
    exact not_isFixed rfl
  have hprot : s'.prot = s.prot := by
    rw [hm.prot, hpa]
  have hvmap' : s'.vmap = swapVmap s.vmap (v.bucketPage b) p := by rw [hm.vmap, hvmap]
  have hrest : ∀ q, v.Rests q → s'.filePage v.n q = s.filePage v.n q ∧
      s'.restBytes v.n q = s.restBytes v.n q := by
    intro q hq
    obtain ⟨hf, hbytes⟩ := hm.restBytes (h.rests_notMeta hq)
    have hft : t.filePage v.n q = s.filePage v.n q := by
      unfold Pm.filePage
      by_cases hlt : q < v.n
      · have hqb : q ≠ v.bucketPage b := by
          rintro rfl
          exact h.rests_notMeta hq hlt hmeta
        have hqp : q ≠ p := by
          rintro rfl
          exact h.lost_notRests hmem hq
        rw [if_pos hlt, if_pos hlt, hvmap, swapVmap_of_ne _ hqb hqp]
      · rw [if_neg hlt, if_neg hlt]
    refine ⟨hf.trans hft, hbytes.trans ?_⟩
    unfold Pm.restBytes
    rw [hft, hpa]
    rfl
  have hbalanced := takeSlot h.balanced h.linked hsame hcur hsnap
  rw [if_pos hb, add_zero] at hbalanced
  refine ⟨⟨hs, h.linked.setSlot hcur fun _ => ⟨p, hsnap⟩,
      ⟨h.ok.used, h.ok.taken, h.ok.root, h.ok.entry, h.ok.seId, h.ok.blank, h.ok.first, h.ok.last,
        h.ok.size, h.ok.vector⟩,
      ⟨fun q hq => ?_, fun q _ _ hf => (hfix' hf).elim, fun q _ hres => hfix' hres.isFixed⟩, hbalanced,
      fun hf => (hfix' hf).elim, fun c hc => ?_, ?_, ?_⟩,
    { Evolves.refl s v ∅ with
      filePage := fun q hq => (hrest q hq).1
      bytes := fun q hq _ => (hrest q hq).2
      closed := fun q _ hopen => .inl ?_
      opened := fun q _ hopen => ?_
      kept := fun q _ hopen => .inl ?_ }⟩
  · rw [hprot]
    exact h.guarded.metadata q hq
  · rw [View.setSlot_siCurrent, hvmap']
    show _ = swapVmap s.vmap (v.bucketPage b) p (v.bucketPage c) * pageSize
    split_ifs with hcb
    · rw [hcb, hladdr, swapVmap_left]
    · have hc' := hc.trans_le h.linked.linked
      rw [swapVmap_of_ne _ (fun heq => hcb (h.shows.wf.bucketPage_inj hc' hbb heq))
        (fun heq => hpm ⟨.bucket c, hc', heq⟩)]
      exact h.laddr c hc
  · obtain ⟨file, sizes, hs'⟩ := hm.same
    rw [hs', hpa]
    exact h.nextBucket
  · obtain ⟨file, sizes, hs'⟩ := hm.same
    rw [hs', hpa]
    exact h.nextEntry
  · unfold Open at hopen ⊢
    rwa [hprot] at hopen
  · unfold Open at hopen ⊢
    rwa [hprot]
  · unfold Open at hopen ⊢
    rwa [hprot]

/-- There is no page at address zero. -/
theorem Shows.vpage_zero (h : s.Shows v) : s.vpage 0 = none := by
  have hstart := h.space.start_ne
  unfold Pm.vpage
  rw [if_neg (by omega)]

/-- **`slab_bucket_copynswap`**, when the slot is that of the bucket or not in use. -/
theorem Holds.slabBucketCopynswap (h : s.Holds v lost) (hb : b < v.buckets)
    (hslot : copySlot b < v.linked →
      (v.siSnapshot (copySlot b)).maddr = (v.siCurrent (copySlot b)).maddr → copySlot b = b) {t : ℕ}
    (hr : Returns (slabBucketCopynswap (v.addr (v.bucketPage b))) s t s') :
    ∃ v' lost', s.BucketCopied v lost b t s' v' lost' := by
  have hin := h.linked.has_inner hb
  have hlt := h.linked.div_lt_entries hb
  have hcs : v.siCurrent (copySlot b) =
      (v.inner (b / slabInnerEntries)).siCurrent (b / slabInnerEntries) := by
    unfold View.siCurrent
    rw [copySlot_div hlt, copySlot_mod hlt]
  have hss : v.siSnapshot (copySlot b) =
      (v.inner (b / slabInnerEntries)).siSnapshot (b / slabInnerEntries) := by
    unfold View.siSnapshot
    rw [copySlot_div hlt, copySlot_mod hlt]
  unfold LibPM.slabBucketCopynswap at hr
  rw [returns_bind] at hr
  obtain ⟨x, s₁, h₁, hr⟩ := hr
  obtain ⟨rfl, rfl⟩ := h.bucketInner hb h₁
  rw [returns_bind] at hr
  obtain ⟨i, s₂, h₂, hr⟩ := hr
  obtain ⟨rfl, rfl⟩ := h.shows.loadInner hin h₂
  dsimp only at hr
  rw [← hcs, ← hss] at hr
  by_cases hsame : (v.siCurrent (copySlot b)).maddr = (v.siSnapshot (copySlot b)).maddr
  · rw [if_pos hsame] at hr
    simp only [returns_bind, returns_pure] at hr
    obtain ⟨⟨sbs, l⟩, s₃, h₃, _, s₄, h₄, i, s₅, h₅, _, s₆, h₆, _, s₇, h₇, _, s₈, h₈, rfl, rfl⟩ := hr
    obtain ⟨p, n, free, hg⟩ := h.getpage h₃
    obtain ⟨rfl, hh₃, hv₃⟩ := And.intro hg.maddr (And.intro hg.holds hg.evolves)
    have hplt := hh₃.lost_lt (p := p) (by simp)
    obtain ⟨y, hy, rfl, hh₄, hv₄⟩ := hh₃.copyPage (by simp) h₄
    obtain ⟨rfl, rfl⟩ := hh₄.shows.loadInner hin h₅
    rw [show (v.sized n free).inner = v.inner from rfl, ← hcs] at h₆
    -- there is no page to exchange with if the slot is not in use
    have hd : copySlot b < v.linked := by
      by_contra hd
      have h0 := h.linked.siCurrent_unused (by rwa [copySlot_div hlt]) (Nat.not_lt.mp hd)
      obtain ⟨nlm, -, i, j, hi, -⟩ := returns_swapMappings h₆
      rw [h0, hh₄.shows.vpage_zero] at hi
      cases hi
    have hdb := hslot hd hsame.symm
    rw [hdb] at hd h₆ hsame hcs hss
    have hview : (v.sized n free).setSlot b ⟨(v.siCurrent b).maddr, l⟩ ⟨v.addr p, (v.siSnapshot b).laddr⟩ =
        (v.sized n free).setInner (b / slabInnerEntries) {
          siIndex := (v.inner (b / slabInnerEntries)).siIndex
          siCurrent :=
            setLaddr (v.inner (b / slabInnerEntries)).siCurrent (b / slabInnerEntries) l
          siSnapshot := setMaddr (v.inner (b / slabInnerEntries)).siSnapshot (b / slabInnerEntries)
            (v.addr p) } := by
      have hset := setSlot_copySlot (v.sized n free) hlt ⟨(v.siCurrent b).maddr, l⟩
        ⟨v.addr p, (v.siSnapshot b).laddr⟩
      rw [hdb] at hset
      rw [hset, hcs, hss]
      rfl
    have hcontent : y = .bucket (v.bucket b) := by
      rw [show v.addr (v.bucketPage b) = (v.sized n free).addr ((v.sized n free).pageOf (.bucket b))
        from rfl, hh₃.shows.pageAt_node (x := .bucket b) hb] at hy
      exact (Option.some.inj hy).symm
    have hpage : (s₃.setPage (s₃.vmap p) y).page p = .bucket (v.bucket b) := by
      rw [hh₃.shows.page_set hplt hplt, if_pos rfl, hcontent]
    have hl : l = (s₃.setPage (s₃.vmap p) y).vmap p * pageSize := hg.took.laddr
    rw [h.linked.siCurrent b hd, show (v.siCurrent b).laddr =
      (s₃.setPage (s₃.vmap p) y).vmap (v.bucketPage b) * pageSize from hh₄.laddr b hd, hl] at h₆
    have hbm : v.bucketPage b ∉ free := fun hf => hh₄.balanced.free_notMeta hf ⟨.bucket b, hb, rfl⟩
    obtain ⟨hs₆, -⟩ := hh₄.shows.swapBucket (p := p) hb hbm hplt (hh₄.balanced.lost_notMeta (by simp))
      (hh₄.balanced.lost_notMem_free (by simp)) hpage h₆
    obtain ⟨hs₇, hm₇⟩ := hs₆.updateInner hh₄.quiet hin h₇
    obtain ⟨hs₈, hm₈⟩ := hs₇.updateInner (u := ()) hh₄.quiet hin h₈
    rw [View.setInner_inner, View.setInner_setInner] at hs₈
    replace hs₈ : s₈.Shows ((v.sized n free).setSlot b ⟨(v.siCurrent b).maddr, l⟩
        ⟨v.addr p, (v.siSnapshot b).laddr⟩) := by
      rw [hview]
      exact hs₈
    obtain ⟨hh, hv⟩ := hh₄.swapSlot hd hpage h₆ hs₈ (hm₇.trans hm₈) hsame.symm rfl hl rfl
    have hcopy := @BucketCopied.copy s v lost b s₈ n p free ⟨(v.siCurrent b).maddr, l⟩
      ⟨v.addr p, (v.siSnapshot b).laddr⟩
    rw [hdb, View.slotLost, hdb, if_pos hd, add_zero] at hcopy
    exact ⟨_, _, hcopy hsame.symm hg.took.takes rfl rfl hh
      (hh₃.trans hv₃ (hh₄.trans hv₄ hv (Nat.le_refl _)) (Nat.le_refl _))⟩
  · rw [if_neg hsame, returns_pure] at hr
    obtain ⟨rfl, rfl⟩ := hr
    exact ⟨v, lost, .skip (Ne.symm hsame)⟩

/-- **`Func_slab_bucket_snapshot`.** -/
theorem Holds.funcSlabBucketSnapshot (h : s.Holds v lost) (hb : b < v.buckets)
    (hslot : ¬ s.IsFixed → copySlot b < v.linked →
      (v.siSnapshot (copySlot b)).maddr = (v.siCurrent (copySlot b)).maddr → copySlot b = b) {t : ℕ}
    (hr : Returns (funcSlabBucketSnapshot (v.addr (v.bucketPage b))) s t s') :
    ∃ v' lost', s.BucketCopied v lost b t s' v' lost' := by
  unfold LibPM.funcSlabBucketSnapshot at hr
  rw [returns_bind] at hr
  obtain ⟨_, _, hget, hr⟩ := hr
  obtain ⟨rfl, rfl⟩ := returns_get.mp hget
  cases hpa : s.pa with
  | unset =>
    rw [hpa] at hr
    exact h.slabBucketSnapshot hb hr
  | fixed fm =>
    rw [hpa] at hr
    exact h.slabBucketSnapshot hb hr
  | nonlinear nlm =>
    rw [hpa] at hr
    exact h.slabBucketCopynswap hb (hslot (not_isFixed hpa)) hr

end Pm

end LibPM

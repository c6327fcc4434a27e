import LibPM.Restore.Saved
import LibPM.Session.Steps

/-!
# What the file gives back

For a container with one bucket, `Saves e₀ P` says of a state that its file holds the entries `e₀` with the data pages
`P`, along the offsets of the snapshots, whatever the current versions are. The steps between two checkpoints keep it as
long as they store neither to these pages nor to the links between them.
-/

namespace LibPM

open Recorded Recorded.Prog

/-- The nodes of two views lead to the same entries. -/
structure View.SameTree (w w' : View) : Prop where
  n : w.n ≤ w'.n
  base : w'.base = w.base
  inners : w'.inners = w.inners
  innerPage : w'.innerPage = w.innerPage
  buckets : w'.buckets = w.buckets
  bucketPage : w'.bucketPage = w.bucketPage
  cont : w'.cont = w.cont
  sdIndex : w'.dir.sdIndex = w.dir.sdIndex
  sdSnapshot : w'.dir.sdSnapshot = w.dir.sdSnapshot
  outer : w'.outer = w.outer
  inner : w'.inner = w.inner
  entry : ∀ i < slabBucketEntries, ∀ x, (w'.entry i).saved x = (w.entry i).saved x

/-- A restore reads the same data pages, too. -/
structure View.SameImage (w w' : View) : Prop extends w.SameTree w' where
  laddr : ∀ i < slabBucketEntries, (w'.entry i).dataSnapshot.laddr = (w.entry i).dataSnapshot.laddr

namespace Pm

/-- The container of `t` has one bucket, and the nodes of its file lead to the entries `e₀`. -/
structure Leads (e₀ : ℕ → SlabEntry) (t : Pm) (w : View) : Prop where
  shows : t.Shows w
  vmap : t.vmap = id
  inners : w.inners = 1
  buckets : w.buckets = 1
  cont : w.cont.snapshotSlab.laddr = pageSize
  flags : w.cont.flags &&& cflagCpointInProgress = 0
  sdIndex : w.dir.sdIndex = 1
  sdSnapshot : (w.dir.sdSnapshot 0).laddr = 2 * pageSize
  soIndex : w.outer.soIndex = 1
  soCurrent : (w.outer.soCurrent 0).maddr = w.addr (w.innerPage 0)
  soSnapshot : (w.outer.soSnapshot 0).laddr = w.innerPage 0 * pageSize
  siIndex : (w.inner 0).siIndex = 1
  siCurrent : ((w.inner 0).siCurrent 0).maddr = w.addr (w.bucketPage 0)
  siSnapshot : ((w.inner 0).siSnapshot 0).laddr = w.bucketPage 0 * pageSize
  entry : ∀ i < slabBucketEntries, ∀ x, (w.entry i).saved x = (e₀ i).saved x

/-- The file of `t` holds the entries `e₀` with the data pages `P`. -/
structure Saves (e₀ : ℕ → SlabEntry) (P : ℕ → Page) (t : Pm) (w : View) : Prop extends t.Leads e₀ w where
  page : ∀ i < slabBucketEntries, (w.entry i).isInit = true →
    ∃ p < w.n, (w.entry i).dataSnapshot.laddr = p * pageSize ∧ ¬ w.IsMeta p ∧ t.page p = P i
  inj : ∀ i < slabBucketEntries, ∀ j < slabBucketEntries, (w.entry i).isInit = true → (w.entry j).isInit = true →
    (w.entry i).dataSnapshot.laddr = (w.entry j).dataSnapshot.laddr → i = j

end Pm

theorem SlabEntry.isInit_congr {e e' : SlabEntry} (h : ∀ x, e'.saved x = e.saved x) : e'.isInit = e.isInit := by
  have h0 := h none
  unfold SlabEntry.saved at h0
  split_ifs at h0 with h₁ h₂ h₂
  · rw [h₁, h₂]
  · rw [Bool.eq_false_of_not_eq_true h₁, Bool.eq_false_of_not_eq_true h₂]

theorem View.entry_zero (w : View) {i : ℕ} (hi : i < slabBucketEntries) : w.entry i = (w.bucket 0).sbEntries i := by
  unfold View.entry
  rw [Nat.div_eq_of_lt hi, Nat.mod_eq_of_lt hi]

namespace View

variable {w w' w'' : View} {i : ℕ}

theorem SameTree.refl (w : View) : w.SameTree w :=
  ⟨Nat.le_refl _, rfl, rfl, rfl, rfl, rfl, rfl, rfl, rfl, rfl, rfl, fun _ _ _ => rfl⟩

theorem SameTree.trans (h : w.SameTree w') (h' : w'.SameTree w'') : w.SameTree w'' :=
  ⟨h.n.trans h'.n, h'.base.trans h.base, h'.inners.trans h.inners, h'.innerPage.trans h.innerPage,
    h'.buckets.trans h.buckets, h'.bucketPage.trans h.bucketPage, h'.cont.trans h.cont, h'.sdIndex.trans h.sdIndex,
    h'.sdSnapshot.trans h.sdSnapshot, h'.outer.trans h.outer, h'.inner.trans h.inner,
    fun i hi x => (h'.entry i hi x).trans (h.entry i hi x)⟩

theorem SameTree.addr (h : w.SameTree w') (p : ℕ) : w'.addr p = w.addr p := by
  unfold Places.addr
  rw [h.base]

theorem SameTree.isMeta (h : w.SameTree w') (p : ℕ) : w'.IsMeta p ↔ w.IsMeta p := by
  refine exists_congr fun x => ?_
  cases x
  case inner j =>
    unfold Places.Has Places.pageOf
    rw [h.inners, h.innerPage]
  case bucket b =>
    unfold Places.Has Places.pageOf
    rw [h.buckets, h.bucketPage]
  all_goals exact Iff.rfl

theorem SameTree.isInit (h : w.SameTree w') (hi : i < slabBucketEntries) : (w'.entry i).isInit = (w.entry i).isInit :=
  SlabEntry.isInit_congr (h.entry i hi)

theorem SameTree.ref (h : w.SameTree w') (i : ℕ) : w'.ref i = w.ref i := by
  unfold Places.ref
  rw [h.addr, h.bucketPage]

theorem SameTree.cap (h : w.SameTree w') : w'.cap = w.cap := by
  unfold Places.cap
  rw [h.buckets]

theorem SameTree.setEntry {e : SlabEntry} (he : ∀ x, e.saved x = (w.entry i).saved x) : w.SameTree (w.setEntry i e) := by
  refine { SameTree.refl w with entry := fun j _ x => ?_ }
  by_cases hji : j = i
  · rw [hji, View.setEntry_entry]
    exact he x
  · rw [View.setEntry_entry_of_ne _ _ hji]

namespace SameImage

theorem refl (w : View) : w.SameImage w := ⟨.refl w, fun _ _ => rfl⟩

theorem trans (h : w.SameImage w') (h' : w'.SameImage w'') : w.SameImage w'' :=
  ⟨h.toSameTree.trans h'.toSameTree, fun i hi => (h'.laddr i hi).trans (h.laddr i hi)⟩

theorem sized (w : View) {n : ℕ} (hn : w.n ≤ n) (free : List ℕ) : w.SameImage (w.sized n free) :=
  { refl w with n := hn, entry := fun _ _ _ => rfl, laddr := fun _ _ => rfl }

theorem setDir (w : View) {d : SlabDir} (hi : d.sdIndex = w.dir.sdIndex) (hs : d.sdSnapshot = w.dir.sdSnapshot) :
    w.SameImage { w with dir := d } :=
  { refl w with sdIndex := hi, sdSnapshot := hs, entry := fun _ _ _ => rfl, laddr := fun _ _ => rfl }

theorem setEntry {e : SlabEntry} (he : ∀ x, e.saved x = (w.entry i).saved x)
    (hl : e.dataSnapshot.laddr = (w.entry i).dataSnapshot.laddr) : w.SameImage (w.setEntry i e) := by
  refine ⟨.setEntry he, fun j _ => ?_⟩
  by_cases hji : j = i
  · rw [hji, View.setEntry_entry]
    exact hl
  · rw [View.setEntry_entry_of_ne _ _ hji]

end SameImage

end View

/-- The nodes are the same. -/
theorem Pm.Leads.next {e₀ : ℕ → SlabEntry} {t t' : Pm} {w w' : View} (h : t.Leads e₀ w) (hs : t'.Shows w')
    (hv : t'.vmap = id) (hsame : w.SameTree w') : t'.Leads e₀ w' where
  shows := hs
  vmap := hv
  inners := hsame.inners.trans h.inners
  buckets := hsame.buckets.trans h.buckets
  cont := by rw [hsame.cont, h.cont]
  flags := by rw [hsame.cont, h.flags]
  sdIndex := hsame.sdIndex.trans h.sdIndex
  sdSnapshot := by rw [hsame.sdSnapshot, h.sdSnapshot]
  soIndex := by rw [hsame.outer, h.soIndex]
  soCurrent := by rw [hsame.outer, h.soCurrent, hsame.addr, hsame.innerPage]
  soSnapshot := by rw [hsame.outer, h.soSnapshot, hsame.innerPage]
  siIndex := by rw [hsame.inner, h.siIndex]
  siCurrent := by rw [hsame.inner, h.siCurrent, hsame.addr, hsame.bucketPage]
  siSnapshot := by rw [hsame.inner, h.siSnapshot, hsame.bucketPage]
  entry i hi x := (hsame.entry i hi x).trans (h.entry i hi x)

namespace Pm.Saves

variable {e₀ : ℕ → SlabEntry} {P : ℕ → Page} {s t t' : Pm} {v w w' : View} {a i j p : ℕ}

/-- What a restore reads is not stored to. -/
theorem next (h : t.Saves e₀ P w) (hs : t'.Shows w') (hv : t'.vmap = id) (hsame : w.SameImage w')
    (hp : ∀ i < slabBucketEntries, (w.entry i).isInit = true → ∀ p < w.n, ¬ w.IsMeta p →
      (w.entry i).dataSnapshot.laddr = p * pageSize → t'.page p = t.page p) : t'.Saves e₀ P w' := by
  refine ⟨h.toLeads.next hs hv hsame.toSameTree, fun i hi hin => ?_, fun i hi j hj hin hin' heq => ?_⟩
  · rw [hsame.isInit hi] at hin
    obtain ⟨p, hlt, hl, hm, hpage⟩ := h.page i hi hin
    exact ⟨p, hlt.trans_le hsame.n, (hsame.laddr i hi).trans hl, fun hm' => hm ((hsame.isMeta p).mp hm'),
      (hp i hi hin p hlt hm hl).trans hpage⟩
  · rw [hsame.laddr i hi, hsame.laddr j hj] at heq
    rw [hsame.isInit hi] at hin
    rw [hsame.isInit hj] at hin'
    exact h.inj i hi j hj hin hin' heq

/-- The snapshot of entry `i` is on page `p` now, which has its data. -/
theorem redirect (h : t.Saves e₀ P w) {e : SlabEntry} (hs : t'.Shows (w.setEntry i e)) (hm : t.SameData w.toPlaces t')
    (he : ∀ x, e.saved x = (w.entry i).saved x) (hl : e.dataSnapshot.laddr = p * pageSize) (hp : p < w.n)
    (hmeta : ¬ w.IsMeta p) (hpage : t.page p = P i)
    (hne : ∀ j < slabBucketEntries, (w.entry j).isInit = true → (w.entry j).dataSnapshot.laddr ≠ p * pageSize) :
    t'.Saves e₀ P (w.setEntry i e) := by
  have hsame := View.SameTree.setEntry he
  refine ⟨h.toLeads.next hs (hm.vmap.trans h.vmap) hsame, fun j hj hin => ?_, fun j hj k hk hin hin' heq => ?_⟩
  · rw [hsame.isInit hj] at hin
    by_cases hji : j = i
    · subst hji
      rw [View.setEntry_entry]
      exact ⟨p, hp, hl, hmeta, (hm.page p hp hmeta).trans hpage⟩
    · rw [View.setEntry_entry_of_ne _ _ hji]
      obtain ⟨q, hq, hlq, hmq, hpq⟩ := h.page j hj hin
      exact ⟨q, hq, hlq, hmq, (hm.page q hq hmq).trans hpq⟩
  · rw [hsame.isInit hj] at hin
    rw [hsame.isInit hk] at hin'
    by_cases hji : j = i
    · by_cases hki : k = i
      · rw [hji, hki]
      · rw [hji, View.setEntry_entry, View.setEntry_entry_of_ne _ _ hki, hl] at heq
        exact absurd heq.symm (hne k hk hin')
    · rw [View.setEntry_entry_of_ne _ _ hji] at heq
      by_cases hki : k = i
      · rw [hki, View.setEntry_entry, hl] at heq
        exact absurd heq (hne j hj hin)
      · rw [View.setEntry_entry_of_ne _ _ hki] at heq
        exact h.inj j hj k hk hin hin' heq

/-- A store to metadata. -/
theorem sameData (h : t.Saves e₀ P w) (hs : t'.Shows w') (hm : t.SameData w.toPlaces t') (hsame : w.SameImage w') :
    t'.Saves e₀ P w' :=
  h.next hs (hm.vmap.trans h.vmap) hsame fun _ _ _ p hlt hmeta _ => hm.page p hlt hmeta

/-- A store to a page that is not saved. -/
theorem setPage (h : t.Saves e₀ P w) (hp : p < w.n) (hm : ¬ w.IsMeta p)
    (hne : ∀ i < slabBucketEntries, (w.entry i).isInit = true → (w.entry i).dataSnapshot.laddr ≠ p * pageSize) (x : Page) :
    (t.setPage (t.vmap p) x).Saves e₀ P w := by
  refine h.next (h.shows.setData hp hm x) h.vmap (.refl w) fun i hi hin q hlt _ hl => ?_
  rw [h.shows.page_set hp hlt, if_neg]
  rintro rfl
  exact hne i hi hin hl

/-- A page taken from the allocator. -/
theorem sized {n : ℕ} {free : List ℕ} (h : t.Saves e₀ P w) (hs : t'.Shows (w.sized n free)) (hn : w.n ≤ n)
    (hv : t'.vmap = id) (hfile : t'.file = t.file) : t'.Saves e₀ P (w.sized n free) := by
  refine h.next hs hv (.sized w hn free) fun _ _ _ p _ _ _ => ?_
  unfold Pm.page
  rw [hv, h.vmap, hfile]

/-- A state has one view. -/
theorem congr (h : t.Saves e₀ P w) (hs : t.Shows v) (hi : v.inners = 1) (hb : v.buckets = 1)
    (hso : (v.outer.soCurrent 0).maddr = v.addr (v.innerPage 0))
    (hsi : ((v.inner 0).siCurrent 0).maddr = v.addr (v.bucketPage 0)) :
    t.Saves e₀ P v ∧ v.dir = w.dir ∧ ∀ i < slabBucketEntries, v.entry i = w.entry i := by
  have hbase : v.base = w.base := hs.start.symm.trans h.shows.start
  have haddr : ∀ p, v.addr p = w.addr p := by
    intro p
    unfold Places.addr
    rw [hbase]
  have hn : v.n = w.n := Nat.eq_of_mul_eq_mul_right pageSize_pos (hs.space.len.symm.trans h.shows.space.len)
  have hcont : v.cont = w.cont := Page.container.inj ((hs.page .cont trivial).symm.trans (h.shows.page .cont trivial))
  have hdir : v.dir = w.dir := Page.dir.inj ((hs.page .dir trivial).symm.trans (h.shows.page .dir trivial))
  have houter : v.outer = w.outer := Page.outer.inj ((hs.page .outer trivial).symm.trans (h.shows.page .outer trivial))
  have hip : v.innerPage 0 = w.innerPage 0 := by
    rw [houter, h.soCurrent, haddr] at hso
    exact (w.addr_injective hso).symm
  have hpi : (v.inner 0) = w.inner 0 := by
    have h₁ := hs.page (.inner 0) (show 0 < v.inners by omega)
    have h₂ := h.shows.page (.inner 0) (show 0 < w.inners by have := h.inners; omega)
    unfold Places.pageOf at h₁ h₂
    dsimp only at h₁ h₂
    rw [hip] at h₁
    exact Page.inner.inj (h₁.symm.trans h₂)
  have hbp : v.bucketPage 0 = w.bucketPage 0 := by
    rw [hpi, h.siCurrent, haddr] at hsi
    exact (w.addr_injective hsi).symm
  have hpb : v.bucket 0 = w.bucket 0 := by
    have h₁ := hs.page (.bucket 0) (show 0 < v.buckets by omega)
    have h₂ := h.shows.page (.bucket 0) (show 0 < w.buckets by have := h.buckets; omega)
    unfold Places.pageOf at h₁ h₂
    dsimp only at h₁ h₂
    rw [hbp] at h₁
    exact Page.bucket.inj (h₁.symm.trans h₂)
  have hentry : ∀ i < slabBucketEntries, v.entry i = w.entry i := fun i hi => by
    rw [v.entry_zero hi, w.entry_zero hi, hpb]
  have hmeta : ∀ p, v.IsMeta p ↔ w.IsMeta p := by
    refine fun p => exists_congr fun x => ?_
    cases x
    case inner j =>
      show j < v.inners ∧ v.innerPage j = p ↔ j < w.inners ∧ w.innerPage j = p
      rw [hi, h.inners]
      refine and_congr_right fun hj => ?_
      rw [Nat.lt_one_iff.mp hj, hip]
    case bucket b =>
      show b < v.buckets ∧ v.bucketPage b = p ↔ b < w.buckets ∧ w.bucketPage b = p
      rw [hb, h.buckets]
      refine and_congr_right fun hj => ?_
      rw [Nat.lt_one_iff.mp hj, hbp]
    all_goals exact Iff.rfl
  have hleads : t.Leads e₀ v := by
    refine ⟨hs, h.vmap, hi, hb, ?_, ?_, ?_, ?_, ?_, hso, ?_, ?_, hsi, ?_, fun i hi x => ?_⟩
    · rw [hcont, h.cont]
    · rw [hcont, h.flags]
    · rw [hdir, h.sdIndex]
    · rw [hdir, h.sdSnapshot]
    · rw [houter, h.soIndex]
    · rw [houter, h.soSnapshot, hip]
    · rw [hpi, h.siIndex]
    · rw [hpi, h.siSnapshot, hbp]
    · rw [hentry i hi]
      exact h.entry i hi x
  refine ⟨⟨hleads, fun i hi hin => ?_, fun i hi j hj => ?_⟩, hdir, hentry⟩
  · rw [hentry i hi] at hin ⊢
    obtain ⟨p, hlt, hl, hm, hpage⟩ := h.page i hi hin
    exact ⟨p, hn.symm ▸ hlt, hl, fun hm' => hm ((hmeta p).mp hm'), hpage⟩
  · rw [hentry i hi, hentry j hj]
    exact h.inj i hi j hj

/-! ## What a restore reads -/

/-- The nodes, in the process or in another one that has the file. -/
theorem imageAt (h : t.Saves e₀ P w) (hr : ∀ p < w.n, s.pageAt (s.startAddr + p * pageSize) = some (t.page p)) :
    s.ImageAt 1 2 (w.innerPage 0) (w.bucketPage 0) w.dir w.outer (w.inner 0) (w.bucket 0) := by
  have hwf := h.shows.wf
  have hnode : ∀ x, w.Has x → s.pageAt (s.startAddr + w.pageOf x * pageSize) = some (w.content x) := fun x hx => by
    rw [hr _ (hwf.lt x hx), h.shows.page x hx]
  have hi : w.Has (.inner 0) := show 0 < w.inners by have := h.inners; omega
  have hb : w.Has (.bucket 0) := show 0 < w.buckets by have := h.buckets; omega
  -- page 0 is the header
  have hi0 : w.innerPage 0 ≠ 0 := fun h0 => absurd (hwf.inj (.inner 0) .cont hi trivial h0) (by simp)
  have hb0 : w.bucketPage 0 ≠ 0 := fun h0 => absurd (hwf.inj (.bucket 0) .cont hb trivial h0) (by simp)
  exact ⟨hnode .dir trivial, hnode .outer trivial, hnode (.inner 0) hi, hnode (.bucket 0) hb, h.sdIndex, h.sdSnapshot,
    h.soIndex, h.soSnapshot, h.siIndex, h.siSnapshot, Nat.two_pos, Nat.pos_of_ne_zero hi0, Nat.pos_of_ne_zero hb0⟩

theorem nodes_nodup (h : t.Saves e₀ P w) : [1, 2, w.innerPage 0, w.bucketPage 0].Nodup ∧
    ∀ p ∈ [1, 2, w.innerPage 0, w.bucketPage 0], w.IsMeta p := by
  have hwf := h.shows.wf
  have hi : w.Has (.inner 0) := show 0 < w.inners by have := h.inners; omega
  have hb : w.Has (.bucket 0) := show 0 < w.buckets by have := h.buckets; omega
  refine ⟨?_, fun p hp => ?_⟩
  · refine List.Nodup.of_map (fun p => p) ?_
    have hmap : [1, 2, w.innerPage 0, w.bucketPage 0].map (fun p => p) =
        [Node.dir, .outer, .inner 0, .bucket 0].map w.pageOf := rfl
    rw [hmap]
    refine List.Nodup.map_on (fun x hx y hy heq => ?_) (by decide)
    have hhas : ∀ x ∈ [Node.dir, .outer, .inner 0, .bucket 0], w.Has x := by
      intro x hx
      simp only [List.mem_cons, List.not_mem_nil, or_false] at hx
      rcases hx with rfl | rfl | rfl | rfl
      · trivial
      · trivial
      · exact hi
      · exact hb
    exact hwf.inj x y (hhas x hx) (hhas y hy) heq
  · simp only [List.mem_cons, List.not_mem_nil, or_false] at hp
    rcases hp with rfl | rfl | rfl | rfl
    · exact ⟨.dir, trivial, rfl⟩
    · exact ⟨.outer, trivial, rfl⟩
    · exact ⟨.inner 0, hi, rfl⟩
    · exact ⟨.bucket 0, hb, rfl⟩

/-- The list of entries that the file holds. -/
theorem entries (h : t.Saves e₀ P w) (hr : ∀ p < w.n, s.pageAt (s.startAddr + p * pageSize) = some (t.page p)) :
    Way.image.entries s (s.startAddr + pageSize) =
      (List.range slabBucketEntries).map fun i => some ((e₀ i).saved (some (P i))) := by
  have hat := (h.imageAt hr).treeAt.entries
  rw [Nat.one_mul] at hat
  rw [hat]
  refine List.map_congr_left fun i hi => congrArg some ?_
  have hi := List.mem_range.mp hi
  rw [← w.entry_zero hi, h.entry i hi]
  by_cases hin : (w.entry i).isInit = true
  · obtain ⟨p, hlt, hl, -, hpage⟩ := h.page i hi hin
    show SlabEntry.saved (e₀ i) (s.pageAt (s.startAddr + (w.entry i).dataSnapshot.laddr)) = _
    rw [hl, hr p hlt, hpage]
  · rw [SlabEntry.isInit_congr (h.entry i hi)] at hin
    unfold SlabEntry.saved
    rw [if_neg hin, if_neg hin]

/-- No two links lead to one page. -/
theorem distinctPages (h : t.Saves e₀ P w) (hr : ∀ p < w.n, s.pageAt (s.startAddr + p * pageSize) = some (t.page p)) :
    s.DistinctPages pageSize := by
  have hinit : ∀ i < slabBucketEntries, ((w.bucket 0).sbEntries i).isInit = true → ∃ p, p < w.n ∧
      ((w.bucket 0).sbEntries i).dataSnapshot.laddr = p * pageSize ∧ ¬ w.IsMeta p := by
    intro i hi hin
    rw [← w.entry_zero hi] at hin ⊢
    obtain ⟨p, hlt, hl, hm, -⟩ := h.page i hi hin
    exact ⟨p, hlt, hl, hm⟩
  have hdiv : ∀ i < slabBucketEntries, ((w.bucket 0).sbEntries i).isInit = true →
      ((w.bucket 0).sbEntries i).dataSnapshot.laddr =
        ((w.bucket 0).sbEntries i).dataSnapshot.laddr / pageSize * pageSize := by
    intro i hi hin
    obtain ⟨p, -, hl, -⟩ := hinit i hi hin
    rw [hl, Nat.mul_div_cancel _ pageSize_pos]
  rw [← Nat.one_mul pageSize]
  refine (h.imageAt hr).distinctPages h.nodes_nodup.1 hdiv (fun i hi hin hmem => ?_) fun i hi j hj hin hin' heq => ?_
  · obtain ⟨p, -, hl, hm⟩ := hinit i hi hin
    rw [hl, Nat.mul_div_cancel _ pageSize_pos] at hmem
    exact hm (h.nodes_nodup.2 p hmem)
  · have hl := (hdiv i hi hin).trans ((congrArg (· * pageSize) heq).trans (hdiv j hj hin').symm)
    rw [← w.entry_zero hi] at hin hl
    rw [← w.entry_zero hj] at hin' hl
    exact h.inj i hi j hj hin hin' hl

/-- A restore in another process gives back these entries, unless one of them has two versions. -/
theorem slabMap (h : t.Saves e₀ P w) (hs : s.Reopened) {s' : Pm}
    (hr : ∀ p < w.n, s.pageAt (s.startAddr + p * pageSize) = some (t.page p))
    (hmap : Returns (LibPM.slabMap pageSize .complete) s a s') : s.OneVersion pageSize ∧
      Way.memory.entries s' a = (List.range slabBucketEntries).map fun i => some ((e₀ i).saved (some (P i))) := by
  have hd := h.distinctPages hr
  exact ⟨hs.oneVersion hd hmap, (hs.entries_slabMap hd hmap).trans (h.entries hr)⟩

end Pm.Saves

end LibPM

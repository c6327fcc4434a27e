import LibPM.Allocator.Progress
import LibPM.Session.Buckets
import LibPM.Session.Limit
import LibPM.Session.Stands

/-!
# Growth that returns

The pages a container can hold are bounded, so with enough room in the address range the allocator always
has a page. Then `get_free_slab_entry` fails in one place only: it has an index into `sd_current` from the
outer node, which may have more children than the directory has slots.
-/

namespace LibPM

open Recorded Recorded.Prog

/-! ## Room in the address range -/

/-- The mapping of the largest container fits below the limit. -/
def Pm.Roomy (s : Pm) : Prop := s.startAddr + 2 ^ 34 ≤ s.mapLimit

theorem card_oldPages_le (base cur snap : ℕ) : Multiset.card (oldPages base cur snap) ≤ 1 := by
  unfold oldPages
  split_ifs
  · simp
  · simp

theorem card_versionPages_le (base cur snap : ℕ) : Multiset.card (versionPages base cur snap) ≤ 2 := by
  have := card_oldPages_le base cur snap
  unfold versionPages
  rw [Multiset.card_add, Multiset.card_singleton]
  omega

theorem SlabEntry.card_pages_le (base : ℕ) (e : SlabEntry) : Multiset.card (e.pages base) ≤ 4 := by
  have hdata := card_versionPages_le base e.dataCurrent.maddr e.dataSnapshot.maddr
  have hptr := card_versionPages_le base e.ptrCurrent.maddr e.ptrSnapshot.maddr
  unfold SlabEntry.pages ptrPages
  rw [Multiset.card_add]
  split_ifs
  · rw [Multiset.card_zero]
    omega
  · rw [Multiset.card_singleton]
    omega
  · omega

namespace View

variable {v : View} {lost : Multiset ℕ}

/-- No one but the metadata holds more than four pages. -/
theorem card_held_le (v : View) {x : Holder} (hx : x ≠ .metadata) : Multiset.card (v.held x) ≤ 4 := by
  have hold : ∀ cur snap, Multiset.card (oldPages v.base cur snap) ≤ 4 := fun cur snap =>
    (card_oldPages_le v.base cur snap).trans (by decide)
  unfold held
  cases x with
  | metadata => exact (hx rfl).elim
  | outerSlot => exact hold _ _
  | innerSlot j =>
    dsimp only
    split_ifs
    · exact hold _ _
    · exact Nat.zero_le _
  | bucketSlot b =>
    dsimp only
    split_ifs
    · exact hold _ _
    · exact Nat.zero_le _
  | entry i =>
    dsimp only
    split_ifs
    · exact (v.entry i).card_pages_le v.base
    · exact Nat.zero_le _

theorem card_holders_le :
    holders.card ≤ 2 + slabOuterEntries + maxBuckets + maxBuckets * slabBucketEntries := by
  have hpair : ({.metadata, .outerSlot} : Finset Holder).card ≤ 2 := Finset.card_le_two
  have himage : ∀ (f : ℕ → Holder) (n : ℕ), ((Finset.range n).image f).card ≤ n := by
    intro f n
    have := @Finset.card_image_le _ _ (Finset.range n) f _
    rwa [Finset.card_range] at this
  have houter := himage Holder.innerSlot slabOuterEntries
  have hbucket := himage Holder.bucketSlot maxBuckets
  have hentry := himage Holder.entry (maxBuckets * slabBucketEntries)
  unfold holders
  refine (Finset.card_union_le _ _).trans (Nat.add_le_add ?_ hentry)
  refine (Finset.card_union_le _ _).trans (Nat.add_le_add ?_ hbucket)
  exact (Finset.card_union_le _ _).trans (Nat.add_le_add hpair houter)

/-- The size of the mapping once every page is in use. -/
theorem Balanced.n_le (h : v.Balanced lost) (hl : v.Linked) (hnil : v.free = []) :
    v.n ≤ Multiset.card lost + 2031616 := by
  have hsum : v.n = Multiset.card lost + ∑ x ∈ holders, Multiset.card (v.held x) := by
    have hcard := congrArg Multiset.card h
    rw [hnil] at hcard
    simpa using hcard.symm
  have hmeta : Multiset.card (v.held .metadata) ≤ 3 + (slabDirEntries + 1) + maxBuckets := by
    show Multiset.card v.metaPages ≤ _
    have hin := hl.inners
    have hbu := hl.buckets_le
    unfold metaPages
    simp only [Multiset.card_add, Multiset.card_map, Multiset.card_range, Multiset.insert_eq_cons,
      Multiset.card_cons, Multiset.card_singleton]
    omega
  have hrest : ∑ x ∈ holders.erase .metadata, Multiset.card (v.held x) ≤ holders.card * 4 := by
    refine (Finset.sum_le_card_nsmul _ _ 4 fun x hx => v.card_held_le (Finset.ne_of_mem_erase hx)).trans ?_
    rw [Nat.nsmul_eq_mul]
    exact Nat.mul_le_mul_right 4 (Finset.card_le_card (Finset.erase_subset _ _))
  have hcard := card_holders_le
  rw [← Finset.add_sum_erase _ _ metadata_mem] at hsum
  have hmax : maxBuckets = 16129 := by decide
  rw [hmax] at hmeta hcard
  simp only [slabDirEntries_eq, slabOuterEntries_eq, slabBucketEntries_eq] at hmeta hcard
  omega

/-- The free list is empty when all entries are taken. -/
theorem FreeRange.first_eq_none_iff (hf : v.FreeRange v.taken v.cap) :
    v.dir.sdFreeList.first = none ↔ v.cap ≤ v.taken := by
  have hfirst := hf.first
  show (v.queue .free).first = none ↔ _
  rw [hfirst]
  split_ifs with hlt
  · exact iff_of_false (by simp) (Nat.not_le.mpr hlt)
  · exact iff_of_true rfl (Nat.not_lt.mp hlt)

theorem Complete.linked_span (hc : v.Complete) :
    slabInnerEntries * v.inners < v.linked + slabInnerEntries := by
  rw [hc.linked]
  exact hc.span

end View

namespace Pm

variable {s s' : Pm} {v v' : View} {lost : Multiset ℕ} {p a l si sb : ℕ} {x : Node} {u : Unit}

/-- There is room for the mapping to double whenever it has to. -/
theorem Holds.room (h : s.Holds v lost) (hroom : s.Roomy) (hlost : Multiset.card lost ≤ 2 ^ 16)
    (hnil : v.free = []) : s.startAddr + 2 * v.n * pageSize ≤ s.mapLimit := by
  have hn := h.balanced.n_le h.linked hnil
  unfold Roomy at hroom
  unfold pageSize
  omega

theorem Evolves.roomy {W : Set ℕ} (h : s.Evolves v W s' v') (hs : s.Shows v) (hs' : s'.Shows v')
    (hlim : s.SameLimit s') (hroom : s.Roomy) : s'.Roomy := by
  unfold Roomy SameLimit at *
  rw [hs'.start, h.base, ← hs.start, hlim]
  exact hroom

/-! ## Loads that only read -/

theorem Shows.getContainer_eq (h : s.Shows v) :
    LibPM.getContainer s = (pure (v.addr 0) : PmProg ℕ) s := read_eq h.containers

theorem Shows.loadContainer_eq (h : s.Shows v) :
    LibPM.loadContainer (v.addr 0) s = (pure v.cont : PmProg Container) s := read_eq h.readContainer

theorem Shows.loadDir_eq (h : s.Shows v) :
    LibPM.loadDir (v.addr 1) s = (pure v.dir : PmProg SlabDir) s := read_eq h.readDir

theorem Shows.loadOuter_eq (h : s.Shows v) :
    LibPM.loadOuter (v.addr 2) s = (pure v.outer : PmProg SlabOuter) s := read_eq h.readOuter

/-! ## Pages -/

theorem Holds.total_getpage (h : s.Holds v lost) (hroom : s.Roomy) (hlost : Multiset.card lost ≤ 2 ^ 16)
    (flags : Prot) : Total (pageAllocatorGetpage flags) s :=
  h.shows.space.exists_returns_getpage flags (h.room hroom hlost)

theorem Shows.total_copyPage (h : s.Shows v) (hp : p < v.n) (hw : (s.prot p).write = true) {y : Page}
    (ha : s.pageAt a = some y) : Total (copyPage (v.addr p) a) s :=
  Returns.total (a := ()) (returns_copyPage.mpr ⟨p, y, ha, h.vpage hp, hw, rfl⟩)

theorem Shows.total_updateOpen (h : s.Shows v) (hp : p < v.n) (hw : (s.prot p).write = true)
    {g : Page → Option Page} {y : Page} (hg : g (s.page p) = some y) :
    Total (updatePage (v.addr p) g) s := by
  have hv := h.vpage hp
  refine Returns.total_bind (a := ()) (returns_makeWritable.mpr ⟨p, hv, .inl ⟨hw, rfl⟩⟩) ?_
  exact Returns.total (a := ()) (returns_putPage.mpr ⟨p, y, hv, hw, hg, rfl⟩)

theorem Shows.total_retypePage (h : s.Shows v) (hp : p < v.n) (g : (ℕ → UInt8) → Page) :
    Total (retypePage (v.addr p) g) s := by
  refine total_get.bind fun t t' ht => ?_
  obtain ⟨rfl, rfl⟩ := returns_get.mp ht
  refine (total_ofOption (a := s.vmap p) ?_).bind fun _ _ _ => total_modify
  unfold Pm.fpage
  rw [h.vpage hp]
  rfl

theorem Holds.stands (h : s.Holds v lost) : s.Stands v.toPlaces .free :=
  ⟨v, rfl, h.shows, h.quiet, trivial, h.guarded.metadata⟩

theorem Holds.returns_currentSlab (h : s.Holds v lost) : Returns currentSlabMaddr s (v.addr 1) s :=
  returns_currentSlabMaddr.mpr
    ⟨⟨_, v.cont, h.shows.containers, h.shows.readContainer, h.linked.current⟩, rfl⟩

/-- A snapshot of a node, where the stores of both parts of the new slot return. -/
theorem Holds.total_nodeSnapshot (h : s.Holds v lost) (hroom : s.Roomy)
    (hlost : Multiset.card lost ≤ 2 ^ 16) (hx : v.Has x) {f g : ℕ → PmProg Unit}
    (hf : ∀ n free l, Steady (Pm.Stands (v.sized n free).toPlaces .free) (f l))
    (hg : ∀ n free c, Steady (Pm.Stands (v.sized n free).toPlaces .free) (g c)) :
    Total (LibPM.nodeSnapshot (v.addr (v.pageOf x)) f >>= g) s := by
  have hnode : Total (LibPM.nodeSnapshot (v.addr (v.pageOf x)) f) s := by
    unfold LibPM.nodeSnapshot
    refine (h.total_getpage hroom hlost paProtWrite).bind fun ⟨c, l⟩ s₁ h₁ => ?_
    obtain ⟨p, n, free, hg⟩ := h.getpage h₁
    obtain ⟨rfl, hh₁⟩ := And.intro hg.maddr hg.holds
    refine (hh₁.shows.total_copyPage hg.took.takes.lt (hg.took.prot.writable rfl)
      (hh₁.shows.pageAt_node hx)).bind fun _ s₂ h₂ => ?_
    obtain ⟨y, -, -, hh₂, -⟩ := hh₁.copyPage (by simp) h₂
    exact ((hf n free l).total s₂ hh₂.stands).bind fun _ _ _ => total_pure
  refine hnode.bind fun c t ht => ?_
  obtain ⟨p, n, free, l, t₁, -, -, hh₁, -, -, -, h₃⟩ := h.nodeSnapshot ht
  exact (hg n free c).total t ((hf n free l).stays t₁ () t hh₁.stands h₃)

/-! ## Room for an inner node -/

theorem Holds.total_growOuter (h : s.Holds v lost) (hroom : s.Roomy)
    (hlost : Multiset.card lost ≤ 2 ^ 16) (hpos : 1 ≤ v.outer.soIndex)
    (hle : v.outer.soIndex ≤ slabDirEntries) :
    Total (LibPM.growOuter (v.addr 0) (v.addr 1) (v.addr 2)) s := by
  have hne : v.outer.soIndex ≠ slabOuterEntries := by
    simp only [slabDirEntries_eq, slabOuterEntries_eq] at hle ⊢
    omega
  unfold LibPM.growOuter
  refine Returns.total_bind (returns_loadOuter.mpr ⟨h.shows.readOuter, rfl⟩) ?_
  rw [if_neg hne]
  refine Returns.total_bind (returns_loadDir.mpr ⟨h.shows.readDir, rfl⟩) ?_
  refine Returns.total_bind (a := ()) (returns_require.mpr ⟨⟨hpos, by omega⟩, rfl⟩) ?_
  refine (Total.when fun _ => ?_).bind fun _ _ _ => total_pure
  exact h.total_nodeSnapshot hroom hlost (x := .outer) trivial
    (fun n free l => steady_updateDir fun _ => rfl) fun n free c => steady_updateDir fun _ => rfl

theorem Shows.total_installInner (h : s.Shows v) (hst : s.Stands v.toPlaces .free)
    (hlt : v.outer.soIndex < slabOuterEntries) : Total (LibPM.installInner (v.addr 2) si l) s := by
  unfold LibPM.installInner
  refine Returns.total_bind (returns_loadOuter.mpr ⟨h.readOuter, rfl⟩) ?_
  refine Returns.total_bind (a := ()) (returns_require.mpr ⟨hlt, rfl⟩) ?_
  exact ((steady_updateOuter _).bind fun _ => (steady_updateOuter _).bind fun _ =>
    (steady_updateOuter _).bind fun _ => (steady_updateOuter _).bind fun _ =>
      steady_updateOuter _).total s hst

theorem Holds.total_slabInnerInit (h : s.Holds v lost) (hroom : s.Roomy)
    (hlost : Multiset.card lost ≤ 2 ^ 16) : Total LibPM.slabInnerInit s := by
  unfold LibPM.slabInnerInit
  refine (h.total_getpage hroom hlost paProtWrite).bind fun ⟨c, l⟩ s₁ h₁ => ?_
  obtain ⟨p, n, free, hg⟩ := h.getpage h₁
  obtain ⟨rfl, hh₁⟩ := And.intro hg.maddr hg.holds
  exact (hh₁.shows.total_retypePage hg.took.takes.lt _).bind fun _ _ _ => total_pure

/-! ## Room for a bucket -/

section GrowInner

variable (h : s.Holds v lost) (hroom : s.Roomy) (hlost : Multiset.card lost ≤ 2 ^ 16)
  (hpos : 0 < v.inners) (hle : v.linked ≤ slabInnerEntries * v.inners)
  (hspan : slabInnerEntries * v.inners < v.linked + slabInnerEntries)
  (hin : v.outer.soIndex = v.inners) (hclean : s.CleanNode v)

include h hpos hle hspan

/-- The last inner node is full when all inner nodes are. -/
theorem Holds.siIndex_eq_iff : (v.inner (v.inners - 1)).siIndex = slabInnerEntries ↔
    v.linked = slabInnerEntries * v.inners := by
  rw [h.linked.siIndex _ (by omega)]
  simp only [slabInnerEntries_eq] at *
  omega

include hroom hlost hin hclean

theorem Holds.total_growInner (hdir : v.linked = slabInnerEntries * v.inners → v.inners ≤ slabDirEntries) :
    Total (LibPM.growInner (v.addr 0) (v.addr 1) (v.addr 2) (v.addr (v.innerPage (v.inners - 1)))) s := by
  have hlast : v.inners - 1 < v.inners := by omega
  unfold LibPM.growInner
  refine Returns.total_bind (returns_loadInner.mpr ⟨h.shows.readInner hlast, rfl⟩) ?_
  refine Total.ite (fun hfull => ?_) fun _ => ?_
  · have hfull := (h.siIndex_eq_iff hpos hle hspan).mp hfull
    have hdir := hdir hfull
    refine (h.total_growOuter hroom hlost (by omega) (by omega)).bind fun so s₂ h₂ => ?_
    obtain ⟨rfl, -, v₂, hh₂, hv₂, hre₂, hin₂, hout₂, hup⟩ := h.growOuter h₂
    have hroom₂ := hv₂.roomy h.shows hh₂.shows (SameLimit.growOuter _ _ _ h₂) hroom
    refine (hh₂.total_slabInnerInit hroom₂ hlost).bind fun ⟨si, l⟩ s₃ h₃ => ?_
    have hbytes : s₂.restBytes v₂.n (v₂.upcoming 0) = s.restBytes v.n (v.upcoming v.outerPages) := by
      rw [hv₂.bytes _ (View.rests_upcoming hh₂.two_le (by omega)) (Set.notMem_empty _), hup]
    obtain ⟨p, n, free, y, -, hh₃, -⟩ := hh₂.slabInnerInit (by rw [hre₂.linked, hin₂, hfull])
      (by rw [hin₂]; exact hdir) (by
        rw [hbytes]
        exact hclean hfull) h₃
    rw [← hv₂.addr]
    refine Total.bind ?_ fun _ _ _ => total_pure
    refine hh₃.shows.total_installInner hh₃.stands ?_
    show v₂.outer.soIndex < slabOuterEntries
    rw [hout₂, hin]
    exact hdir.trans_lt (by decide)
  · refine Returns.total_bind (returns_loadOuter.mpr ⟨h.shows.readOuter, rfl⟩) ?_
    refine (Total.when fun _ => ?_).bind fun _ _ _ => total_pure
    exact h.total_nodeSnapshot hroom hlost (x := .inner (v.inners - 1)) hlast
      (fun n free l => steady_updateOuter _) fun n free c => steady_updateOuter _

end GrowInner

/-- The entries of the last bucket join the free list. -/
theorem Holds.total_freeBucketEntries {b k : ℕ} (h : s.Holds v lost) (hb : b < v.buckets)
    (hf : v.FreeRange k (b * slabBucketEntries)) (hk : k ≤ b * slabBucketEntries) :
    Total (LibPM.freeBucketEntries (v.addr 1) (v.addr (v.bucketPage b))) s := by
  refine @Total.forM_range _ _ _ _ (fun d t => ∃ v', s.Frees v k b d t v') _ ⟨v, h.shows.frees hf⟩
    fun d hd t ⟨v₁, h₁⟩ => ⟨?_, fun t' ht => h₁.step h.quiet hb hk hd ht⟩
  have hst : t.Stands v₁.toPlaces .free := by
    rw [h₁.relinked.places]
    exact .of_sameData h₁.shows h₁.relinked.places (h₁.relinked.quiet h.quiet) trivial
      h.guarded.metadata h₁.same
  rw [h₁.ref hd, ← h₁.relinked.addr]
  refine @Shows.total_insertTail t v₁ .free _ h₁.shows hst (h₁.relinked.quiet h.quiet)
    (h₁.lt_cap hb hd) fun r hr => ?_
  rw [h₁.free.last] at hr
  split_ifs at hr with hlt
  · cases hr
    exact ⟨b * slabBucketEntries + d - 1, (Nat.sub_le _ _).trans_lt (h₁.lt_cap hb hd), rfl⟩
  · cases hr

theorem Holds.total_slabBucketInit (h : s.Holds v lost) (hroom : s.Roomy)
    (hlost : Multiset.card lost ≤ 2 ^ 16) (hlt : v.buckets < slabInnerEntries * v.outer.soIndex)
    (hf : v.FreeRange v.cap v.cap) : Total LibPM.slabBucketInit s := by
  unfold LibPM.slabBucketInit
  refine Returns.total_bind h.returns_currentSlab ?_
  refine (h.total_getpage hroom hlost paProtWrite).bind fun ⟨sb, l⟩ s₁ h₁ => ?_
  obtain ⟨p, n, free, hg⟩ := h.getpage h₁
  obtain ⟨rfl, hh₁⟩ := And.intro hg.maddr hg.holds
  have hp : p < (v.sized n free).n := hg.took.takes.lt
  have hw : (s₁.prot p).write = true := hg.took.prot.writable rfl
  refine (hh₁.shows.total_updateOpen (y := .bucket (bucketOfBytes fun _ => 0)) hp hw
    rfl).bind fun _ s₂ h₂ => ?_
  obtain ⟨y, hy, hs₂⟩ := hh₁.shows.updateOpen hp hw h₂
  refine (total_get.bind fun _ _ _ => total_modify.bind fun _ _ _ => total_pure).bind fun id s₃ h₃ => ?_
  have hs₃ : s₃ = { s₂ with nextSlabBucketId := (s₂.nextSlabBucketId + 1) % 2 ^ 32 } := by
    have h₃' := h₃
    simp only [returns_bind, returns_get, returns_modify, returns_pure] at h₃'
    obtain ⟨_, _, ⟨rfl, rfl⟩, _, _, rfl, -, rfl⟩ := h₃'
    rfl
  have hshows : s₃.Shows (v.sized n free) := by
    rw [hs₃, hs₂]
    exact (hh₁.setLost (p := p) (by simp) y).1.shows.setNextBucket _
  have hpage : s₃.page p = y := by
    rw [hs₃, hs₂]
    exact (hh₁.shows.page_set hp hp y).trans (if_pos rfl)
  have hw₃ : (s₃.prot p).write = true := by
    rw [hs₃, hs₂]
    exact hw
  cases hy
  refine (hshows.total_updateOpen hp hw₃ (by rw [hpage]; rfl)).bind fun _ s₄ h₄ => ?_
  obtain ⟨hh₄, -, -⟩ := hg.bucket h hlt h₂ h₃ h₄
  refine Total.bind ?_ fun _ _ _ => total_pure
  have hbp : ((v.sized n free).addBucket p (newBucket v.buckets)).bucketPage v.buckets = p :=
    Function.update_self ..
  have htotal := @Holds.total_freeBucketEntries s₄ _ lost v.buckets v.cap hh₄ (Nat.lt_succ_self _)
    (hf.addBucket n free p _) (Nat.le_refl _)
  rw [hbp] at htotal
  exact htotal

theorem Holds.total_installBucket (h : s.Holds v lost) (hlt : v.linked < v.buckets) :
    Total (LibPM.installBucket (v.addr (v.innerPage (v.linked / slabInnerEntries))) sb l) s := by
  have hj := h.linked.has_inner hlt
  unfold LibPM.installBucket
  refine Returns.total_bind (returns_loadInner.mpr ⟨h.shows.readInner hj, rfl⟩) ?_
  refine Returns.total_bind (a := ()) (returns_require.mpr ⟨?_, rfl⟩) ?_
  · rw [h.linked.siIndex_linked hlt]
    exact Nat.mod_lt _ (by decide)
  · exact ((steady_updateInner hj _).bind fun _ => (steady_updateInner hj _).bind fun _ =>
      (steady_updateInner hj _).bind fun _ => (steady_updateInner hj _).bind fun _ =>
        steady_updateInner hj _).total s h.stands

/-! ## Free entries -/

section GrowTree

variable (h : s.Holds v lost) (hc : v.Complete)

include h hc

theorem Holds.linked_le : v.linked ≤ slabInnerEntries * v.inners := by
  rw [hc.linked, ← hc.soIndex]
  exact h.linked.buckets

theorem Holds.inners_pos : 0 < v.inners := by
  rcases Nat.eq_zero_or_pos v.inners with h0 | hpos
  · have hle := h.linked_le hc
    have := hc.pos
    rw [h0, hc.linked] at hle
    omega
  · exact hpos

/-- What the growth path does once it has read the directory and the outer node. -/
theorem Holds.growTree_eq : LibPM.growTree (v.addr 0) (v.addr 1) s = (do
    let si ← LibPM.growInner (v.addr 0) (v.addr 1) (v.addr 2) (v.addr (v.innerPage (v.inners - 1)))
    let (sb, sbLaddr) ← LibPM.slabBucketInit
    LibPM.installBucket si sb sbLaddr : PmProg Unit) s := by
  have hpos := h.inners_pos hc
  have hso := hc.soIndex
  have hle := h.linked.inners_le
  have hsd : 1 ≤ v.dir.sdIndex ∧ v.dir.sdIndex ≤ slabDirEntries := by
    rw [h.linked.sdIndex]
    decide
  have hou : 1 ≤ v.outer.soIndex ∧ v.outer.soIndex ≤ slabOuterEntries := by omega
  have hcur : (v.dir.sdCurrent (v.dir.sdIndex - 1)).maddr = v.addr 2 := by
    rw [h.linked.sdIndex]
    exact h.linked.sdCurrent
  have hlast : (v.outer.soCurrent (v.outer.soIndex - 1)).maddr = v.addr (v.innerPage (v.inners - 1)) := by
    rw [h.linked.soCurrent _ (by omega), hso]
  unfold LibPM.growTree
  rw [bind_read (h.shows.loadDir_eq), bind_read (require_eq hsd)]
  dsimp only
  rw [hcur, bind_read (h.shows.loadOuter_eq), bind_read (require_eq hou), hlast]

theorem Holds.total_growTree (hroom : s.Roomy) (hlost : Multiset.card lost ≤ 2 ^ 16)
    (hf : v.FreeRange v.cap v.cap) (hclean : s.CleanNode v)
    (hdir : v.buckets = slabInnerEntries * v.inners → v.inners ≤ slabDirEntries) :
    Total (LibPM.growTree (v.addr 0) (v.addr 1)) s := by
  refine Total.congr ?_ (h.growTree_eq hc)
  rw [← hc.linked] at hdir
  refine (h.total_growInner hroom hlost (h.inners_pos hc) (h.linked_le hc) hc.linked_span hc.soIndex
    hclean hdir).bind fun si s₂ h₂ => ?_
  obtain ⟨v₁, hh₁, hv₁, hre, hso, hin, rfl⟩ := h.growInner hc.soIndex (h.inners_pos hc) (h.linked_le hc)
    hc.linked_span hclean h₂
  have hroom₁ := hv₁.roomy h.shows hh₁.shows (SameLimit.growInner _ _ _ _ h₂) hroom
  have hlt : v₁.buckets < slabInnerEntries * v₁.outer.soIndex := by
    rw [hso, hin, hre.buckets, hc.linked]
    exact Nat.lt_mul_div_succ _ (by decide)
  have hf₁ : v₁.FreeRange v₁.cap v₁.cap := by
    rw [hre.cap]
    exact hf.reshaped hre (Nat.le_refl _)
  refine (hh₁.total_slabBucketInit hroom₁ hlost hlt hf₁).bind fun ⟨sb, l⟩ s₃ h₃ => ?_
  obtain ⟨v₂, hh₂, hv₂, hg₂, hb₂, hl₂, hin₂, hpage₂, hout₂, ht₂, hf₂, rfl, hl⟩ :=
    hh₁.slabBucketInit hlt hf₁ h₃
  have hlt₂ : v₂.linked < v₂.buckets := by
    rw [hl₂, hb₂, hre.linked, hre.buckets, hc.linked]
    exact Nat.lt_succ_self _
  rw [← hre.linked, ← hl₂, ← hpage₂, ← hv₂.addr]
  exact hh₂.total_installBucket hlt₂

end GrowTree

/-- What `get_free_slab_entry` does once it has read the container and the directory. -/
theorem Holds.getFreeSlabEntry_eq (h : s.Holds v lost) : LibPM.getFreeSlabEntry s = (do
    when (v.dir.sdFreeList.first = none) (LibPM.growTree (v.addr 0) (v.addr 1))
    let d ← loadDir (v.addr 1)
    let se ← ofOption
      (.assertion "failed to get an slab_entry even after initializing a new slab_bucket!")
      d.sdFreeList.first
    stailqRemoveHead (sdFreeListAt (v.addr 1))
    return se : PmProg EntryRef) s := by
  unfold LibPM.getFreeSlabEntry
  rw [bind_read (h.shows.getContainer_eq), bind_read (h.shows.loadContainer_eq)]
  rw [h.linked.current, bind_read (h.shows.loadDir_eq)]

/-- **`get_free_slab_entry` returns** if the tree does not have to grow, or has room. -/
theorem Holds.total_getFreeSlabEntry (h : s.Holds v lost) (hroom : s.Roomy)
    (hlost : Multiset.card lost ≤ 2 ^ 16) (hc : v.Complete) (hf : v.FreeRange v.taken v.cap)
    (hclean : v.taken = v.cap → s.CleanNode v)
    (hdir : v.taken = v.cap → v.buckets = slabInnerEntries * v.inners → v.inners ≤ slabDirEntries) :
    Total LibPM.getFreeSlabEntry s := by
  have htake : ∀ {s : Pm} {v : View}, s.Holds v lost → v.FreeRange v.taken v.cap → v.taken < v.cap →
      Total (do
        let d ← loadDir (v.addr 1)
        let se ← ofOption
          (.assertion "failed to get an slab_entry even after initializing a new slab_bucket!")
          d.sdFreeList.first
        stailqRemoveHead (sdFreeListAt (v.addr 1))
        return se : PmProg EntryRef) s := by
    intro s v h hf hlt
    have hfirst : (v.queue .free).first = some (v.ref v.taken) := by rw [hf.first, if_pos hlt]
    refine Returns.total_bind (returns_loadDir.mpr ⟨h.shows.readDir, rfl⟩) ?_
    refine Returns.total_bind (returns_ofOption.mpr ⟨hfirst, rfl⟩) ?_
    exact (@Shows.total_removeHead s v .free _ h.shows h.stands hlt hfirst).bind fun _ _ _ => total_pure
  have hle := h.ok.taken
  refine Total.congr ?_ h.getFreeSlabEntry_eq
  by_cases hcap : v.taken = v.cap
  · rw [hcap] at hf
    have hgrow := h.total_growTree hc hroom hlost hf (hclean hcap) (hdir hcap)
    refine (Total.when fun _ => hgrow).bind fun _ t ht => ?_
    have hnil : v.dir.sdFreeList.first = none := by
      refine View.FreeRange.first_eq_none_iff ?_ |>.mpr hcap.ge
      rwa [hcap]
    rw [returns_when_true hnil] at ht
    obtain ⟨v₁, hh₁, hv₁, hg₁, hc₁, ht₁, hb₁, hf₁⟩ := h.growTree hc hf (hclean hcap) ht
    have hlt : v₁.taken < v₁.cap := by
      rw [ht₁, hcap]
      unfold Places.cap
      rw [hb₁, Nat.succ_mul]
      exact Nat.lt_add_of_pos_right (by decide)
    rw [← hcap, ← ht₁] at hf₁
    rw [← hv₁.addr]
    exact htake hh₁ hf₁ hlt
  · have hnil : ¬ v.dir.sdFreeList.first = none := by
      rw [hf.first_eq_none_iff]
      omega
    refine Returns.total_bind (a := ()) ((returns_when_false hnil).mpr rfl) ?_
    exact htake h hf (by omega)

end Pm

end LibPM

import LibPM.Memory.Exposed
import LibPM.Session.Client
import LibPM.Session.Saved

/-!
# Between two checkpoints

A crash in the middle of a store, of a fault that the store causes, or of a registration leaves what was committed. With
the fixed mapper the invariant is `Secure`: the data page of an entry can be written if and only if the entry has two
versions. So a store that does not fault goes to the current version, and one that does is preceded by a copy, to which
the link of the snapshot is moved by one store.
-/

namespace LibPM

open Recorded Recorded.Prog

namespace Pm

variable {e₀ : ℕ → SlabEntry} {P : ℕ → Page} {s s' t : Pm} {v v' w : View} {lost lost' : Multiset ℕ} {a i j n p q : ℕ}
  {u : Unit}

/-! ## The pages of the snapshots -/

/-- The page at the offset of a snapshot is held by its entry. -/
theorem Holds.savedPage (h : s.Holds v lost) (hf : s.IsFixed) (hi : i < v.cap) (hin : (v.entry i).isInit = true) :
    i < v.used ∧ ∃ q, (v.entry i).dataSnapshot.maddr = v.addr q ∧ (v.entry i).dataSnapshot.laddr = q * pageSize ∧
      q ∈ v.held (.entry i) ∧ q < v.n ∧ ¬ v.IsMeta q := by
  have hused := (h.isInit_iff hi).mp hin
  obtain ⟨q, hq, hmem, hlt, -, hmeta, -⟩ := h.ok.dataSnapshot h.linked h.balanced hused
  refine ⟨hused, q, hq, ?_, hmem, hlt, hmeta⟩
  rcases ((h.paired hf).entry i hused).dataSnapshot with ⟨h0, -⟩ | heq
  · exact absurd (hq.symm.trans h0) (h.shows.addr_ne_zero q)
  · rw [hq] at heq
    exact (Nat.add_left_cancel heq).symm

theorem Holds.saved_ne_of_lost (h : s.Holds v lost) (hf : s.IsFixed) (hp : p ∈ lost) (hi : i < v.cap)
    (hin : (v.entry i).isInit = true) : (v.entry i).dataSnapshot.laddr ≠ p * pageSize := by
  obtain ⟨hused, q, -, hq, hmem, -⟩ := h.savedPage hf hi hin
  intro heq
  obtain rfl : q = p := Nat.eq_of_mul_eq_mul_right pageSize_pos (hq.symm.trans heq)
  exact h.balanced.notMem_lost (h.holder_mem hused) hmem hp

/-- A page that another entry holds is not the page of the snapshot. -/
theorem Holds.eq_of_saved (h : s.Holds v lost) (hf : s.IsFixed) (hj : j < v.used) (hp : p ∈ v.held (.entry j))
    (hi : i < v.cap) (hin : (v.entry i).isInit = true) (heq : (v.entry i).dataSnapshot.laddr = p * pageSize) :
    i = j ∧ (v.entry i).dataSnapshot.maddr = v.addr p := by
  obtain ⟨hused, q, hq, hl, hmem, -⟩ := h.savedPage hf hi hin
  obtain rfl : q = p := Nat.eq_of_mul_eq_mul_right pageSize_pos (hl.symm.trans heq)
  exact ⟨Holder.entry.inj (Ledger.Balanced.holder_unique h.balanced (Multiset.nodup_range _) (h.holder_mem hused)
    (h.holder_mem hj) hmem hp), hq⟩

/-- The current page of an entry with two versions. -/
theorem Holds.saved_ne_of_current (h : s.Holds v lost) (hf : s.IsFixed) (hj : j < v.used)
    (hp : (v.entry j).dataCurrent.maddr = v.addr p) (hne : (v.entry j).dataSnapshot.maddr ≠ (v.entry j).dataCurrent.maddr)
    (hi : i < v.cap) (hin : (v.entry i).isInit = true) : (v.entry i).dataSnapshot.laddr ≠ p * pageSize := by
  intro heq
  obtain ⟨q, hq, hmem, -⟩ := h.data hj
  obtain rfl : q = p := v.addr_injective (hq.symm.trans hp)
  obtain ⟨rfl, hsnap⟩ := h.eq_of_saved hf hj hmem hi hin heq
  exact hne (hsnap.trans hp.symm)

/-- The page of the records of an entry. -/
theorem Holds.saved_ne_of_ptr (h : s.Holds v lost) (hf : s.IsFixed) (hj : j < v.used)
    (hp : (v.entry j).ptrCurrent.maddr = v.addr p) (hi : i < v.cap) (hin : (v.entry i).isInit = true) :
    (v.entry i).dataSnapshot.laddr ≠ p * pageSize := by
  intro heq
  have hne : (v.entry j).ptrCurrent.maddr ≠ 0 := hp.symm ▸ h.shows.addr_ne_zero p
  have hpage : pageNo v.base (v.entry j).ptrCurrent.maddr = p := by
    rw [hp]
    exact pageNo_add v.base p
  have hmem : p ∈ v.held (.entry j) := by
    rw [View.Ok.held_entry hj, ← hpage]
    exact (SlabEntry.ptr_mem hne).1
  obtain ⟨rfl, hsnap⟩ := h.eq_of_saved hf hj hmem hi hin heq
  have hdata : pageNo v.base (v.entry i).dataSnapshot.maddr = p := by
    rw [hsnap]
    exact pageNo_add v.base p
  exact h.ptrPages_disjoint hj (hdata ▸ (pageNo_mem_versionPages _ _ _).2) (hpage ▸ pageNo_mem_ptrPages hne)

/-! ## Stores of the handler -/

/-- The file of `t` holds the entries `e₀` with the data pages `P`. -/
def Backs (e₀ : ℕ → SlabEntry) (P : ℕ → Page) (t : Pm) : Prop := ∃ w, t.Saves e₀ P w

/-- The invariant, with the fixed mapper, in a state that holds the entries. -/
structure Safe (e₀ : ℕ → SlabEntry) (P : ℕ → Page) (s : Pm) (v : View) (lost : Multiset ℕ) : Prop where
  holds : s.Holds v lost
  saves : s.Saves e₀ P v
  fixed : s.IsFixed

theorem Safe.lt_cap (h : s.Safe e₀ P v lost) : i < v.cap ↔ i < slabBucketEntries := by
  unfold Places.cap
  rw [h.saves.buckets, Nat.one_mul]

/-- What a store leaves that is the last thing a program does. -/
theorem Saves.passes {c : PmProg Unit} {Q : Pm → Prop} (hc : ∀ t, Exposes c s t → Returns c s () t)
    (hQ : ∀ t, Returns c s () t → t.Backs e₀ P ∧ Q t) : Passes (Backs e₀ P) c s fun _ t => Q t :=
  passes_of_returns (fun t ht => ⟨(), hc t ht⟩) fun _ t hr => hQ t hr

/-- A page is taken. -/
theorem Safe.getpage (h : s.Safe e₀ P v lost) : Passes (Backs e₀ P) (pageAllocatorGetpage paProtWrite) s fun r t =>
    ∃ p n free, r = (v.addr p, p * pageSize) ∧ s.Got v lost t (v.addr p) (p * pageSize) p n free ∧
      t.Safe e₀ P (v.sized n free) (lost + {p}) := by
  refine passes_of_not_exposes (fun t => not_exposes_pageAllocatorGetpage) fun ⟨maddr, laddr⟩ t hr => ?_
  obtain ⟨p, n, free, hg⟩ := h.holds.getpage hr
  obtain rfl : maddr = v.addr p := hg.maddr
  obtain rfl : laddr = p * pageSize := hg.laddr_of_isFixed h.fixed
  have hfix := hg.kind.mpr h.fixed
  have hfile : t.file = s.file := by
    obtain ⟨pa, prot, len, vmap, rfl⟩ := hg.took.same
    rfl
  exact ⟨p, n, free, rfl, hg, hg.holds,
    h.saves.sized hg.holds.shows hg.evolves.n (hg.holds.shows.vmap_of_isFixed hfix) hfile, hfix⟩

/-- One page is copied to a page that no one holds. -/
theorem Safe.copy (h : s.Safe e₀ P v lost) (hp : p ∈ lost) (h0 : 0 < n) (hn : n ≤ pageSize) :
    Passes (Backs e₀ P) (pmemcpyPages (v.addr p) a n) s fun _ t => t.Safe e₀ P v lost ∧
      ∃ x, s.pageAt a = some x ∧ t = s.setPage (s.vmap p) x := by
  have hone : pmemcpyPages (v.addr p) a n = copyPage (v.addr p) a := by
    have hcount : roundPg n / pageSize = 1 := by
      unfold roundPg pageSize at *
      omega
    unfold pmemcpyPages
    rw [hcount, List.range_one]
    show (copyPage (v.addr p + 0 * pageSize) (a + 0 * pageSize) >>= fun _ => pure PUnit.unit) = _
    rw [Nat.zero_mul, Nat.add_zero, Nat.add_zero]
    exact bind_pure_eq _
  rw [hone]
  refine Saves.passes (fun t => returns_of_exposes_copyPage) fun t hr => ?_
  obtain ⟨x, hx, ht, hh, -⟩ := h.holds.copyPage hp hr
  have hsaves : t.Saves e₀ P v := by
    rw [ht]
    exact h.saves.setPage (h.holds.lost_lt hp) (h.holds.balanced.lost_notMeta hp)
      (fun i hi => h.holds.saved_ne_of_lost h.fixed hp (h.lt_cap.mpr hi)) x
  refine ⟨⟨v, hsaves⟩, ⟨hh, hsaves, ?_⟩, x, hx, ht⟩
  rw [ht]
  exact h.fixed

/-- The entry joins the dirty ones. -/
theorem Safe.appendDirty (h : s.Safe e₀ P v lost) (hi : i < v.used) :
    Passes (Backs e₀ P) (appendDirty (v.addr 1) (v.ref i)) s fun _ t =>
      t.Safe e₀ P (v.markDirty i s.heap) lost ∧ s.SameData v.toPlaces t := by
  refine Saves.passes (fun t => returns_of_exposes_appendDirty) fun t hr => ?_
  obtain ⟨hh, -, hm⟩ := h.holds.appendDirty hi hr
  have hsaves := h.saves.sameData hh.shows hm (.setDir v rfl rfl)
  exact ⟨⟨_, hsaves⟩, ⟨hh, hsaves, hm.isFixed.mpr h.fixed⟩, hm⟩

/-- What `slab_entry_snapshot` leaves before it moves the link of the data: the copy is on page `p`, and a restore reads
the same as in the view `v`. -/
def Staged (e₀ : ℕ → SlabEntry) (P : ℕ → Page) (v : View) (p : ℕ) (x : Page) (t : Pm) : Prop :=
  ∃ w, t.Saves e₀ P w ∧ v.SameImage w ∧ t.page p = x

/-- A store to an entry that a restore does not read. -/
theorem Staged.putEntry {x : Page} (h : s.Staged e₀ P v p x) (hp : p < v.n) (hm : ¬ v.IsMeta p) (hi : i < v.cap)
    {f : SlabEntry → SlabEntry} (hf : ∀ e y, (f e).saved y = e.saved y)
    (hl : ∀ e, (f e).dataSnapshot.laddr = e.dataSnapshot.laddr) :
    Passes (Backs e₀ P) (putEntry (v.ref i) f) s fun _ => Staged e₀ P v p x := by
  obtain ⟨w, hw, hsame, hpage⟩ := h
  rw [← hsame.ref]
  refine Saves.passes (fun t => returns_of_exposes_putPage) fun t hr => ?_
  obtain ⟨hs, hd⟩ := hw.shows.putEntry (hsame.cap.symm ▸ hi) hr
  have hentry : w.SameImage (w.setEntry i (f (w.entry i))) := .setEntry (hf _) (hl _)
  have hsaves := hw.sameData hs hd hentry
  exact ⟨⟨_, hsaves⟩, _, hsaves, hsame.trans hentry,
    (hd.page p (hp.trans_le hsame.n) fun hm' => hm ((hsame.isMeta p).mp hm')).trans hpage⟩

/-- The last store: the copy takes the place of the snapshot. -/
theorem Staged.linkData (h : s.Staged e₀ P v p (P i)) (hp : p < v.n) (hm : ¬ v.IsMeta p) (hi : i < v.cap)
    (hne : ∀ j < slabBucketEntries, (v.entry j).isInit = true → (v.entry j).dataSnapshot.laddr ≠ p * pageSize) :
    Passes (Backs e₀ P) (LibPM.putEntry (v.ref i) fun e => { e with dataSnapshot.laddr := p * pageSize }) s
      fun _ => Backs e₀ P := by
  obtain ⟨w, hw, hsame, hpage⟩ := h
  rw [← hsame.ref]
  refine Saves.passes (Q := Backs e₀ P) (fun t => returns_of_exposes_putPage) fun t ht => ?_
  obtain ⟨hs, hd⟩ := hw.shows.putEntry (hsame.cap.symm ▸ hi) ht
  have hsaves := hw.redirect hs hd (fun _ => rfl) rfl (hp.trans_le hsame.n) (fun hm' => hm ((hsame.isMeta p).mp hm')) hpage
    fun j hj hin => ?_
  · exact ⟨⟨_, hsaves⟩, _, hsaves⟩
  · rw [hsame.isInit hj] at hin
    rw [hsame.laddr j hj]
    exact hne j hj hin

/-- The copy of the pointer records. -/
theorem Safe.copyPtrs (h : s.Safe e₀ P v lost) (hi : i < v.used) (hpos : 0 < (v.entry i).seSize) (hp : p ∈ lost) :
    Passes (Backs e₀ P) (do
      let (ptrMaddr, _ptrLaddr) ← pageAllocatorGetpage paProtWrite
      let e ← loadEntry (v.ref i)
      pmemcpyPages ptrMaddr e.ptrSnapshot.maddr e.seSize
      LibPM.putEntry (v.ref i) fun e => { e with ptrCurrent.idx := e.ptrSnapshot.idx }
      LibPM.putEntry (v.ref i) fun e => { e with ptrCurrent.maddr := ptrMaddr }) s
      fun _ => Staged e₀ P v p (s.page p) := by
  have hcap := h.holds.lt_cap hi
  have hsize := (h.holds.ok.entry i hi).size
  have hlt := h.holds.lost_lt hp
  have hmeta := h.holds.balanced.lost_notMeta hp
  refine h.getpage.bind ?_
  rintro _ s₁ ⟨q, n, free, rfl, hg, h₁⟩
  have hq : q ∈ lost + {q} := by simp
  refine (passes_of_not_exposes (fun _ => not_exposes_loadEntry) fun _ _ hr => hr).bind fun e s₂ h₂ => ?_
  obtain ⟨rfl, rfl⟩ := h₁.holds.shows.loadEntry hcap h₂
  refine (h₁.copy hq hpos hsize).bind ?_
  rintro _ s₃ ⟨h₃, x, -, rfl⟩
  -- the copy of the data is on another page
  have hstaged : Staged e₀ P v p (s.page p) (s₁.setPage (s₁.vmap q) x) := by
    refine ⟨_, h₃.saves, .sized v hg.evolves.n free, ?_⟩
    have hpq : p ≠ q := hg.took.takes.ne hlt (h.holds.balanced.lost_notMem_free hp)
    rw [h₁.holds.shows.page_set (h₁.holds.lost_lt hq) (hlt.trans_le hg.evolves.n), if_neg hpq]
    obtain ⟨pa, prot, len, vmap, rfl⟩ := hg.took.same
    unfold Pm.page
    rw [hg.took.vmap p hlt]
  refine (hstaged.putEntry hlt hmeta hcap ?_ ?_).bind fun _ s₄ h₄ => h₄.putEntry hlt hmeta hcap ?_ ?_
  · exact fun _ _ => rfl
  · exact fun _ => rfl
  · exact fun _ _ => rfl
  · exact fun _ => rfl

/-- **A snapshot of an entry with one version.** The copy is linked by its last store. -/
theorem Safe.slabEntrySnapshot (h : s.Safe e₀ P v lost) (hi : i < v.used) (hpos : 0 < (v.entry i).seSize)
    (hone : (v.entry i).dataSnapshot.maddr = (v.entry i).dataCurrent.maddr) :
    Passes (Backs e₀ P) (slabEntrySnapshot (v.ref i)) s fun _ => Backs e₀ P := by
  have hcap := h.holds.lt_cap hi
  have hi' := h.lt_cap.mp hcap
  have hsize := (h.holds.ok.entry i hi).size
  obtain ⟨r, hr, -, hrn, -⟩ := h.holds.data hi
  unfold LibPM.slabEntrySnapshot
  refine h.getpage.bind ?_
  rintro _ s₁ ⟨p, n, free, rfl, hg, h₁⟩
  have hp : p ∈ lost + {p} := by simp
  have hlt := h₁.holds.lost_lt hp
  have hmeta := h₁.holds.balanced.lost_notMeta hp
  refine (passes_of_not_exposes (fun _ => not_exposes_loadEntry) fun _ _ hr => hr).bind fun e s₂ h₂ => ?_
  obtain ⟨rfl, rfl⟩ := h₁.holds.shows.loadEntry hcap h₂
  refine (h₁.copy hp hpos hsize).bind ?_
  rintro _ s₃ ⟨h₃, x, hx, hs₃⟩
  have hpage : s₃.page p = x := by
    rw [hs₃, h₁.holds.shows.page_set hlt hlt, if_pos rfl]
  refine (passes_of_not_exposes (fun _ => not_exposes_currentSlabMaddr) fun _ _ hr => hr).bind fun sd s₄ h₄ => ?_
  obtain ⟨rfl, rfl⟩ := h₃.holds.currentSlab h₄
  refine (h₃.appendDirty hi).bind ?_
  rintro _ s₅ ⟨h₅, hm₅⟩
  rw [← hm₅.page p hlt hmeta] at hpage
  refine (passes_of_not_exposes (fun _ => not_exposes_loadEntry) fun _ _ hr => hr).bind fun e s₆ h₆ => ?_
  obtain ⟨rfl, rfl⟩ := h₅.holds.shows.loadEntry hcap h₆
  refine (Passes.when (R := fun _ => Staged e₀ P ((v.sized n free).markDirty i s₃.heap) p (s₅.page p)) (fun _ => ?_)
    fun _ => ⟨_, h₅.saves, .refl _, rfl⟩).bind fun _ s₇ h₇ => ?_
  · exact h₅.copyPtrs hi hpos hp
  refine (h₇.putEntry hlt hmeta hcap ?_ ?_).bind fun _ s₈ h₈ => ?_
  · exact fun _ _ => rfl
  · exact fun _ => rfl
  -- the snapshot of the entry was the page that was copied
  have hx' : x = P i := by
    obtain ⟨-, q, hq, hl, -⟩ := h.holds.savedPage h.fixed hcap (h.holds.isInit hi)
    obtain rfl : q = r := v.addr_injective (hq.symm.trans (hone.trans hr))
    obtain ⟨q', -, hl', -, hP⟩ := h.saves.page i hi' (h.holds.isInit hi)
    obtain rfl : q' = q := Nat.eq_of_mul_eq_mul_right pageSize_pos (hl'.symm.trans hl)
    have hread : s₁.pageAt ((v.sized n free).entry i).dataCurrent.maddr = some (s₁.page q') := by
      rw [← h₁.holds.shows.pageAt (hrn.trans_le hg.evolves.n)]
      exact congrArg _ hr
    rw [hread, Option.some.injEq] at hx
    obtain ⟨pa, prot, len, vmap, rfl⟩ := hg.took.same
    rw [← hx, ← hP]
    unfold Pm.page
    rw [hg.took.vmap q' hrn]
  rw [hpage, hx'] at h₈
  exact h₈.linkData hlt hmeta hcap fun j hj => h₅.holds.saved_ne_of_lost h₅.fixed hp (h₅.lt_cap.mpr hj)

theorem Saves.setProt (h : s.Saves e₀ P w) (prot : ℕ → Prot) : Pm.Saves e₀ P { s with prot := prot } w := by
  refine h.next ⟨⟨h.shows.space.serves, h.shows.space.aligned, h.shows.space.inj, h.shows.space.maps⟩, h.shows.start,
    h.shows.containers, fun x hx => h.shows.page x hx, h.shows.sizes, h.shows.wf⟩ h.vmap (.refl w) ?_
  exact fun _ _ _ _ _ _ _ => rfl

/-- **The write-fault handler**, for the data page of an entry with one version. -/
theorem Safe.handleMemoryUpdate (h : s.Safe e₀ P v lost) (hi : i < v.used) (hp : (v.entry i).dataCurrent.maddr = v.addr p)
    (hpos : 0 < (v.entry i).seSize) (hone : (v.entry i).dataSnapshot.maddr = (v.entry i).dataCurrent.maddr) :
    Passes (Backs e₀ P) (handleMemoryUpdate (v.addr p)) s fun _ => Backs e₀ P := by
  unfold LibPM.handleMemoryUpdate
  refine (passes_of_not_exposes (fun _ => not_exposes_currentSlabMaddr) fun _ _ hr => hr).bind fun sd s₁ h₁ => ?_
  obtain ⟨rfl, rfl⟩ := h.holds.currentSlab h₁
  refine (passes_of_not_exposes (fun _ => not_exposes_usedFind) fun _ _ hr => hr).bind fun o s₂ h₂ => ?_
  obtain ⟨rfl, ⟨j, hj, rfl, hfind⟩ | ⟨rfl, -⟩⟩ := h.holds.usedFind h₂
  swap
  · exact passes_of_not_exposes (fun _ => not_exposes_fail) fun _ _ hr => (returns_fail hr).elim
  -- the entry that is found is the one with this page
  have hfind : (v.entry j).dataCurrent.maddr = roundDwnPg (v.addr p) := beq_iff_eq.mp hfind
  rw [h.holds.shows.roundDwnPg_addr, ← hp] at hfind
  obtain rfl : j = i := h.holds.ok.data_inj h.holds.linked h.holds.balanced hj hi hfind
  have hsnap : Passes (Backs e₀ P) (funcSlabEntrySnapshot (v.ref j)) s fun _ => Backs e₀ P := by
    unfold funcSlabEntrySnapshot
    refine (passes_of_not_exposes (fun _ => not_exposes_get) fun _ _ hr => hr).bind fun _ _ hget => ?_
    obtain ⟨rfl, rfl⟩ := returns_get.mp hget
    obtain ⟨fm, hfm⟩ := h.fixed
    rw [hfm]
    exact h.slabEntrySnapshot hi hpos hone
  refine hsnap.bind fun _ s₃ h₃ => ?_
  refine (passes_of_not_exposes (fun _ => not_exposes_loadEntry) fun _ _ hr => hr).bind fun e s₄ h₄ => ?_
  obtain ⟨-, rfl⟩ := returns_loadEntry.mp h₄
  refine passes_of_not_exposes (fun _ => not_exposes_pageAllocatorMprotect) fun _ t ht => ?_
  obtain ⟨k, -, rfl⟩ := returns_pageAllocatorMprotect.mp ht
  obtain ⟨w, hw⟩ := h₃
  exact ⟨w, hw.setProt _⟩

/-! ## The invariant -/

/-- The data pages that can be written are those of the entries with two versions, and the dirty entries are among these. -/
structure Secure (e₀ : ℕ → SlabEntry) (P : ℕ → Page) (s : Pm) (v : View) (lost : Multiset ℕ) : Prop
    extends s.Safe e₀ P v lost where
  synced : ∀ i < v.used, ∀ p, (v.entry i).dataCurrent.maddr = v.addr p →
    (s.Open v.n p ↔ (v.entry i).dataSnapshot.maddr ≠ (v.entry i).dataCurrent.maddr)
  dirty : ∀ i < v.used, v.ref i ∈ v.dir.sdVector.items → (v.entry i).dataSnapshot.maddr ≠ (v.entry i).dataCurrent.maddr
  sized : ∀ i < v.used, 0 < (v.entry i).seSize

/-- A view with the tree of `v` shows what the file holds. -/
theorem Safe.keep (h : s.Safe e₀ P v lost) (hh : t.Holds v' lost') (hk : v.Kept v') (hb : t.Backs e₀ P) (hf : t.IsFixed) :
    t.Safe e₀ P v' lost' ∧ ∀ w, t.Saves e₀ P w → v'.dir = w.dir ∧ ∀ i < slabBucketEntries, v'.entry i = w.entry i := by
  have hl := hh.linked
  have hin : v'.inners = 1 := hk.inners.trans h.saves.inners
  have hbk : v'.buckets = 1 := hk.buckets.trans h.saves.buckets
  have hso : 0 < v'.outer.soIndex := by
    rw [hk.soIndex, h.saves.soIndex]
    exact Nat.one_pos
  have hlinked : 0 < v'.linked := by
    have hidx := h.holds.linked.siIndex 0 (by rw [h.saves.inners]; exact Nat.one_pos)
    rw [h.saves.siIndex, Nat.mul_zero, Nat.sub_zero] at hidx
    rw [hk.linked]
    exact Nat.pos_of_ne_zero fun h0 => by simp [h0] at hidx
  have hcongr : ∀ w, t.Saves e₀ P w → _ := fun w hw =>
    hw.congr hh.shows hin hbk (hl.soCurrent 0 hso) (hl.siCurrent 0 hlinked)
  obtain ⟨w, hw⟩ := hb
  exact ⟨⟨hh, (hcongr w hw).1, hf⟩, fun w hw => (hcongr w hw).2⟩

/-- **A step between two checkpoints.** The entries that get a second version are opened. -/
theorem Secure.next {W : Set ℕ} (h : s.Secure e₀ P v lost) (ht : t.Safe e₀ P v' lost') (hk : v.Kept v')
    (hv : s.Evolves v W t v') (hlen : t.mapLen = s.mapLen)
    (hsnap : ∀ i < v.used, (v'.entry i).dataSnapshot.maddr = (v.entry i).dataSnapshot.maddr ∨
      (v'.entry i).dataSnapshot.maddr ≠ (v'.entry i).dataCurrent.maddr ∧
        ∀ p, (v.entry i).dataCurrent.maddr = v.addr p → t.Open v'.n p)
    (hvec : ∀ i < v.used, v.ref i ∈ v'.dir.sdVector.items → v.ref i ∈ v.dir.sdVector.items ∨
      (v'.entry i).dataSnapshot.maddr ≠ (v'.entry i).dataCurrent.maddr) : t.Secure e₀ P v' lost' := by
  have hn : v'.n = v.n := by
    rw [ht.holds.shows.space.len, h.holds.shows.space.len] at hlen
    exact Nat.eq_of_mul_eq_mul_right pageSize_pos hlen
  have hdirty : ∀ i < v'.used, v'.ref i ∈ v'.dir.sdVector.items →
      (v'.entry i).dataSnapshot.maddr ≠ (v'.entry i).dataCurrent.maddr := by
    intro i hi hmem
    rw [hk.used] at hi
    rw [hk.ref] at hmem
    rcases hvec i hi hmem with hmem | hne
    · rcases hsnap i hi with heq | ⟨hne, -⟩
      · rw [heq, hv.maddr i hi]
        exact h.dirty i hi hmem
      · exact hne
    · exact hne
  refine ⟨ht, fun i hi p hp => ?_, hdirty, fun i hi => ?_⟩
  · rw [hk.used] at hi
    rw [hv.maddr i hi, hv.addr] at hp
    rcases hsnap i hi with heq | ⟨hne, hopen⟩
    · have hdata : v.IsData p := ⟨i, hi, hp⟩
      constructor
      · intro hopen
        rcases hv.closed p (.inr (.inr (hv.isData hdata))) hopen with hopen | ⟨j, hj, hjp, hmem⟩
        · rw [heq, hv.maddr i hi]
          exact (h.synced i hi p hp).mp hopen
        · have hji : j = i := ht.holds.ok.data_inj ht.holds.linked ht.holds.balanced hj (hk.used.symm ▸ hi) (by
            rw [hjp, hv.maddr i hi, hp, hv.addr])
          exact hji ▸ hdirty j hj hmem
      · intro hne
        rw [heq, hv.maddr i hi] at hne
        exact (hv.kept p hdata ((h.synced i hi p hp).mpr hne)).resolve_right fun hlt => absurd hn hlt.ne'
    · exact iff_of_true (hopen p hp) hne
  · rw [hk.used] at hi
    rw [hv.seSize i hi]
    exact h.sized i hi

/-! ## Stores to data pages -/

theorem Secure.makeWritable (h : s.Secure e₀ P v lost) (hi : i < v.used) (hp : (v.entry i).dataCurrent.maddr = v.addr p) :
    Passes (Backs e₀ P) (makeWritable (v.addr p)) s fun _ t =>
      t.Backs e₀ P ∧ (∃ v' lost', s.MadeWritable v lost p t v' lost') ∧ t.IsFixed := by
  have hlt := (h.holds.ok.isData_facts h.holds.linked h.holds.balanced ⟨i, hi, hp⟩).1
  refine ((?_ : Passes (Backs e₀ P) (LibPM.makeWritable (v.addr p)) s fun _ => Backs e₀ P).and fun _ t hr => ?_)
  · unfold LibPM.makeWritable
    refine (passes_of_not_exposes (fun _ => not_exposes_get) fun _ _ hr => hr).bind fun _ _ hget => ?_
    obtain ⟨rfl, rfl⟩ := returns_get.mp hget
    refine (passes_of_not_exposes (fun _ => not_exposes_ofOption) fun _ _ hr => hr).bind fun j _ hget => ?_
    obtain ⟨hj, rfl⟩ := returns_ofOption.mp hget
    rw [h.holds.shows.vpage hlt, Option.some.injEq] at hj
    subst hj
    refine Passes.when (fun hw => ?_) fun _ => ⟨v, h.saves⟩
    refine h.handleMemoryUpdate hi hp (h.sized i hi) (not_not.mp fun hne => ?_)
    rw [((h.synced i hi p hp).mpr hne).2] at hw
    cases hw
  · exact ⟨h.holds.makeWritable hlt hr, Framed.makeWritable (R := Pm.StaysFixed) _ hr h.fixed⟩

/-- The entry whose page is made writable has two versions, and it is the only one that got a second one. -/
theorem MadeWritable.versions (hw : s.MadeWritable v lost p t v' lost') (h : s.Secure e₀ P v lost) (hi : i < v.used)
    (hp : (v.entry i).dataCurrent.maddr = v.addr p) :
    (v'.entry i).dataSnapshot.maddr ≠ (v'.entry i).dataCurrent.maddr ∧
      (∀ j, j ≠ i → v'.entry j = v.entry j) ∧
      ∀ j < v.used, v.ref j ∈ v'.dir.sdVector.items → v.ref j ∈ v.dir.sdVector.items ∨ j = i := by
  have hlt := (h.holds.ok.isData_facts h.holds.linked h.holds.balanced ⟨i, hi, hp⟩).1
  cases hw with
  | «open» hw => exact ⟨(h.synced i hi p hp).mp ⟨hlt, hw⟩, fun _ _ => rfl, fun _ _ hmem => .inl hmem⟩
  | @fault t k n q free torn e hw hk hkp hf =>
    obtain rfl : k = i := h.holds.ok.data_inj h.holds.linked h.holds.balanced hk hi (hkp.trans hp.symm)
    refine ⟨?_, fun j hj => View.setEntry_entry_of_ne _ _ hj, fun j hj hmem => ?_⟩
    · unfold View.faulted
      rw [View.setEntry_entry, hf.snapped.snap, hf.snapped.cur]
      exact hf.snapped.new
    · rcases List.mem_append.mp hmem with hmem | hmem
      · exact .inl hmem
      · exact .inr (h.holds.shows.wf.ref_inj (h.holds.lt_cap hj) (h.holds.lt_cap hi) (List.mem_singleton.mp hmem))

/-- **A store to the data page of an entry.** -/
theorem Secure.updateData (h : s.Secure e₀ P v lost) (hi : i < v.used) (hp : (v.entry i).dataCurrent.maddr = v.addr p)
    (g : Page → Option Page) : Passes (Backs e₀ P) (updatePage (v.addr p) g) s fun _ => Backs e₀ P := by
  have hdata := h.holds.ok.isData_facts h.holds.linked h.holds.balanced ⟨i, hi, hp⟩
  unfold LibPM.updatePage
  refine (h.makeWritable hi hp).bind ?_
  rintro _ t ⟨hb, ⟨v', lost', hw⟩, hf⟩
  obtain ⟨ht, -⟩ := h.toSafe.keep (hw.holds h.holds) hw.kept hb hf
  obtain ⟨hne, -, -⟩ := hw.versions h hi hp
  have hlt : p < v'.n := hdata.1.trans_le hw.evolves.n
  have hp' : (v'.entry i).dataCurrent.maddr = v'.addr p := by
    rw [hw.evolves.maddr i hi, hp, hw.evolves.addr]
  refine Saves.passes (Q := Backs e₀ P) (fun t => returns_of_exposes_putPage) fun t' hr => ?_
  obtain ⟨j, x, hj, -, -, rfl⟩ := returns_putPage.mp hr
  rw [← hw.evolves.addr, ht.holds.shows.vpage hlt, Option.some.injEq] at hj
  subst hj
  have hsaves := ht.saves.setPage hlt (fun hm => hdata.2.2.1 ((hw.isMeta p).mp hm))
    (fun k hk => ht.holds.saved_ne_of_current hf (hw.kept.used.symm ▸ hi) hp' hne (ht.lt_cap.mpr hk)) x
  exact ⟨⟨v', hsaves⟩, v', hsaves⟩

/-- The invariant after a store, if the file did not grow. -/
theorem Secure.storeData (h : s.Secure e₀ P v lost) (hi : i < v.used) (hp : (v.entry i).dataCurrent.maddr = v.addr p)
    {g : Page → Option Page} (hr : Returns (updatePage (v.addr p) g) s u s') (hlen : s'.mapLen = s.mapLen) :
    ∃ v' lost', s'.Secure e₀ P v' lost' ∧ s.Evolves v {p} s' v' := by
  have hdata := h.holds.ok.isData_facts h.holds.linked h.holds.balanced ⟨i, hi, hp⟩
  obtain ⟨t, v', lost', x, hw, hopen, -, hs', hh, hv⟩ := h.holds.updateData hdata.1 hdata.2.2.1 hr
  have hb := (h.updateData hi hp g).returns u s' hr
  obtain ⟨ht, -⟩ := h.toSafe.keep hh hw.kept hb (Framed.updatePage (R := Pm.StaysFixed) _ _ hr h.fixed)
  obtain ⟨hne, hother, hvec⟩ := hw.versions h hi hp
  refine ⟨v', lost', h.next ht hw.kept hv hlen (fun j hj => ?_) fun j hj hmem => ?_, hv⟩
  · by_cases hji : j = i
    · refine .inr ⟨hji.symm ▸ hne, fun q hq => ?_⟩
      rw [hji, hp] at hq
      rw [← v.addr_injective hq, hs']
      exact hopen
    · exact .inl (by rw [hother j hji])
  · refine (hvec j hj hmem).imp_right fun hji => ?_
    rw [hji]
    exact hne

end Pm

end LibPM

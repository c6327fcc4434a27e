import LibPM.Memory.Words
import LibPM.Records.Overrun
import LibPM.Session.Allocate
import LibPM.Session.Stands

/-!
# Stores, the root word and pointer records

What the other operations of a session do to the invariant: each keeps the tree, its slots and flags, and the lists of
entries. A registration takes a page for the records of an entry that has none.
-/

namespace LibPM

open Recorded Recorded.Prog

/-- The tree, its slots and flags, and the lists are those of `v`. -/
structure View.Kept (v v' : View) : Prop extends v.Touched v' where
  inner : v'.inner = v.inner
  flag : ∀ b, (v'.bucket b).sbHasSnapshot = (v.bucket b).sbHasSnapshot

namespace View

variable {v v' v'' : View} {i : ℕ} {e : SlabEntry}

theorem Kept.refl (v : View) : v.Kept v := ⟨.refl v, rfl, fun _ => rfl⟩

theorem Kept.trans (h : v.Kept v') (h' : v'.Kept v'') : v.Kept v'' :=
  ⟨h.toTouched.trans h'.toTouched, h'.inner.trans h.inner, fun b => (h'.flag b).trans (h.flag b)⟩

theorem Kept.flagged (h : v.Kept v') (hf : v.Flagged) : v'.Flagged := hf.congr h.linked h.inner h.flag

theorem kept_sized (v : View) (n : ℕ) (free : List ℕ) : v.Kept (v.sized n free) :=
  ⟨⟨steady_sized v n free, rfl, rfl, fun _ _ => rfl⟩, rfl, fun _ => rfl⟩

theorem kept_setEntry (hl : e.seList = (v.entry i).seList) (hs : e.seSize = (v.entry i).seSize) :
    v.Kept (v.setEntry i e) := ⟨touched_setEntry hl hs, rfl, v.setEntry_sbHasSnapshot i e⟩

end View

namespace Pm

variable {s s' t : Pm} {v v' : View} {lost lost' : Multiset ℕ} {a i n p q : ℕ} {u : Unit}

theorem MadeWritable.kept (h : s.MadeWritable v lost p t v' lost') : v.Kept v' := ⟨h.touched, h.inner, h.flag⟩

theorem Idle.keep (h : s.Idle v lost) (hh : s'.Holds v' lost') (hk : v.Kept v') : s'.Idle v' lost' := by
  refine ⟨hh, hk.complete h.complete, hk.freeRange h.free, ?_, hk.headed h.headed⟩
  rw [hk.used, hk.taken, h.used]

/-- A store of the application. -/
theorem Holds.storeByte_kept (h : s.Holds v lost) {b : UInt8} (hr : Returns (LibPM.storeByte a b) s u s') :
    ∃ p v' lost', roundDwnPg a = v.addr p ∧ s'.Holds v' lost' ∧ v.Kept v' ∧ s.Evolves v {p} s' v' := by
  obtain ⟨p, t, v', lost', y, hp, -, -, hw, -, -, -, hh, hv⟩ := h.storeByte hr
  exact ⟨p, v', lost', hp, hh, hw.kept, hv⟩

/-- **`slab_setroot`.** -/
theorem Holds.slabSetroot (h : s.Holds v lost) {r : ℕ} (hr : Returns (slabSetroot a) s r s') :
    ∃ v', s'.Holds v' lost ∧ v.Kept v' ∧ s.Evolves v ∅ s' v' := by
  unfold LibPM.slabSetroot at hr
  rw [returns_bind] at hr
  obtain ⟨sd, s₁, h₁, hr⟩ := hr
  obtain ⟨rfl, rfl⟩ := h.currentSlab h₁
  rw [returns_bind] at hr
  obtain ⟨o, s₂, h₂, hr⟩ := hr
  obtain ⟨rfl, ⟨i, hi, rfl, -⟩ | ⟨rfl, -⟩⟩ := h.usedFind h₂
  · simp only [returns_bind, returns_pure] at hr
    obtain ⟨e, s₃, h₃, _, s₄, h₄, -, rfl⟩ := hr
    obtain ⟨rfl, rfl⟩ := h.shows.loadEntry (h.lt_cap hi) h₃
    obtain ⟨hs, hm⟩ := h.shows.updateDir h.quiet h₄
    obtain ⟨hh, hv⟩ := h.setDir hs hm rfl rfl rfl rfl h.ok.vector fun _ hr => hr
    exact ⟨_, hh, ⟨⟨⟨rfl, rfl, rfl, rfl, rfl, rfl, rfl, rfl, fun _ _ _ => rfl⟩, rfl, rfl, fun _ _ => rfl⟩, rfl,
      fun _ => rfl⟩, hv⟩
  · obtain ⟨-, rfl⟩ := returns_pure.mp hr
    exact ⟨v, h, .refl v, .refl s v ∅⟩

/-! ## Pages of records -/

/-- A page that is no data page holds nothing that a step has to keep. -/
theorem Evolves.of_notRests (h : s.Evolves v {q} s' v') (hq : ¬ v.Rests q) : s.Evolves v ∅ s' v' := by
  have hnot : ∀ i < v.used, (v.entry i).dataCurrent.maddr ≠ v.addr q := fun i hi hp => hq (.inr (.inr ⟨i, hi, hp⟩))
  refine { h with
    bitmap := fun i hi p hp _ => h.bitmap i hi p hp fun hpq => hnot i hi (hpq ▸ hp)
    torn := fun i hi => (h.torn i hi).imp_right fun ⟨hlt, _, p, hpq, hp, _⟩ => absurd (hpq ▸ hp) (hnot i hlt)
    bytes := fun p hp _ => h.bytes p hp fun hpq => hq (hpq ▸ h.rests p hp) }

theorem pageNo_mem_ptrPages {base cur snap : ℕ} (hc : cur ≠ 0) : pageNo base cur ∈ ptrPages base cur snap := by
  unfold ptrPages
  rw [if_neg hc]
  split_ifs
  · exact Multiset.mem_singleton_self _
  · exact (pageNo_mem_versionPages _ _ _).1

/-- An entry holds no page twice. -/
theorem Holds.ptrPages_disjoint (h : s.Holds v lost) (hi : i < v.used)
    (hp : p ∈ versionPages v.base (v.entry i).dataCurrent.maddr (v.entry i).dataSnapshot.maddr) :
    p ∉ ptrPages v.base (v.entry i).ptrCurrent.maddr (v.entry i).ptrSnapshot.maddr := by
  have hnd := Ledger.Balanced.held_nodup h.balanced (Multiset.nodup_range _) (h.holder_mem hi)
  rw [View.Ok.held_entry hi] at hnd
  exact Multiset.disjoint_left.mp (Multiset.nodup_add.mp hnd).2.2 hp

/-- The page of records of an entry is no data page. -/
theorem Holds.ptrPage (h : s.Holds v lost) (hi : i < v.used) (hne : (v.entry i).ptrCurrent.maddr ≠ 0) :
    ∃ q, (v.entry i).ptrCurrent.maddr = v.addr q ∧ q < v.n ∧ ¬ v.IsMeta q ∧ ¬ v.Rests q := by
  obtain ⟨q, hq⟩ : IsPage v.base (v.entry i).ptrCurrent.maddr := by
    rcases (h.ok.entry i hi).ptr with ⟨h0, -⟩ | ⟨hpage, -⟩
    · exact absurd h0 hne
    · exact hpage
  have hx := h.holder_mem hi
  have hheld := View.Ok.held_entry (v := v) hi
  have hmem : q ∈ v.held (.entry i) := by
    have : pageNo v.base (v.entry i).ptrCurrent.maddr ∈ (v.entry i).pages v.base := (SlabEntry.ptr_mem hne).1
    rw [hq, pageNo_add] at this
    rwa [hheld]
  refine ⟨q, hq, h.balanced.lt_n hx hmem, h.balanced.notMeta hx (by simp) hmem, ?_⟩
  rintro (hfree | hn | ⟨j, hj, hp⟩)
  · exact h.balanced.notMem_free hx hmem hfree
  · exact absurd (h.balanced.lt_n hx hmem) (Nat.not_lt.mpr hn)
  · obtain ⟨p, hp', hmem', -⟩ := h.data hj
    obtain rfl : p = q := v.addr_injective (hp'.symm.trans hp)
    obtain rfl : j = i := Holder.entry.inj
      (Ledger.Balanced.holder_unique h.balanced (Multiset.nodup_range _) (h.holder_mem hj) hx hmem' hmem)
    have hdata : pageNo v.base (v.entry j).dataCurrent.maddr = p := by
      rw [hp']
      exact pageNo_add v.base p
    have hptr : pageNo v.base (v.entry j).ptrCurrent.maddr = p := by
      rw [hq]
      exact pageNo_add v.base p
    exact h.ptrPages_disjoint hj (hdata ▸ (pageNo_mem_versionPages _ _ _).1) (hptr ▸ pageNo_mem_ptrPages hne)

/-- An entry without records gets a page for them. -/
theorem Holds.newPtrPage (h : s.Holds v lost) (hi : i < v.used) (h0 : (v.entry i).ptrCurrent.maddr = 0)
    {maddr laddr : ℕ} {s₁ s₂ s₃ : Pm} {u₂ u₃ : Unit} {g : (ℕ → UInt8) → Page}
    (h₁ : Returns (pageAllocatorGetpage paProtWrite) s (maddr, laddr) s₁) (h₂ : Returns (LibPM.retypePage maddr g) s₁ u₂ s₂)
    (h₃ : Returns (updateEntry (v.ref i) fun e => { e with ptrCurrent.laddr := laddr }) s₂ u₃ s₃)
    (h₄ : Returns (updateEntry (v.ref i) fun e => { e with ptrCurrent.maddr := maddr }) s₃ u s') :
    ∃ v', s'.Holds v' lost ∧ v.Kept v' ∧ s.Evolves v ∅ s' v' ∧ (v'.entry i).ptrCurrent.maddr ≠ 0 := by
  have he := h.ok.entry i hi
  have hcap := h.lt_cap hi
  obtain ⟨p, n, free, hg⟩ := h.getpage h₁
  obtain ⟨rfl, hh₁, hv₁⟩ := And.intro hg.maddr (And.intro hg.holds hg.evolves)
  obtain ⟨rfl, hh₂, hv₂⟩ := hh₁.retypePage (by simp) h₂
  obtain ⟨hs₃, hm₃⟩ := hh₂.shows.updateEntry hh₂.quiet hcap h₃
  have hq₃ : ((v.sized n free).setEntry i { v.entry i with ptrCurrent.laddr := laddr }).Quiet :=
    View.Quiet.setEntry hh₂.quiet rfl
  obtain ⟨hs₄, hm₄⟩ := hs₃.updateEntry (i := i) hq₃ hcap h₄
  rw [View.setEntry_entry, View.setEntry_setEntry] at hs₄
  replace hs₄ : s'.Shows ((v.sized n free).setEntry i
      { v.entry i with ptrCurrent := ⟨(v.entry i).ptrCurrent.idx, v.addr p, laddr⟩ }) := hs₄
  have hsnap : (v.entry i).ptrSnapshot.maddr = 0 := by
    rcases he.ptr with ⟨-, hsnap, -⟩ | ⟨⟨q, hq⟩, -⟩
    · exact hsnap
    · exact absurd (hq.symm.trans h0) (h.shows.addr_ne_zero q)
  have hfix : (s₁.setPage (s₁.vmap p) (g (s₁.bytesOf (s₁.page p)))).IsFixed → v.addr p = v.base + laddr := fun hf => by
    rw [hg.laddr_of_isFixed (hg.kind.mp hf)]
    rfl
  have hpages : ({ v.entry i with ptrCurrent := ⟨(v.entry i).ptrCurrent.idx, v.addr p, laddr⟩ } : SlabEntry).pages v.base + 0 =
      (v.entry i).pages v.base + {p} := by
    unfold SlabEntry.pages ptrPages
    dsimp only
    rw [h0, hsnap, if_pos rfl, if_pos rfl, if_neg (h.shows.addr_ne_zero p), add_zero, add_zero,
      show pageNo v.base (v.addr p) = p from pageNo_add v.base p]
  obtain ⟨hh, hv⟩ := hh₂.setEntry (W := ∅) hs₄ (hm₃.trans hm₄) hi
    ⟨he.cur, he.snap, he.laddr, he.size, .inr ⟨⟨p, rfl⟩, .inl hsnap⟩, fun _ => .inl hsnap⟩ rfl rfl rfl (fun _ _ _ => rfl)
    rfl (fun hf hpair => ⟨hpair.dataCurrent, hpair.dataSnapshot, fun _ => .inr (hfix hf), hpair.ptrSnapshot⟩) hpages
  rw [add_zero] at hh
  refine ⟨_, hh, (View.kept_sized v n free).trans (View.kept_setEntry rfl rfl),
    hh₁.trans hv₁ (hh₂.trans hv₂ hv (Nat.le_refl _)) (Nat.le_refl _), ?_⟩
  rw [View.setEntry_entry]
  exact h.shows.addr_ne_zero p

/-- A store to a page of records does not fault. -/
theorem Holds.updatePtrs (h : s.Holds v lost) (hlt : q < v.n) (hm : ¬ v.IsMeta q) (hq : ¬ v.Rests q)
    {g : Page → Option Page} (hr : Returns (updatePage (v.addr q) g) s u s') :
    s'.Holds v lost ∧ s.Evolves v ∅ s' v := by
  obtain ⟨t, v', lost', x, hw, -, -, -, hh, hv⟩ := h.updateData hlt hm hr
  cases hw with
  | «open» _ => exact ⟨hh, hv.of_notRests hq⟩
  | fault _ hj hp _ => exact absurd (.inr (.inr ⟨_, hj, hp⟩)) hq

/-- The record goes to the page of records, and its index to the entry. -/
theorem Holds.appendPtrRec (h : s.Holds v lost) (hi : i < v.used) (hne : (v.entry i).ptrCurrent.maddr ≠ 0)
    {ploc seid off : ℕ} (hr : Returns (appendPtrRec (v.ref i) ploc seid off) s u s') :
    ∃ v', s'.Holds v' lost ∧ v.Kept v' ∧ s.Evolves v ∅ s' v' := by
  have hcap := h.lt_cap hi
  have he := h.ok.entry i hi
  obtain ⟨q, hq, hlt, hm, hrest⟩ := h.ptrPage hi hne
  unfold LibPM.appendPtrRec at hr
  simp only [returns_bind, returns_require] at hr
  obtain ⟨e, s₀, h₀, _, _, ⟨-, rfl⟩, _, s₁, h₁, _, s₂, h₂, _, s₃, h₃, h₄⟩ := hr
  obtain ⟨rfl, rfl⟩ := h.shows.loadEntry hcap h₀
  rw [hq] at h₁ h₂ h₃
  obtain ⟨hh₁, hv₁⟩ := h.updatePtrs hlt hm hrest h₁
  obtain ⟨hh₂, hv₂⟩ := hh₁.updatePtrs hlt hm hrest h₂
  obtain ⟨hh₃, hv₃⟩ := hh₂.updatePtrs hlt hm hrest h₃
  obtain ⟨hs, hmem⟩ := hh₃.shows.updateEntry hh₃.quiet hcap h₄
  rw [← add_zero lost] at hh₃
  obtain ⟨hh, hv⟩ := hh₃.setEntry (W := ∅) hs hmem hi ⟨he.cur, he.snap, he.laddr, he.size, he.ptr, he.clean⟩ rfl rfl rfl
    (fun _ _ _ => rfl) rfl
    (fun _ hpair => ⟨hpair.dataCurrent, hpair.dataSnapshot, hpair.ptrCurrent, hpair.ptrSnapshot⟩) rfl
  rw [add_zero] at hh
  have hle := Nat.le_refl v.cap
  exact ⟨_, hh, View.kept_setEntry rfl rfl, h.trans (.refl s v ∅) (hh₁.trans hv₁ (hh₂.trans hv₂ (hh₃.trans hv₃ hv hle) hle) hle) hle⟩

/-- The entry of the location has a page of records. -/
theorem Holds.locatePointer (h : s.Holds v lost) {x : EntryRef × ℕ × ℕ} (hr : Returns (locatePointer a) s x s') :
    ∃ v' i, s'.Holds v' lost ∧ v.Kept v' ∧ s.Evolves v ∅ s' v' ∧ i < v'.used ∧ x.1 = v'.ref i ∧
      (v'.entry i).ptrCurrent.maddr ≠ 0 := by
  unfold LibPM.locatePointer at hr
  rw [returns_bind] at hr
  obtain ⟨sd, s₁, h₁, hr⟩ := hr
  obtain ⟨rfl, rfl⟩ := h.currentSlab h₁
  rw [returns_bind] at hr
  obtain ⟨w, s₂, h₂, hr⟩ := hr
  obtain ⟨-, rfl⟩ := returns_loadWord.mp h₂
  rw [returns_bind] at hr
  obtain ⟨o, s₃, h₃, hr⟩ := hr
  obtain ⟨rfl, ⟨i, hi, rfl, -⟩ | ⟨rfl, -⟩⟩ := h.usedFind h₃
  swap
  · exact (returns_fail hr).elim
  have hcap := h.lt_cap hi
  simp only [returns_bind] at hr
  obtain ⟨e, s₄, h₄, _, s₅, h₅, hr⟩ := hr
  obtain ⟨rfl, rfl⟩ := h.shows.loadEntry hcap h₄
  -- the page of records
  obtain ⟨v', hh, hk, hv, hne⟩ : ∃ v', s₅.Holds v' lost ∧ v.Kept v' ∧ s.Evolves v ∅ s₅ v' ∧
      (v'.entry i).ptrCurrent.maddr ≠ 0 := by
    rcases returns_when.mp h₅ with ⟨h0, h₅⟩ | ⟨hne, rfl⟩
    · simp only [returns_bind] at h₅
      obtain ⟨⟨maddr, laddr⟩, t₁, g₁, _, t₂, g₂, _, t₃, g₃, g₄⟩ := h₅
      exact h.newPtrPage hi h0 g₁ g₂ g₃ g₄
    · exact ⟨v, h, .refl v, .refl s v ∅, hne⟩
  suffices hx : x.1 = v.ref i ∧ s₅ = s' by
    obtain ⟨hx, rfl⟩ := hx
    exact ⟨v', i, hh, hk, hv, hk.used.symm ▸ hi, hx.trans (hk.ref i).symm, hne⟩
  rcases returns_ite.mp hr with ⟨-, hr⟩ | ⟨-, hr⟩
  · obtain ⟨rfl, rfl⟩ := returns_pure.mp hr
    exact ⟨rfl, rfl⟩
  · rw [returns_bind] at hr
    obtain ⟨o, s₆, h₆, hr⟩ := hr
    rw [← hv.addr] at h₆
    obtain ⟨rfl, ⟨j, hj, rfl, -⟩ | ⟨rfl, -⟩⟩ := hh.usedFind h₆
    · simp only [returns_bind, returns_pure] at hr
      obtain ⟨e', s₇, h₇, rfl, rfl⟩ := hr
      obtain ⟨-, rfl⟩ := hh.shows.loadEntry (hh.lt_cap hj) h₇
      exact ⟨rfl, rfl⟩
    · exact (returns_fail hr).elim

/-- **`slab_insert_pointer`.** -/
theorem Holds.slabInsertPointer (h : s.Holds v lost) (hr : Returns (slabInsertPointer a) s u s') :
    ∃ v', s'.Holds v' lost ∧ v.Kept v' ∧ s.Evolves v ∅ s' v' := by
  unfold LibPM.slabInsertPointer at hr
  rw [returns_bind] at hr
  obtain ⟨_, _, hget, hr⟩ := hr
  obtain ⟨rfl, rfl⟩ := returns_get.mp hget
  rcases returns_when.mp hr with ⟨-, hr⟩ | ⟨-, rfl⟩
  · rw [doInsertPointer_eq, returns_bind] at hr
    obtain ⟨x, t, h₁, h₂⟩ := hr
    obtain ⟨v₁, i, hh₁, hk₁, hv₁, hi, hx, hne⟩ := h.locatePointer h₁
    rw [hx] at h₂
    obtain ⟨v₂, hh₂, hk₂, hv₂⟩ := hh₁.appendPtrRec hi hne h₂
    exact ⟨v₂, hh₂, hk₁.trans hk₂, hh₁.trans hv₁ hv₂ hk₁.cap.ge⟩
  · exact ⟨v, h, .refl v, .refl s v ∅⟩

end Pm

end LibPM

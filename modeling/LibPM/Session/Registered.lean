import LibPM.Session.Secure

/-!
# Registrations between two checkpoints

The root word and the pointer records are not among what a restore of a completed checkpoint reads. A registration stores
to the directory, to entries and to pages of records, and leaves the versions of the data as they are.
-/

namespace LibPM

open Recorded Recorded.Prog

/-- The dirty entries and the snapshots of the data are the same. -/
structure View.SameVersions (v w : View) : Prop where
  vector : w.dir.sdVector = v.dir.sdVector
  snapshot : ∀ i < slabBucketEntries, (w.entry i).dataSnapshot.maddr = (v.entry i).dataSnapshot.maddr

namespace View.SameVersions

variable {v v' w : View} {i : ℕ} {e : SlabEntry}

theorem refl (v : View) : v.SameVersions v := ⟨rfl, fun _ _ => rfl⟩

theorem trans (h : v.SameVersions v') (h' : v'.SameVersions w) : v.SameVersions w :=
  ⟨h'.vector.trans h.vector, fun i hi => (h'.snapshot i hi).trans (h.snapshot i hi)⟩

theorem sized (v : View) (n : ℕ) (free : List ℕ) : v.SameVersions (v.sized n free) := ⟨rfl, fun _ _ => rfl⟩

theorem setEntry (he : e.dataSnapshot.maddr = (v.entry i).dataSnapshot.maddr) : v.SameVersions (v.setEntry i e) := by
  refine ⟨rfl, fun j _ => ?_⟩
  by_cases hji : j = i
  · rw [hji, View.setEntry_entry]
    exact he
  · rw [View.setEntry_entry_of_ne _ _ hji]

end View.SameVersions

namespace Pm

variable {e₀ : ℕ → SlabEntry} {P : ℕ → Page} {s s' t : Pm} {v v' w : View} {lost lost' : Multiset ℕ} {a i j n p q : ℕ}
  {u : Unit}

/-- The file still holds the entries, and the view shows the versions of `v`. -/
def StillBacks (e₀ : ℕ → SlabEntry) (P : ℕ → Page) (v : View) (t : Pm) : Prop := ∃ w, t.Saves e₀ P w ∧ v.SameVersions w

theorem StillBacks.trans (h : t.StillBacks e₀ P w) (hv : v.SameVersions w) : t.StillBacks e₀ P v := by
  obtain ⟨w', hw', hsame⟩ := h
  exact ⟨w', hw', hv.trans hsame⟩

/-- The invariant after a step that stores to no data page. -/
theorem Secure.retain (h : s.Secure e₀ P v lost) (hh : t.Holds v' lost) (hk : v.Kept v') (hv : s.Evolves v ∅ t v')
    (hb : t.StillBacks e₀ P v) (hf : t.IsFixed) (hlen : t.mapLen = s.mapLen) : t.Secure e₀ P v' lost := by
  obtain ⟨w, hw, hsame⟩ := hb
  obtain ⟨ht, hcongr⟩ := h.toSafe.keep hh hk ⟨w, hw⟩ hf
  obtain ⟨hdir, hentry⟩ := hcongr w hw
  refine h.next ht hk hv hlen (fun i hi => .inl ?_) fun i _ hmem => .inl ?_
  · have hi' := h.lt_cap.mp (h.holds.lt_cap hi)
    rw [hentry i hi']
    exact hsame.snapshot i hi'
  · rwa [hdir, hsame.vector] at hmem

end Pm

/-! ## What registrations leave as it is -/

namespace Framed

variable {R : Pm → Pm → Prop} [Framed R]

theorem loadWord (a : ℕ) : Keeps R (loadWord a) := by
  have hbytes : ∀ l : List ℕ, Keeps R (l.mapM LibPM.loadByte) := by
    intro l
    induction l with
    | nil => exact keeps_pure
    | cons x l ih =>
      rw [List.mapM_cons]
      exact (loadByte x).bind fun _ => ih.bind fun _ => keeps_pure
  exact (hbytes _).bind fun _ => keeps_pure

theorem locatePointer (a : ℕ) : Keeps R (locatePointer a) := by
  refine currentSlabMaddr.bind fun sd => (loadWord a).bind fun x => (usedFind sd _).bind fun o => ?_
  cases o with
  | none => exact keeps_fail
  | some r =>
    refine load.bind fun _ => (Keeps.when ?_).bind fun _ => Keeps.ite keeps_pure ?_
    · refine (getpage _).bind fun ⟨maddr, laddr⟩ => ?_
      exact (retypePage _ _).bind fun _ => (updatePage _ _).bind fun _ => updatePage _ _
    · refine (usedFind sd _).bind fun o => ?_
      cases o with
      | none => exact keeps_fail
      | some r => exact load.bind fun _ => keeps_pure

theorem slabInsertPointer (a : ℕ) : Keeps R (slabInsertPointer a) := by
  refine keeps_get.bind fun s => Keeps.when ?_
  rw [doInsertPointer_eq]
  exact (locatePointer a).bind fun _ => load.bind fun _ => keeps_require.bind fun _ => (updatePage _ _).bind fun _ =>
    (updatePage _ _).bind fun _ => (updatePage _ _).bind fun _ => updatePage _ _

theorem slabSetroot (a : ℕ) : Keeps R (slabSetroot a) := by
  refine currentSlabMaddr.bind fun sd => (usedFind sd _).bind fun o => ?_
  cases o with
  | none => exact keeps_pure
  | some r => exact load.bind fun _ => (updatePage _ _).bind fun _ => keeps_pure

end Framed

namespace Pm

variable {e₀ : ℕ → SlabEntry} {P : ℕ → Page} {s s' t : Pm} {v v' w : View} {lost lost' : Multiset ℕ} {a i j n p q : ℕ}
  {u : Unit}

/-! ## The root word -/

/-- A page that is no data page is stored to without a fault, or not at all. -/
theorem Holds.returns_of_exposes_updatePage (h : s.Holds v lost) (hd : ¬ v.IsData p) {g : Page → Option Page}
    (hr : Exposes (updatePage (v.addr p) g) s t) : Returns (updatePage (v.addr p) g) s () t := by
  refine LibPM.returns_of_exposes_updatePage (fun t' ht' => ?_) hr
  unfold LibPM.makeWritable at ht'
  simp only [exposes_bind, not_exposes_get, not_exposes_ofOption, returns_get, returns_ofOption, false_or] at ht'
  obtain ⟨_, _, ⟨rfl, rfl⟩, k, _, ⟨-, rfl⟩, ht'⟩ := ht'
  unfold Prog.when at ht'
  split_ifs at ht' with hw
  · -- the handler does not find the page
    unfold LibPM.handleMemoryUpdate at ht'
    simp only [exposes_bind, not_exposes_currentSlabMaddr, not_exposes_usedFind, false_or] at ht'
    obtain ⟨sd, _, h₁, o, _, h₂, ht'⟩ := ht'
    obtain ⟨rfl, rfl⟩ := h.currentSlab h₁
    obtain ⟨rfl, ⟨i, hi, -, hfind⟩ | ⟨rfl, -⟩⟩ := h.usedFind h₂
    · have hfind : (v.entry i).dataCurrent.maddr = roundDwnPg (v.addr p) := beq_iff_eq.mp hfind
      rw [h.shows.roundDwnPg_addr] at hfind
      exact hd ⟨i, hi, hfind⟩
    · exact not_exposes_fail ht'
  · exact not_exposes_pure ht'

theorem Holds.not_isData_of_meta (h : s.Holds v lost) (hp : v.IsMeta p) : ¬ v.IsData p := fun hd =>
  (h.ok.isData_facts h.linked h.balanced hd).2.2.1 hp

/-- **`slab_setroot`.** -/
theorem Safe.slabSetroot (h : s.Safe e₀ P v lost) :
    Passes (Backs e₀ P) (slabSetroot a) s fun _ => StillBacks e₀ P v := by
  have hmeta : v.IsMeta 1 := ⟨.dir, trivial, rfl⟩
  unfold LibPM.slabSetroot
  refine (passes_of_not_exposes (fun _ => not_exposes_currentSlabMaddr) fun _ _ hr => hr).bind fun sd s₁ h₁ => ?_
  obtain ⟨rfl, rfl⟩ := h.holds.currentSlab h₁
  refine (passes_of_not_exposes (fun _ => not_exposes_usedFind) fun _ _ hr => hr).bind fun o s₂ h₂ => ?_
  obtain ⟨rfl, ⟨i, hi, rfl, -⟩ | ⟨rfl, -⟩⟩ := h.holds.usedFind h₂
  · refine (passes_of_not_exposes (fun _ => not_exposes_loadEntry) fun _ _ hr => hr).bind fun e s₃ h₃ => ?_
    obtain ⟨rfl, rfl⟩ := h.holds.shows.loadEntry (h.holds.lt_cap hi) h₃
    refine Passes.bind (Saves.passes (Q := StillBacks e₀ P v) (fun t ht => ?_) fun t hr => ?_) fun _ t ht => passes_pure ht
    · exact h.holds.returns_of_exposes_updatePage (h.holds.not_isData_of_meta hmeta) ht
    · obtain ⟨hs, hm⟩ := h.holds.shows.updateDir h.holds.quiet hr
      have hsaves := h.saves.sameData hs hm (.setDir v rfl rfl)
      exact ⟨⟨_, hsaves⟩, _, hsaves, ⟨rfl, fun _ _ => rfl⟩⟩
  · exact passes_pure ⟨v, h.saves, .refl v⟩

/-! ## Pointer records -/

/-- A store to an entry that a restore does not read. -/
theorem Saves.updateEntry (h : s.Saves e₀ P w) (hq : w.Quiet) (hw : ∀ p, w.IsMeta p → (s.prot p).write = true)
    (hi : i < w.cap) {f : SlabEntry → SlabEntry} (hf : ∀ e y, (f e).saved y = e.saved y)
    (hl : ∀ e, (f e).dataSnapshot = e.dataSnapshot) :
    Passes (Backs e₀ P) (updateEntry (w.ref i) f) s fun _ t =>
      t.Saves e₀ P (w.setEntry i (f (w.entry i))) ∧ s.SameData w.toPlaces t := by
  have hhas := Places.has_bucket hi
  refine Saves.passes (fun t => returns_of_exposes_updatePage fun t' => ?_) fun t hr => ?_
  · exact not_exposes_makeWritable (h.shows.vpage (h.shows.wf.lt _ hhas)) (hw _ ⟨_, hhas, rfl⟩)
  · obtain ⟨hs, hm⟩ := h.shows.updateEntry hq hi hr
    have hsaves := h.sameData hs hm (.setEntry (hf _) (congrArg _ (hl _)))
    exact ⟨⟨_, hsaves⟩, hsaves, hm⟩

/-- An entry without records gets a page for them. -/
theorem Safe.newPtrPage (h : s.Safe e₀ P v lost) (hi : i < v.used) : Passes (Backs e₀ P) (do
      let (maddr, laddr) ← pageAllocatorGetpage paProtWrite
      retypePage maddr fun b => .ptrs (ptrsOfBytes b)
      LibPM.updateEntry (v.ref i) fun e => { e with ptrCurrent.laddr := laddr }
      LibPM.updateEntry (v.ref i) fun e => { e with ptrCurrent.maddr := maddr }) s fun _ => StillBacks e₀ P v := by
  have hcap := h.holds.lt_cap hi
  refine h.getpage.bind ?_
  rintro _ s₁ ⟨p, n, free, rfl, hg, h₁⟩
  have hp : p ∈ lost + {p} := by simp
  refine (passes_of_not_exposes (fun _ => not_exposes_retypePage) fun _ _ hr => hr).bind fun _ s₂ h₂ => ?_
  obtain ⟨rfl, hh₂, -⟩ := h₁.holds.retypePage hp h₂
  have hsaves₂ := h₁.saves.setPage (h₁.holds.lost_lt hp) (h₁.holds.balanced.lost_notMeta hp)
    (fun j hj => h₁.holds.saved_ne_of_lost h₁.fixed hp (h₁.lt_cap.mpr hj)) (.ptrs (ptrsOfBytes (s₁.bytesOf (s₁.page p))))
  refine (hsaves₂.updateEntry hh₂.quiet hh₂.guarded.metadata hcap ?_ ?_).bind ?_
  · exact fun _ _ => rfl
  · exact fun _ => rfl
  rintro _ s₃ ⟨h₃, hm₃⟩
  refine (h₃.updateEntry (i := i) ?_ ?_ hcap ?_ ?_).mono ?_
  · exact View.Quiet.setEntry hh₂.quiet rfl
  · rw [hm₃.prot]
    exact hh₂.guarded.metadata
  · exact fun _ _ => rfl
  · exact fun _ => rfl
  rintro _ s₄ ⟨h₄, -⟩
  rw [View.setEntry_setEntry, View.setEntry_entry] at h₄
  exact ⟨_, h₄, (View.SameVersions.sized v n free).trans (.setEntry rfl)⟩

/-- A store to the page of the records of an entry. -/
theorem Safe.updatePtrs (h : s.Safe e₀ P v lost) (hi : i < v.used) (hq : (v.entry i).ptrCurrent.maddr = v.addr q)
    (g : Page → Option Page) : Passes (Backs e₀ P) (updatePage (v.addr q) g) s fun _ t => t.Safe e₀ P v lost := by
  obtain ⟨q', hq', hlt, hm, hrest⟩ := h.holds.ptrPage hi (hq.symm ▸ h.holds.shows.addr_ne_zero q)
  obtain rfl : q' = q := v.addr_injective (hq'.symm.trans hq)
  refine Saves.passes (fun t => h.holds.returns_of_exposes_updatePage fun hd => hrest (.inr (.inr hd))) fun t hr => ?_
  obtain ⟨t', v', lost', x, hw, -, -, hs', -, -⟩ := h.holds.updateData hlt hm hr
  obtain ⟨hh, -⟩ := h.holds.updatePtrs hlt hm hrest hr
  have hsaves : t.Saves e₀ P v := by
    cases hw with
    | «open» _ =>
      rw [hs']
      exact h.saves.setPage hlt hm (fun j hj => h.holds.saved_ne_of_ptr h.fixed hi hq (h.lt_cap.mpr hj)) x
    | fault _ hj hp _ => exact absurd (.inr (.inr ⟨_, hj, hp⟩)) hrest
  exact ⟨⟨v, hsaves⟩, hh, hsaves, Framed.updatePage (R := Pm.StaysFixed) _ _ hr h.fixed⟩

theorem Safe.appendPtrRec (h : s.Safe e₀ P v lost) (hi : i < v.used) (hne : (v.entry i).ptrCurrent.maddr ≠ 0)
    (ploc seid off : ℕ) : Passes (Backs e₀ P) (appendPtrRec (v.ref i) ploc seid off) s fun _ => StillBacks e₀ P v := by
  have hcap := h.holds.lt_cap hi
  obtain ⟨q, hq, -⟩ := h.holds.ptrPage hi hne
  unfold LibPM.appendPtrRec
  refine (passes_of_not_exposes (fun _ => not_exposes_loadEntry) fun _ _ hr => hr).bind fun e s₁ h₁ => ?_
  obtain ⟨rfl, rfl⟩ := h.holds.shows.loadEntry hcap h₁
  refine (passes_of_not_exposes (fun _ => not_exposes_require) fun _ _ hr => hr).bind fun _ s₂ h₂ => ?_
  obtain ⟨-, rfl⟩ := returns_require.mp h₂
  rw [hq]
  refine (h.updatePtrs hi hq _).bind fun _ s₃ h₃ => (h₃.updatePtrs hi hq _).bind fun _ s₄ h₄ =>
    (h₄.updatePtrs hi hq _).bind fun _ s₅ h₅ => ?_
  refine (h₅.saves.updateEntry h₅.holds.quiet h₅.holds.guarded.metadata hcap ?_ ?_).mono fun _ t ht => ?_
  · exact fun _ _ => rfl
  · exact fun _ => rfl
  · exact ⟨_, ht.1, .setEntry rfl⟩

theorem Safe.locatePointer (h : s.Safe e₀ P v lost) :
    Passes (Backs e₀ P) (locatePointer a) s fun _ => StillBacks e₀ P v := by
  unfold LibPM.locatePointer
  refine (passes_of_not_exposes (fun _ => not_exposes_currentSlabMaddr) fun _ _ hr => hr).bind fun sd s₁ h₁ => ?_
  obtain ⟨rfl, rfl⟩ := h.holds.currentSlab h₁
  refine (passes_of_not_exposes (fun _ => not_exposes_loadWord) fun _ _ hr => hr).bind fun x s₂ h₂ => ?_
  obtain ⟨-, rfl⟩ := returns_loadWord.mp h₂
  refine (passes_of_not_exposes (fun _ => not_exposes_usedFind) fun _ _ hr => hr).bind fun o s₃ h₃ => ?_
  obtain ⟨rfl, ⟨i, hi, rfl, -⟩ | ⟨rfl, -⟩⟩ := h.holds.usedFind h₃
  swap
  · exact passes_of_not_exposes (fun _ => not_exposes_fail) fun _ _ hr => (returns_fail hr).elim
  refine (passes_of_not_exposes (fun _ => not_exposes_loadEntry) fun _ _ hr => hr).bind fun e s₄ h₄ => ?_
  obtain ⟨-, rfl⟩ := returns_loadEntry.mp h₄
  refine (Passes.when (R := fun _ => StillBacks e₀ P v) (fun _ => h.newPtrPage hi) fun _ => ⟨v, h.saves, .refl v⟩).bind
    fun _ s₅ h₅ => ?_
  -- the target is only looked up
  split_ifs
  · exact passes_pure h₅
  · refine (passes_of_not_exposes (fun _ => not_exposes_usedFind) fun _ _ hr => hr).bind fun o s₆ h₆ => ?_
    obtain ⟨-, rfl⟩ := returns_usedFind.mp h₆
    cases o with
    | none => exact passes_of_not_exposes (fun _ => not_exposes_fail) fun _ _ hr => (returns_fail hr).elim
    | some r =>
      refine (passes_of_not_exposes (fun _ => not_exposes_loadEntry) fun _ _ hr => hr).bind fun e s₇ h₇ => ?_
      obtain ⟨-, rfl⟩ := returns_loadEntry.mp h₇
      exact passes_pure h₅

/-- **`slab_insert_pointer`.** -/
theorem Safe.slabInsertPointer (h : s.Safe e₀ P v lost) :
    Passes (Backs e₀ P) (slabInsertPointer a) s fun _ => StillBacks e₀ P v := by
  unfold LibPM.slabInsertPointer
  refine (passes_of_not_exposes (fun _ => not_exposes_get) fun _ _ hr => hr).bind fun _ _ hget => ?_
  obtain ⟨rfl, rfl⟩ := returns_get.mp hget
  refine Passes.when (fun _ => ?_) fun _ => ⟨v, h.saves, .refl v⟩
  rw [doInsertPointer_eq]
  refine (h.locatePointer.and fun _ _ hr => And.intro (h.holds.locatePointer hr)
    (Framed.locatePointer (R := Pm.StaysFixed) a hr h.fixed)).bind ?_
  rintro x t ⟨⟨w, hw, hsame⟩, ⟨v', i, hh, hk, hv, hi, hx, hne⟩, hf⟩
  obtain ⟨ht, hcongr⟩ := h.keep hh hk ⟨w, hw⟩ hf
  obtain ⟨hdir, hentry⟩ := hcongr w hw
  rw [hx]
  have hsame' : v.SameVersions v' := ⟨hdir ▸ hsame.vector, fun j hj => by
    rw [hentry j hj]
    exact hsame.snapshot j hj⟩
  exact (ht.appendPtrRec hi hne _ _ _).mono fun _ t' ht' => ht'.trans hsame'

end Pm

end LibPM

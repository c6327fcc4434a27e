import LibPM.Recorded.Visits
import LibPM.Fixptr.Snapshots

/-!
# Crashes of the list

`PptrMem.CrashState P c ts t` says what a crash outside `pptr_cpoint` leaves: a list in the file with the entries `ts`,
and snapshots that name what was committed in `c`, apart from one that is being made. Each function of fixptr.c passes
such states only (`Logged.pptrAppend`). Of `pptr_cpoint` it is shown that the list stays in the file.
-/

namespace LibPM

open Recorded Recorded.Prog LittleEndian

namespace PptrMem

variable {P : PageSupply} {s t u c : PptrMem} {g l : List InodeView} {I J : InodeView} {i k a d p v : ℕ} {ts : List Pptr}

/-- No slot is left out. -/
def NoSlot : ℕ → ℕ → Prop := fun _ _ => False

/-- Between the stores of a call the list is in memory and in the file, and the snapshots are those of `c`. -/
structure Logged (P : PageSupply) (c s : PptrMem) (l : List InodeView) (I : InodeView) (i : ℕ) : Prop where
  holds : s.Holds P l I i
  filed : s.Filed P (l ++ [I])
  saved : Saved P c s (l ++ [I]) NoSlot

def CrashState (P : PageSupply) (c : PptrMem) (ts : List Pptr) (t : PptrMem) : Prop :=
  ∃ g, t.Filed P g ∧ entriesOf g = ts ∧ Saved P c t g (SlotTorn P c t)

/-- The pages that the next `pptr_append` is given, if it asks for any, have no old links or entries. -/
def AppendFresh (P : PageSupply) (s : PptrMem) : Prop :=
  (s.NeedsExpanding → ∀ n, P.pick s.used s.requests = some n → FreshInode (s.bytes n) ∧
    ∀ d, P.pick (n :: s.used) (s.requests + 1) = some d → CleanDnode (s.bytes d)) ∧
  (¬ s.NeedsExpanding → s.NeedsDnode → ∀ d, P.pick s.used s.requests = some d → CleanDnode (s.bytes d))

/-- The page that `pptr_init` is given has no old links. -/
def InitFresh (P : PageSupply) (s : PptrMem) : Prop :=
  ∀ a, P.pick s.used s.requests = some a → FreshLinks (s.bytes a)

instance (P : PageSupply) (s : PptrMem) : Decidable (s.InitFresh P) :=
  inferInstanceAs (Decidable (∀ a ∈ P.pick s.used s.requests, FreshLinks (s.bytes a)))

instance (P : PageSupply) (s : PptrMem) : Decidable (s.AppendFresh P) :=
  inferInstanceAs (Decidable ((s.NeedsExpanding → ∀ n ∈ P.pick s.used s.requests, FreshInode (s.bytes n) ∧
    ∀ d ∈ P.pick (n :: s.used) (s.requests + 1), CleanDnode (s.bytes d)) ∧
    (¬ s.NeedsExpanding → s.NeedsDnode → ∀ d ∈ P.pick s.used s.requests, CleanDnode (s.bytes d))))

theorem AppendFresh.clean (h : s.AppendFresh P) : s.AppendClean P :=
  ⟨fun he n hn => ⟨(h.1 he n hn).1.clean, (h.1 he n hn).2⟩, h.2⟩

theorem InitFresh.clean (h : s.InitFresh P) : s.InitClean P := fun a ha => (h a ha).1

theorem Saved.named {e : ℕ → ℕ → Prop} (h : Saved P c s g e) (he : ∀ J ∈ g, ∀ k, e J.page k →
    ∃ a, P.mapped a = true ∧ P.laddr a = s.pin J.page (.snapshotLaddr k)) : Named P s g := by
  intro J hJ k hk hne
  rcases h.slot J hJ k hk hne with ⟨a, -, hm, hl, -⟩ | hs
  · exact ⟨a, hm, hl⟩
  · exact he J hJ k hs

theorem Saved.crash (h : Saved P c t g NoSlot) (hf : t.Filed P g) : CrashState P c (entriesOf g) t :=
  ⟨g, hf, rfl, h.mono fun _ _ he => he.elim⟩

/-! ## Steps -/

theorem silent_loadField {F : Type} {L : Layout F} {f : F} : Silent (loadField P L a f) :=
  silent_get.bind fun _ => silent_require.bind fun _ => silent_pure

theorem silent_pptrDnodeIsFull : Silent (pptrDnodeIsFull P d) := silent_loadField.bind fun _ => silent_pure

theorem silent_pptrInodeCmaddr : Silent (pptrInodeCmaddr P p) :=
  silent_loadField.bind fun _ => silent_require.bind fun _ => silent_loadField

theorem silent_pptrNeedExpanding : Silent (pptrNeedExpanding P p) :=
  silent_loadField.bind fun _ => silent_pptrDnodeIsFull.ite silent_pure

section Steps

variable {T : PptrMem → Prop} {R : Unit → PptrMem → Prop}

theorem passes_storeField {F : Type} {L : Layout F} {f : F}
    (h : P.mapped a = true → T (s.setField L a f v) ∧ R () (s.setField L a f v)) : Passes T (storeField P L a f v) s R := by
  unfold storeField
  refine silent_require.passes_bind fun _ hr => ?_
  obtain ⟨hT, hR⟩ := h (returns_require.mp hr).1
  exact passes_store hT hR

theorem passes_pptrGetpage {Q : ℕ → PptrMem → Prop} (h : ∀ a, P.pick s.used s.requests = some a → Q a (s.took a)) :
    Passes T (pptrGetpage P) s Q := by
  refine ⟨visits_of_not_exposes fun t ht => ?_, fun a t hr => ?_⟩
  · unfold pptrGetpage at ht
    simp at ht
  · unfold pptrGetpage at hr
    simp only [returns_bind, returns_get, returns_ofOption, returns_modify, returns_pure] at hr
    obtain ⟨_, _, ⟨rfl, rfl⟩, _, _, ⟨hp, rfl⟩, _, _, rfl, rfl, rfl⟩ := hr
    exact h _ hp

end Steps

theorem Filed.took (h : s.Filed P g) : (s.took a).Filed P g := h.congr (same_of_bytes rfl fun _ _ => rfl)

/-- A page that is handed out while the list has one. -/
theorem Holds.pick_ne (h : s.Holds P l I i) (hP : P.InFile) (ha : P.pick s.used s.requests = some a) :
    a ∉ pagesOf (l ++ [I]) ∧ P.mapped a = true ∧ P.laddr a ≠ 0 ∧ P.laddr a < 2 ^ 64 := by
  have hm := P.pick_mapped _ _ _ ha
  refine ⟨(h.spare ha).notMem, hm, hP.laddr_ne _ _ _ (List.ne_nil_of_mem h.owned_last.used) ha, ?_⟩
  exact Nat.lt_trans (hP.laddr_lt a hm) (by decide)

/-! ## A new inode -/

theorem Logged.pptrExtendList (h : Logged P c s l I i) (hP : P.InFile)
    (hn : ∀ n, P.pick s.used s.requests = some n → FreshInode (s.bytes n)) :
    Passes (CrashState P c (entriesOf (l ++ [I]))) (pptrExtendList P) s fun n t =>
      t.Filed P (l ++ [I] ++ [⟨n, []⟩]) ∧ Saved P c t (l ++ [I] ++ [⟨n, []⟩]) NoSlot := by
  unfold LibPM.pptrExtendList
  refine silent_get.passes_bind fun s₀ hget => ?_
  obtain ⟨rfl, -⟩ := returns_get.mp hget
  refine (passes_pptrGetpage (Q := fun n t => P.pick s.used s.requests = some n ∧ t = s.took n)
    fun n hn => ⟨hn, rfl⟩).bind ?_
  rintro n _ ⟨hpick, rfl⟩
  rw [h.holds.last]
  have hI : I ∈ l ++ [I] := by simp
  obtain ⟨hnotMem, hm, hne, hlt⟩ := h.holds.pick_ne hP hpick
  have hnI : n ≠ I.page := fun e => hnotMem (e ▸ h.holds.last_mem)
  have hfresh := hn n hpick
  -- the offset makes the inode part of the list
  have hfiled := (h.filed.took (a := n)).link hnotMem hm hne hlt hfresh
  have hslots := h.holds.sameSlots_setPin (v := P.laddr n) (sameSlots_took (a := n)) hI (f := .pinNextLaddr)
    trivial
  set s₁ := (s.took n).setField pptrInode I.page .pinNextLaddr (P.laddr n)
  have hfree : PinField.Free (l ++ [I] ++ [⟨n, []⟩]) I .pinNextMaddr := by
    intro K hK
    rw [List.getLast?_append, List.getLast?_singleton, Option.some_or, Option.some.injEq] at hK
    rw [← hK]
    exact hnI
  have hfiled₂ := hfiled.congr (hfiled.same_setPin (v := n) (J := I) (by simp) hfree)
  have hslots₂ := h.holds.sameSlots_setPin (v := n) hslots hI (f := .pinNextMaddr) trivial
  set s₂ := s₁.setField pptrInode I.page .pinNextMaddr n
  have hpin : ∀ k < pptrInodeEntries, s.pin n (.snapshotLaddr k) = 0 := fun k hk => (hfresh.2.2.2 k hk).2
  have hpin₁ : ∀ k < pptrInodeEntries, s₁.pin n (.snapshotLaddr k) = 0 := fun k hk =>
    (pin_setField_of_ne_page hnI).trans (hpin k hk)
  have hpin₂ : ∀ k < pptrInodeEntries, s₂.pin n (.snapshotLaddr k) = 0 := fun k hk =>
    (pin_setField_of_ne_page hnI).trans (hpin₁ k hk)
  have hsaved₁ := (h.saved.congr hslots).link hpin₁
  have hsaved₂ := (h.saved.congr hslots₂).link hpin₂
  have hentries := entriesOf_addInode (l ++ [I]) n
  refine (passes_storeField (R := fun _ t => t = s₁) fun _ => ⟨hentries ▸ hsaved₁.crash hfiled, rfl⟩).bind ?_
  rintro _ _ rfl
  refine (passes_storeField (R := fun _ t => t = s₂) fun _ => ⟨hentries ▸ hsaved₂.crash hfiled₂, rfl⟩).bind ?_
  rintro _ _ rfl
  set s₃ : PptrMem := { s₂ with head := { s₂.head with lastMaddr := n } }
  have hfiled₃ : s₃.Filed P (l ++ [I] ++ [⟨n, []⟩]) := hfiled₂.congr (same_of_bytes rfl fun _ _ => rfl)
  have hsaved₃ : Saved P c s₃ (l ++ [I] ++ [⟨n, []⟩]) NoSlot := hsaved₂.congr (sameSlots_of_eq rfl)
  refine (passes_store (R := fun _ t => t = s₃) (hentries ▸ hsaved₃.crash hfiled₃) rfl).bind ?_
  rintro _ _ rfl
  exact passes_pure ⟨hfiled₃, hsaved₃⟩

/-! ## A new dnode -/

/-- The current index is all that changes. -/
theorem passes_pptrNextDnode {T : PptrMem → Prop} (hT : ∀ v, T (s.setField pptrInode p .pinCurrentIdx v)) :
    Passes T (pptrNextDnode P p) s fun _ t => t = s ∨ ∃ v, t = s.setField pptrInode p .pinCurrentIdx v := by
  unfold pptrNextDnode
  refine silent_pptrInodeCmaddr.passes_bind fun d _ => ?_
  refine (silent_pptrDnodeIsFull.ite silent_pure).passes_bind fun full _ => ?_
  split_ifs
  · refine silent_loadField.passes_bind fun idx _ => ?_
    refine (passes_storeField (R := fun _ t => t = s.setField pptrInode p .pinCurrentIdx (idx + 1))
      fun _ => ⟨hT _, rfl⟩).bind ?_
    rintro _ _ rfl
    refine ⟨visits_of_not_exposes (silent_pptrInodeCmaddr.not_exposes _), fun a t hr => .inr ⟨idx + 1, ?_⟩⟩
    exact silent_pptrInodeCmaddr.keeps _ a t hr
  · exact passes_pure (.inl rfl)

theorem Logged.setIndex (h : Logged P c s l I i) (v : ℕ) :
    (s.setField pptrInode I.page .pinCurrentIdx v).Filed P (l ++ [I]) ∧
      Saved P c (s.setField pptrInode I.page .pinCurrentIdx v) (l ++ [I]) NoSlot := by
  have hI : I ∈ l ++ [I] := by simp
  refine ⟨h.filed.congr (h.filed.same_setPin hI (f := .pinCurrentIdx) trivial), ?_⟩
  exact h.saved.congr (h.holds.sameSlots_setPin (sameSlots_of_eq rfl) hI (f := .pinCurrentIdx) trivial)

/-- The next dnode is found, or its slot. -/
theorem Logged.pptrNextDnode (h : Logged P c s l I (I.dnodes.length - 1))
    (hroom : I.dnodes.length = pptrInodeEntries → ∀ d ∈ I.dnodes.getLast?, d.entries.length ≠ pptrDnodeEntries) :
    Passes (CrashState P c (entriesOf (l ++ [I]))) (pptrNextDnode P I.page) s fun d t =>
      (t.Filed P (l ++ [I]) ∧ Saved P c t (l ++ [I]) NoSlot) ∧
      ((d = 0 ∧ t.Holds P l I I.dnodes.length ∧ I.dnodes.length < pptrInodeEntries ∧ s.NeedsDnode ∧
        t.used = s.used ∧ t.requests = s.requests ∧ ∀ b, b ∉ s.used → t.bytes b = s.bytes b) ∨
      (d ≠ 0 ∧ t.HasRoom P l I d)) := by
  refine Passes.and ?_ fun a t hr => (h.holds.pptrNextDnode hroom).of_returns hr
  refine (passes_pptrNextDnode fun v => (h.setIndex v).2.crash (h.setIndex v).1).mono fun d t ht => ?_
  rcases ht with rfl | ⟨v, rfl⟩
  · exact ⟨h.filed, h.saved⟩
  · exact h.setIndex v

/-- The slot after the last dnode takes a new one. -/
theorem Logged.addDnode (h : Logged P c s l I I.dnodes.length) (hP : P.InFile) (hlt : I.dnodes.length < pptrInodeEntries)
    (hd : ∀ d, P.pick s.used s.requests = some d → CleanDnode (s.bytes d)) :
    Passes (CrashState P c (entriesOf (l ++ [I]))) (do
      let idx ← loadField P pptrInode I.page .pinCurrentIdx
      require (idx < pptrInodeEntries) .outOfBounds
      let dnode ← pptrGetpage P
      storeField P pptrInode I.page (.currentLaddr idx) (P.laddr dnode)
      storeField P pptrInode I.page (.currentMaddr idx) dnode
      return (dnode, I.page)) s fun r t =>
        (t.Filed P (l ++ [⟨I.page, I.dnodes ++ [⟨r.1, []⟩]⟩]) ∧
          Saved P c t (l ++ [⟨I.page, I.dnodes ++ [⟨r.1, []⟩]⟩]) NoSlot) ∧
        (r.2 = I.page ∧ t.HasRoom P l ⟨I.page, I.dnodes ++ [⟨r.1, []⟩]⟩ r.1) := by
  refine Passes.and ?_ fun a t hr => (h.holds.addDnode hlt hd).of_returns hr
  have hI : I ∈ l ++ [I] := by simp
  refine silent_loadField.passes_bind fun idx hidx => ?_
  obtain ⟨rfl, -⟩ := hidx.unique (returns_loadPin h.holds.owned_last.mapped)
  rw [h.holds.index]
  refine silent_require.passes_bind fun _ _ => ?_
  refine (passes_pptrGetpage (Q := fun d t => P.pick s.used s.requests = some d ∧ t = s.took d)
    fun d hd => ⟨hd, rfl⟩).bind ?_
  rintro d _ ⟨hpick, rfl⟩
  obtain ⟨hnotMem, hm, hne, hladdr⟩ := h.holds.pick_ne hP hpick
  -- the offset makes the dnode part of the list
  have hfiled := (h.filed.took (a := d)).addDnode hlt hnotMem hm hne hladdr (hd d hpick)
  have hslots := h.holds.sameSlots_setPin (v := P.laddr d) (sameSlots_took (a := d)) hI
    (f := .currentLaddr I.dnodes.length) trivial
  have htook := h.holds.congr (same_took (a := d))
  have hholds := htook.congr (htook.same_setLaddr (v := P.laddr d) hI (f := .currentLaddr I.dnodes.length) id)
  set s₁ := (s.took d).setField pptrInode I.page (.currentLaddr I.dnodes.length) (P.laddr d)
  set g := l ++ [InodeView.mk I.page (I.dnodes ++ [⟨d, []⟩])] with hg
  have hpages : ∀ J ∈ g, ∃ K ∈ l ++ [I], K.page = J.page ∧ K.dnodes.length ≤ J.dnodes.length := by
    intro J hJ
    rcases List.mem_append.mp hJ with hJ | hJ
    · exact ⟨J, List.mem_append_left _ hJ, rfl, Nat.le_refl _⟩
    · rw [List.mem_singleton.mp hJ]
      exact ⟨I, hI, rfl, by simp⟩
  have hsaved := (h.saved.congr hslots).of_pages hpages
  have hunused : s₁.pin I.page (.snapshotLaddr I.dnodes.length) = 0 :=
    (h.saved.congr hslots).unused I hI _ hlt (Nat.le_refl _)
  have hfiled₂ := hfiled.congr (hfiled.same_setPin (v := d) (J := ⟨I.page, I.dnodes ++ [⟨d, []⟩]⟩) (List.mem_append_right _ (by simp))
    (f := .currentMaddr I.dnodes.length) (by simp [PinField.Free]))
  have hsaved₂ := ((h.saved.congr hslots).setCurrent (v := d) hholds hunused).of_pages hpages
  have hentries := entriesOf_addDnode l I d
  refine (passes_storeField (R := fun _ t => t = s₁) fun _ => ⟨hentries ▸ hsaved.crash hfiled, rfl⟩).bind ?_
  rintro _ _ rfl
  refine (passes_storeField (R := fun _ t => t = s₁.setField pptrInode I.page (.currentMaddr I.dnodes.length) d)
    fun _ => ⟨hentries ▸ hsaved₂.crash hfiled₂, rfl⟩).bind ?_
  rintro _ _ rfl
  exact passes_pure ⟨hfiled₂, hsaved₂⟩

/-- `pptr_get_dnode` leaves a dnode with room, in memory and in the file. -/
theorem Logged.pptrGetDnode (h : Logged P c s l I (I.dnodes.length - 1)) (hP : P.InFile) (hc : s.AppendFresh P) :
    Passes (CrashState P c (entriesOf (l ++ [I]))) (pptrGetDnode P) s fun r t =>
      ∃ l' I', entriesOf (l' ++ [I']) = entriesOf (l ++ [I]) ∧ r.2 = I'.page ∧ t.HasRoom P l' I' r.1 ∧
        t.Filed P (l' ++ [I']) ∧ Saved P c t (l' ++ [I']) NoSlot := by
  classical
  unfold LibPM.pptrGetDnode
  refine silent_get.passes_bind fun s₀ hget => ?_
  obtain ⟨rfl, -⟩ := returns_get.mp hget
  refine silent_pptrNeedExpanding.passes_bind fun expand hexpand => ?_
  obtain ⟨rfl, -⟩ := hexpand.unique h.holds.returns_pptrNeedExpanding
  by_cases hexp : s.NeedsExpanding
  · -- a new inode, then its first dnode
    rw [decide_eq_true hexp, if_pos rfl]
    have hfresh := fun n hn => (hc.1 hexp n hn).1
    refine ((h.pptrExtendList hP hfresh).and fun n t hr =>
      (h.holds.pptrExtendList fun n hn => (hfresh n hn).clean).of_returns hr).bind ?_
    rintro n t ⟨⟨hfiled, hsaved⟩, ht, hpick, hu, hreq, hb⟩
    rw [← entriesOf_addInode (l ++ [I]) n]
    have hlogged : Logged P c t (l ++ [I]) ⟨n, []⟩ ((InodeView.mk n []).dnodes.length - 1) := ⟨ht, hfiled, hsaved⟩
    refine (hlogged.pptrNextDnode fun e => absurd (show 0 = 127 from e) (by decide)).bind ?_
    rintro d u ⟨⟨hfiled, hsaved⟩, ⟨rfl, hu', hlt, -, hused, hreq', hb'⟩ | ⟨hd0, hready⟩⟩
    · rw [if_pos rfl]
      refine (Logged.addDnode ⟨hu', hfiled, hsaved⟩ hP hlt fun d hd => ?_).mono fun r v hr => ?_
      · rw [hused, hreq', hu, hreq] at hd
        have hdu : d ∉ t.used := by
          rw [hu]
          exact P.pick_notMem _ _ _ hd
        rw [hb' d hdu, hb d hdu]
        exact (hc.1 hexp n hpick).2 d hd
      · exact ⟨_, _, entriesOf_addDnode _ _ _, hr.2.1, hr.2.2, hr.1.1, hr.1.2⟩
    · rw [if_neg hd0]
      exact passes_pure ⟨_, _, rfl, rfl, hready, hfiled, hsaved⟩
  · rw [decide_eq_false hexp, if_neg (by simp)]
    refine silent_pure.passes_bind fun p hp => ?_
    obtain ⟨rfl, -⟩ := returns_pure.mp hp
    rw [h.holds.last]
    refine (h.pptrNextDnode (h.holds.room_of_not_needsExpanding hexp)).bind ?_
    rintro d u ⟨⟨hfiled, hsaved⟩, ⟨rfl, hu', hlt, hneeds, hused, hreq, hb⟩ | ⟨hd0, hready⟩⟩
    · rw [if_pos rfl]
      refine (Logged.addDnode ⟨hu', hfiled, hsaved⟩ hP hlt fun d hd => ?_).mono fun r v hr => ?_
      · rw [hused, hreq] at hd
        rw [hb d (P.pick_notMem _ _ _ hd)]
        exact hc.2 hexp hneeds d hd
      · exact ⟨_, _, entriesOf_addDnode _ _ _, hr.2.1, hr.2.2, hr.1.1, hr.1.2⟩
    · rw [if_neg hd0]
      exact passes_pure ⟨_, _, rfl, rfl, hready, hfiled, hsaved⟩

/-! ## A snapshot -/

theorem passes_copyPptrByte {T : PptrMem → Prop} {dst src j : ℕ} (hT : T (s.copied dst src (j + 1))) :
    Passes T (copyPptrByte dst src j) (s.copied dst src j) fun _ t => t = s.copied dst src (j + 1) := by
  have hstep := returns_store.mp (returns_copyPptrByte (s := s) dst src j)
  refine passes_store ?_ hstep
  rw [hstep]
  exact hT

theorem passes_copyPptrPage {T : PptrMem → Prop} {dst src : ℕ} (hT : ∀ j, T (s.copied dst src j)) :
    Passes T (copyPptrPage P dst src) s fun _ t => t = s.copied dst src pageSize := by
  unfold copyPptrPage
  refine silent_require.passes_bind fun _ _ => ?_
  refine Passes.forM_range (J := fun j t => t = s.copied dst src j) (s.copied_zero dst src).symm fun j _ t ht => ?_
  rw [ht]
  exact passes_copyPptrByte (hT _)

theorem samePage_copied {dst src : ℕ} : SamePage ((s.copied dst src pageSize).bytes dst) (s.bytes src) := by
  intro i hi
  unfold copied
  dsimp only
  rw [Function.update_self]
  exact if_pos hi

/-- While the bytes are copied the slot of the snapshot is torn, no other is. -/
theorem Holds.crash_copied {d : DnodeView} (hh : s.Holds P l I i) (hf : s.Filed P (l ++ [I]))
    (hsaved : Saved P c s (l ++ [I]) fun p j => p = I.page ∧ j = k) (hspare : s.Spare P (l ++ [I]) a)
    (hd : I.dnodes[k]? = some d) (hk : k < pptrInodeEntries) (hl : P.laddr a = s.pin I.page (.snapshotLaddr k))
    (hc : Committed P c I.page k (s.bytes d.page)) (j : ℕ) : CrashState P c (entriesOf (l ++ [I])) (s.copied a d.page j) := by
  have hI : I ∈ l ++ [I] := by simp
  have hsame : Same (l ++ [I]) s (s.copied a d.page j) := hspare.same_fill _
  have hslots : SameSlots (l ++ [I]) s (s.copied a d.page j) := hh.sameSlots_fill hspare
  refine ⟨l ++ [I], hf.congr (same_fill_file hspare.notMem _), rfl, (hsaved.congr hslots).mono ?_⟩
  rintro _ _ ⟨rfl, rfl⟩
  refine ⟨a, ?_, hspare.owned.mapped, ?_, ?_⟩
  · rw [hslots.snapshot I hI _ hk]
    exact fun he => (hh.kept hI hk ⟨hspare.owned.ne, .inr he⟩).2.2 a hspare rfl
  · rw [hslots.laddr I hI _ hk]
    exact hl
  · rw [hslots.current I hI _ hk, hh.pin_current hI hd hk, hsame.bytes d (mem_dnodesOf hI (List.mem_of_getElem? hd))]
    exact hc

/-- After `pptr_snapshot_dnode` the slot does not have its dnode for a snapshot. -/
theorem Logged.pptrSnapshotDnode (h : Logged P c s l I i) (hP : P.InFile) {d : DnodeView} (hd : I.dnodes[k]? = some d) :
    Passes (CrashState P c (entriesOf (l ++ [I]))) (pptrSnapshotDnode P I.page k) s fun _ t =>
      Logged P c t l I i ∧ t.pin I.page (.snapshotLaddr k) ≠ P.laddr d.page := by
  have hI : I ∈ l ++ [I] := by simp
  have hlt := (List.getElem?_eq_some_iff.mp hd).1
  have hk : k < pptrInodeEntries := Nat.lt_of_lt_of_le hlt (h.holds.length_le I hI)
  have hdm := mem_dnodesOf hI (List.mem_of_getElem? hd)
  have hladdr : s.pin I.page (.currentLaddr k) = P.laddr d.page :=
    (h.filed.slot I hI k hk).trans (InodeView.currentLaddr_eq hd)
  have hmapped := h.holds.owned_last.mapped
  unfold LibPM.pptrSnapshotDnode
  refine silent_require.passes_bind fun _ _ => ?_
  refine silent_loadField.passes_bind fun cl hcl => ?_
  obtain ⟨rfl, -⟩ := hcl.unique (returns_loadPin hmapped)
  refine silent_loadField.passes_bind fun sl hsl => ?_
  obtain ⟨rfl, -⟩ := hsl.unique (returns_loadPin hmapped)
  rw [hladdr]
  by_cases hsnap : P.laddr d.page = s.pin I.page (.snapshotLaddr k) ∧ s.pin I.page (.snapshotLaddr k) ≠ 0
  · rw [when, if_pos hsnap]
    -- the snapshot so far is the dnode itself, so it holds what was committed
    have hcommitted : Committed P c I.page k (s.bytes d.page) := by
      obtain ⟨a, -, hm, hl, hc⟩ := (h.saved.slot I hI k hk hsnap.2).resolve_right id
      rwa [hP.laddr_inj a d.page hm (h.filed.mapped _ (mem_pagesOf_dnode hdm)) (hl.trans hsnap.1.symm)] at hc
    refine (passes_pptrGetpage (Q := fun a t => P.pick s.used s.requests = some a ∧ t = s.took a)
      fun a ha => ⟨ha, rfl⟩).bind ?_
    rintro a _ ⟨hpick, rfl⟩
    obtain ⟨-, hm, -, hltl⟩ := h.holds.pick_ne hP hpick
    have htook := h.holds.congr (same_took (a := a))
    have hsame := htook.same_setLaddr (v := P.laddr a) hI (f := .snapshotLaddr k) id
    have hholds := htook.congr hsame
    have hspare := (h.holds.spare hpick).congr hsame
    have hfiled₀ := h.filed.took (a := a)
    have hfiled := hfiled₀.congr (hfiled₀.same_setPin (v := P.laddr a) hI (f := .snapshotLaddr k) trivial)
    have hsaved : Saved P c _ (l ++ [I]) fun p j => p = I.page ∧ j = k :=
      ((h.saved.congr (sameSlots_took (a := a))).publish (v := P.laddr a) htook hlt).mono fun _ _ he => he.resolve_left id
    have hpub : ((s.took a).setField pptrInode I.page (.snapshotLaddr k) (P.laddr a)).pin I.page (.snapshotLaddr k) =
        P.laddr a := pin_setField_self hltl
    set u := (s.took a).setField pptrInode I.page (.snapshotLaddr k) (P.laddr a)
    have hbytes : u.bytes d.page = s.bytes d.page := hsame.bytes d hdm
    have hcrash := hholds.crash_copied hfiled hsaved hspare hd hk hpub.symm (hbytes ▸ hcommitted)
    have hcrash₀ := hcrash 0
    rw [copied_zero] at hcrash₀
    refine (passes_storeField (R := fun _ t => t = u) fun _ => ⟨hcrash₀, rfl⟩).bind ?_
    rintro _ _ rfl
    refine silent_loadField.passes_bind fun cur hcur => ?_
    obtain ⟨rfl, -⟩ := hcur.unique (returns_loadPin hmapped)
    rw [hholds.pin_current hI hd hk]
    refine (passes_copyPptrPage hcrash).bind ?_
    rintro _ _ rfl
    -- the page is filled: the slot may refer to it
    have hfill := hspare.same_fill (copiedBytes (u.bytes a) (u.bytes d.page) pageSize)
    have hslots := hholds.sameSlots_fill hspare (b := copiedBytes (u.bytes a) (u.bytes d.page) pageSize)
    have hholds' := hholds.congr hfill
    have hspare' := hspare.congr hfill
    have hfiled' := hfiled.congr (same_fill_file hspare.notMem (copiedBytes (u.bytes a) (u.bytes d.page) pageSize))
    have hl' : P.laddr a = (u.copied a d.page pageSize).pin I.page (.snapshotLaddr k) :=
      ((hslots.laddr I hI k hk).trans hpub).symm
    have hsaved' : Saved P c _ (l ++ [I]) fun p j => NoSlot p j ∨ p = I.page ∧ j = k :=
      (hsaved.congr hslots).mono fun _ _ he => .inr he
    have hset := hsaved'.setSnapshot hholds' hspare' hl' ((hbytes ▸ hcommitted).of_same samePage_copied)
    have hfiled'' := hfiled'.congr (hfiled'.same_setPin (v := a) hI (f := .snapshotMaddr k) trivial)
    refine passes_storeField fun _ => ⟨hset.crash hfiled'', ⟨hholds'.setSnapshot hI hk (.inr hspare'), hfiled'', hset⟩, ?_⟩
    rw [pin_setField_of_ne (by simp)]
    intro he
    refine hspare'.notMem ?_
    rw [hP.laddr_inj a d.page hm (h.filed.mapped _ (mem_pagesOf_dnode hdm)) (hl'.trans he)]
    exact mem_pagesOf_dnode hdm
  · rw [when, if_neg hsnap]
    refine passes_pure ⟨h, fun he => hsnap ⟨he.symm, ?_⟩⟩
    rw [he]
    exact h.filed.laddr_ne d hdm

/-! ## Appending -/

theorem setField_fill {F : Type} (s : PptrMem) (L : Layout F) (a : ℕ) (b : ℕ → UInt8) (f : F) (v : ℕ) :
    PptrMem.setField { s with bytes := Function.update s.bytes a b } L a f v =
      { s with bytes := Function.update s.bytes a (L.write b f v) } := by
  unfold setField
  simp

/-- A field of the entry behind the last is stored. -/
theorem Logged.passes_setEntry {T : PptrMem → Prop} {d : DnodeView} {b : ℕ → UInt8} {f : PdnField}
    (h : Logged P c s l I i) (hd : I.dnodes[k]? = some d) (hne : s.pin I.page (.snapshotLaddr k) ≠ P.laddr d.page)
    (hT : ∀ t, CrashState P c (entriesOf (l ++ [I])) t → T t) (hf : f.OfEntry d.entries.length)
    (hb : PptrMem.Filed P { s with bytes := Function.update s.bytes d.page b } (l ++ [I])) :
    Passes T (storeField P pptrDnode d.page f v) { s with bytes := Function.update s.bytes d.page b }
      fun _ t => t = { s with bytes := Function.update s.bytes d.page (pptrDnode.write b f v) } ∧ t.Filed P (l ++ [I]) := by
  have hdm := mem_dnodesOf (g := l ++ [I]) (by simp) (List.mem_of_getElem? hd)
  have hfiled := hb.congr (hb.same_setEntry (v := v) hdm hf)
  rw [setField_fill] at hfiled
  refine passes_storeField fun _ => ?_
  rw [setField_fill]
  exact ⟨hT _ ((h.saved.fillDnode h.holds hd hne).crash hfiled), rfl, hfiled⟩

section Fill

variable {ds : List DnodeView} {es : List Pptr} {x : Pptr}

/-- With its number the tuple is part of the list. -/
theorem Logged.push (h : Logged P c s l ⟨p, ds ++ [⟨d, es⟩]⟩ i) (hes : es.length < pptrDnodeEntries)
    (hne : s.pin p (.snapshotLaddr ds.length) ≠ P.laddr d) :
    Logged P c { s with bytes := Function.update s.bytes d (pushed (s.bytes d) es.length x) } l
      ⟨p, ds ++ [⟨d, es ++ [x]⟩]⟩ i := by
  have hcurrent : (InodeView.mk p (ds ++ [⟨d, es⟩])).dnodes[ds.length]? = some ⟨d, es⟩ := by simp
  have hholds := h.holds.fillDnode (b := pushed (s.bytes d) es.length x) hes (read_pushed_pdnIndex _ x hes)
    (fun i hi => pdnEntry_pushed_of_ne _ x (by omega)) (pdnEntry_pushed_self _ _ x)
  refine ⟨hholds, h.filed.push hholds.dnode, ?_⟩
  refine (h.saved.fillDnode (b := pushed (s.bytes d) es.length x) h.holds hcurrent hne).of_pages fun J hJ => ?_
  rcases List.mem_append.mp hJ with hJ | hJ
  · exact ⟨J, List.mem_append_left _ hJ, rfl, Nat.le_refl _⟩
  · rw [List.mem_singleton.mp hJ]
    exact ⟨⟨p, ds ++ [⟨d, es⟩]⟩, by simp, rfl, by simp⟩

/-- The stores of the tuple: the list is as before until the last. -/
theorem Logged.passes_fill (h : Logged P c s l ⟨p, ds ++ [⟨d, es⟩]⟩ i)
    (hne : s.pin p (.snapshotLaddr ds.length) ≠ P.laddr d) :
    Passes (fun t => CrashState P c (entriesOf (l ++ [⟨p, ds ++ [⟨d, es⟩]⟩])) t ∨
        t = { s with bytes := Function.update s.bytes d (pushed (s.bytes d) es.length x) })
      (do
        storeField P pptrDnode d (.plocSeid es.length) x.plocSeid.toNat
        storeField P pptrDnode d (.plocOffset es.length) x.plocOffset.toNat
        storeField P pptrDnode d (.pvalSeid es.length) x.pvalSeid.toNat
        storeField P pptrDnode d (.pvalOffset es.length) x.pvalOffset.toNat
        storeField P pptrDnode d .pdnIndex (es.length + 1))
      s fun _ t => t = { s with bytes := Function.update s.bytes d (pushed (s.bytes d) es.length x) } := by
  have hcurrent : (InodeView.mk p (ds ++ [⟨d, es⟩])).dnodes[ds.length]? = some ⟨d, es⟩ := by simp
  set T := fun t => CrashState P c (entriesOf (l ++ [⟨p, ds ++ [⟨d, es⟩]⟩])) t ∨
    t = { s with bytes := Function.update s.bytes d (pushed (s.bytes d) es.length x) } with hT
  have hstep := fun b f w (hf : PdnField.OfEntry es.length f) hb =>
    h.passes_setEntry (T := T) (b := b) (f := f) (v := w) hcurrent hne (fun t => Or.inl) hf hb
  have hfirst := hstep (s.bytes d) (.plocSeid es.length) x.plocSeid.toNat rfl
    (by rw [Function.update_eq_self]; exact h.filed)
  rw [Function.update_eq_self] at hfirst
  refine hfirst.bind ?_
  rintro _ _ ⟨rfl, hf₁⟩
  refine (hstep _ (.plocOffset es.length) x.plocOffset.toNat rfl hf₁).bind ?_
  rintro _ _ ⟨rfl, hf₂⟩
  refine (hstep _ (.pvalSeid es.length) x.pvalSeid.toNat rfl hf₂).bind ?_
  rintro _ _ ⟨rfl, hf₃⟩
  refine (hstep _ (.pvalOffset es.length) x.pvalOffset.toNat rfl hf₃).bind ?_
  rintro _ _ ⟨rfl, -⟩
  refine passes_storeField fun _ => ?_
  rw [setField_fill]
  exact ⟨.inr rfl, rfl⟩

end Fill

/-- At every store of `pptr_append` the file has the list without the tuple; at the last one it has it. -/
theorem Logged.pptrAppend (h : Logged P c s l I (I.dnodes.length - 1)) (hP : P.InFile) (hc : s.AppendFresh P) (x : Pptr)
    (hts : entriesOf (l ++ [I]) = ts) :
    Passes (fun t => CrashState P c ts t ∨ CrashState P c (ts ++ [x]) t ∧ Returns (pptrAppend P x) s () t)
      (pptrAppend P x) s fun _ t => ∃ l' I', entriesOf (l' ++ [I']) = ts ++ [x] ∧
        Logged P c t l' I' (I'.dnodes.length - 1) := by
  unfold LibPM.pptrAppend
  refine (((h.pptrGetDnode hP hc).imp fun t ht => .inl (hts ▸ ht)).and fun _ _ hr => hr).bind ?_
  rintro ⟨d, p⟩ u ⟨⟨l', ⟨p', dnodes⟩, hentries, hp, ⟨ds, es, hI, hes, hu⟩, hfiled, hsaved⟩, hget⟩
  dsimp only at hI hp
  subst hI hp
  rw [hts] at hentries
  have hcurrent : (InodeView.mk p (ds ++ [⟨d, es⟩])).dnodes[ds.length]? = some ⟨d, es⟩ := by simp
  have hdm : DnodeView.mk d es ∈ dnodesOf (l' ++ [⟨p, ds ++ [⟨d, es⟩]⟩]) := by rw [dnodesOf_last]; simp
  have hmp : P.mapped p = true := hu.owned_last.mapped
  have hmd : P.mapped d = true := (hu.owned_dnode hdm).mapped
  have hidx : Returns (loadField P pptrInode p .pinCurrentIdx) u ds.length u := by
    have hr := returns_loadPin (P := P) (s := u) (f := .pinCurrentIdx) hmp
    rwa [show u.pin p .pinCurrentIdx = ds.length from hu.index] at hr
  refine silent_loadField.passes_bind fun idx hr => ?_
  obtain ⟨rfl, -⟩ := hr.unique hidx
  have hsnap := Logged.pptrSnapshotDnode ⟨hu, hfiled, hsaved⟩ hP hcurrent
  rw [hentries] at hsnap
  refine ((hsnap.imp fun t ht => .inl ht).and fun _ _ hr => hr).bind ?_
  rintro ⟨⟩ v ⟨⟨hv, hne⟩, hsnap⟩
  have hi : Returns (loadField P pptrDnode d .pdnIndex) v es.length v := by
    have hr := returns_loadPdn (P := P) (s := v) (f := .pdnIndex) hmd
    rwa [show v.pdn d .pdnIndex = es.length from (hv.holds.dnode _ hdm).index] at hr
  refine silent_loadField.passes_bind fun i hr => ?_
  obtain ⟨rfl, -⟩ := hr.unique hi
  refine silent_require.passes_bind fun _ hreq => ?_
  have hpush := hv.push (x := x) hes hne
  have hnew : entriesOf (l' ++ [⟨p, ds ++ [⟨d, es ++ [x]⟩]⟩]) = ts ++ [x] := by
    rw [← hentries]
    simp [entriesOf, dnodesOf]
  have hfill := hv.passes_fill (x := x) hne
  rw [hentries] at hfill
  refine (hfill.imp fun t ht => ht.imp_right fun he => ?_).mono ?_
  · rw [he]
    refine ⟨hnew ▸ hpush.saved.crash hpush.filed, ?_⟩
    rw [← setField_pushed]
    exact hget.bind (hidx.bind (hsnap.seq (hi.bind (hreq.bind ((returns_storeField hmd).seq
      ((returns_storeField hmd).seq ((returns_storeField hmd).seq ((returns_storeField hmd).seq
        (returns_storeField hmd)))))))))
  · rintro _ _ rfl
    refine ⟨l', ⟨p, ds ++ [⟨d, es ++ [x]⟩]⟩, hnew, ?_⟩
    rwa [List.length_append, List.length_singleton, Nat.add_sub_cancel]

/-! ## Checkpoints -/

/-- The list can be read from the file. -/
def Listed (P : PageSupply) (ts : List Pptr) (t : PptrMem) : Prop :=
  ∃ g, t.Filed P g ∧ Named P t g ∧ entriesOf g = ts

/-- During a checkpoint; `done` are the slots whose dnode is its own snapshot by now. -/
structure Copying (P : PageSupply) (s : PptrMem) (l : List InodeView) (I : InodeView) (i : ℕ) (done : ℕ → ℕ → Prop) :
    Prop where
  holds : s.Holds P l I i
  filed : s.Filed P (l ++ [I])
  named : Named P s (l ++ [I])
  unused : ∀ J ∈ l ++ [I], ∀ k < pptrInodeEntries, J.dnodes.length ≤ k → s.pin J.page (.snapshotLaddr k) = 0
  done : ∀ J ∈ l ++ [I], ∀ k < J.dnodes.length, done J.page k →
    s.pin J.page (.snapshotLaddr k) = s.pin J.page (.currentLaddr k)

section Checkpoints

variable {done done' : ℕ → ℕ → Prop}

theorem Copying.mono (h : Copying P s l I i done) (hd : ∀ p k, k < pptrInodeEntries → done' p k → done p k) :
    Copying P s l I i done' :=
  ⟨h.holds, h.filed, h.named, h.unused, fun J hJ k hk hdone =>
    h.done J hJ k hk (hd _ _ (Nat.lt_of_lt_of_le hk (h.holds.length_le J hJ)) hdone)⟩

theorem passes_pptrFreepages {T : PptrMem → Prop} :
    Passes T (pptrFreepages a) s fun _ t => t = { s with used := s.used.erase a } := by
  unfold pptrFreepages
  refine silent_get.passes_bind fun _ _ => silent_require.passes_bind fun _ _ => ?_
  refine ⟨visits_of_not_exposes fun t => not_exposes_modify, fun _ t hr => ?_⟩
  exact (returns_modify.mp hr).symm

/-- One slot: its dnode becomes its snapshot. -/
theorem Copying.pptrCpointEntry (h : Copying P s l I i done) (hJ : J ∈ l ++ [I]) (hk : k < pptrInodeEntries) :
    Passes (Listed P (entriesOf (l ++ [I]))) (pptrCpointEntry P J.page k) s fun _ t =>
      Copying P t l I i fun p j => done p j ∨ p = J.page ∧ j = k := by
  have hm := (h.holds.owned_inode hJ).mapped
  suffices Passes (Listed P (entriesOf (l ++ [I]))) (LibPM.pptrCpointEntry P J.page k) s fun _ t =>
      t.Filed P (l ++ [I]) ∧ Named P t (l ++ [I]) ∧
      (∀ K ∈ l ++ [I], ∀ j < pptrInodeEntries, K.dnodes.length ≤ j → t.pin K.page (.snapshotLaddr j) = 0) ∧
      ∀ K ∈ l ++ [I], ∀ j < K.dnodes.length, done K.page j ∨ K.page = J.page ∧ j = k →
        t.pin K.page (.snapshotLaddr j) = t.pin K.page (.currentLaddr j) from
    (this.and fun _ _ hr => (h.holds.pptrCpointEntry hJ hk).of_returns hr).mono fun _ _ ht =>
      ⟨ht.2, ht.1.1, ht.1.2.1, ht.1.2.2.1, ht.1.2.2.2⟩
  unfold LibPM.pptrCpointEntry
  refine silent_loadField.passes_bind fun cur hcur => ?_
  obtain ⟨rfl, -⟩ := hcur.unique (returns_loadPin hm)
  by_cases h0 : s.pin J.page (.currentMaddr k) = 0
  · rw [when, if_neg (not_not_intro h0)]
    refine passes_pure ⟨h.filed, h.named, h.unused, fun K hK j hj hdone => ?_⟩
    rcases hdone with hdone | ⟨hp, rfl⟩
    · exact h.done K hK j hj hdone
    · have hd : K.dnodes[j]? = some K.dnodes[j] := List.getElem?_eq_getElem hj
      rw [← hp, h.holds.pin_current hK hd hk] at h0
      exact absurd h0 (h.holds.owned_dnode (mem_dnodesOf hK (List.getElem_mem hj))).ne
  rw [when, if_pos h0]
  -- the slot has a dnode, so it is not one of the unused
  have hlt : k < J.dnodes.length := by
    rw [h.holds.current J hJ k hk] at h0
    obtain ⟨d, -, hd, -⟩ := InodeView.current_ne h0
    exact (List.getElem?_eq_some_iff.mp hd).1
  refine silent_loadField.passes_bind fun snap _ => ?_
  have hfree : Passes (Listed P (entriesOf (l ++ [I])))
      (when (snap ≠ 0 ∧ snap ≠ s.pin J.page (.currentMaddr k)) (pptrFreepages snap)) s fun _ t =>
        t.bytes = s.bytes ∧ t.head = s.head := by
    unfold when
    split_ifs
    · refine passes_pptrFreepages.mono ?_
      rintro _ _ rfl
      exact ⟨rfl, rfl⟩
    · exact passes_pure ⟨rfl, rfl⟩
  refine hfree.bind fun _ t ht => ?_
  refine silent_loadField.passes_bind fun laddr hladdr => ?_
  obtain ⟨rfl, -⟩ := hladdr.unique (returns_loadPin hm)
  have hpin : ∀ b f, t.pin b f = s.pin b f := fun b f => by
    unfold pin
    rw [ht.1]
  have hfiled : t.Filed P (l ++ [I]) := h.filed.congr (same_of_bytes (congrArg _ ht.2) fun x _ => congrFun ht.1 x)
  have hfiled₁ := hfiled.congr (hfiled.same_setPin (v := t.pin J.page (.currentLaddr k)) hJ (f := .snapshotLaddr k) trivial)
  have hladdr : (t.setField pptrInode J.page (.snapshotLaddr k) (t.pin J.page (.currentLaddr k))).pin J.page
      (.snapshotLaddr k) = t.pin J.page (.currentLaddr k) := pin_setField_self (pin_lt t J.page (.currentLaddr k))
  have hother : ∀ K ∈ l ++ [I], ∀ j, ¬ (K.page = J.page ∧ j = k) →
      (t.setField pptrInode J.page (.snapshotLaddr k) (t.pin J.page (.currentLaddr k))).pin K.page (.snapshotLaddr j) =
        s.pin K.page (.snapshotLaddr j) := by
    intro K _ j hne
    rw [← hpin]
    by_cases hp : K.page = J.page
    · exact pin_setField_of_ne fun he => hne ⟨hp, PinField.snapshotLaddr.inj he⟩
    · exact pin_setField_of_ne_page hp
  have hcurrent : ∀ b j, (t.setField pptrInode J.page (.snapshotLaddr k) (t.pin J.page (.currentLaddr k))).pin b
      (.currentLaddr j) = s.pin b (.currentLaddr j) := fun b j => by
    rw [← hpin]
    exact pin_setField_of_ne (by simp)
  set u := t.setField pptrInode J.page (.snapshotLaddr k) (t.pin J.page (.currentLaddr k))
  have hnamed : Named P u (l ++ [I]) := by
    intro K hK j hj hne
    by_cases hp : K.page = J.page ∧ j = k
    · refine ⟨J.dnodes[k].page, hfiled.mapped _ (mem_pagesOf_dnode (mem_dnodesOf hJ (List.getElem_mem hlt))), ?_⟩
      rw [hp.1, hp.2, hladdr, hfiled.slot J hJ k hk, InodeView.currentLaddr_eq (List.getElem?_eq_getElem hlt)]
    · rw [hother K hK j hp] at hne ⊢
      exact h.named K hK j hj hne
  refine (passes_storeField (R := fun _ t => t = u) fun _ => ⟨⟨_, hfiled₁, hnamed, rfl⟩, rfl⟩).bind ?_
  rintro _ _ rfl
  have hfiled₂ := hfiled₁.congr (hfiled₁.same_setPin (v := s.pin J.page (.currentMaddr k)) hJ (f := .snapshotMaddr k)
    trivial)
  have hlast : ∀ b (f : PinField), f ≠ .snapshotMaddr k →
      (u.setField pptrInode J.page (.snapshotMaddr k) (s.pin J.page (.currentMaddr k))).pin b f = u.pin b f :=
    fun _ _ hf => pin_setField_of_ne hf
  have hnamed₂ : Named P (u.setField pptrInode J.page (.snapshotMaddr k) (s.pin J.page (.currentMaddr k))) (l ++ [I]) := by
    intro K hK j hj hne
    rw [hlast _ _ (by simp)] at hne ⊢
    exact hnamed K hK j hj hne
  refine passes_storeField fun _ => ⟨⟨_, hfiled₂, hnamed₂, rfl⟩, hfiled₂, hnamed₂, fun K hK j hj hlen => ?_,
    fun K hK j hj hdone => ?_⟩
  · rw [hlast _ _ (by simp), hother K hK j, h.unused K hK j hj hlen]
    rintro ⟨hp, rfl⟩
    obtain rfl := h.filed.inode_unique hK hJ hp
    exact absurd hlen (by omega)
  · rw [hlast _ _ (by simp), hlast _ _ (by simp), hcurrent]
    by_cases hp : K.page = J.page ∧ j = k
    · rw [hp.1, hp.2, hladdr, hpin]
    · rw [hother K hK j hp]
      exact h.done K hK j hj (hdone.resolve_right hp)

/-- The slots of the inodes of `pre` are done, those of `suf` are still to do. -/
theorem Copying.pptrCpointFrom : ∀ {suf : List InodeView} (pre : List InodeView) {n a : ℕ} {s : PptrMem},
    Copying P s l I i (fun p _ => ∃ K ∈ pre, K.page = p) → l ++ [I] = pre ++ suf → s.Chain a suf →
      Passes (Listed P (entriesOf (l ++ [I]))) (pptrCpointFrom P n a) s fun _ t =>
        Copying P t l I i fun p _ => ∃ K ∈ l ++ [I], K.page = p := by
  intro suf
  induction suf with
  | nil =>
    intro pre n a s h hg ha
    cases n with
    | zero => exact ⟨visits_of_not_exposes fun _ => not_exposes_fail, fun _ _ hr => (returns_fail hr).elim⟩
    | succ n =>
      unfold LibPM.pptrCpointFrom
      rw [if_pos (show a = 0 from ha)]
      rw [List.append_nil] at hg
      exact passes_pure (hg ▸ h)
  | cons J suf ih =>
    intro pre n a s h hg ha
    cases n with
    | zero => exact ⟨visits_of_not_exposes fun _ => not_exposes_fail, fun _ _ hr => (returns_fail hr).elim⟩
    | succ n =>
      obtain ⟨rfl, -⟩ := ha
      have hJ : J ∈ l ++ [I] := by rw [hg]; simp
      unfold LibPM.pptrCpointFrom
      rw [if_neg (h.holds.owned_inode hJ).ne]
      have hinner : Passes (Listed P (entriesOf (l ++ [I]))) ((List.range pptrInodeEntries).forM
          (LibPM.pptrCpointEntry P J.page)) s fun _ t =>
            Copying P t l I i fun p j => (∃ K ∈ pre, K.page = p) ∨ p = J.page ∧ j < pptrInodeEntries := by
        refine Passes.forM_range (J := fun m (t : PptrMem) => Copying P t l I i fun p j =>
          (∃ K ∈ pre, K.page = p) ∨ p = J.page ∧ j < m) (h.mono fun _ _ _ hd => ?_) fun k hk t ht => ?_
        · exact hd.resolve_right fun hd => absurd hd.2 (Nat.not_lt_zero _)
        · refine (ht.pptrCpointEntry hJ hk).mono fun _ _ hu => hu.mono fun p j _ hd => ?_
          rcases hd with hd | ⟨hp, hj⟩
          · exact .inl (.inl hd)
          · rcases Nat.lt_succ_iff_lt_or_eq.mp hj with hj | hj
            · exact .inl (.inr ⟨hp, hj⟩)
            · exact .inr ⟨hp, hj⟩
      refine hinner.bind fun _ t ht => ?_
      refine silent_loadField.passes_bind fun next hnext => ?_
      obtain ⟨rfl, -⟩ := hnext.unique (returns_loadPin (ht.holds.owned_inode hJ).mapped)
      have hchain := ht.holds.chain
      rw [hg] at hchain
      refine ih (pre ++ [J]) (ht.mono fun p j hj hd => ?_) (by rw [hg]; simp) hchain.suffix
      obtain ⟨K, hK, rfl⟩ := hd
      rcases List.mem_append.mp hK with hK | hK
      · exact .inl ⟨K, hK, rfl⟩
      · rw [List.mem_singleton.mp hK]
        exact .inr ⟨rfl, hj⟩

/-- The list stays in the file throughout `pptr_cpoint`; after it every dnode is its own snapshot. -/
theorem Logged.pptrCpoint (h : Logged P c s l I i) (hP : P.InFile) :
    Passes (Listed P (entriesOf (l ++ [I]))) (pptrCpoint P) s fun _ t => Logged P t t l I i ∧
      ∀ J ∈ l ++ [I], ∀ k < pptrInodeEntries, t.pin J.page (.snapshotLaddr k) = t.pin J.page (.currentLaddr k) := by
  unfold LibPM.pptrCpoint
  refine silent_get.passes_bind fun s₀ hget => ?_
  obtain ⟨rfl, -⟩ := returns_get.mp hget
  have hstart : Copying P s l I i fun p _ => ∃ K ∈ ([] : List InodeView), K.page = p :=
    ⟨h.holds, h.filed, h.saved.named fun _ _ _ he => he.elim, h.saved.unused, fun _ _ _ _ hd => absurd hd (by simp)⟩
  refine (hstart.pptrCpointFrom [] rfl h.holds.chain).mono fun _ t ht => ?_
  have hdone := fun J hJ k hk => ht.done J hJ k hk ⟨J, hJ, rfl⟩
  refine ⟨⟨ht.holds, ht.filed, ht.holds.saved hP ht.filed ht.unused hdone⟩, fun J hJ k hk => ?_⟩
  rcases Nat.lt_or_ge k J.dnodes.length with hlt | hge
  · exact hdone J hJ k hlt
  · rw [ht.unused J hJ k hk hge, ht.filed.slot J hJ k hk, InodeView.currentLaddr_of_le hge]

end Checkpoints

end PptrMem

end LibPM

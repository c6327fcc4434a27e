import LibPM.Fixptr.File

/-!
# What the snapshots name

`c` is the memory at the last checkpoint. `PptrMem.Saved P c s g e` says that each snapshot offset in the slots of
`g` names a page that holds what the dnode of the slot held in `c`: the dnode itself as long as it is as it was, a
page of its own after. The slots of `e` are left out: while a snapshot is made, its offset is there before its bytes
are.
-/

namespace LibPM

open Recorded Recorded.Prog LittleEndian

section SamePage

variable {b b' b'' : ℕ → UInt8}

theorem SamePage.refl (b : ℕ → UInt8) : SamePage b b := fun _ _ => rfl

theorem SamePage.symm (h : SamePage b b') : SamePage b' b := fun i hi => (h i hi).symm

theorem SamePage.trans (h : SamePage b b') (h' : SamePage b' b'') : SamePage b b'' :=
  fun i hi => (h i hi).trans (h' i hi)

end SamePage

/-- Fields of an inode that say nothing of its slots. -/
def PinField.Slotless : PinField → Prop
  | .currentMaddr _ | .snapshotMaddr _ | .snapshotLaddr _ => False
  | _ => True

namespace PptrMem

/-- The inode at a page can be reached by offsets. -/
inductive OnFile (P : PageSupply) (s : PptrMem) : ℕ → Prop
  | first {p} : P.mapped p = true → P.laddr p = s.head.firstLaddr → OnFile P s p
  | next {p q} : OnFile P s p → P.mapped q = true → P.laddr q = s.pin p .pinNextLaddr → P.laddr q ≠ 0 → OnFile P s q

variable {P : PageSupply} {s s' t c : PptrMem} {g l : List InodeView} {I J K : InodeView} {i k a p v : ℕ}
  {e e' : ℕ → ℕ → Prop} {b b' : ℕ → UInt8}

/-! ## The inodes in the file -/

theorem FileChain.onFile (h : s.FileChain P g) (hm : ∀ J ∈ g, P.mapped J.page = true)
    (hne : ∀ J ∈ g.tail, P.laddr J.page ≠ 0) (hhead : ∀ J, g.head? = some J → s.OnFile P J.page) :
    ∀ J ∈ g, s.OnFile P J.page := by
  induction g with
  | nil => exact fun J hJ => absurd hJ List.not_mem_nil
  | cons I g ih =>
    have hI : s.OnFile P I.page := hhead I rfl
    intro J hJ
    rcases List.mem_cons.mp hJ with rfl | hJ
    · exact hI
    · refine ih h.2 (fun K hK => hm K (by simp [hK])) (fun K hK => hne K (List.mem_of_mem_tail hK)) (fun K hK => ?_) J hJ
      obtain ⟨g', rfl⟩ := List.head?_eq_some_iff.mp hK
      exact .next hI (hm K (by simp)) h.1.symm (hne K (by simp))

/-- The inode behind one of the list is one of the list. -/
theorem FileChain.next_mem (h : s.FileChain P g) (hJ : J ∈ g) (hne : s.pin J.page .pinNextLaddr ≠ 0) :
    ∃ K ∈ g, s.pin J.page .pinNextLaddr = P.laddr K.page := by
  induction g with
  | nil => exact absurd hJ List.not_mem_nil
  | cons I g ih =>
    rcases List.mem_cons.mp hJ with rfl | hJ
    · cases g with
      | nil => exact absurd h.1 hne
      | cons K g => exact ⟨K, by simp, h.1⟩
    · obtain ⟨K, hK, he⟩ := ih h.2 hJ
      exact ⟨K, by simp [hK], he⟩

theorem Filed.onFile_iff (hP : P.InFile) (h : s.Filed P g) : s.OnFile P p ↔ ∃ J ∈ g, J.page = p := by
  have hm : ∀ J ∈ g, P.mapped J.page = true := fun J hJ => h.mapped _ (mem_pagesOf_inode hJ)
  constructor
  · intro hp
    induction hp with
    | first hmap hladdr =>
      obtain ⟨I, g', rfl⟩ := List.exists_cons_of_ne_nil h.ne_nil
      exact ⟨I, by simp, (hP.laddr_inj _ _ hmap (hm I (by simp)) (hladdr.trans h.first)).symm⟩
    | next _ hmap hladdr hne ih =>
      obtain ⟨J, hJ, rfl⟩ := ih
      obtain ⟨K, hK, he⟩ := h.chain.next_mem hJ (hladdr ▸ hne)
      exact ⟨K, hK, (hP.laddr_inj _ _ hmap (hm K hK) (hladdr.trans he)).symm⟩
  · rintro ⟨J, hJ, rfl⟩
    refine h.chain.onFile hm h.next_ne (fun K hK => ?_) J hJ
    obtain ⟨g', rfl⟩ := List.head?_eq_some_iff.mp hK
    exact .first (hm K (by simp)) h.first.symm

/-! ## Slots -/

/-- `b` is what the dnode of slot `k` of the inode at `p` held in `c`. -/
def Committed (P : PageSupply) (c : PptrMem) (p k : ℕ) (b : ℕ → UInt8) : Prop :=
  c.OnFile P p ∧ c.pin p (.currentLaddr k) ≠ 0 ∧
    ∃ d, P.mapped d = true ∧ P.laddr d = c.pin p (.currentLaddr k) ∧ SamePage b (c.bytes d)

/-- The pages that slot `k` of the inode at `p` refers to. -/
def Kept (s : PptrMem) (p k a : ℕ) : Prop :=
  a ≠ 0 ∧ (a = s.pin p (.currentMaddr k) ∨ a = s.pin p (.snapshotMaddr k))

/-- The snapshot of the slot is a page that it refers to, with what was committed. -/
def SlotSaved (P : PageSupply) (c s : PptrMem) (p k : ℕ) : Prop :=
  ∃ a, s.Kept p k a ∧ P.mapped a = true ∧ P.laddr a = s.pin p (.snapshotLaddr k) ∧ Committed P c p k (s.bytes a)

/-- The offset of the snapshot is there, the page not yet; the dnode has what was committed. -/
def SlotTorn (P : PageSupply) (c s : PptrMem) (p k : ℕ) : Prop :=
  ∃ a, a ≠ s.pin p (.snapshotMaddr k) ∧ P.mapped a = true ∧ P.laddr a = s.pin p (.snapshotLaddr k) ∧
    Committed P c p k (s.bytes (s.pin p (.currentMaddr k)))

structure Saved (P : PageSupply) (c s : PptrMem) (g : List InodeView) (e : ℕ → ℕ → Prop) : Prop where
  unused : ∀ J ∈ g, ∀ k < pptrInodeEntries, J.dnodes.length ≤ k → s.pin J.page (.snapshotLaddr k) = 0
  slot : ∀ J ∈ g, ∀ k < pptrInodeEntries, s.pin J.page (.snapshotLaddr k) ≠ 0 →
    SlotSaved P c s J.page k ∨ e J.page k

/-- What the slots of `g` refer to is the same in `s` and `s'`. -/
structure SameSlots (g : List InodeView) (s s' : PptrMem) : Prop where
  laddr : ∀ J ∈ g, ∀ k < pptrInodeEntries, s'.pin J.page (.snapshotLaddr k) = s.pin J.page (.snapshotLaddr k)
  current : ∀ J ∈ g, ∀ k < pptrInodeEntries, s'.pin J.page (.currentMaddr k) = s.pin J.page (.currentMaddr k)
  snapshot : ∀ J ∈ g, ∀ k < pptrInodeEntries, s'.pin J.page (.snapshotMaddr k) = s.pin J.page (.snapshotMaddr k)
  bytes : ∀ J ∈ g, ∀ k < pptrInodeEntries, ∀ a, s.Kept J.page k a → s'.bytes a = s.bytes a

/-- Every snapshot offset is that of a page. -/
def Named (P : PageSupply) (s : PptrMem) (g : List InodeView) : Prop :=
  ∀ J ∈ g, ∀ k < pptrInodeEntries, s.pin J.page (.snapshotLaddr k) ≠ 0 →
    ∃ a, P.mapped a = true ∧ P.laddr a = s.pin J.page (.snapshotLaddr k)

theorem Committed.of_same (h : Committed P c p k b) (hb : SamePage b' b) : Committed P c p k b' := by
  obtain ⟨hf, hne, d, hm, hl, hs⟩ := h
  exact ⟨hf, hne, d, hm, hl, hb.trans hs⟩

theorem SlotSaved.congr (h : SlotSaved P c s p k) (hl : s'.pin p (.snapshotLaddr k) = s.pin p (.snapshotLaddr k))
    (hk : ∀ a, s.Kept p k a → s'.Kept p k a ∧ s'.bytes a = s.bytes a) : SlotSaved P c s' p k := by
  obtain ⟨a, ha, hm, hladdr, hcom⟩ := h
  obtain ⟨ha', hb⟩ := hk a ha
  refine ⟨a, ha', hm, hladdr.trans hl.symm, ?_⟩
  rw [hb]
  exact hcom

theorem SameSlots.kept (h : SameSlots g s s') (hJ : J ∈ g) (hk : k < pptrInodeEntries) :
    s'.Kept J.page k a ↔ s.Kept J.page k a := by
  unfold Kept
  rw [h.current J hJ k hk, h.snapshot J hJ k hk]

theorem SameSlots.trans (h : SameSlots g s s') (h' : SameSlots g s' t) : SameSlots g s t where
  laddr J hJ k hk := (h'.laddr J hJ k hk).trans (h.laddr J hJ k hk)
  current J hJ k hk := (h'.current J hJ k hk).trans (h.current J hJ k hk)
  snapshot J hJ k hk := (h'.snapshot J hJ k hk).trans (h.snapshot J hJ k hk)
  bytes J hJ k hk a ha := (h'.bytes J hJ k hk a ((h.kept hJ hk).mpr ha)).trans (h.bytes J hJ k hk a ha)

theorem Saved.congr (h : Saved P c s g e) (hs : SameSlots g s s') : Saved P c s' g e := by
  refine ⟨fun J hJ k hk hlen => (hs.laddr J hJ k hk).trans (h.unused J hJ k hk hlen), fun J hJ k hk hne => ?_⟩
  rw [hs.laddr J hJ k hk] at hne
  refine (h.slot J hJ k hk hne).imp_left fun hsaved => ?_
  exact hsaved.congr (hs.laddr J hJ k hk) fun a ha => ⟨(hs.kept hJ hk).mpr ha, hs.bytes J hJ k hk a ha⟩

theorem Saved.mono (h : Saved P c s g e) (he : ∀ p k, e p k → e' p k) : Saved P c s g e' :=
  ⟨h.unused, fun J hJ k hk hne => (h.slot J hJ k hk hne).imp_right (he _ _)⟩

/-! ## Pages of the slots -/

/-- A page that a slot refers to is not an inode, nor was it handed out just now. -/
theorem Holds.kept (h : s.Holds P l I i) (hJ : J ∈ l ++ [I]) (hk : k < pptrInodeEntries) (ha : s.Kept J.page k a) :
    a ∈ s.used ∧ (∀ K ∈ l ++ [I], a ≠ K.page) ∧ ∀ x, s.Spare P (l ++ [I]) x → a ≠ x := by
  obtain ⟨hne, ha⟩ := ha
  by_cases hc : a = s.pin J.page (.currentMaddr k)
  · have hcur := h.current J hJ k hk
    rw [← hc] at hcur
    obtain ⟨d, hd, -, hp⟩ := InodeView.current_ne (hcur ▸ hne)
    rw [← hcur] at hp
    subst hp
    have hdm := h.mem_dnodes hJ hd
    refine ⟨(h.owned_dnode hdm).used, fun K hK => h.page_ne hK hdm, fun x hx he => ?_⟩
    exact hx.notMem (he ▸ mem_pagesOf_dnode hdm)
  · have hs := ha.resolve_left hc
    have hcopied : s.Copied J.page k := by
      rw [hs] at hne hc
      exact ⟨hne, hc⟩
    obtain ⟨hu, hp⟩ := h.copy J hJ k hk hcopied
    rw [← hs] at hu hp
    refine ⟨hu, fun K hK he => hp (he ▸ mem_pagesOf_inode hK), fun x hx he => ?_⟩
    exact hx.copy J hJ k hk hcopied (hs ▸ he)

theorem Holds.pin_current (h : s.Holds P l I i) (hJ : J ∈ l ++ [I]) {d : DnodeView} (hd : J.dnodes[k]? = some d)
    (hk : k < pptrInodeEntries) : s.pin J.page (.currentMaddr k) = d.page := by
  rw [h.current J hJ k hk]
  unfold InodeView.current
  rw [hd]
  rfl

/-- The slots of the last inode have dnodes of their own. -/
theorem Holds.slot_unique (h : s.Holds P l I i) (hJ : J ∈ l ++ [I]) {d d' : DnodeView} {j : ℕ}
    (hj : J.dnodes[j]? = some d') (hk : I.dnodes[k]? = some d) (he : d'.page = d.page) : J = I ∧ j = k := by
  have hn := (List.nodup_append.mp h.nodup).2.1
  rw [dnodesOf_last, List.map_append] at hn
  rcases List.mem_append.mp hJ with hJ | hJ
  · exfalso
    refine List.disjoint_of_nodup_append hn (List.mem_map_of_mem (mem_dnodesOf hJ (List.mem_of_getElem? hj))) ?_
    rw [he]
    exact List.mem_map_of_mem (List.mem_of_getElem? hk)
  · obtain rfl := List.mem_singleton.mp hJ
    refine ⟨rfl, ?_⟩
    have hlt : j < (J.dnodes.map DnodeView.page).length := by
      rw [List.length_map]
      exact (List.getElem?_eq_some_iff.mp hj).1
    refine (List.getElem?_inj hlt (List.nodup_append.mp hn).2.1).mp ?_
    rw [List.getElem?_map, List.getElem?_map, hj, hk, Option.map_some, Option.map_some, he]

/-! ## Stores that leave the slots alone -/

theorem sameSlots_of_bytes (hp : ∀ J ∈ g, s'.bytes J.page = s.bytes J.page)
    (hb : ∀ J ∈ g, ∀ k < pptrInodeEntries, ∀ a, s.Kept J.page k a → s'.bytes a = s.bytes a) : SameSlots g s s' := by
  have hpin : ∀ J ∈ g, ∀ f, s'.pin J.page f = s.pin J.page f := by
    intro J hJ f
    unfold PptrMem.pin
    rw [hp J hJ]
  exact ⟨fun J hJ k _ => hpin J hJ _, fun J hJ k _ => hpin J hJ _, fun J hJ k _ => hpin J hJ _, hb⟩

theorem sameSlots_of_eq (hb : s'.bytes = s.bytes) : SameSlots g s s' :=
  sameSlots_of_bytes (fun J _ => congrFun hb J.page) fun _ _ _ _ a _ => congrFun hb a

theorem sameSlots_took : SameSlots g s (s.took a) := sameSlots_of_eq rfl

theorem Holds.sameSlots_setPin (h : s.Holds P l I i) (hs : SameSlots (l ++ [I]) s s') (hJ : J ∈ l ++ [I])
    {f : PinField} (hf : f.Slotless) : SameSlots (l ++ [I]) s (s'.setField pptrInode J.page f v) := by
  refine hs.trans ⟨fun K _ j _ => ?_, fun K _ j _ => ?_, fun K _ j _ => ?_, fun K hK j hj a ha => ?_⟩
  · exact pin_setField_of_ne fun he => by subst he; exact hf
  · exact pin_setField_of_ne fun he => by subst he; exact hf
  · exact pin_setField_of_ne fun he => by subst he; exact hf
  · exact bytes_setField_of_ne ((h.kept hK hj ((hs.kept hK hj).mp ha)).2.1 J hJ)

theorem Holds.sameSlots_fill (h : s.Holds P l I i) (ha : s.Spare P (l ++ [I]) a) :
    SameSlots (l ++ [I]) s { s with bytes := Function.update s.bytes a b } := by
  refine sameSlots_of_bytes (fun J hJ => Function.update_of_ne ?_ _ _) fun J hJ k hk x hx => ?_
  · exact fun he => ha.notMem (he ▸ mem_pagesOf_inode hJ)
  · exact Function.update_of_ne ((h.kept hJ hk hx).2.2 a ha) _ _

/-! ## Growth -/

theorem Saved.link {n : ℕ} (h : Saved P c s g e) (hn : ∀ k < pptrInodeEntries, s.pin n (.snapshotLaddr k) = 0) :
    Saved P c s (g ++ [⟨n, []⟩]) e := by
  refine ⟨fun J hJ k hk hlen => ?_, fun J hJ k hk hne => ?_⟩
  · rcases List.mem_append.mp hJ with hJ | hJ
    · exact h.unused J hJ k hk hlen
    · rw [List.mem_singleton.mp hJ]
      exact hn k hk
  · rcases List.mem_append.mp hJ with hJ | hJ
    · exact h.slot J hJ k hk hne
    · rw [List.mem_singleton.mp hJ] at hne
      exact absurd (hn k hk) hne

/-- Inodes of one page that have at least the same dnodes. -/
theorem Saved.of_pages {g' : List InodeView} (h : Saved P c s g e)
    (hg : ∀ J ∈ g', ∃ K ∈ g, K.page = J.page ∧ K.dnodes.length ≤ J.dnodes.length) : Saved P c s g' e := by
  refine ⟨fun J hJ k hk hlen => ?_, fun J hJ k hk hne => ?_⟩
  · obtain ⟨K, hK, hp, hl⟩ := hg J hJ
    rw [← hp]
    exact h.unused K hK k hk (Nat.le_trans hl hlen)
  · obtain ⟨K, hK, hp, -⟩ := hg J hJ
    rw [← hp] at hne ⊢
    exact h.slot K hK k hk hne

/-- A slot that has no snapshot takes a dnode. -/
theorem Saved.setCurrent (h : Saved P c s (l ++ [I]) e) (hh : s.Holds P l I i)
    (h0 : s.pin I.page (.snapshotLaddr k) = 0) :
    Saved P c (s.setField pptrInode I.page (.currentMaddr k) v) (l ++ [I]) e := by
  set t := s.setField pptrInode I.page (.currentMaddr k) v
  have hladdr : ∀ b j, t.pin b (.snapshotLaddr j) = s.pin b (.snapshotLaddr j) := fun b j =>
    pin_setField_of_ne (by simp)
  refine ⟨fun J hJ j hj hlen => (hladdr _ _).trans (h.unused J hJ j hj hlen), fun J hJ j hj hne => ?_⟩
  rw [hladdr] at hne
  refine (h.slot J hJ j hj hne).imp_left fun hs => hs.congr (hladdr _ _) fun a ha => ?_
  refine ⟨⟨ha.1, ?_⟩, bytes_setField_of_ne ((hh.kept hJ hj ha).2.1 I (by simp))⟩
  have hcur : t.pin J.page (.currentMaddr j) = s.pin J.page (.currentMaddr j) := by
    by_cases hp : J.page = I.page
    · refine pin_setField_of_ne fun he => hne ?_
      rw [hp, PinField.currentMaddr.inj he, h0]
    · exact pin_setField_of_ne_page hp
  rw [hcur, show t.pin J.page (.snapshotMaddr j) = s.pin J.page (.snapshotMaddr j) from pin_setField_of_ne (by simp)]
  exact ha.2

/-! ## Snapshots -/

/-- The offset of a new snapshot is stored; its slot is left out from then on. -/
theorem Saved.publish (h : Saved P c s (l ++ [I]) e) (hh : s.Holds P l I i) (hk : k < I.dnodes.length) :
    Saved P c (s.setField pptrInode I.page (.snapshotLaddr k) v) (l ++ [I]) fun p j => e p j ∨ p = I.page ∧ j = k := by
  set t := s.setField pptrInode I.page (.snapshotLaddr k) v
  have hladdr : ∀ J ∈ l ++ [I], ∀ j, ¬ (J.page = I.page ∧ j = k) →
      t.pin J.page (.snapshotLaddr j) = s.pin J.page (.snapshotLaddr j) := by
    intro J _ j hne
    by_cases hp : J.page = I.page
    · exact pin_setField_of_ne fun he => hne ⟨hp, PinField.snapshotLaddr.inj he⟩
    · exact pin_setField_of_ne_page hp
  refine ⟨fun J hJ j hj hlen => ?_, fun J hJ j hj hne => ?_⟩
  · by_cases hp : J.page = I.page ∧ j = k
    · obtain rfl : J = I := List.inj_on_of_nodup_map (List.nodup_append.mp hh.nodup).1 hJ (by simp) hp.1
      exact absurd hlen (by omega)
    · exact (hladdr J hJ j hp).trans (h.unused J hJ j hj hlen)
  · by_cases hp : J.page = I.page ∧ j = k
    · exact .inr (.inr hp)
    · rw [hladdr J hJ j hp] at hne
      refine (h.slot J hJ j hj hne).imp (fun hs => hs.congr (hladdr J hJ j hp) fun a ha => ⟨⟨ha.1, ?_⟩, ?_⟩) .inl
      · rw [show t.pin J.page (.currentMaddr j) = s.pin J.page (.currentMaddr j) from pin_setField_of_ne (by simp),
          show t.pin J.page (.snapshotMaddr j) = s.pin J.page (.snapshotMaddr j) from pin_setField_of_ne (by simp)]
        exact ha.2
      · exact bytes_setField_of_ne ((hh.kept hJ hj ha).2.1 I (by simp))

/-- The slot that was left out refers to its snapshot. -/
theorem Saved.setSnapshot (h : Saved P c s (l ++ [I]) fun p j => e p j ∨ p = I.page ∧ j = k) (hh : s.Holds P l I i)
    (ha : s.Spare P (l ++ [I]) a) (hl : P.laddr a = s.pin I.page (.snapshotLaddr k))
    (hc : Committed P c I.page k (s.bytes a)) :
    Saved P c (s.setField pptrInode I.page (.snapshotMaddr k) a) (l ++ [I]) e := by
  set t := s.setField pptrInode I.page (.snapshotMaddr k) a
  have hladdr : ∀ b j, t.pin b (.snapshotLaddr j) = s.pin b (.snapshotLaddr j) := fun b j =>
    pin_setField_of_ne (by simp)
  have hthis : SlotSaved P c t I.page k := by
    refine ⟨a, ⟨ha.owned.ne, .inr (pin_setField_self ha.owned.lt).symm⟩, ha.owned.mapped, ?_, ?_⟩
    · rw [hladdr]
      exact hl
    · rw [show t.bytes a = s.bytes a from bytes_setField_of_ne fun he => ha.notMem (he ▸ hh.last_mem)]
      exact hc
  refine ⟨fun J hJ j hj hlen => (hladdr _ _).trans (h.unused J hJ j hj hlen), fun J hJ j hj hne => ?_⟩
  by_cases hp : J.page = I.page ∧ j = k
  · rw [hp.1, hp.2]
    exact .inl hthis
  · rw [hladdr] at hne
    have hsnap : t.pin J.page (.snapshotMaddr j) = s.pin J.page (.snapshotMaddr j) := by
      by_cases hpage : J.page = I.page
      · exact pin_setField_of_ne fun he => hp ⟨hpage, PinField.snapshotMaddr.inj he⟩
      · exact pin_setField_of_ne_page hpage
    refine (h.slot J hJ j hj hne).imp (fun hs => hs.congr (hladdr _ _) fun x hx => ⟨⟨hx.1, ?_⟩, ?_⟩) fun he =>
      he.resolve_right hp
    · rw [show t.pin J.page (.currentMaddr j) = s.pin J.page (.currentMaddr j) from pin_setField_of_ne (by simp), hsnap]
      exact hx.2
    · exact bytes_setField_of_ne ((hh.kept hJ hj hx).2.1 I (by simp))

/-- A dnode that its slot does not have for a snapshot is filled. -/
theorem Saved.fillDnode (h : Saved P c s (l ++ [I]) e) (hh : s.Holds P l I i) {d : DnodeView}
    (hd : I.dnodes[k]? = some d) (hne : s.pin I.page (.snapshotLaddr k) ≠ P.laddr d.page) :
    Saved P c { s with bytes := Function.update s.bytes d.page b } (l ++ [I]) e := by
  have hdm := mem_dnodesOf (g := l ++ [I]) (by simp) (List.mem_of_getElem? hd)
  have hpin : ∀ J ∈ l ++ [I], ∀ f,
      PptrMem.pin { s with bytes := Function.update s.bytes d.page b } J.page f = s.pin J.page f := by
    intro J hJ f
    unfold PptrMem.pin
    dsimp only
    rw [Function.update_of_ne (hh.page_ne hJ hdm).symm]
  refine ⟨fun J hJ j hj hlen => (hpin J hJ _).trans (h.unused J hJ j hj hlen), fun J hJ j hj h0 => ?_⟩
  rw [hpin J hJ] at h0
  refine (h.slot J hJ j hj h0).imp_left ?_
  rintro ⟨a, ha, hm, hl, hc⟩
  have had : a ≠ d.page := by
    rintro rfl
    have hcur : s.pin J.page (.currentMaddr j) = d.page := by
      by_contra hcur
      have hsnap := ha.2.resolve_left fun he => hcur he.symm
      have hcopied : s.Copied J.page j := ⟨hsnap ▸ ha.1, fun he => hcur (he ▸ hsnap.symm)⟩
      exact (hh.copy J hJ j hj hcopied).2 (hsnap ▸ mem_pagesOf_dnode hdm)
    rw [hh.current J hJ j hj] at hcur
    obtain ⟨d', -, hj', hp⟩ := InodeView.current_ne (hcur ▸ ha.1)
    obtain ⟨rfl, rfl⟩ := hh.slot_unique hJ hj' hd (hp.trans hcur)
    exact hne hl.symm
  refine ⟨a, ⟨ha.1, ?_⟩, hm, ?_, ?_⟩
  · rw [hpin J hJ, hpin J hJ]
    exact ha.2
  · rw [hpin J hJ]
    exact hl
  · dsimp only
    rw [Function.update_of_ne had]
    exact hc

/-- After a checkpoint every dnode is its own snapshot. -/
theorem Holds.saved (hP : P.InFile) (h : s.Holds P l I i) (hf : s.Filed P (l ++ [I]))
    (hunused : ∀ J ∈ l ++ [I], ∀ k < pptrInodeEntries, J.dnodes.length ≤ k → s.pin J.page (.snapshotLaddr k) = 0)
    (hdone : ∀ J ∈ l ++ [I], ∀ k < J.dnodes.length,
      s.pin J.page (.snapshotLaddr k) = s.pin J.page (.currentLaddr k)) : Saved P s s (l ++ [I]) e := by
  refine ⟨hunused, fun J hJ k hk hne => .inl ?_⟩
  have hlt : k < J.dnodes.length := by
    rcases Nat.lt_or_ge k J.dnodes.length with hlt | hge
    · exact hlt
    · exact absurd (hunused J hJ k hk hge) hne
  have hd : J.dnodes[k]? = some J.dnodes[k] := List.getElem?_eq_getElem hlt
  have hdm := h.mem_dnodes hJ (List.getElem_mem hlt)
  have hcur := h.pin_current hJ hd hk
  have hladdr : P.laddr J.dnodes[k].page = s.pin J.page (.currentLaddr k) := by
    rw [hf.slot J hJ k hk, InodeView.currentLaddr_eq hd]
  refine ⟨J.dnodes[k].page, ⟨(h.owned_dnode hdm).ne, .inl hcur.symm⟩, (h.owned_dnode hdm).mapped,
    hladdr.trans (hdone J hJ k hlt).symm, ?_⟩
  refine ⟨(hf.onFile_iff hP).mpr ⟨J, hJ, rfl⟩, ?_, _, (h.owned_dnode hdm).mapped, hladdr, SamePage.refl _⟩
  rw [← hdone J hJ k hlt]
  exact hne

end PptrMem

end LibPM

import LibPM.Recorded.Visits
import LibPM.Fixptr.Runs

/-!
# The list in the file

After a crash only the bytes of the pages and the offset of the first inode are left. `PptrMem.Filed P s g` says that
the list with the inodes of `g` can be read from these: every link is followed by its offset. `PptrMem.Saved P c s g`
says what the snapshots of the slots are good for, where `c` is the memory at the last checkpoint: a slot has none if
its dnode is new, its snapshot is the dnode itself as long as that is as it was in `c`, and a page of its own after.

There is one lemma for each kind of store, as in `LibPM.Fixptr.List`.
-/

namespace LibPM

open Recorded Recorded.Prog LittleEndian

/-- The pages are those of a file: no two have one offset, and only the first page handed out has offset 0. -/
structure PageSupply.InFile (P : PageSupply) : Prop where
  laddr_inj : ∀ a b, P.mapped a = true → P.mapped b = true → P.laddr a = P.laddr b → a = b
  laddr_lt : ∀ a, P.mapped a = true → P.laddr a < 2 ^ 63
  laddr_ne : ∀ used n a, used ≠ [] → P.pick used n = some a → P.laddr a ≠ 0

/-- The bytes of two pages are the same. -/
def SamePage (b b' : ℕ → UInt8) : Prop := ∀ i < pageSize, b i = b' i

/-- The offset of the current dnode of slot `k`. -/
def InodeView.currentLaddr (P : PageSupply) (I : InodeView) (k : ℕ) : ℕ :=
  (I.dnodes[k]?.map fun d => P.laddr d.page).getD 0

/-- Fields of an inode that `pptr_map` does not go by. -/
def PinField.Free (g : List InodeView) (J : InodeView) : PinField → Prop
  | .pinNextLaddr | .currentLaddr _ => False
  | .pinNextMaddr => ∀ I, g.getLast? = some I → I.page ≠ J.page
  | .currentMaddr k => k < J.dnodes.length
  | _ => True

/-- The fields of entry `i`. -/
def PdnField.OfEntry (i : ℕ) : PdnField → Prop
  | .pdnIndex => False
  | .plocOffset j | .plocSeid j | .pvalOffset j | .pvalSeid j => j = i

namespace PptrMem

variable {P : PageSupply} {s s' c : PptrMem} {g l : List InodeView} {I J K : InodeView} {k a v : ℕ}

/-! ## What a restart finds -/

/-- The offset of the first inode of a list, 0 if it has none. -/
def headLaddr (P : PageSupply) : List InodeView → ℕ
  | [] => 0
  | J :: _ => P.laddr J.page

/-- The inodes of `g` are linked by their offsets. -/
def FileChain (P : PageSupply) (s : PptrMem) : List InodeView → Prop
  | [] => True
  | I :: g => s.pin I.page .pinNextLaddr = headLaddr P g ∧ s.FileChain P g

structure Filed (P : PageSupply) (s : PptrMem) (g : List InodeView) : Prop where
  ne_nil : g ≠ []
  first : s.head.firstLaddr = headLaddr P g
  chain : s.FileChain P g
  next_ne : ∀ J ∈ g.tail, P.laddr J.page ≠ 0
  last : ∀ I, g.getLast? = some I → s.pin I.page .pinNextMaddr = 0
  slot : ∀ J ∈ g, ∀ k < pptrInodeEntries, s.pin J.page (.currentLaddr k) = J.currentLaddr P k
  empty : ∀ J ∈ g, ∀ k < pptrInodeEntries, J.dnodes.length ≤ k → s.pin J.page (.currentMaddr k) = 0
  length_le : ∀ J ∈ g, J.dnodes.length ≤ pptrInodeEntries
  laddr_ne : ∀ d ∈ dnodesOf g, P.laddr d.page ≠ 0
  dnode : ∀ d ∈ dnodesOf g, s.ShowsDnode d
  nodup : (pagesOf g).Nodup
  mapped : ∀ a ∈ pagesOf g, P.mapped a = true

/-- What the file shows of the list is the same in `s` and `s'`. -/
structure SameFile (g : List InodeView) (s s' : PptrMem) : Prop where
  first : s'.head.firstLaddr = s.head.firstLaddr
  next : ∀ J ∈ g, s'.pin J.page .pinNextLaddr = s.pin J.page .pinNextLaddr
  last : ∀ I, g.getLast? = some I → s'.pin I.page .pinNextMaddr = s.pin I.page .pinNextMaddr
  slot : ∀ J ∈ g, ∀ k < pptrInodeEntries, s'.pin J.page (.currentLaddr k) = s.pin J.page (.currentLaddr k)
  empty : ∀ J ∈ g, ∀ k, J.dnodes.length ≤ k → s'.pin J.page (.currentMaddr k) = s.pin J.page (.currentMaddr k)
  dnode : ∀ d ∈ dnodesOf g, s.ShowsDnode d → s'.ShowsDnode d

theorem FileChain.congr (h : s.FileChain P g)
    (hn : ∀ J ∈ g, s'.pin J.page .pinNextLaddr = s.pin J.page .pinNextLaddr) : s'.FileChain P g := by
  induction g with
  | nil => trivial
  | cons I g ih => exact ⟨(hn I (by simp)).trans h.1, ih h.2 fun J hJ => hn J (by simp [hJ])⟩

theorem Filed.congr (h : s.Filed P g) (hs : SameFile g s s') : s'.Filed P g where
  ne_nil := h.ne_nil
  first := hs.first.trans h.first
  chain := h.chain.congr hs.next
  next_ne := h.next_ne
  last I hI := (hs.last I hI).trans (h.last I hI)
  slot J hJ k hk := (hs.slot J hJ k hk).trans (h.slot J hJ k hk)
  empty J hJ k hk hlen := (hs.empty J hJ k hlen).trans (h.empty J hJ k hk hlen)
  length_le := h.length_le
  laddr_ne := h.laddr_ne
  dnode d hd := hs.dnode d hd (h.dnode d hd)
  nodup := h.nodup
  mapped := h.mapped

theorem mem_dnodesOf {d : DnodeView} (hJ : J ∈ g) (hd : d ∈ J.dnodes) : d ∈ dnodesOf g :=
  List.mem_flatMap.mpr ⟨J, hJ, hd⟩

theorem Filed.page_ne (h : s.Filed P g) (hJ : J ∈ g) {d : DnodeView} (hd : d ∈ dnodesOf g) : d.page ≠ J.page := by
  intro he
  apply List.disjoint_of_nodup_append h.nodup (List.mem_map_of_mem hJ)
  rw [← he]
  exact List.mem_map_of_mem hd

/-- Two inodes on one page are the same. -/
theorem Filed.inode_unique (h : s.Filed P g) (hJ : J ∈ g) (hK : K ∈ g) (he : J.page = K.page) : J = K :=
  List.inj_on_of_nodup_map (List.nodup_append.mp h.nodup).1 hJ hK he

theorem InodeView.currentLaddr_of_le (h : I.dnodes.length ≤ k) : I.currentLaddr P k = 0 := by
  unfold InodeView.currentLaddr
  rw [List.getElem?_eq_none h]
  rfl

theorem InodeView.currentLaddr_eq {d : DnodeView} (h : I.dnodes[k]? = some d) : I.currentLaddr P k = P.laddr d.page := by
  unfold InodeView.currentLaddr
  rw [h]
  rfl

/-! ## Stores that the file does not show -/

theorem Filed.same_setPin (h : s.Filed P g) (hJ : J ∈ g) {f : PinField} (hf : f.Free g J) :
    SameFile g s (s.setField pptrInode J.page f v) where
  first := rfl
  next K _ := pin_setField_of_ne fun he => by subst he; exact hf
  last I hI := by
    by_cases he : f = .pinNextMaddr
    · subst he
      exact pin_setField_of_ne_page (hf I hI)
    · exact pin_setField_of_ne fun he' => he he'.symm
  slot K _ j _ := pin_setField_of_ne fun he => by subst he; exact hf
  empty K hK j hj := by
    by_cases hp : K.page = J.page
    · obtain rfl := h.inode_unique hK hJ hp
      refine pin_setField_of_ne fun he => ?_
      subst he
      exact absurd hj (Nat.not_le_of_lt hf)
    · exact pin_setField_of_ne_page hp
  dnode d hd hs := hs.congr (bytes_setField_of_ne (h.page_ne hJ hd))

theorem same_fill_file (ha : a ∉ pagesOf g) (b : ℕ → UInt8) :
    SameFile g s { s with bytes := Function.update s.bytes a b } := by
  have hbytes : ∀ x ∈ pagesOf g, Function.update s.bytes a b x = s.bytes x := fun x hx =>
    Function.update_of_ne (fun he : x = a => ha (he ▸ hx)) _ _
  have hpin : ∀ J ∈ g, ∀ f, PptrMem.pin { s with bytes := Function.update s.bytes a b } J.page f = s.pin J.page f := by
    intro J hJ f
    unfold PptrMem.pin
    dsimp only
    rw [hbytes _ (mem_pagesOf_inode hJ)]
  exact ⟨rfl, fun J hJ => hpin J hJ _, fun I hI => hpin I (List.mem_of_getLast? hI) _, fun J hJ k _ => hpin J hJ _,
    fun J hJ k _ => hpin J hJ _, fun d hd hs => hs.congr (hbytes _ (mem_pagesOf_dnode hd))⟩

/-- Only pages that are in use by the list are shown. -/
theorem same_of_bytes (hfirst : s'.head.firstLaddr = s.head.firstLaddr) (hb : ∀ x ∈ pagesOf g, s'.bytes x = s.bytes x) :
    SameFile g s s' := by
  have hpin : ∀ J ∈ g, ∀ f, s'.pin J.page f = s.pin J.page f := by
    intro J hJ f
    unfold PptrMem.pin
    rw [hb _ (mem_pagesOf_inode hJ)]
  exact ⟨hfirst, fun J hJ => hpin J hJ _, fun I hI => hpin I (List.mem_of_getLast? hI) _, fun J hJ k _ => hpin J hJ _,
    fun J hJ k _ => hpin J hJ _, fun d hd hs => hs.congr (hb _ (mem_pagesOf_dnode hd))⟩

/-- The entry behind the last is not shown. -/
theorem ShowsDnode.setEntry {d : DnodeView} {f : PdnField} (h : s.ShowsDnode d) (hf : f.OfEntry d.entries.length) :
    (s.setField pptrDnode a f v).ShowsDnode d := by
  by_cases hp : d.page = a
  · subst hp
    have hread : ∀ f' : PdnField, f' ≠ f →
        pptrDnode.read ((s.setField pptrDnode d.page f v).bytes d.page) f' = pptrDnode.read (s.bytes d.page) f' := by
      intro f' hne
      rw [bytes_setField_self, Layout.read_write_of_ne _ hne]
    refine ⟨(hread .pdnIndex fun he => by subst he; exact hf).trans h.index, fun i hi => ?_, h.length_le⟩
    rw [← h.entry i hi]
    unfold pdnEntry
    rw [hread, hread, hread, hread]
    all_goals
      intro he
      subst he
      exact absurd hf (Nat.ne_of_lt hi)
  · exact h.congr (bytes_setField_of_ne hp)

theorem Filed.same_setEntry (h : s.Filed P g) {d : DnodeView} (hd : d ∈ dnodesOf g) {f : PdnField}
    (hf : f.OfEntry d.entries.length) : SameFile g s (s.setField pptrDnode d.page f v) := by
  have hpin : ∀ J ∈ g, ∀ f', (s.setField pptrDnode d.page f v).pin J.page f' = s.pin J.page f' := by
    intro J hJ f'
    exact pin_setField_of_ne_page (h.page_ne hJ hd).symm
  refine ⟨rfl, fun J hJ => hpin J hJ _, fun I hI => hpin I (List.mem_of_getLast? hI) _, fun J hJ k _ => hpin J hJ _,
    fun J hJ k _ => hpin J hJ _, fun e he hs => ?_⟩
  by_cases hp : e.page = d.page
  · have hnodup := (List.nodup_append.mp h.nodup).2.1
    obtain rfl := List.inj_on_of_nodup_map hnodup he hd hp
    exact hs.setEntry hf
  · exact hs.congr (bytes_setField_of_ne hp)

/-! ## Growing -/

theorem headLaddr_append {m : List InodeView} (hne : g ≠ []) : headLaddr P (g ++ m) = headLaddr P g := by
  cases g with
  | nil => exact absurd rfl hne
  | cons I g => rfl

/-- Offsets go by the pages only. -/
theorem headLaddr_of_pages : ∀ {g g' : List InodeView}, g'.map InodeView.page = g.map InodeView.page →
    headLaddr P g' = headLaddr P g
  | [], [], _ => rfl
  | I :: g, I' :: g', h => by
    rw [List.map_cons, List.map_cons] at h
    exact congrArg P.laddr (List.cons.inj h).1

theorem FileChain.of_pages {g' : List InodeView} (h : s.FileChain P g)
    (he : g'.map InodeView.page = g.map InodeView.page) : s.FileChain P g' := by
  induction g generalizing g' with
  | nil =>
    rw [List.map_nil, List.map_eq_nil_iff] at he
    rw [he]
    trivial
  | cons I g ih =>
    cases g' with
    | nil => cases he
    | cons I' g' =>
      rw [List.map_cons, List.map_cons] at he
      obtain ⟨hp, he⟩ := List.cons.inj he
      refine ⟨?_, ih h.2 he⟩
      rw [hp, headLaddr_of_pages he]
      exact h.1

theorem FileChain.append {N : InodeView} (h : s.FileChain P (l ++ [I]))
    (hn : ∀ J ∈ l, s'.pin J.page .pinNextLaddr = s.pin J.page .pinNextLaddr)
    (hI : s'.pin I.page .pinNextLaddr = P.laddr N.page) (hN : s'.pin N.page .pinNextLaddr = 0) :
    s'.FileChain P (l ++ [I] ++ [N]) := by
  induction l with
  | nil => exact ⟨hI, hN, trivial⟩
  | cons J l ih =>
    refine ⟨?_, ih h.2 fun K hK => hn K (by simp [hK])⟩
    have hhead : headLaddr P (l ++ [I] ++ [N]) = headLaddr P (l ++ [I]) := headLaddr_append (by simp)
    exact (hn J (by simp)).trans (h.1.trans hhead.symm)

/-- No link of an inode, by address or by offset. -/
def FreshLinks (b : ℕ → UInt8) : Prop :=
  ClearLinks b ∧ pptrInode.read b .pinNextLaddr = 0 ∧ ∀ k < pptrInodeEntries,
    pptrInode.read b (.currentLaddr k) = 0 ∧ pptrInode.read b (.snapshotLaddr k) = 0

/-- A page that can become an inode as it is, also for a restart. -/
def FreshInode (b : ℕ → UInt8) : Prop := pptrInode.read b .pinCurrentIdx = 0 ∧ FreshLinks b

instance (b : ℕ → UInt8) : Decidable (FreshLinks b) := by unfold FreshLinks; infer_instance

instance (b : ℕ → UInt8) : Decidable (FreshInode b) := by unfold FreshInode; infer_instance

theorem FreshInode.clean {b : ℕ → UInt8} (h : FreshInode b) : CleanInode b := ⟨h.1, h.2.1⟩

/-- A new inode, from the store to the link before it. -/
theorem Filed.link {n : ℕ} (h : s.Filed P (l ++ [I])) (hn : n ∉ pagesOf (l ++ [I])) (hm : P.mapped n = true)
    (hne : P.laddr n ≠ 0) (hlt : P.laddr n < 2 ^ 64) (hb : FreshInode (s.bytes n)) :
    (s.setField pptrInode I.page .pinNextLaddr (P.laddr n)).Filed P (l ++ [I] ++ [⟨n, []⟩]) := by
  set t := s.setField pptrInode I.page .pinNextLaddr (P.laddr n) with ht
  have hpage : ∀ J ∈ l ++ [I], n ≠ J.page := fun J hJ he => hn (he ▸ mem_pagesOf_inode hJ)
  have hnew : ∀ f, t.pin n f = pptrInode.read (s.bytes n) f := fun f =>
    pin_setField_of_ne_page (hpage I (by simp))
  have hdnodes : dnodesOf (l ++ [I] ++ [⟨n, []⟩]) = dnodesOf (l ++ [I]) := by
    rw [dnodesOf_last, List.append_nil]
  have hpages : (pagesOf (l ++ [I] ++ [⟨n, []⟩])).Perm (n :: pagesOf (l ++ [I])) := by
    unfold pagesOf
    rw [hdnodes, List.map_append, List.map_singleton, List.append_assoc]
    exact List.perm_middle
  -- an inode that was there, or the new one
  have hcases : ∀ J ∈ l ++ [I] ++ [InodeView.mk n []], J ∈ l ++ [I] ∨ J = ⟨n, []⟩ := by
    intro J hJ
    rcases List.mem_append.mp hJ with hJ | hJ
    · exact .inl hJ
    · exact .inr (List.mem_singleton.mp hJ)
  refine ⟨by simp, ?_, ?_, fun J hJ => ?_, fun J hJ => ?_, fun J hJ k hk => ?_, fun J hJ k hk hlen => ?_,
    fun J hJ => ?_, ?_, ?_, ?_, fun b hb => ?_⟩
  · rw [headLaddr_append h.ne_nil]
    exact h.first
  · refine h.chain.append (fun J hJ => pin_setField_of_ne_page ?_) (pin_setField_self hlt) ((hnew _).trans hb.2.2.1)
    intro he
    have hnodup := (List.nodup_append.mp h.nodup).1
    rw [List.map_append] at hnodup
    exact List.disjoint_of_nodup_append hnodup (List.mem_map_of_mem hJ) (by simp [he])
  · rw [List.tail_append_of_ne_nil h.ne_nil] at hJ
    rcases List.mem_append.mp hJ with hJ | hJ
    · exact h.next_ne J hJ
    · rw [List.mem_singleton.mp hJ]
      exact hne
  · rw [List.getLast?_append, List.getLast?_singleton, Option.some_or, Option.some.injEq] at hJ
    subst hJ
    exact (hnew _).trans hb.2.1.1
  · rcases hcases J hJ with hJ | rfl
    · rw [pin_setField_of_ne (by simp)]
      exact h.slot J hJ k hk
    · rw [hnew, InodeView.currentLaddr_of_le (Nat.zero_le k)]
      exact (hb.2.2.2 k hk).1
  · rcases hcases J hJ with hJ | rfl
    · rw [pin_setField_of_ne (by simp)]
      exact h.empty J hJ k hk hlen
    · rw [hnew]
      exact (hb.2.1.2 k hk).1
  · rcases hcases J hJ with hJ | rfl
    · exact h.length_le J hJ
    · exact Nat.zero_le _
  · rw [hdnodes]
    exact h.laddr_ne
  · rw [hdnodes]
    exact fun d hd => (h.dnode d hd).congr (bytes_setField_of_ne (h.page_ne (by simp) hd))
  · exact hpages.nodup_iff.mpr (List.nodup_cons.mpr ⟨hn, h.nodup⟩)
  · rcases List.mem_cons.mp (hpages.mem_iff.mp hb) with rfl | hb
    · exact hm
    · exact h.mapped b hb

theorem InodeView.currentLaddr_push (a : ℕ) (ds : List DnodeView) (d : DnodeView) (j : ℕ) :
    (InodeView.mk a (ds ++ [d])).currentLaddr P j =
      if j = ds.length then P.laddr d.page else (InodeView.mk a ds).currentLaddr P j := by
  unfold InodeView.currentLaddr
  dsimp only
  by_cases hj : j = ds.length
  · rw [if_pos hj, hj]
    simp
  · rw [if_neg hj]
    rcases Nat.lt_or_gt_of_ne hj with h | h
    · rw [List.getElem?_append_left h]
    · rw [List.getElem?_eq_none (by simp; omega), List.getElem?_eq_none (by omega)]

/-- A new dnode, from the store of its offset. -/
theorem Filed.addDnode {p d : ℕ} {ds : List DnodeView} (h : s.Filed P (l ++ [⟨p, ds⟩])) (hlt : ds.length < pptrInodeEntries)
    (hd : d ∉ pagesOf (l ++ [⟨p, ds⟩])) (hm : P.mapped d = true) (hne : P.laddr d ≠ 0) (hladdr : P.laddr d < 2 ^ 64)
    (h0 : s.pdn d .pdnIndex = 0) :
    (s.setField pptrInode p (.currentLaddr ds.length) (P.laddr d)).Filed P (l ++ [⟨p, ds ++ [⟨d, []⟩]⟩]) := by
  set t := s.setField pptrInode p (.currentLaddr ds.length) (P.laddr d) with ht
  have hp : InodeView.mk p ds ∈ l ++ [InodeView.mk p ds] := by simp
  have hdp : d ≠ p := fun e => hd (e ▸ mem_pagesOf_inode hp)
  have hbytes : ∀ b, b ≠ p → t.bytes b = s.bytes b := fun b hb => bytes_setField_of_ne hb
  have hdnodes : dnodesOf (l ++ [⟨p, ds ++ [⟨d, []⟩]⟩]) = dnodesOf (l ++ [⟨p, ds⟩]) ++ [⟨d, []⟩] := by
    rw [dnodesOf_last, dnodesOf_last, List.append_assoc]
  have hinodes : (l ++ [InodeView.mk p (ds ++ [⟨d, []⟩])]).map InodeView.page =
      (l ++ [InodeView.mk p ds]).map InodeView.page := by simp
  have hpages : pagesOf (l ++ [⟨p, ds ++ [⟨d, []⟩]⟩]) = pagesOf (l ++ [⟨p, ds⟩]) ++ [d] := by
    unfold pagesOf
    rw [hdnodes, hinodes]
    simp
  have hcases : ∀ J ∈ l ++ [InodeView.mk p (ds ++ [⟨d, []⟩])],
      (J ∈ l ++ [InodeView.mk p ds] ∧ J.page ≠ p) ∨ J = ⟨p, ds ++ [⟨d, []⟩]⟩ := by
    intro J hJ
    rcases List.mem_append.mp hJ with hJ | hJ
    · refine .inl ⟨List.mem_append_left _ hJ, fun he => ?_⟩
      have hnodup := (List.nodup_append.mp h.nodup).1
      rw [List.map_append] at hnodup
      exact List.disjoint_of_nodup_append hnodup (List.mem_map_of_mem hJ) (by simp [he])
    · exact .inr (List.mem_singleton.mp hJ)
  have hdnode : ∀ e ∈ dnodesOf (l ++ [⟨p, ds ++ [⟨d, []⟩]⟩]), e ∈ dnodesOf (l ++ [⟨p, ds⟩]) ∨ e = ⟨d, []⟩ := by
    intro e he
    rw [hdnodes] at he
    rcases List.mem_append.mp he with he | he
    · exact .inl he
    · exact .inr (List.mem_singleton.mp he)
  refine ⟨by simp, ?_, ?_, fun J hJ => ?_, fun J hJ => ?_, fun J hJ k hk => ?_, fun J hJ k hk hlen => ?_,
    fun J hJ => ?_, fun e he => ?_, fun e he => ?_, ?_, fun b hb => ?_⟩
  · rw [headLaddr_of_pages hinodes]
    exact h.first
  · exact (h.chain.congr fun J _ => pin_setField_of_ne (by simp)).of_pages hinodes
  · have htail : J.page ∈ ((l ++ [InodeView.mk p ds]).map InodeView.page).tail := by
      rw [← hinodes, ← List.map_tail]
      exact List.mem_map_of_mem hJ
    rw [← List.map_tail] at htail
    obtain ⟨K, hK, he⟩ := List.mem_map.mp htail
    rw [← he]
    exact h.next_ne K hK
  · rw [List.getLast?_append, List.getLast?_singleton, Option.some_or, Option.some.injEq] at hJ
    subst hJ
    rw [pin_setField_of_ne (by simp)]
    exact h.last ⟨p, ds⟩ (by simp)
  · rcases hcases J hJ with ⟨hJ, hne⟩ | rfl
    · rw [pin_setField_of_ne_page hne]
      exact h.slot J hJ k hk
    · rw [InodeView.currentLaddr_push]
      by_cases hkl : k = ds.length
      · rw [if_pos hkl, hkl]
        exact pin_setField_self hladdr
      · rw [if_neg hkl, pin_setField_of_ne (by simpa using hkl)]
        exact h.slot _ hp k hk
  · rw [pin_setField_of_ne (by simp)]
    rcases hcases J hJ with ⟨hJ, -⟩ | rfl
    · exact h.empty J hJ k hk hlen
    · refine h.empty _ hp k hk (Nat.le_trans (Nat.le_succ _) ?_)
      simpa using hlen
  · rcases hcases J hJ with ⟨hJ, -⟩ | rfl
    · exact h.length_le J hJ
    · rw [List.length_append, List.length_singleton]
      exact hlt
  · rcases hdnode e he with he | rfl
    · exact h.laddr_ne e he
    · exact hne
  · rcases hdnode e he with he | rfl
    · exact (h.dnode e he).congr (hbytes _ (h.page_ne hp he))
    · refine ⟨?_, fun i hi => absurd hi (Nat.not_lt_zero i), Nat.zero_le _⟩
      unfold pdn at h0 ⊢
      rw [hbytes d hdp]
      exact h0
  · rw [hpages]
    exact List.nodup_append.mpr ⟨h.nodup, List.nodup_singleton d, fun a ha b hb => by
      rw [List.mem_singleton.mp hb]
      exact fun e => hd (e ▸ ha)⟩
  · rw [hpages] at hb
    rcases List.mem_append.mp hb with hb | hb
    · exact h.mapped b hb
    · rw [List.mem_singleton.mp hb]
      exact hm

/-- The last dnode takes another entry, from the store that counts it. -/
theorem Filed.push {p d : ℕ} {ds : List DnodeView} {es : List Pptr} {x : Pptr} {b : ℕ → UInt8}
    (h : s.Filed P (l ++ [⟨p, ds ++ [⟨d, es⟩]⟩]))
    (hdnode : ∀ e ∈ dnodesOf (l ++ [⟨p, ds ++ [⟨d, es ++ [x]⟩]⟩]),
      PptrMem.ShowsDnode { s with bytes := Function.update s.bytes d b } e) :
    PptrMem.Filed P { s with bytes := Function.update s.bytes d b } (l ++ [⟨p, ds ++ [⟨d, es ++ [x]⟩]⟩]) := by
  have hd : DnodeView.mk d es ∈ dnodesOf (l ++ [⟨p, ds ++ [⟨d, es⟩]⟩]) := by
    rw [dnodesOf_last]
    simp
  have hinodes : (l ++ [InodeView.mk p (ds ++ [⟨d, es ++ [x]⟩])]).map InodeView.page =
      (l ++ [InodeView.mk p (ds ++ [⟨d, es⟩])]).map InodeView.page := by simp
  have hpages : (dnodesOf (l ++ [⟨p, ds ++ [⟨d, es ++ [x]⟩]⟩])).map DnodeView.page =
      (dnodesOf (l ++ [⟨p, ds ++ [⟨d, es⟩]⟩])).map DnodeView.page := by
    rw [dnodesOf_last, dnodesOf_last]
    simp
  have hold : ∀ K ∈ l ++ [InodeView.mk p (ds ++ [⟨d, es ++ [x]⟩])],
      ∃ K' ∈ l ++ [InodeView.mk p (ds ++ [⟨d, es⟩])], K'.page = K.page ∧
        K'.dnodes.length = K.dnodes.length ∧ ∀ k, K'.currentLaddr P k = K.currentLaddr P k := by
    intro K hK
    rcases List.mem_append.mp hK with hK | hK
    · exact ⟨K, List.mem_append_left _ hK, rfl, rfl, fun _ => rfl⟩
    · obtain rfl := List.mem_singleton.mp hK
      refine ⟨⟨p, ds ++ [⟨d, es⟩]⟩, by simp, rfl, by simp, fun k => ?_⟩
      rw [InodeView.currentLaddr_push, InodeView.currentLaddr_push]
  have hpin : ∀ K ∈ l ++ [InodeView.mk p (ds ++ [⟨d, es⟩])], ∀ f,
      PptrMem.pin { s with bytes := Function.update s.bytes d b } K.page f = s.pin K.page f := by
    intro K hK f
    unfold pin
    dsimp only
    rw [Function.update_of_ne (h.page_ne hK hd).symm]
  refine ⟨by simp, ?_, ?_, fun J hJ => ?_, fun J hJ => ?_, fun J hJ k hk => ?_, fun J hJ k hk hlen => ?_,
    fun J hJ => ?_, fun e he => ?_, hdnode, ?_, fun a ha => ?_⟩
  · rw [headLaddr_of_pages hinodes]
    exact h.first
  · exact (h.chain.congr fun J hJ => hpin J hJ _).of_pages hinodes
  · have htail : J.page ∈ ((l ++ [InodeView.mk p (ds ++ [⟨d, es⟩])]).map InodeView.page).tail := by
      rw [← hinodes, ← List.map_tail]
      exact List.mem_map_of_mem hJ
    rw [← List.map_tail] at htail
    obtain ⟨K, hK, he⟩ := List.mem_map.mp htail
    rw [← he]
    exact h.next_ne K hK
  · rw [List.getLast?_append, List.getLast?_singleton, Option.some_or, Option.some.injEq] at hJ
    subst hJ
    exact (hpin ⟨p, ds ++ [⟨d, es⟩]⟩ (by simp) _).trans (h.last ⟨p, ds ++ [⟨d, es⟩]⟩ (by simp))
  · obtain ⟨K, hK, hp, -, hladdr⟩ := hold J hJ
    rw [← hp, hpin K hK, h.slot K hK k hk]
    exact hladdr k
  · obtain ⟨K, hK, hp, hl, -⟩ := hold J hJ
    rw [← hp, hpin K hK]
    exact h.empty K hK k hk (hl ▸ hlen)
  · obtain ⟨K, hK, -, hl, -⟩ := hold J hJ
    rw [← hl]
    exact h.length_le K hK
  · have hmem : e.page ∈ (dnodesOf (l ++ [⟨p, ds ++ [⟨d, es⟩]⟩])).map DnodeView.page :=
      hpages ▸ List.mem_map_of_mem he
    obtain ⟨e', he', hp⟩ := List.mem_map.mp hmem
    rw [← hp]
    exact h.laddr_ne e' he'
  · unfold pagesOf
    rw [hinodes, hpages]
    exact h.nodup
  · unfold pagesOf at ha
    rw [hinodes, hpages] at ha
    exact h.mapped a ha

end PptrMem

end LibPM

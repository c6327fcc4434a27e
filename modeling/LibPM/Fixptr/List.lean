import LibPM.Recorded.Ends
import LibPM.Model.Fixptr
import Mathlib.Data.List.Nodup
import Mathlib.Data.List.Perm.Subperm

/-!
# The list in memory

`PptrMem.Holds P s l I c` says that the memory `s` holds a list whose inodes are those of `l`, then `I`, the
current index of which is `c`. Each store of fixptr.c has one lemma here: what of the list it changes, or
that it changes nothing.

A page is `Spare` from the request that hands it out until it is linked.
-/

namespace LibPM

open Recorded Recorded.Prog LittleEndian

/-- A dnode and the entries in it. -/
structure DnodeView where
  page : ℕ
  entries : List Pptr

/-- An inode and its current dnodes. -/
structure InodeView where
  page : ℕ
  dnodes : List DnodeView

/-- The current dnode of slot `k`. -/
def InodeView.current (I : InodeView) (k : ℕ) : ℕ := (I.dnodes[k]?.map DnodeView.page).getD 0

def dnodesOf (g : List InodeView) : List DnodeView := g.flatMap InodeView.dnodes

def entriesOf (g : List InodeView) : List Pptr := (dnodesOf g).flatMap DnodeView.entries

def pagesOf (g : List InodeView) : List ℕ := g.map InodeView.page ++ (dnodesOf g).map DnodeView.page

/-- Logical addresses are not shown. -/
def PinField.Shown : PinField → Prop
  | .pinNextLaddr | .currentLaddr _ | .snapshotLaddr _ => False
  | _ => True

theorem pptrInodeEntries_eq : pptrInodeEntries = 127 := rfl

theorem pptrDnodeEntries_eq : pptrDnodeEntries = 255 := rfl

namespace PptrMem

variable {P : PageSupply} {s s' : PptrMem}

def pin (s : PptrMem) (a : ℕ) (f : PinField) : ℕ := pptrInode.read (s.bytes a) f

def pdn (s : PptrMem) (a : ℕ) (f : PdnField) : ℕ := pptrDnode.read (s.bytes a) f

/-- The memory after a store to a field. -/
def setField {F : Type} (s : PptrMem) (L : Layout F) (a : ℕ) (f : F) (v : ℕ) : PptrMem :=
  { s with bytes := Function.update s.bytes a (L.write (s.bytes a) f v) }

/-- The memory after a request for a page. -/
def took (s : PptrMem) (a : ℕ) : PptrMem := { s with used := a :: s.used, requests := s.requests + 1 }

section Fields

variable {F : Type} {L : Layout F} {a b : ℕ} {f : F} {v : ℕ}

theorem bytes_setField_of_ne (h : b ≠ a) : (s.setField L a f v).bytes b = s.bytes b :=
  Function.update_of_ne h _ _

theorem bytes_setField_self : (s.setField L a f v).bytes a = L.write (s.bytes a) f v :=
  Function.update_self _ _ _

theorem pin_setField_of_ne_page {g : PinField} (h : b ≠ a) : (s.setField L a f v).pin b g = s.pin b g := by
  unfold pin
  rw [bytes_setField_of_ne h]

theorem pin_setField_of_ne {f g : PinField} (h : g ≠ f) :
    (s.setField pptrInode a f v).pin b g = s.pin b g := by
  by_cases hb : b = a
  · subst hb
    unfold pin
    rw [bytes_setField_self, Layout.read_write_of_ne _ h]
  · exact pin_setField_of_ne_page hb

theorem pin_setField_self {f : PinField} (h : v < 256 ^ f.size) :
    (s.setField pptrInode a f v).pin a f = v := by
  unfold pin
  rw [bytes_setField_self]
  exact Layout.read_write_self _ h

theorem pin_lt (s : PptrMem) (a : ℕ) (f : PinField) : s.pin a f < 256 ^ f.size := Layout.read_lt _ _ _

theorem returns_loadPin {f : PinField} (h : P.mapped a = true) :
    Returns (loadField P pptrInode a f) s (s.pin a f) s := by
  unfold loadField
  simp [h, pin]

theorem returns_loadPdn {f : PdnField} (h : P.mapped a = true) :
    Returns (loadField P pptrDnode a f) s (s.pdn a f) s := by
  unfold loadField
  simp [h, pdn]

theorem returns_storeField (h : P.mapped a = true) :
    Returns (storeField P L a f v) s () (s.setField L a f v) := by
  unfold storeField
  simp [h, setField]

end Fields

/-- The bytes of a page after the first `j` were replaced. -/
def copiedBytes (old new : ℕ → UInt8) (j i : ℕ) : UInt8 := if i < j then new i else old i

/-- The memory after `j` bytes of a copy. -/
def copied (s : PptrMem) (dst src j : ℕ) : PptrMem :=
  { s with bytes := Function.update s.bytes dst (copiedBytes (s.bytes dst) (s.bytes src) j) }

theorem copied_zero (s : PptrMem) (dst src : ℕ) : s.copied dst src 0 = s := by
  have hbytes : copiedBytes (s.bytes dst) (s.bytes src) 0 = s.bytes dst := by
    funext i
    exact if_neg (Nat.not_lt_zero i)
  unfold copied
  rw [hbytes, Function.update_eq_self]

theorem returns_copyPptrByte (dst src j : ℕ) :
    Returns (copyPptrByte dst src j) (s.copied dst src j) () (s.copied dst src (j + 1)) := by
  unfold copyPptrByte copied
  rw [returns_store]
  have hsrc : Function.update s.bytes dst (copiedBytes (s.bytes dst) (s.bytes src) j) src j = s.bytes src j := by
    by_cases h : src = dst
    · rw [h, Function.update_self]
      unfold copiedBytes
      rw [if_neg (Nat.lt_irrefl j)]
    · rw [Function.update_of_ne h]
  have hbytes : Function.update (copiedBytes (s.bytes dst) (s.bytes src) j) j (s.bytes src j) =
      copiedBytes (s.bytes dst) (s.bytes src) (j + 1) := by
    funext i
    unfold copiedBytes
    by_cases hi : i = j
    · rw [hi, Function.update_self, if_pos (Nat.lt_succ_self j)]
    · rw [Function.update_of_ne hi]
      have hiff : i < j + 1 ↔ i < j := by omega
      simp only [hiff]
  dsimp only
  rw [hsrc, Function.update_self, hbytes, Function.update_idem]

theorem returns_copyPptrPage {dst src : ℕ} (hd : P.mapped dst = true) (hs : P.mapped src = true) :
    Returns (copyPptrPage P dst src) s () (s.copied dst src pageSize) := by
  unfold copyPptrPage
  refine (returns_require.mpr ⟨⟨hd, hs⟩, rfl⟩).seq ?_
  have hends : Ends (fun _ => False) ((List.range pageSize).forM (copyPptrByte dst src)) s
      fun _ t => t = s.copied dst src pageSize :=
    Ends.forM_range (J := fun j t => t = s.copied dst src j) (s.copied_zero dst src).symm
      fun j _ t ht => by
        rw [ht]
        exact (returns_copyPptrByte dst src j).ends rfl
  obtain ⟨⟨⟩, t, hr, rfl⟩ := hends.exists_returns
  exact hr

theorem ends_pptrGetpage {Q : ℕ → PptrMem → Prop}
    (h : ∀ a, P.pick s.used s.requests = some a → Q a (s.took a)) :
    Ends (· = noPage) (pptrGetpage P) s Q := by
  unfold pptrGetpage
  refine Returns.ends_bind (returns_get.mpr ⟨rfl, rfl⟩) ?_
  refine Ends.bind (ends_ofOption (Q := fun a t => P.pick s.used s.requests = some a ∧ t = s) (fun _ => rfl)
    fun a ha => ⟨ha, rfl⟩) ?_
  rintro a _ ⟨ha, rfl⟩
  exact Returns.ends_bind (a := ()) (returns_modify.mpr rfl) (ends_pure (h a ha))

/-! ## The invariant -/

structure ShowsDnode (s : PptrMem) (d : DnodeView) : Prop where
  index : s.pdn d.page .pdnIndex = d.entries.length
  entry : ∀ i (h : i < d.entries.length), pdnEntry (s.bytes d.page) i = d.entries[i]
  length_le : d.entries.length ≤ pptrDnodeEntries

/-- The inodes of `g` are linked, the first of them at `a`. -/
def Chain (s : PptrMem) : ℕ → List InodeView → Prop
  | a, [] => a = 0
  | a, J :: g => a = J.page ∧ s.Chain (s.pin J.page .pinNextMaddr) g

/-- Slot `k` has a snapshot of its own. -/
def Copied (s : PptrMem) (a k : ℕ) : Prop :=
  s.pin a (.snapshotMaddr k) ≠ 0 ∧ s.pin a (.snapshotMaddr k) ≠ s.pin a (.currentMaddr k)

structure Owned (P : PageSupply) (s : PptrMem) (a : ℕ) : Prop where
  used : a ∈ s.used
  mapped : P.mapped a = true
  ne : a ≠ 0
  lt : a < 2 ^ 64

structure Holds (P : PageSupply) (s : PptrMem) (l : List InodeView) (I : InodeView) (c : ℕ) : Prop where
  chain : s.Chain s.head.firstMaddr (l ++ [I])
  last : s.head.lastMaddr = I.page
  current : ∀ J ∈ l ++ [I], ∀ k < pptrInodeEntries, s.pin J.page (.currentMaddr k) = J.current k
  length_le : ∀ J ∈ l ++ [I], J.dnodes.length ≤ pptrInodeEntries
  dnode : ∀ d ∈ dnodesOf (l ++ [I]), s.ShowsDnode d
  index : s.pin I.page .pinCurrentIdx = c
  nodup : (pagesOf (l ++ [I])).Nodup
  owned : ∀ a ∈ pagesOf (l ++ [I]), s.Owned P a
  copy : ∀ J ∈ l ++ [I], ∀ k < pptrInodeEntries, s.Copied J.page k →
    s.pin J.page (.snapshotMaddr k) ∈ s.used ∧ s.pin J.page (.snapshotMaddr k) ∉ pagesOf (l ++ [I])
  copy_inj : ∀ J ∈ l ++ [I], ∀ K ∈ l ++ [I], ∀ j < pptrInodeEntries, ∀ k < pptrInodeEntries,
    s.Copied J.page j → s.Copied K.page k →
      s.pin J.page (.snapshotMaddr j) = s.pin K.page (.snapshotMaddr k) → J.page = K.page ∧ j = k

/-- A page in use that the list does not refer to. -/
structure Spare (P : PageSupply) (s : PptrMem) (g : List InodeView) (a : ℕ) : Prop where
  owned : s.Owned P a
  notMem : a ∉ pagesOf g
  copy : ∀ J ∈ g, ∀ k < pptrInodeEntries, s.Copied J.page k → s.pin J.page (.snapshotMaddr k) ≠ a

/-- What the list shows is the same in `s` and `s'`. -/
structure Same (g : List InodeView) (s s' : PptrMem) : Prop where
  head : s'.head = s.head
  used : ∀ a ∈ s.used, a ∈ s'.used
  pin : ∀ J ∈ g, ∀ f : PinField, f.Shown → s'.pin J.page f = s.pin J.page f
  bytes : ∀ d ∈ dnodesOf g, s'.bytes d.page = s.bytes d.page

section

variable {g l : List InodeView} {I J : InodeView} {c k a v : ℕ}

theorem ShowsDnode.congr {d : DnodeView} (h : s.ShowsDnode d) (hb : s'.bytes d.page = s.bytes d.page) :
    s'.ShowsDnode d where
  index := by
    have := h.index
    unfold pdn at *
    rwa [hb]
  entry i hi := by rw [hb]; exact h.entry i hi
  length_le := h.length_le

theorem Chain.congr (h : s.Chain a g) (hn : ∀ J ∈ g, s'.pin J.page .pinNextMaddr = s.pin J.page .pinNextMaddr) :
    s'.Chain a g := by
  induction g generalizing a with
  | nil => exact h
  | cons J g ih =>
    refine ⟨h.1, ?_⟩
    rw [hn J (by simp)]
    exact ih h.2 fun K hK => hn K (by simp [hK])

theorem Same.copied (h : Same g s s') (hJ : J ∈ g) : s'.Copied J.page k ↔ s.Copied J.page k := by
  unfold Copied
  rw [h.pin J hJ (.snapshotMaddr k) trivial, h.pin J hJ (.currentMaddr k) trivial]

theorem Owned.mono (h : s.Owned P a) (hu : a ∈ s'.used) : s'.Owned P a := ⟨hu, h.mapped, h.ne, h.lt⟩

theorem Holds.congr (h : s.Holds P l I c) (hs : Same (l ++ [I]) s s') : s'.Holds P l I c where
  chain := by
    rw [hs.head]
    exact h.chain.congr fun J hJ => hs.pin J hJ .pinNextMaddr trivial
  last := by rw [hs.head, h.last]
  current J hJ k hk := by rw [hs.pin J hJ (.currentMaddr k) trivial, h.current J hJ k hk]
  length_le := h.length_le
  dnode d hd := (h.dnode d hd).congr (hs.bytes d hd)
  index := by rw [hs.pin I (by simp) .pinCurrentIdx trivial, h.index]
  nodup := h.nodup
  owned a ha := (h.owned a ha).mono (hs.used a (h.owned a ha).used)
  copy J hJ k hk hc := by
    obtain ⟨hu, hp⟩ := h.copy J hJ k hk ((hs.copied hJ).mp hc)
    rw [hs.pin J hJ (.snapshotMaddr k) trivial]
    exact ⟨hs.used _ hu, hp⟩
  copy_inj J hJ K hK j hj k hk hcj hck he := by
    rw [hs.pin J hJ (.snapshotMaddr j) trivial, hs.pin K hK (.snapshotMaddr k) trivial] at he
    exact h.copy_inj J hJ K hK j hj k hk ((hs.copied hJ).mp hcj) ((hs.copied hK).mp hck) he

theorem Spare.congr (h : s.Spare P g a) (hs : Same g s s') : s'.Spare P g a where
  owned := h.owned.mono (hs.used a h.owned.used)
  notMem := h.notMem
  copy J hJ k hk hc := by
    rw [hs.pin J hJ (.snapshotMaddr k) trivial]
    exact h.copy J hJ k hk ((hs.copied hJ).mp hc)

/-! ## Pages -/

theorem mem_pagesOf_inode (hJ : J ∈ g) : J.page ∈ pagesOf g :=
  List.mem_append_left _ (List.mem_map_of_mem hJ)

theorem mem_pagesOf_dnode {d : DnodeView} (hd : d ∈ dnodesOf g) : d.page ∈ pagesOf g :=
  List.mem_append_right _ (List.mem_map_of_mem hd)

/-- No page is an inode and a dnode. -/
theorem Holds.page_ne (h : s.Holds P l I c) (hJ : J ∈ l ++ [I]) {d : DnodeView} (hd : d ∈ dnodesOf (l ++ [I])) :
    d.page ≠ J.page := by
  intro he
  refine List.disjoint_of_nodup_append h.nodup (List.mem_map_of_mem hJ) ?_
  rw [← he]
  exact List.mem_map_of_mem hd

/-- The pages of the inodes before the last. -/
theorem Holds.page_ne_last (h : s.Holds P l I c) (hJ : J ∈ l) : J.page ≠ I.page := by
  intro he
  have hn := (List.nodup_append.mp h.nodup).1
  rw [List.map_append] at hn
  exact List.disjoint_of_nodup_append hn (List.mem_map_of_mem hJ) (by simp [he])

theorem Holds.owned_inode (h : s.Holds P l I c) (hJ : J ∈ l ++ [I]) : s.Owned P J.page :=
  h.owned _ (mem_pagesOf_inode hJ)

theorem Holds.last_mem (_h : s.Holds P l I c) : I.page ∈ pagesOf (l ++ [I]) := mem_pagesOf_inode (by simp)

theorem Holds.owned_last (h : s.Holds P l I c) : s.Owned P I.page := h.owned_inode (by simp)

theorem Holds.owned_dnode (h : s.Holds P l I c) {d : DnodeView} (hd : d ∈ dnodesOf (l ++ [I])) :
    s.Owned P d.page := h.owned _ (mem_pagesOf_dnode hd)

/-! ## Requests -/

theorem same_took : Same g s (s.took a) where
  head := rfl
  used _ hb := List.mem_cons_of_mem a hb
  pin _ _ _ _ := rfl
  bytes _ _ := rfl

/-- A page that was handed out is spare. -/
theorem Holds.spare (h : s.Holds P l I c) (ha : P.pick s.used s.requests = some a) :
    (s.took a).Spare P (l ++ [I]) a where
  owned := ⟨List.mem_cons_self, P.pick_mapped _ _ _ ha, P.pick_ne _ _ _ ha, P.pick_lt _ _ _ ha⟩
  notMem hm := P.pick_notMem _ _ _ ha (h.owned a hm).used
  copy J hJ k hk hc he := by
    have hu := (h.copy J hJ k hk hc).1
    change s.pin J.page (.snapshotMaddr k) = a at he
    rw [he] at hu
    exact P.pick_notMem _ _ _ ha hu

/-! ## Stores that the list does not show -/

theorem Holds.same_setLaddr (h : s.Holds P l I c) (hJ : J ∈ l ++ [I]) {f : PinField} (hf : ¬ f.Shown) :
    Same (l ++ [I]) s (s.setField pptrInode J.page f v) where
  head := rfl
  used _ hb := hb
  pin K _ f' hf' := pin_setField_of_ne fun he => hf (he ▸ hf')
  bytes _ hd := bytes_setField_of_ne (h.page_ne hJ hd)

/-- A page that is filled before it is linked. -/
theorem Spare.same_fill (h : s.Spare P g a) (b : ℕ → UInt8) :
    Same g s { s with bytes := Function.update s.bytes a b } where
  head := rfl
  used _ hb := hb
  pin J hJ f _ := by
    have hne : J.page ≠ a := fun he => h.notMem (he ▸ mem_pagesOf_inode hJ)
    unfold PptrMem.pin
    dsimp only
    rw [Function.update_of_ne hne]
  bytes d hd := by
    have hne : d.page ≠ a := fun he => h.notMem (he ▸ mem_pagesOf_dnode hd)
    exact Function.update_of_ne hne _ _

/-! ## Snapshots -/

/-- A slot whose snapshot becomes its current dnode or a spare page. -/
theorem Holds.setSnapshot (h : s.Holds P l I c) (hJ : J ∈ l ++ [I]) (hk : k < pptrInodeEntries)
    (hv : v = s.pin J.page (.currentMaddr k) ∨ s.Spare P (l ++ [I]) v) :
    (s.setField pptrInode J.page (.snapshotMaddr k) v).Holds P l I c := by
  set t := s.setField pptrInode J.page (.snapshotMaddr k) v with ht
  have hlt : v < 256 ^ (PinField.snapshotMaddr k).size := by
    rcases hv with rfl | hv
    · exact pin_lt s J.page (.currentMaddr k)
    · exact hv.owned.lt
  have hself : t.pin J.page (.snapshotMaddr k) = v := pin_setField_self hlt
  have hother : ∀ b (f : PinField), (b, f) ≠ (J.page, .snapshotMaddr k) → t.pin b f = s.pin b f := by
    intro b f hne
    by_cases hb : b = J.page
    · exact pin_setField_of_ne fun hf => hne (by rw [hb, hf])
    · exact pin_setField_of_ne_page hb
  have hcur : ∀ b j, t.pin b (.currentMaddr j) = s.pin b (.currentMaddr j) := fun b j =>
    hother b _ (by simp)
  -- a slot with a snapshot of its own is another one and had it before, or it is this one and has `v`
  have hcopied : ∀ K ∈ l ++ [I], ∀ j, t.Copied K.page j →
      (K.page = J.page ∧ j = k ∧ s.Spare P (l ++ [I]) v) ∨
      (¬ (K.page = J.page ∧ j = k) ∧ s.Copied K.page j ∧
        t.pin K.page (.snapshotMaddr j) = s.pin K.page (.snapshotMaddr j)) := by
    intro K _ j hc
    by_cases he : K.page = J.page ∧ j = k
    · obtain ⟨hp, rfl⟩ := he
      refine .inl ⟨hp, rfl, hv.resolve_left fun hv => hc.2 ?_⟩
      rw [hcur, hp, hself, hv]
    · have hs : t.pin K.page (.snapshotMaddr j) = s.pin K.page (.snapshotMaddr j) :=
        hother _ _ fun e => he (by simpa using e)
      refine .inr ⟨he, ?_, hs⟩
      unfold Copied at hc ⊢
      rwa [hs, hcur] at hc
  refine ⟨h.chain.congr fun K _ => hother _ _ (by simp), h.last, fun K hK j hj => ?_, h.length_le,
    fun d hd => (h.dnode d hd).congr (bytes_setField_of_ne (h.page_ne hJ hd)), ?_, h.nodup,
    fun b hb => (h.owned b hb).mono (h.owned b hb).used, fun K hK j hj hc => ?_, fun K hK M hM i hi j hj hci hcj he => ?_⟩
  · rw [hcur, h.current K hK j hj]
  · rw [hother _ _ (by simp), h.index]
  · rcases hcopied K hK j hc with ⟨hp, rfl, hsp⟩ | ⟨-, hc', hs⟩
    · rw [hp, hself]
      exact ⟨hsp.owned.used, hsp.notMem⟩
    · rw [hs]
      exact h.copy K hK j hj hc'
  · rcases hcopied K hK i hci with ⟨hp, rfl, hsp⟩ | ⟨-, hci', hsi⟩
    · rcases hcopied M hM j hcj with ⟨hp', rfl, -⟩ | ⟨-, hcj', hsj⟩
      · exact ⟨hp.trans hp'.symm, rfl⟩
      · rw [hp, hself, hsj] at he
        exact absurd he.symm (hsp.copy M hM j hj hcj')
    · rcases hcopied M hM j hcj with ⟨hp', rfl, hsp⟩ | ⟨-, hcj', hsj⟩
      · rw [hp', hself, hsi] at he
        exact absurd he (hsp.copy K hK i hi hci')
      · rw [hsi, hsj] at he
        exact h.copy_inj K hK M hM i hi j hj hci' hcj' he

/-- A page that the list does not refer to may be given back. -/
theorem Holds.erase (h : s.Holds P l I c) (ha : a ∉ pagesOf (l ++ [I]))
    (hc : ∀ J ∈ l ++ [I], ∀ k < pptrInodeEntries, s.Copied J.page k → s.pin J.page (.snapshotMaddr k) ≠ a) :
    Holds P { s with used := s.used.erase a } l I c where
  chain := h.chain.congr fun _ _ => rfl
  last := h.last
  current := h.current
  length_le := h.length_le
  dnode d hd := (h.dnode d hd).congr rfl
  index := h.index
  nodup := h.nodup
  owned b hb := by
    have hne : b ≠ a := fun he => ha (he ▸ hb)
    exact (h.owned b hb).mono ((List.mem_erase_of_ne hne).mpr (h.owned b hb).used)
  copy J hJ k hk hcp := by
    obtain ⟨hu, hp⟩ := h.copy J hJ k hk hcp
    exact ⟨(List.mem_erase_of_ne (hc J hJ k hk hcp)).mpr hu, hp⟩
  copy_inj := h.copy_inj

/-! ## Growth -/

theorem Holds.setIndex (h : s.Holds P l I c) (hk : k < 2 ^ 32) :
    (s.setField pptrInode I.page .pinCurrentIdx k).Holds P l I k := by
  have hother : ∀ b (f : PinField), f ≠ .pinCurrentIdx →
      (s.setField pptrInode I.page .pinCurrentIdx k).pin b f = s.pin b f := fun _ _ hf => pin_setField_of_ne hf
  have hcopied : ∀ b j, (s.setField pptrInode I.page .pinCurrentIdx k).Copied b j ↔ s.Copied b j := by
    intro b j
    unfold Copied
    rw [hother _ _ (by simp), hother _ _ (by simp)]
  refine ⟨h.chain.congr fun K _ => hother _ _ (by simp), h.last, fun K hK j hj => ?_, h.length_le,
    fun d hd => (h.dnode d hd).congr (bytes_setField_of_ne (h.page_ne (by simp) hd)), pin_setField_self hk,
    h.nodup, fun b hb => (h.owned b hb).mono (h.owned b hb).used, fun K hK j hj hc => ?_, fun K hK M hM i hi j hj hci hcj he => ?_⟩
  · rw [hother _ _ (by simp), h.current K hK j hj]
  · rw [hother _ _ (by simp)]
    exact h.copy K hK j hj ((hcopied _ _).mp hc)
  · rw [hother _ _ (by simp), hother _ _ (by simp)] at he
    exact h.copy_inj K hK M hM i hi j hj ((hcopied _ _).mp hci) ((hcopied _ _).mp hcj) he

theorem dnodesOf_append (l m : List InodeView) : dnodesOf (l ++ m) = dnodesOf l ++ dnodesOf m :=
  List.flatMap_append

theorem dnodesOf_last (l : List InodeView) (I : InodeView) : dnodesOf (l ++ [I]) = dnodesOf l ++ I.dnodes := by
  rw [dnodesOf_append]
  simp [dnodesOf]

theorem InodeView.current_length (I : InodeView) : I.current I.dnodes.length = 0 := by
  simp [InodeView.current]

theorem InodeView.current_push (a : ℕ) (ds : List DnodeView) (d : DnodeView) (j : ℕ) :
    (InodeView.mk a (ds ++ [d])).current j = if j = ds.length then d.page else (InodeView.mk a ds).current j := by
  unfold InodeView.current
  dsimp only
  by_cases hj : j = ds.length
  · rw [if_pos hj, hj]
    simp
  · rw [if_neg hj]
    rcases Nat.lt_or_gt_of_ne hj with h | h
    · rw [List.getElem?_append_left h]
    · rw [List.getElem?_eq_none (by simp; omega), List.getElem?_eq_none (by omega)]

/-- The first slot without a dnode takes one. -/
theorem Holds.setCurrent {p d : ℕ} {ds : List DnodeView} (h : s.Holds P l ⟨p, ds⟩ c)
    (hlt : ds.length < pptrInodeEntries) (hd : s.Spare P (l ++ [⟨p, ds⟩]) d) (h0 : s.pdn d .pdnIndex = 0) :
    (s.setField pptrInode p (.currentMaddr ds.length) d).Holds P l ⟨p, ds ++ [⟨d, []⟩]⟩ c := by
  set t := s.setField pptrInode p (.currentMaddr ds.length) d with ht
  have hself : t.pin p (.currentMaddr ds.length) = d := pin_setField_self hd.owned.lt
  have hother : ∀ b (f : PinField), (b, f) ≠ (p, .currentMaddr ds.length) → t.pin b f = s.pin b f := by
    intro b f hne
    by_cases hb : b = p
    · exact pin_setField_of_ne fun hf => hne (by rw [hb, hf])
    · exact pin_setField_of_ne_page hb
  have hbytes : ∀ b, b ≠ p → t.bytes b = s.bytes b := fun b hb => bytes_setField_of_ne hb
  have hdnodes : dnodesOf (l ++ [⟨p, ds ++ [⟨d, []⟩]⟩]) = dnodesOf (l ++ [⟨p, ds⟩]) ++ [⟨d, []⟩] := by
    rw [dnodesOf_last, dnodesOf_last, List.append_assoc]
  have hpages : pagesOf (l ++ [⟨p, ds ++ [⟨d, []⟩]⟩]) = pagesOf (l ++ [⟨p, ds⟩]) ++ [d] := by
    unfold pagesOf
    rw [hdnodes]
    simp
  have hold : ∀ K ∈ l ++ [InodeView.mk p (ds ++ [⟨d, []⟩])],
      ∃ K' ∈ l ++ [InodeView.mk p ds], K'.page = K.page := by
    intro K hK
    rcases List.mem_append.mp hK with hK | hK
    · exact ⟨K, List.mem_append_left _ hK, rfl⟩
    · obtain rfl := List.mem_singleton.mp hK
      exact ⟨⟨p, ds⟩, by simp, rfl⟩
  -- the new dnode is not a snapshot, so a slot with a snapshot of its own had it before
  have hcopied : ∀ K' ∈ l ++ [InodeView.mk p ds], ∀ j < pptrInodeEntries, t.Copied K'.page j →
      s.Copied K'.page j := by
    intro K' hK' j hj hc
    unfold Copied at hc ⊢
    rw [hother K'.page (.snapshotMaddr j) (by simp)] at hc
    by_cases he : (K'.page, PinField.currentMaddr j) = (p, .currentMaddr ds.length)
    · obtain ⟨hp, hjl⟩ := Prod.mk.inj he
      obtain rfl := PinField.currentMaddr.inj hjl
      refine ⟨hc.1, ?_⟩
      rw [hp, h.current ⟨p, ds⟩ (by simp) _ hj, InodeView.current_length ⟨p, ds⟩, ← hp]
      exact hc.1
    · rwa [hother _ _ he] at hc
  refine ⟨?_, h.last, fun K hK j hj => ?_, fun K hK => ?_, fun e he => ?_, ?_, ?_, fun b hb => ?_,
    fun K hK j hj hc => ?_, fun K hK M hM i hi j hj hci hcj he => ?_⟩
  · have hmap : ∀ (m : List InodeView) a, s.Chain a (m ++ [⟨p, ds⟩]) → t.Chain a (m ++ [⟨p, ds ++ [⟨d, []⟩]⟩]) := by
      intro m
      induction m with
      | nil =>
        intro a ha
        exact ⟨ha.1, (hother p .pinNextMaddr (by simp)).trans ha.2⟩
      | cons M m ih =>
        intro a ha
        refine ⟨ha.1, ?_⟩
        rw [hother _ _ (by simp)]
        exact ih _ ha.2
    exact hmap l _ h.chain
  · rcases List.mem_append.mp hK with hK | hK
    · have hne : K.page ≠ p := h.page_ne_last hK
      rw [hother _ _ fun e => hne (Prod.mk.inj e).1, h.current K (List.mem_append_left _ hK) j hj]
    · obtain rfl := List.mem_singleton.mp hK
      rw [InodeView.current_push]
      by_cases hjl : j = ds.length
      · rw [if_pos hjl, hjl, hself]
      · rw [if_neg hjl, hother _ _ (by simpa using hjl), h.current ⟨p, ds⟩ (by simp) j hj]
  · rcases List.mem_append.mp hK with hK | hK
    · exact h.length_le K (List.mem_append_left _ hK)
    · obtain rfl := List.mem_singleton.mp hK
      rw [List.length_append, List.length_singleton]
      exact hlt
  · rw [hdnodes] at he
    rcases List.mem_append.mp he with he | he
    · exact (h.dnode e he).congr (hbytes _ (h.page_ne (J := ⟨p, ds⟩) (by simp) he))
    · obtain rfl := List.mem_singleton.mp he
      have hp : p ∈ pagesOf (l ++ [⟨p, ds⟩]) := h.last_mem
      have hne : d ≠ p := fun e => hd.notMem (e ▸ hp)
      refine ⟨?_, fun i hi => absurd hi (Nat.not_lt_zero i), Nat.zero_le _⟩
      unfold pdn at h0 ⊢
      rw [hbytes d hne]
      exact h0
  · rw [hother _ _ (by simp), h.index]
  · rw [hpages]
    exact List.nodup_append.mpr ⟨h.nodup, List.nodup_singleton d, fun a ha b hb => by
      rw [List.mem_singleton.mp hb]
      exact fun e => hd.notMem (e ▸ ha)⟩
  · rw [hpages] at hb
    rcases List.mem_append.mp hb with hb | hb
    · exact (h.owned b hb).mono (h.owned b hb).used
    · rw [List.mem_singleton.mp hb]
      exact hd.owned.mono hd.owned.used
  · obtain ⟨K', hK', hp⟩ := hold K hK
    rw [← hp] at hc ⊢
    rw [hother _ _ (by simp), hpages]
    have hc' := hcopied K' hK' j hj hc
    obtain ⟨hu, hn⟩ := h.copy K' hK' j hj hc'
    refine ⟨hu, fun hm => ?_⟩
    rcases List.mem_append.mp hm with hm | hm
    · exact hn hm
    · exact hd.copy K' hK' j hj hc' (List.mem_singleton.mp hm)
  · obtain ⟨K', hK', hp⟩ := hold K hK
    obtain ⟨M', hM', hp'⟩ := hold M hM
    rw [← hp] at hci he ⊢
    rw [← hp'] at hcj he ⊢
    rw [hother _ _ (by simp), hother _ _ (by simp)] at he
    exact h.copy_inj K' hK' M' hM' i hi j hj (hcopied K' hK' i hi hci) (hcopied M' hM' j hj hcj) he

/-- A new inode is linked behind the last. -/
theorem Holds.setNext {n : ℕ} (h : s.Holds P l I c) (hn : s.Spare P (l ++ [I]) n)
    (hidx : s.pin n .pinCurrentIdx = 0) (hnext : s.pin n .pinNextMaddr = 0)
    (hcur : ∀ k < pptrInodeEntries, s.pin n (.currentMaddr k) = 0)
    (hsnap : ∀ k < pptrInodeEntries, s.pin n (.snapshotMaddr k) = 0) :
    Holds P { (s.setField pptrInode I.page .pinNextMaddr n) with head := { s.head with lastMaddr := n } }
      (l ++ [I]) ⟨n, []⟩ 0 := by
  set t : PptrMem :=
    { (s.setField pptrInode I.page .pinNextMaddr n) with head := { s.head with lastMaddr := n } } with ht
  have hpin : ∀ b f, t.pin b f = (s.setField pptrInode I.page .pinNextMaddr n).pin b f := fun _ _ => rfl
  have hself : t.pin I.page .pinNextMaddr = n := by
    rw [hpin, pin_setField_self hn.owned.lt]
  have hother : ∀ b (f : PinField), (b, f) ≠ (I.page, .pinNextMaddr) → t.pin b f = s.pin b f := by
    intro b f hne
    rw [hpin]
    by_cases hb : b = I.page
    · exact pin_setField_of_ne fun hf => hne (by rw [hb, hf])
    · exact pin_setField_of_ne_page hb
  have hnI : n ≠ I.page := fun e => hn.notMem (e ▸ h.last_mem)
  have hdnodes : dnodesOf (l ++ [I] ++ [⟨n, []⟩]) = dnodesOf (l ++ [I]) := by
    rw [dnodesOf_last, List.append_nil]
  have hmem : ∀ {b}, b ∈ pagesOf (l ++ [I] ++ [⟨n, []⟩]) ↔ b ∈ pagesOf (l ++ [I]) ∨ b = n := by
    intro b
    unfold pagesOf
    have hmap : b ∈ (l ++ [I] ++ [InodeView.mk n []]).map InodeView.page ↔ b ∈ (l ++ [I]).map InodeView.page ∨ b = n := by
      rw [List.map_append, List.mem_append, List.map_singleton, List.mem_singleton]
    rw [hdnodes, List.mem_append, List.mem_append, hmap]
    exact or_right_comm
  -- a slot with a snapshot of its own belongs to an inode that was there before
  have hcopied : ∀ K ∈ l ++ [I] ++ [InodeView.mk n []], ∀ j < pptrInodeEntries, t.Copied K.page j →
      K ∈ l ++ [I] ∧ s.Copied K.page j := by
    intro K hK j hj hc
    unfold Copied at hc
    rw [hother _ _ (by simp), hother _ _ (by simp)] at hc
    rcases List.mem_append.mp hK with hK | hK
    · exact ⟨hK, hc⟩
    · obtain rfl := List.mem_singleton.mp hK
      exact absurd (hsnap j hj) hc.1
  refine ⟨?_, rfl, fun K hK j hj => ?_, fun K hK => ?_, fun e he => ?_, ?_, ?_, fun b hb => ?_,
    fun K hK j hj hc => ?_, fun K hK M hM i hi j hj hci hcj he => ?_⟩
  · have hmap : ∀ m a, (∀ M ∈ m, M.page ≠ I.page) → s.Chain a (m ++ [I]) →
        t.Chain a (m ++ [I] ++ [⟨n, []⟩]) := by
      intro m
      induction m with
      | nil =>
        intro a _ ha
        exact ⟨ha.1, hself, (hother n .pinNextMaddr fun e => hnI (Prod.mk.inj e).1).trans hnext⟩
      | cons M m ih =>
        intro a hm ha
        refine ⟨ha.1, ?_⟩
        rw [hother _ _ fun e => hm M (by simp) (Prod.mk.inj e).1]
        exact ih _ (fun K hK => hm K (by simp [hK])) ha.2
    exact hmap l _ (fun M hM => h.page_ne_last hM) h.chain
  · rw [hother _ _ (by simp)]
    rcases List.mem_append.mp hK with hK | hK
    · exact h.current K hK j hj
    · obtain rfl := List.mem_singleton.mp hK
      exact hcur j hj
  · rcases List.mem_append.mp hK with hK | hK
    · exact h.length_le K hK
    · obtain rfl := List.mem_singleton.mp hK
      exact Nat.zero_le _
  · rw [hdnodes] at he
    exact (h.dnode e he).congr (bytes_setField_of_ne (s := s) (h.page_ne (by simp) he))
  · rw [hother _ _ fun e => hnI (Prod.mk.inj e).1]
    exact hidx
  · unfold pagesOf
    have hperm : (List.map InodeView.page (l ++ [I] ++ [⟨n, []⟩]) ++
        List.map DnodeView.page (dnodesOf (l ++ [I] ++ [⟨n, []⟩]))).Perm (n :: pagesOf (l ++ [I])) := by
      rw [hdnodes, List.map_append, List.map_singleton, List.append_assoc]
      exact List.perm_middle
    exact hperm.nodup_iff.mpr (List.nodup_cons.mpr ⟨hn.notMem, h.nodup⟩)
  · rcases hmem.mp hb with hb | rfl
    · exact (h.owned b hb).mono (h.owned b hb).used
    · exact hn.owned.mono hn.owned.used
  · obtain ⟨hK, hc⟩ := hcopied K hK j hj hc
    obtain ⟨hu, hp⟩ := h.copy K hK j hj hc
    rw [hother _ _ (by simp), hmem]
    exact ⟨hu, fun hm => hm.elim hp (hn.copy K hK j hj hc)⟩
  · obtain ⟨hK, hci⟩ := hcopied K hK i hi hci
    obtain ⟨hM, hcj⟩ := hcopied M hM j hj hcj
    rw [hother _ _ (by simp), hother _ _ (by simp)] at he
    exact h.copy_inj K hK M hM i hi j hj hci hcj he

/-- The last dnode takes another entry. -/
theorem Holds.fillDnode {p d : ℕ} {ds : List DnodeView} {es : List Pptr} {t : Pptr} {b : ℕ → UInt8}
    (h : s.Holds P l ⟨p, ds ++ [⟨d, es⟩]⟩ c) (hlt : es.length < pptrDnodeEntries)
    (hidx : pptrDnode.read b .pdnIndex = es.length + 1)
    (hentry : ∀ i < es.length, pdnEntry b i = pdnEntry (s.bytes d) i) (hnew : pdnEntry b es.length = t) :
    Holds P { s with bytes := Function.update s.bytes d b } l ⟨p, ds ++ [⟨d, es ++ [t]⟩]⟩ c := by
  have hdnodes : ∀ e, dnodesOf (l ++ [⟨p, ds ++ [e]⟩]) = dnodesOf l ++ ds ++ [e] := fun e => by
    rw [dnodesOf_last, List.append_assoc]
  have hpages : pagesOf (l ++ [⟨p, ds ++ [⟨d, es ++ [t]⟩]⟩]) = pagesOf (l ++ [⟨p, ds ++ [⟨d, es⟩]⟩]) := by
    unfold pagesOf
    rw [hdnodes, hdnodes]
    simp
  have hd : DnodeView.mk d es ∈ dnodesOf (l ++ [⟨p, ds ++ [⟨d, es⟩]⟩]) := by rw [hdnodes]; simp
  have hold : ∀ K ∈ l ++ [InodeView.mk p (ds ++ [⟨d, es ++ [t]⟩])],
      ∃ K' ∈ l ++ [InodeView.mk p (ds ++ [⟨d, es⟩])], K'.page = K.page ∧
        K'.dnodes.length = K.dnodes.length ∧ ∀ k, K'.current k = K.current k := by
    intro K hK
    rcases List.mem_append.mp hK with hK | hK
    · exact ⟨K, List.mem_append_left _ hK, rfl, rfl, fun _ => rfl⟩
    · obtain rfl := List.mem_singleton.mp hK
      refine ⟨⟨p, ds ++ [⟨d, es⟩]⟩, by simp, rfl, by simp, fun k => ?_⟩
      rw [InodeView.current_push, InodeView.current_push]
  have hpin : ∀ K ∈ l ++ [InodeView.mk p (ds ++ [⟨d, es⟩])], ∀ f,
      PptrMem.pin { s with bytes := Function.update s.bytes d b } K.page f = s.pin K.page f := by
    intro K hK f
    unfold pin
    dsimp only
    rw [Function.update_of_ne (h.page_ne hK hd).symm]
  have hcopied : ∀ K ∈ l ++ [InodeView.mk p (ds ++ [⟨d, es⟩])], ∀ j,
      PptrMem.Copied { s with bytes := Function.update s.bytes d b } K.page j ↔ s.Copied K.page j := by
    intro K hK j
    unfold Copied
    rw [hpin K hK, hpin K hK]
  refine ⟨?_, h.last, fun K hK j hj => ?_, fun K hK => ?_, fun e he => ?_, ?_, ?_, fun a ha => ?_,
    fun K hK j hj hc => ?_, fun K hK M hM i hi j hj hci hcj he => ?_⟩
  · have hmap : ∀ m a, (∀ M ∈ m, M ∈ l) → s.Chain a (m ++ [⟨p, ds ++ [⟨d, es⟩]⟩]) →
        PptrMem.Chain { s with bytes := Function.update s.bytes d b } a
          (m ++ [⟨p, ds ++ [⟨d, es ++ [t]⟩]⟩]) := by
      intro m
      induction m with
      | nil =>
        intro a _ ha
        exact ⟨ha.1, (hpin ⟨p, ds ++ [⟨d, es⟩]⟩ (by simp) .pinNextMaddr).trans ha.2⟩
      | cons M m ih =>
        intro a hm ha
        refine ⟨ha.1, ?_⟩
        rw [hpin M (List.mem_append_left _ (hm M (by simp)))]
        exact ih _ (fun K hK => hm K (by simp [hK])) ha.2
    exact hmap l _ (fun _ hM => hM) h.chain
  · obtain ⟨K', hK', hp, -, hcur⟩ := hold K hK
    rw [← hp, ← hcur, hpin K' hK', h.current K' hK' j hj]
  · obtain ⟨K', hK', -, hlen, -⟩ := hold K hK
    rw [← hlen]
    exact h.length_le K' hK'
  · rw [hdnodes] at he
    rcases List.mem_append.mp he with he | he
    · have hne : e.page ≠ d := by
        have hn := (List.nodup_append.mp h.nodup).2.1
        rw [hdnodes, List.map_append] at hn
        exact fun e' => List.disjoint_of_nodup_append hn (List.mem_map_of_mem he) (by simp [e'])
      refine (h.dnode e ?_).congr (Function.update_of_ne hne _ _)
      rw [hdnodes]
      exact List.mem_append_left _ he
    · obtain rfl := List.mem_singleton.mp he
      have hself : Function.update s.bytes d b d = b := Function.update_self _ _ _
      refine ⟨?_, fun i hi => ?_, ?_⟩
      · unfold pdn
        dsimp only
        rw [hself, hidx, List.length_append, List.length_singleton]
      · dsimp only at hi ⊢
        rw [hself]
        rw [List.length_append, List.length_singleton] at hi
        rcases Nat.lt_or_ge i es.length with hi' | hi'
        · rw [List.getElem_append_left hi', hentry i hi']
          exact (h.dnode _ hd).entry i hi'
        · obtain rfl : i = es.length := by omega
          rw [List.getElem_append_right (Nat.le_refl _), hnew]
          simp
      · rw [List.length_append, List.length_singleton]
        exact hlt
  · exact (hpin ⟨p, ds ++ [⟨d, es⟩]⟩ (by simp) .pinCurrentIdx).trans h.index
  · rw [hpages]
    exact h.nodup
  · rw [hpages] at ha
    exact (h.owned a ha).mono (h.owned a ha).used
  · obtain ⟨K', hK', hp, -⟩ := hold K hK
    rw [← hp] at hc ⊢
    rw [hpin K' hK', hpages]
    exact h.copy K' hK' j hj ((hcopied K' hK' j).mp hc)
  · obtain ⟨K', hK', hp, -⟩ := hold K hK
    obtain ⟨M', hM', hp', -⟩ := hold M hM
    rw [← hp] at hci he ⊢
    rw [← hp'] at hcj he ⊢
    rw [hpin K' hK', hpin M' hM'] at he
    exact h.copy_inj K' hK' M' hM' i hi j hj ((hcopied K' hK' i).mp hci) ((hcopied M' hM' j).mp hcj) he

end

end PptrMem

end LibPM

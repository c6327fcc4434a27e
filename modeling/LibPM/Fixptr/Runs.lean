import LibPM.Fixptr.List

/-!
# The persistent pointer list is the appended sequence

Pages that are handed out for an inode or a dnode are not initialised by fixptr.c, so what the list shows
depends on what they held. `PptrMem.AppendClean` says that they held zeros where the code looks; under it,
each function keeps the list (`Steady.pptrAppend`, `Holds.pptrCpoint`), and so does every run
(`walk_eq_appended`).
-/

namespace LibPM

open Recorded Recorded.Prog LittleEndian

/-! ## Clean pages -/

/-- A page that can become a dnode as it is. -/
def CleanDnode (b : ℕ → UInt8) : Prop := pptrDnode.read b .pdnIndex = 0

/-- No link of an inode. -/
def ClearLinks (b : ℕ → UInt8) : Prop :=
  pptrInode.read b .pinNextMaddr = 0 ∧ ∀ k < pptrInodeEntries,
    pptrInode.read b (.currentMaddr k) = 0 ∧ pptrInode.read b (.snapshotMaddr k) = 0

/-- A page that can become an inode as it is. -/
def CleanInode (b : ℕ → UInt8) : Prop := pptrInode.read b .pinCurrentIdx = 0 ∧ ClearLinks b

namespace PptrMem

/-- The page that `pptr_init` is given has no links. -/
def InitClean (P : PageSupply) (s : PptrMem) : Prop :=
  ∀ a, P.pick s.used s.requests = some a → ClearLinks (s.bytes a)

/-- The condition of `pptr_need_expanding`. -/
def NeedsExpanding (s : PptrMem) : Prop :=
  s.pin s.head.lastMaddr (.currentMaddr (pptrInodeEntries - 1)) ≠ 0 ∧
    s.pdn (s.pin s.head.lastMaddr (.currentMaddr (pptrInodeEntries - 1))) .pdnIndex = pptrDnodeEntries

/-- The current slot of the last inode has no dnode, or a full one. -/
def NeedsDnode (s : PptrMem) : Prop :=
  let d := s.pin s.head.lastMaddr (.currentMaddr (s.pin s.head.lastMaddr .pinCurrentIdx))
  d = 0 ∨ s.pdn d .pdnIndex = pptrDnodeEntries

/-- The pages that the next `pptr_append` is given, if it asks for any, are clean. -/
def AppendClean (P : PageSupply) (s : PptrMem) : Prop :=
  (s.NeedsExpanding → ∀ n, P.pick s.used s.requests = some n → CleanInode (s.bytes n) ∧
    ∀ d, P.pick (n :: s.used) (s.requests + 1) = some d → CleanDnode (s.bytes d)) ∧
  (¬ s.NeedsExpanding → s.NeedsDnode → ∀ d, P.pick s.used s.requests = some d → CleanDnode (s.bytes d))

instance (b : ℕ → UInt8) : Decidable (CleanDnode b) := by unfold CleanDnode; infer_instance

instance (b : ℕ → UInt8) : Decidable (ClearLinks b) := by unfold ClearLinks; infer_instance

instance (b : ℕ → UInt8) : Decidable (CleanInode b) := by unfold CleanInode; infer_instance

instance (s : PptrMem) : Decidable s.NeedsExpanding := by unfold NeedsExpanding; infer_instance

instance (s : PptrMem) : Decidable s.NeedsDnode := by unfold NeedsDnode; infer_instance

instance (P : PageSupply) (s : PptrMem) : Decidable (s.InitClean P) :=
  inferInstanceAs (Decidable (∀ a ∈ P.pick s.used s.requests, ClearLinks (s.bytes a)))

instance (P : PageSupply) (s : PptrMem) : Decidable (s.AppendClean P) :=
  inferInstanceAs (Decidable ((s.NeedsExpanding → ∀ n ∈ P.pick s.used s.requests, CleanInode (s.bytes n) ∧
    ∀ d ∈ P.pick (n :: s.used) (s.requests + 1), CleanDnode (s.bytes d)) ∧
    (¬ s.NeedsExpanding → s.NeedsDnode → ∀ d ∈ P.pick s.used s.requests, CleanDnode (s.bytes d))))

end PptrMem

/-- The memory after any sequence of calls and the tuples appended so far; `Init` and `App` are what is
required of the memory before `pptr_init` and `pptr_append`. Between calls, pages that the list does not use
may change in any way. -/
inductive PptrRun (P : PageSupply) (Init App : PptrMem → Prop) : PptrMem → List Pptr → Prop
  | init {s s'} : Init s → Returns (pptrInit P) s () s' → PptrRun P Init App s' []
  | append {s s' ts} (t) : PptrRun P Init App s ts → App s → Returns (pptrAppend P t) s () s' →
      PptrRun P Init App s' (ts ++ [t])
  | cpoint {s s' ts} : PptrRun P Init App s ts → Returns (pptrCpoint P) s () s' → PptrRun P Init App s' ts
  | other {s ts} (bytes) : PptrRun P Init App s ts → (∀ a ∈ s.used, bytes a = s.bytes a) →
      PptrRun P Init App { s with bytes } ts

namespace PptrMem

variable {P : PageSupply} {s t : PptrMem} {g l : List InodeView} {I J : InodeView} {a c k n : ℕ} {ts : List Pptr}

/-! ## Walking -/

theorem flatMap_range_getElem? {α β : Type} {f : Option α → List β} (h0 : f none = []) :
    ∀ {ds : List α} {n : ℕ}, ds.length ≤ n →
      (List.range n).flatMap (fun k => f ds[k]?) = ds.flatMap fun d => f (some d) := by
  intro ds
  induction ds with
  | nil =>
    intro n _
    simp [h0]
  | cons d ds ih =>
    intro n hn
    rw [List.length_cons] at hn
    obtain ⟨m, rfl⟩ : ∃ m, n = m + 1 := ⟨n - 1, by omega⟩
    rw [List.range_succ_eq_map, List.flatMap_cons, List.flatMap_map, List.flatMap_cons,
      ← ih (Nat.le_of_succ_le_succ hn)]
    rfl

theorem ShowsDnode.dnodeEntries {d : DnodeView} (h : s.ShowsDnode d) : s.dnodeEntries d.page = d.entries := by
  have hidx : pptrDnode.read (s.bytes d.page) .pdnIndex = d.entries.length := h.index
  refine List.ext_getElem ?_ fun i hi hi' => ?_
  · simp [PptrMem.dnodeEntries, hidx]
  · simp only [PptrMem.dnodeEntries, List.getElem_map, List.getElem_range]
    exact h.entry i hi'

theorem Holds.mem_dnodes (_h : s.Holds P l I c) (hJ : J ∈ l ++ [I]) {d : DnodeView} (hd : d ∈ J.dnodes) :
    d ∈ dnodesOf (l ++ [I]) := List.mem_flatMap.mpr ⟨J, hJ, hd⟩

theorem inodeEntries_eq (hcur : ∀ k < pptrInodeEntries, s.pin J.page (.currentMaddr k) = J.current k)
    (hlen : J.dnodes.length ≤ pptrInodeEntries) (hne : ∀ d ∈ J.dnodes, d.page ≠ 0) (hd : ∀ d ∈ J.dnodes, s.ShowsDnode d) :
    s.inodeEntries J.page = J.dnodes.flatMap DnodeView.entries := by
  have hslot : ∀ k < pptrInodeEntries,
      (let dnode := pptrInode.read (s.bytes J.page) (.currentMaddr k)
        if dnode = 0 then [] else s.dnodeEntries dnode) = (J.dnodes[k]?.map DnodeView.entries).getD [] := by
    intro k hk
    have hcur : pptrInode.read (s.bytes J.page) (.currentMaddr k) = J.current k := hcur k hk
    dsimp only
    rw [hcur]
    unfold InodeView.current
    rcases hk : J.dnodes[k]? with _ | d
    · rfl
    · have hd' := List.mem_of_getElem? hk
      rw [Option.map_some, Option.getD_some, if_neg (hne d hd'), (hd d hd').dnodeEntries]
      rfl
  calc s.inodeEntries J.page
      = (List.range pptrInodeEntries).flatMap fun k => (J.dnodes[k]?.map DnodeView.entries).getD [] :=
        List.flatMap_congr fun k hk => hslot k (List.mem_range.mp hk)
    _ = J.dnodes.flatMap DnodeView.entries :=
        flatMap_range_getElem? (f := fun o => (o.map DnodeView.entries).getD []) rfl hlen

theorem Holds.inodeEntries (h : s.Holds P l I c) (hJ : J ∈ l ++ [I]) :
    s.inodeEntries J.page = J.dnodes.flatMap DnodeView.entries :=
  inodeEntries_eq (h.current J hJ) (h.length_le J hJ) (fun _ hd => (h.owned_dnode (h.mem_dnodes hJ hd)).ne)
    fun d hd => h.dnode d (h.mem_dnodes hJ hd)

theorem entriesOf_cons (J : InodeView) (g : List InodeView) :
    entriesOf (J :: g) = J.dnodes.flatMap DnodeView.entries ++ entriesOf g := by
  unfold entriesOf dnodesOf
  rw [List.flatMap_cons, List.flatMap_append]

theorem Chain.walkFrom (h : s.Chain a g) (hne : ∀ J ∈ g, J.page ≠ 0)
    (he : ∀ J ∈ g, s.inodeEntries J.page = J.dnodes.flatMap DnodeView.entries) (hn : g.length < n) :
    s.walkFrom n a = some (entriesOf g) := by
  induction g generalizing a n with
  | nil =>
    obtain ⟨m, rfl⟩ : ∃ m, n = m + 1 := ⟨n - 1, by rw [List.length_nil] at hn; omega⟩
    unfold PptrMem.walkFrom
    rw [if_pos (show a = 0 from h)]
    rfl
  | cons J g ih =>
    rw [List.length_cons] at hn
    obtain ⟨m, rfl⟩ : ∃ m, n = m + 1 := ⟨n - 1, by omega⟩
    obtain ⟨rfl, h⟩ := h
    unfold PptrMem.walkFrom
    rw [if_neg (hne J (by simp)), show pptrInode.read (s.bytes J.page) .pinNextMaddr = s.pin J.page .pinNextMaddr
      from rfl, ih h (fun K hK => hne K (by simp [hK])) (fun K hK => he K (by simp [hK])) (by omega),
      he J (by simp), entriesOf_cons]
    rfl

theorem Holds.length_le_used (h : s.Holds P l I c) : (l ++ [I]).length ≤ s.used.length := by
  have hsub : (l ++ [I]).map InodeView.page ⊆ s.used := fun b hb =>
    (h.owned b (List.mem_append_left _ hb)).used
  have := (List.subperm_of_subset (List.nodup_append.mp h.nodup).1 hsub).length_le
  rwa [List.length_map] at this

theorem Holds.walk (h : s.Holds P l I c) : s.walk = some (entriesOf (l ++ [I])) :=
  h.chain.walkFrom (fun _ hJ => (h.owned_inode hJ).ne) (fun _ hJ => h.inodeEntries hJ)
    (Nat.lt_succ_of_le h.length_le_used)

/-! ## Checkpoints -/

theorem Holds.pptrCpointEntry (h : s.Holds P l I c) (hJ : J ∈ l ++ [I]) (hk : k < pptrInodeEntries) :
    Ends (fun _ => False) (pptrCpointEntry P J.page k) s fun _ t => t.Holds P l I c := by
  have hm := (h.owned_inode hJ).mapped
  unfold LibPM.pptrCpointEntry
  refine (returns_loadPin hm).ends_bind ?_
  by_cases hcur : s.pin J.page (.currentMaddr k) = 0
  · rw [when, if_neg (not_not_intro hcur)]
    exact ends_pure h
  rw [when, if_pos hcur]
  refine (returns_loadPin hm).ends_bind ?_
  -- the snapshot is given back if it is a page of its own; then the slot gets its current dnode
  have hfinal : ∀ (u : PptrMem) v, u.Holds P l I c → u.pin J.page (.currentMaddr k) = s.pin J.page (.currentMaddr k) →
      ((u.setField pptrInode J.page (.snapshotLaddr k) v).setField pptrInode J.page (.snapshotMaddr k)
        (s.pin J.page (.currentMaddr k))).Holds P l I c := by
    intro u v hu hc
    have hsame := hu.same_setLaddr (v := v) hJ (f := .snapshotLaddr k) id
    refine (hu.congr hsame).setSnapshot hJ hk (.inl ?_)
    rw [hsame.pin J hJ (.currentMaddr k) trivial, hc]
  by_cases hsnap : s.pin J.page (.snapshotMaddr k) ≠ 0 ∧
      s.pin J.page (.snapshotMaddr k) ≠ s.pin J.page (.currentMaddr k)
  · rw [when, if_pos hsnap]
    have hu := (h.copy J hJ k hk hsnap).1
    have hfree : Returns (pptrFreepages (s.pin J.page (.snapshotMaddr k))) s ()
        { s with used := s.used.erase (s.pin J.page (.snapshotMaddr k)) } := by
      unfold pptrFreepages
      simp [hu]
    refine hfree.ends_bind ((returns_loadPin hm).ends_bind ((returns_storeField hm).ends_bind
      ((returns_storeField hm).ends ?_)))
    -- the stores and the return of the page commute
    have hlater := hfinal s (s.pin J.page (.currentLaddr k)) h rfl
    refine hlater.erase (h.copy J hJ k hk hsnap).2 fun K hK j hj hc he => ?_
    have hpin : ∀ b (f : PinField), f ≠ .snapshotMaddr k → f ≠ .snapshotLaddr k →
        ((s.setField pptrInode J.page (.snapshotLaddr k) (s.pin J.page (.currentLaddr k))).setField pptrInode J.page
          (.snapshotMaddr k) (s.pin J.page (.currentMaddr k))).pin b f = s.pin b f := by
      intro b f h1 h2
      rw [pin_setField_of_ne h1, pin_setField_of_ne h2]
    unfold Copied at hc
    by_cases hKj : K.page = J.page ∧ j = k
    · obtain ⟨hp, rfl⟩ := hKj
      rw [hp, pin_setField_self (f := .snapshotMaddr j) (pin_lt s J.page (.currentMaddr j)),
        hpin _ _ (by simp) (by simp)] at hc
      exact hc.2 rfl
    · have hother : ((s.setField pptrInode J.page (.snapshotLaddr k) (s.pin J.page (.currentLaddr k))).setField
          pptrInode J.page (.snapshotMaddr k) (s.pin J.page (.currentMaddr k))).pin K.page (.snapshotMaddr j) =
          s.pin K.page (.snapshotMaddr j) := by
        by_cases hp : K.page = J.page
        · exact hpin _ _ (fun e => hKj ⟨hp, PinField.snapshotMaddr.inj e⟩) (by simp)
        · rw [pin_setField_of_ne_page hp, pin_setField_of_ne_page hp]
      rw [hother, hpin _ _ (by simp) (by simp)] at hc
      rw [hother] at he
      exact hKj (h.copy_inj K hK J hJ j hj k hk hc hsnap he)
  · rw [when, if_neg hsnap]
    refine (returns_pure.mpr ⟨rfl, rfl⟩ : Returns (pure ()) s () s).ends_bind ?_
    exact (returns_loadPin hm).ends_bind ((returns_storeField hm).ends_bind
      ((returns_storeField hm).ends (hfinal s _ h rfl)))

theorem Chain.suffix {pre suf : List InodeView} (h : s.Chain a (pre ++ J :: suf)) :
    s.Chain (s.pin J.page .pinNextMaddr) suf := by
  induction pre generalizing a with
  | nil => exact h.2
  | cons K pre ih => exact ih h.2

theorem Holds.pptrCpointFrom : ∀ {suf : List InodeView} (pre : List InodeView) {n a : ℕ} {s : PptrMem}, s.Holds P l I c →
    l ++ [I] = pre ++ suf → s.Chain a suf → suf.length < n →
      Ends (fun _ => False) (pptrCpointFrom P n a) s fun _ t => t.Holds P l I c := by
  intro suf
  induction suf with
  | nil =>
    intro pre n a s h _ ha hn
    obtain ⟨m, rfl⟩ : ∃ m, n = m + 1 := ⟨n - 1, by rw [List.length_nil] at hn; omega⟩
    unfold LibPM.pptrCpointFrom
    rw [if_pos (show a = 0 from ha)]
    exact ends_pure h
  | cons J suf ih =>
    intro pre n a s h hg ha hn
    rw [List.length_cons] at hn
    obtain ⟨m, rfl⟩ : ∃ m, n = m + 1 := ⟨n - 1, by omega⟩
    obtain ⟨rfl, -⟩ := ha
    have hJ : J ∈ l ++ [I] := by rw [hg]; simp
    unfold LibPM.pptrCpointFrom
    rw [if_neg (h.owned_inode hJ).ne]
    have hinner : Ends (fun _ => False) ((List.range pptrInodeEntries).forM (LibPM.pptrCpointEntry P J.page)) s
        fun _ t => t.Holds P l I c :=
      Ends.forM_range (J := fun _ (t : PptrMem) => t.Holds P l I c) h fun k hk t ht => ht.pptrCpointEntry hJ hk
    refine hinner.bind fun _ t ht => ?_
    refine (returns_loadPin (ht.owned_inode hJ).mapped).ends_bind ?_
    have hchain := ht.chain
    rw [hg] at hchain
    exact ih (pre ++ [J]) ht (by rw [hg]; simp) hchain.suffix (by omega)

/-- `pptr_cpoint` ends, and the list is as before. -/
theorem Holds.pptrCpoint (h : s.Holds P l I c) :
    Ends (fun _ => False) (pptrCpoint P) s fun _ t => t.Holds P l I c := by
  unfold LibPM.pptrCpoint
  refine Returns.ends_bind (returns_get.mpr ⟨rfl, rfl⟩) ?_
  exact h.pptrCpointFrom [] rfl h.chain (Nat.lt_succ_of_le h.length_le_used)

/-! ## Appending -/

/-- Between calls: the current index is that of the last dnode. -/
def Steady (P : PageSupply) (s : PptrMem) (ts : List Pptr) : Prop :=
  ∃ l I, s.Holds P l I (I.dnodes.length - 1) ∧ entriesOf (l ++ [I]) = ts

/-- The dnode `d` of the inode `p` is the current one and has room. -/
def Ready (P : PageSupply) (s : PptrMem) (ts : List Pptr) (d p : ℕ) : Prop :=
  ∃ l ds es, s.Holds P l ⟨p, ds ++ [⟨d, es⟩]⟩ ds.length ∧ es.length < pptrDnodeEntries ∧
    entriesOf (l ++ [⟨p, ds ++ [⟨d, es⟩]⟩]) = ts

/-- The last dnode of the last inode is `d`, and has room. -/
def HasRoom (P : PageSupply) (s : PptrMem) (l : List InodeView) (I : InodeView) (d : ℕ) : Prop :=
  ∃ ds es, I.dnodes = ds ++ [⟨d, es⟩] ∧ es.length < pptrDnodeEntries ∧ s.Holds P l I ds.length

theorem HasRoom.ready {d : ℕ} (h : s.HasRoom P l I d) : s.Ready P (entriesOf (l ++ [I])) d I.page := by
  obtain ⟨ds, es, hI, hlt, h⟩ := h
  have hI' : InodeView.mk I.page (ds ++ [⟨d, es⟩]) = I := by rw [← hI]
  refine ⟨l, ds, es, ?_, hlt, ?_⟩
  · rwa [hI']
  · rw [hI']

theorem InodeView.current_ne (h : I.current k ≠ 0) : ∃ d ∈ I.dnodes, I.dnodes[k]? = some d ∧ d.page = I.current k := by
  unfold InodeView.current at h ⊢
  rcases hd : I.dnodes[k]? with _ | d
  · rw [hd] at h
    exact absurd rfl h
  · exact ⟨d, List.mem_of_getElem? hd, rfl, rfl⟩

theorem returns_pptrDnodeIsFull (h : P.mapped a = true) :
    Returns (pptrDnodeIsFull P a) s (s.pdn a .pdnIndex == pptrDnodeEntries) s := by
  unfold pptrDnodeIsFull
  exact (returns_loadPdn h).bind (returns_pure.mpr ⟨rfl, rfl⟩)

/-- The test that `pptr_need_expanding` and `pptr_get_dnode` share. -/
theorem Holds.returns_full (h : s.Holds P l I c) (hk : k < pptrInodeEntries) :
    Returns (if s.pin I.page (.currentMaddr k) ≠ 0 then pptrDnodeIsFull P (s.pin I.page (.currentMaddr k))
      else pure false) s (decide (s.pin I.page (.currentMaddr k) ≠ 0 ∧
        s.pdn (s.pin I.page (.currentMaddr k)) .pdnIndex = pptrDnodeEntries)) s := by
  by_cases h0 : s.pin I.page (.currentMaddr k) = 0
  · rw [if_neg (not_not_intro h0)]
    exact returns_pure.mpr ⟨(decide_eq_false fun hc => hc.1 h0).symm, rfl⟩
  · rw [if_pos h0]
    have hcur := h.current I (by simp) k hk
    obtain ⟨d, hd, -, hp⟩ := InodeView.current_ne (hcur ▸ h0)
    have hm : P.mapped (s.pin I.page (.currentMaddr k)) = true := by
      rw [hcur, ← hp]
      exact (h.owned_dnode (h.mem_dnodes (by simp) hd)).mapped
    have hb : (s.pdn (s.pin I.page (.currentMaddr k)) .pdnIndex == pptrDnodeEntries) =
        decide (s.pin I.page (.currentMaddr k) ≠ 0 ∧
          s.pdn (s.pin I.page (.currentMaddr k)) .pdnIndex = pptrDnodeEntries) := by
      rw [Bool.eq_iff_iff]
      simp [h0]
    rw [← hb]
    exact returns_pptrDnodeIsFull hm

theorem Holds.returns_pptrNeedExpanding (h : s.Holds P l I c) [Decidable s.NeedsExpanding] :
    Returns (pptrNeedExpanding P s.head.lastMaddr) s (decide s.NeedsExpanding) s := by
  have hfull := h.returns_full (k := pptrInodeEntries - 1) (by decide)
  unfold pptrNeedExpanding
  rw [h.last]
  refine (returns_loadPin h.owned_last.mapped).bind ?_
  convert hfull using 2
  unfold NeedsExpanding
  rw [h.last]

/-- A new inode, under a clean page. -/
theorem Holds.pptrExtendList (h : s.Holds P l I c)
    (hn : ∀ n, P.pick s.used s.requests = some n → CleanInode (s.bytes n)) :
    Ends (· = noPage) (pptrExtendList P) s fun n t => t.Holds P (l ++ [I]) ⟨n, []⟩ 0 ∧
      P.pick s.used s.requests = some n ∧ t.used = n :: s.used ∧ t.requests = s.requests + 1 ∧
      ∀ b, b ∉ t.used → t.bytes b = s.bytes b := by
  unfold LibPM.pptrExtendList
  refine Returns.ends_bind (returns_get.mpr ⟨rfl, rfl⟩) ?_
  refine (ends_pptrGetpage (Q := fun n t => P.pick s.used s.requests = some n ∧ t = s.took n)
    fun n hn => ⟨hn, rfl⟩).bind ?_
  rintro n _ ⟨hpick, rfl⟩
  rw [h.last]
  have hm := h.owned_last.mapped
  have htook := h.congr (same_took (a := n))
  have hsame := htook.same_setLaddr (v := P.laddr n) (J := I) (by simp) (f := .pinNextLaddr) id
  have hclean := hn n hpick
  have hne : n ≠ I.page := fun e => (h.spare hpick).notMem (e ▸ h.last_mem)
  have hpin : ∀ f, ((s.took n).setField pptrInode I.page .pinNextLaddr (P.laddr n)).pin n f =
      pptrInode.read (s.bytes n) f := fun f => pin_setField_of_ne_page hne
  refine (returns_storeField hm).ends_bind ((returns_storeField hm).ends_bind ?_)
  refine Returns.ends_bind (a := ()) (returns_store.mpr rfl) (ends_pure ⟨?_, hpick, rfl, rfl, fun b hb => ?_⟩)
  · refine (htook.congr hsame).setNext ((h.spare hpick).congr hsame) ?_ ?_ (fun k hk => ?_) fun k hk => ?_
    · rw [hpin]; exact hclean.1
    · rw [hpin]; exact hclean.2.1
    · rw [hpin]; exact (hclean.2.2 k hk).1
    · rw [hpin]; exact (hclean.2.2 k hk).2
  · have hbI : b ≠ I.page := by
      rintro rfl
      exact hb (List.mem_cons_of_mem n h.owned_last.used)
    exact (bytes_setField_of_ne hbI).trans (bytes_setField_of_ne hbI)

/-- The dnode with room, or the slot that takes a new one. -/
theorem Holds.pptrNextDnode (h : s.Holds P l I (I.dnodes.length - 1))
    (hroom : I.dnodes.length = pptrInodeEntries → ∀ d ∈ I.dnodes.getLast?, d.entries.length ≠ pptrDnodeEntries) :
    Ends (· = noPage) (pptrNextDnode P I.page) s fun d t =>
      (d = 0 ∧ t.Holds P l I I.dnodes.length ∧ I.dnodes.length < pptrInodeEntries ∧ s.NeedsDnode ∧
        t.used = s.used ∧ t.requests = s.requests ∧ ∀ b, b ∉ s.used → t.bytes b = s.bytes b) ∨
      (d ≠ 0 ∧ t.HasRoom P l I d) := by
  have hm := h.owned_last.mapped
  have hlen := h.length_le I (by simp)
  have h127 := pptrInodeEntries_eq
  have hlt : I.dnodes.length - 1 < pptrInodeEntries := by omega
  have hcm : ∀ {u : PptrMem} {k}, u.pin I.page .pinCurrentIdx = k → k < pptrInodeEntries →
      Returns (pptrInodeCmaddr P I.page) u (u.pin I.page (.currentMaddr k)) u := by
    intro u k hk hlt
    unfold pptrInodeCmaddr
    refine (returns_loadPin hm).bind ?_
    rw [hk]
    exact (returns_require.mpr ⟨hlt, rfl⟩).seq (returns_loadPin hm)
  unfold LibPM.pptrNextDnode
  refine (hcm h.index hlt).ends_bind ((h.returns_full hlt).ends_bind ?_)
  have hcur := h.current I (by simp) _ hlt
  have hneeds : s.NeedsDnode ↔ s.pin I.page (.currentMaddr (I.dnodes.length - 1)) = 0 ∨
      s.pdn (s.pin I.page (.currentMaddr (I.dnodes.length - 1))) .pdnIndex = pptrDnodeEntries := by
    unfold NeedsDnode
    rw [h.last, h.index]
  rcases List.eq_nil_or_concat I.dnodes with hnil | ⟨ds, d, hds⟩
  · -- no dnode yet
    have h0 : s.pin I.page (.currentMaddr (I.dnodes.length - 1)) = 0 := by
      rw [hcur]
      simp [InodeView.current, hnil]
    rw [if_neg (by simp [h0])]
    refine ends_pure (.inl ⟨h0, ?_, by rw [hnil]; decide, hneeds.mpr (.inl h0), rfl, rfl, fun _ _ => rfl⟩)
    rwa [hnil] at h ⊢
  · rw [List.concat_eq_append] at hds
    have hlds : I.dnodes.length = ds.length + 1 := by rw [hds, List.length_append, List.length_singleton]
    have hd : d ∈ I.dnodes := by rw [hds]; simp
    have hdm := h.mem_dnodes (by simp) hd
    have hp : s.pin I.page (.currentMaddr (I.dnodes.length - 1)) = d.page := by
      rw [hcur, hlds, Nat.add_sub_cancel]
      simp [InodeView.current, hds]
    have hne := (h.owned_dnode hdm).ne
    have hidx : s.pdn d.page .pdnIndex = d.entries.length := (h.dnode d hdm).index
    rw [hp]
    by_cases hfull : d.entries.length = pptrDnodeEntries
    · -- the dnode is full: the next slot
      have hlt' : ds.length + 1 < pptrInodeEntries := by
        rcases Nat.lt_or_ge (ds.length + 1) pptrInodeEntries with hl | hl
        · exact hl
        · exact absurd hfull (hroom (by omega) d (by rw [hds]; simp))
      have hset := h.setIndex (k := I.dnodes.length) (by omega)
      rw [if_pos (by simp [hne, hidx, hfull])]
      refine (returns_loadPin hm).ends_bind ?_
      rw [h.index, show I.dnodes.length - 1 + 1 = I.dnodes.length by omega]
      refine (returns_storeField hm).ends_bind ((hcm hset.index (by omega)).ends (.inl ?_))
      refine ⟨?_, hset, by omega, hneeds.mpr (.inr (by rw [hp, hidx, hfull])), rfl, rfl, fun b hb => ?_⟩
      · rw [hset.current I (by simp) _ (by omega), InodeView.current_length]
      · exact bytes_setField_of_ne fun e => hb (e ▸ h.owned_last.used)
    · rw [if_neg (by simp [hidx, hfull])]
      refine ends_pure (.inr ⟨hne, ds, d.entries, hds, ?_, ?_⟩)
      · have := (h.dnode d hdm).length_le
        omega
      · rwa [hlds, Nat.add_sub_cancel] at h

/-- The slot after the last dnode takes a new one, under a clean page. -/
theorem Holds.addDnode (h : s.Holds P l I I.dnodes.length) (hlt : I.dnodes.length < pptrInodeEntries)
    (hd : ∀ d, P.pick s.used s.requests = some d → CleanDnode (s.bytes d)) :
    Ends (· = noPage) (do
      let idx ← loadField P pptrInode I.page .pinCurrentIdx
      require (idx < pptrInodeEntries) .outOfBounds
      let dnode ← pptrGetpage P
      storeField P pptrInode I.page (.currentLaddr idx) (P.laddr dnode)
      storeField P pptrInode I.page (.currentMaddr idx) dnode
      return (dnode, I.page)) s fun r t => r.2 = I.page ∧ t.HasRoom P l ⟨I.page, I.dnodes ++ [⟨r.1, []⟩]⟩ r.1 := by
  have hm := h.owned_last.mapped
  refine (returns_loadPin hm).ends_bind ?_
  rw [h.index]
  refine Returns.ends_bind (a := ()) (returns_require.mpr ⟨hlt, rfl⟩) ?_
  refine (ends_pptrGetpage (Q := fun d t => P.pick s.used s.requests = some d ∧ t = s.took d)
    fun d hd => ⟨hd, rfl⟩).bind ?_
  rintro d _ ⟨hpick, rfl⟩
  have htook := h.congr (same_took (a := d))
  have hsame := htook.same_setLaddr (v := P.laddr d) (J := I) (by simp) (f := .currentLaddr I.dnodes.length) id
  have hspare := (h.spare hpick).congr hsame
  have hne : d ≠ I.page := fun e => hspare.notMem (e ▸ h.last_mem)
  refine (returns_storeField hm).ends_bind ((returns_storeField hm).ends_bind (ends_pure ⟨rfl, ?_⟩))
  refine ⟨I.dnodes, [], rfl, by decide, (htook.congr hsame).setCurrent hlt hspare ?_⟩
  show pptrDnode.read _ .pdnIndex = 0
  rw [bytes_setField_of_ne hne]
  exact hd d hpick

theorem entriesOf_addDnode (l : List InodeView) (I : InodeView) (d : ℕ) :
    entriesOf (l ++ [⟨I.page, I.dnodes ++ [⟨d, []⟩]⟩]) = entriesOf (l ++ [I]) := by
  simp [entriesOf, dnodesOf]

theorem entriesOf_addInode (g : List InodeView) (n : ℕ) : entriesOf (g ++ [⟨n, []⟩]) = entriesOf g := by
  unfold entriesOf
  rw [dnodesOf_last, List.append_nil]

/-- A last slot with a full dnode would have led to a new inode. -/
theorem Holds.room_of_not_needsExpanding (h : s.Holds P l I c) (hexp : ¬ s.NeedsExpanding)
    (hlen : I.dnodes.length = pptrInodeEntries) : ∀ d ∈ I.dnodes.getLast?, d.entries.length ≠ pptrDnodeEntries := by
  intro d hd hfull
  refine hexp ?_
  obtain ⟨ds, hds⟩ := List.getLast?_eq_some_iff.mp hd
  have hdm := h.mem_dnodes (by simp) (show d ∈ I.dnodes by rw [hds]; simp)
  have hds' : ds.length = pptrInodeEntries - 1 := by rw [← hlen, hds]; simp
  have hp : s.pin s.head.lastMaddr (.currentMaddr (pptrInodeEntries - 1)) = d.page := by
    rw [h.last, h.current I (by simp) _ (by decide), ← hds']
    simp [InodeView.current, hds]
  unfold NeedsExpanding
  rw [hp, (h.dnode d hdm).index]
  exact ⟨(h.owned_dnode hdm).ne, hfull⟩

/-- `pptr_get_dnode` finds a dnode with room. -/
theorem Steady.pptrGetDnode (h : s.Steady P ts) (hc : s.AppendClean P) :
    Ends (· = noPage) (pptrGetDnode P) s fun r t => t.Ready P ts r.1 r.2 := by
  classical
  obtain ⟨l, I, h, rfl⟩ := h
  unfold LibPM.pptrGetDnode
  refine Returns.ends_bind (returns_get.mpr ⟨rfl, rfl⟩) ?_
  refine h.returns_pptrNeedExpanding.ends_bind ?_
  by_cases hexp : s.NeedsExpanding
  · -- a new inode, then its first dnode
    rw [decide_eq_true hexp, if_pos rfl]
    refine (h.pptrExtendList fun n hn => (hc.1 hexp n hn).1).bind ?_
    rintro n t ⟨ht, hpick, hu, hreq, hb⟩
    have hentries := entriesOf_addInode (l ++ [I]) n
    refine (Holds.pptrNextDnode (I := ⟨n, []⟩) ht fun e => nomatch (e : 0 = 127)).bind ?_
    rintro d u (⟨rfl, hu', hlt, -, hused, hreq', hb'⟩ | ⟨hd0, hready⟩)
    · rw [if_pos rfl]
      refine (hu'.addDnode hlt fun d hd => ?_).mono fun r v hr => ?_
      · rw [hused, hreq', hu, hreq] at hd
        have hdu : d ∉ t.used := by
          rw [hu]
          exact P.pick_notMem _ _ _ hd
        rw [hb' d hdu, hb d hdu]
        exact (hc.1 hexp n hpick).2 d hd
      · rw [hr.1, ← hentries, ← entriesOf_addDnode (l ++ [I]) ⟨n, []⟩ r.1]
        exact hr.2.ready
    · rw [if_neg hd0, ← hentries]
      exact ends_pure hready.ready
  · rw [decide_eq_false hexp, if_neg (by simp)]
    refine (returns_pure.mpr ⟨h.last, rfl⟩ : Returns (pure s.head.lastMaddr) s I.page s).ends_bind ?_
    refine (h.pptrNextDnode (h.room_of_not_needsExpanding hexp)).bind ?_
    rintro d u (⟨rfl, hu', hlt, hneeds, hused, hreq, hb⟩ | ⟨hd0, hready⟩)
    · rw [if_pos rfl]
      refine (hu'.addDnode hlt fun d hd => ?_).mono fun r v hr => ?_
      · rw [hused, hreq] at hd
        rw [hb d (P.pick_notMem _ _ _ hd)]
        exact hc.2 hexp hneeds d hd
      · rw [hr.1, ← entriesOf_addDnode l I r.1]
        exact hr.2.ready
    · rw [if_neg hd0]
      exact ends_pure hready.ready

/-- A snapshot is made, or not; the list is the same. -/
theorem Holds.pptrSnapshotDnode (h : s.Holds P l I c) (hk : k < pptrInodeEntries)
    (hm : P.mapped (s.pin I.page (.currentMaddr k)) = true) :
    Ends (· = noPage) (pptrSnapshotDnode P I.page k) s fun _ t => t.Holds P l I c := by
  have hI := h.owned_last.mapped
  unfold LibPM.pptrSnapshotDnode
  refine Returns.ends_bind (a := ()) (returns_require.mpr ⟨hk, rfl⟩) ?_
  refine (returns_loadPin hI).ends_bind ((returns_loadPin hI).ends_bind ?_)
  by_cases hsnap : s.pin I.page (.currentLaddr k) = s.pin I.page (.snapshotLaddr k) ∧
      s.pin I.page (.snapshotLaddr k) ≠ 0
  · rw [when, if_pos hsnap]
    refine (ends_pptrGetpage (Q := fun a t => P.pick s.used s.requests = some a ∧ t = s.took a)
      fun a ha => ⟨ha, rfl⟩).bind ?_
    rintro a _ ⟨hpick, rfl⟩
    have htook := h.congr (same_took (a := a))
    have hsame := htook.same_setLaddr (v := P.laddr a) (J := I) (by simp) (f := .snapshotLaddr k) id
    have hu := htook.congr hsame
    have hspare := (h.spare hpick).congr hsame
    set u := (s.took a).setField pptrInode I.page (.snapshotLaddr k) (P.laddr a) with hudef
    have hcur : u.pin I.page (.currentMaddr k) = s.pin I.page (.currentMaddr k) :=
      hsame.pin I (by simp) (.currentMaddr k) trivial
    have hcopy := returns_copyPptrPage (s := u) hspare.owned.mapped (show P.mapped (u.pin I.page (.currentMaddr k)) = true by
      rwa [hcur])
    have hfill := hspare.same_fill (copiedBytes (u.bytes a) (u.bytes (u.pin I.page (.currentMaddr k))) pageSize)
    refine (returns_storeField hI).ends_bind ((returns_loadPin hI).ends_bind (hcopy.ends_bind
      ((returns_storeField hI).ends ?_)))
    exact (hu.congr hfill).setSnapshot (by simp) hk (.inr (hspare.congr hfill))
  · rw [when, if_neg hsnap]
    exact ends_pure h

/-- The bytes of a dnode after entry `i` is written and counted. -/
def pushed (b : ℕ → UInt8) (i : ℕ) (t : Pptr) : ℕ → UInt8 :=
  let b := pptrDnode.write b (.plocSeid i) t.plocSeid.toNat
  let b := pptrDnode.write b (.plocOffset i) t.plocOffset.toNat
  let b := pptrDnode.write b (.pvalSeid i) t.pvalSeid.toNat
  let b := pptrDnode.write b (.pvalOffset i) t.pvalOffset.toNat
  pptrDnode.write b .pdnIndex (i + 1)

theorem setField_pushed (s : PptrMem) (d i : ℕ) (t : Pptr) :
    ((((s.setField pptrDnode d (.plocSeid i) t.plocSeid.toNat).setField pptrDnode d (.plocOffset i)
      t.plocOffset.toNat).setField pptrDnode d (.pvalSeid i) t.pvalSeid.toNat).setField pptrDnode d (.pvalOffset i)
        t.pvalOffset.toNat).setField pptrDnode d .pdnIndex (i + 1) =
      { s with bytes := Function.update s.bytes d (pushed (s.bytes d) i t) } := by
  unfold setField pushed
  simp

theorem read_pushed_pdnIndex (b : ℕ → UInt8) {i : ℕ} (t : Pptr) (h : i < pptrDnodeEntries) :
    pptrDnode.read (pushed b i t) .pdnIndex = i + 1 := by
  have h255 := pptrDnodeEntries_eq
  exact pptrDnode.read_write_self (show i + 1 < 256 ^ 4 by omega)

theorem pdnEntry_pushed_self (b : ℕ → UInt8) (i : ℕ) (t : Pptr) : pdnEntry (pushed b i t) i = t := by
  have h32 : ∀ x : UInt32, x.toNat < 256 ^ 4 := fun x => x.toNat_lt
  have h16 : ∀ x : UInt16, x.toNat < 256 ^ 2 := fun x => x.toNat_lt
  have h1 := fun b => pptrDnode.read_write_self (b := b) (f := .plocSeid i) (h32 t.plocSeid)
  have h2 := fun b => pptrDnode.read_write_self (b := b) (f := .plocOffset i) (h16 t.plocOffset)
  have h3 := fun b => pptrDnode.read_write_self (b := b) (f := .pvalSeid i) (h32 t.pvalSeid)
  have h4 := fun b => pptrDnode.read_write_self (b := b) (f := .pvalOffset i) (h16 t.pvalOffset)
  unfold pdnEntry pushed
  simp [Layout.read_write_of_ne, h1, h2, h3, h4]

theorem pdnEntry_pushed_of_ne (b : ℕ → UInt8) {i j : ℕ} (t : Pptr) (h : j ≠ i) :
    pdnEntry (pushed b i t) j = pdnEntry b j := by
  unfold pdnEntry pushed
  simp [Layout.read_write_of_ne, h]

/-- `pptr_append` adds its tuple, or the allocator has no page. -/
theorem Steady.pptrAppend (h : s.Steady P ts) (hc : s.AppendClean P) (t : Pptr) :
    Ends (· = noPage) (pptrAppend P t) s fun _ s' => s'.Steady P (ts ++ [t]) := by
  unfold LibPM.pptrAppend
  refine (h.pptrGetDnode hc).bind ?_
  rintro ⟨d, p⟩ u ⟨l, ds, es, hu, hes, rfl⟩
  have hI : P.mapped p = true := hu.owned_last.mapped
  have hdm : DnodeView.mk d es ∈ dnodesOf (l ++ [⟨p, ds ++ [⟨d, es⟩]⟩]) := by rw [dnodesOf_last]; simp
  have hd : P.mapped d = true := (hu.owned_dnode hdm).mapped
  have hlt : ds.length < pptrInodeEntries := by
    have := hu.length_le ⟨p, ds ++ [⟨d, es⟩]⟩ (by simp)
    simp only [List.length_append, List.length_singleton] at this
    omega
  refine (returns_loadPin hI).ends_bind ?_
  rw [show u.pin p .pinCurrentIdx = ds.length from hu.index]
  have hcur : u.pin p (.currentMaddr ds.length) = d := by
    rw [hu.current ⟨p, ds ++ [⟨d, es⟩]⟩ (by simp) _ hlt, InodeView.current_push, if_pos rfl]
  refine (Holds.pptrSnapshotDnode (I := ⟨p, ds ++ [⟨d, es⟩]⟩) hu hlt (by rw [hcur]; exact hd)).bind ?_
  intro _ v hv
  refine (returns_loadPdn hd).ends_bind ?_
  rw [show v.pdn d .pdnIndex = es.length from (hv.dnode _ hdm).index]
  refine Returns.ends_bind (a := ()) (returns_require.mpr ⟨hes, rfl⟩) ?_
  refine (returns_storeField hd).ends_bind ((returns_storeField hd).ends_bind ((returns_storeField hd).ends_bind
    ((returns_storeField hd).ends_bind ((returns_storeField hd).ends ?_))))
  have hfill := hv.fillDnode (b := pushed (v.bytes d) es.length t) hes (read_pushed_pdnIndex _ t hes)
    (fun i hi => pdnEntry_pushed_of_ne _ t (by omega)) (pdnEntry_pushed_self _ _ t)
  rw [← setField_pushed] at hfill
  refine ⟨l, ⟨p, ds ++ [⟨d, es ++ [t]⟩]⟩, ?_, ?_⟩
  · rwa [List.length_append, List.length_singleton, Nat.add_sub_cancel]
  · simp [entriesOf, dnodesOf]

/-- The memory after `pptr_init`. -/
def initialised (P : PageSupply) (s : PptrMem) (a : ℕ) : PptrMem :=
  PptrMem.setField { bytes := s.bytes, used := a :: s.used, requests := s.requests + 1, head := ⟨a, P.laddr a, a⟩ }
    pptrInode a .pinCurrentIdx 0

theorem ends_pptrInit : Ends (· = noPage) (pptrInit P) s fun _ t =>
    ∃ a, P.pick s.used s.requests = some a ∧ t = s.initialised P a := by
  unfold LibPM.pptrInit
  refine (ends_pptrGetpage (Q := fun a t => P.pick s.used s.requests = some a ∧ t = s.took a)
    fun a ha => ⟨ha, rfl⟩).bind ?_
  rintro a _ ⟨hpick, rfl⟩
  have hm := P.pick_mapped _ _ _ hpick
  exact Returns.ends_bind (a := ()) (returns_store.mpr rfl) (Returns.ends_bind (a := ()) (returns_store.mpr rfl)
    (Returns.ends_bind (a := ()) (returns_store.mpr rfl) ((returns_storeField hm).ends ⟨a, hpick, rfl⟩)))

theorem pin_initialised {f : PinField} (hf : f ≠ .pinCurrentIdx) :
    (s.initialised P a).pin a f = pptrInode.read (s.bytes a) f := pin_setField_of_ne hf

/-- `pptr_init` makes the empty list. -/
theorem holds_initialised (hpick : P.pick s.used s.requests = some a) (hc : ClearLinks (s.bytes a)) :
    (s.initialised P a).Holds P [] ⟨a, []⟩ 0 := by
  obtain ⟨hnext, hlinks⟩ := hc
  have hclear : ∀ k < pptrInodeEntries, ¬ (s.initialised P a).Copied a k := fun k hk hcp =>
    hcp.1 ((pin_initialised (by simp)).trans (hlinks k hk).2)
  refine ⟨⟨rfl, (pin_initialised (by simp)).trans hnext⟩, rfl, fun J hJ k hk => ?_, fun J hJ => ?_,
    fun d hd => ?_, pin_setField_self (by decide), List.nodup_singleton a, fun b hb => ?_, fun J hJ k hk hcp => ?_,
    fun J hJ K _ j hj k _ hcj => ?_⟩
  · obtain rfl := List.mem_singleton.mp hJ
    exact (pin_initialised (by simp)).trans (hlinks k hk).1
  · obtain rfl := List.mem_singleton.mp hJ
    exact Nat.zero_le _
  · exact absurd hd List.not_mem_nil
  · obtain rfl := List.mem_singleton.mp hb
    exact ⟨List.mem_cons_self, P.pick_mapped _ _ _ hpick, P.pick_ne _ _ _ hpick, P.pick_lt _ _ _ hpick⟩
  · obtain rfl := List.mem_singleton.mp hJ
    exact absurd hcp (hclear k hk)
  · obtain rfl := List.mem_singleton.mp hJ
    exact absurd hcj (hclear j hj)

/-- `pptr_init` makes the empty list, or the allocator has no page. -/
theorem steady_pptrInit (hc : s.InitClean P) : Ends (· = noPage) (pptrInit P) s fun _ t => t.Steady P [] := by
  refine ends_pptrInit.mono ?_
  rintro _ _ ⟨a, hpick, rfl⟩
  exact ⟨[], ⟨a, []⟩, holds_initialised hpick (hc a hpick), rfl⟩

/-- Pages that the list does not use. -/
theorem Steady.other (h : s.Steady P ts) {bytes : ℕ → ℕ → UInt8} (hb : ∀ a ∈ s.used, bytes a = s.bytes a) :
    PptrMem.Steady P { s with bytes } ts := by
  obtain ⟨l, I, h, hts⟩ := h
  refine ⟨l, I, h.congr ⟨rfl, fun _ ha => ha, fun J hJ f _ => ?_, fun d hd => hb _ (h.owned_dnode hd).used⟩, hts⟩
  unfold pin
  dsimp only
  rw [hb _ (h.owned_inode hJ).used]

end PptrMem

open PptrMem

theorem PptrRun.steady {P : PageSupply} {s : PptrMem} {ts : List Pptr}
    (h : PptrRun P (InitClean P) (AppendClean P) s ts) : s.Steady P ts := by
  induction h with
  | init hc hr => exact (steady_pptrInit hc).of_returns hr
  | append t _ hc hr ih => exact (ih.pptrAppend hc t).of_returns hr
  | cpoint _ hr ih =>
    obtain ⟨l, I, h, hts⟩ := ih
    exact ⟨l, I, h.pptrCpoint.of_returns hr, hts⟩
  | other bytes _ hb ih => exact ih.other hb

/-- In a run whose new dnodes and inodes are on clean pages, the list is the appended sequence, and the next
call does not stop: an index past its array would stop it. -/
theorem walk_eq_appended {P : PageSupply} {s : PptrMem} {ts : List Pptr}
    (h : PptrRun P (InitClean P) (AppendClean P) s ts) :
    s.walk = some ts ∧ (∀ t e, s.AppendClean P → Stops (pptrAppend P t) s e → e = noPage) ∧
      ∀ e, ¬ Stops (pptrCpoint P) s e := by
  have hs := h.steady
  obtain ⟨l, I, hh, rfl⟩ := h.steady
  exact ⟨hh.walk, fun t e hc he => (hs.pptrAppend hc t).of_stops he, fun e he => hh.pptrCpoint.of_stops he⟩

/-- Pages one after the other, a thousand of them. -/
def pagesInOrder : PageSupply where
  pick used n := if n + 1 ∉ used ∧ n < 1000 then some (n + 1) else none
  laddr a := 4096 * a
  mapped _ := true
  pick_notMem used n a h := by
    split at h
    · next hc => exact Option.some.inj h ▸ hc.1
    · cases h
  pick_ne used n a h := by
    split at h
    · exact Option.some.inj h ▸ Nat.succ_ne_zero n
    · cases h
  pick_lt used n a h := by
    split at h
    · next hc =>
      have := Option.some.inj h
      omega
    · cases h
  pick_mapped _ _ _ _ := rfl

/-- A memory in which the int at the start of page 2 is `v`, and every other byte is 0. -/
def oldPage (v : UInt8) : PptrMem where
  bytes a i := if a = 2 ∧ i = 0 then v else 0
  used := []
  requests := 0
  head := ⟨0, 0, 0⟩

theorem walk_eq_appended_zeroPages :
    ∃ s, PptrRun pagesInOrder (InitClean pagesInOrder) (AppendClean pagesInOrder) s [⟨1, 2, 3, 4⟩, ⟨5, 6, 7, 8⟩] ∧
      s.walk = some [⟨1, 2, 3, 4⟩, ⟨5, 6, 7, 8⟩] := by
  have heval : ((do
      let s ← Prog.get
      require (s.InitClean pagesInOrder) .sigsegv
      pptrInit pagesInOrder
      let s ← Prog.get
      require (s.AppendClean pagesInOrder) .sigsegv
      pptrAppend pagesInOrder ⟨1, 2, 3, 4⟩
      let s ← Prog.get
      require (s.AppendClean pagesInOrder) .sigsegv
      pptrAppend pagesInOrder ⟨5, 6, 7, 8⟩ : PptrProg Unit) (oldPage 0)).value? = some () := by
    decide +kernel
  obtain ⟨s, hs⟩ := exists_returns_of_value heval
  simp only [returns_bind, returns_get, returns_require] at hs
  obtain ⟨_, _, ⟨rfl, rfl⟩, _, _, ⟨hi, rfl⟩, _, _, h1, _, _, ⟨rfl, rfl⟩, _, _, ⟨ha, rfl⟩, _, _, h2, _, _, ⟨rfl, rfl⟩,
    _, _, ⟨hb, rfl⟩, h3⟩ := hs
  have hrun := ((PptrRun.init hi h1).append _ ha h2).append _ hb h3
  exact ⟨s, hrun, (walk_eq_appended hrun).1⟩

/-- With one number left on the page that becomes the first dnode, the list has an entry too many. -/
theorem walk_ne_appended_oldPage :
    ∃ P s ts, PptrRun P (fun _ => True) (fun _ => True) s ts ∧ s.walk ≠ some ts := by
  have heval : ((do
      pptrInit pagesInOrder
      pptrAppend pagesInOrder ⟨1, 2, 3, 4⟩
      let s ← Prog.get
      return s.walk : PptrProg (Option (List Pptr))) (oldPage 1)).value? =
        some (some [⟨0, 0, 0, 0⟩, ⟨1, 2, 3, 4⟩]) := by
    decide +kernel
  obtain ⟨_, hs⟩ := exists_returns_of_value heval
  simp only [returns_bind, returns_get, returns_pure] at hs
  obtain ⟨_, _, h1, _, s, h2, _, _, ⟨rfl, rfl⟩, hw, -⟩ := hs
  refine ⟨pagesInOrder, s, _, (PptrRun.init trivial h1).append ⟨1, 2, 3, 4⟩ trivial h2, ?_⟩
  rw [hw]
  decide

end LibPM

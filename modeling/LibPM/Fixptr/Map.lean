import LibPM.Fixptr.Snapshots

/-!
# pptr_map

A list that was read into a file is mapped again by its offsets. The proofs follow the two loops of `pptr_map`, and the
checkpoint it makes when `type` is `CPOINT_INCOMPLETE`: the first loop links the inodes (`Filed.pptrMapInodes`), the
second maps the dnodes (`Mapping.pptrMapEntriesFrom`). The checkpoint gives back the snapshot pages, but the allocator
of a new process has none of them in use, so it stops at the first (`Settling.pptrCpointEntry`).
-/

namespace LibPM

open Recorded Recorded.Prog LittleEndian

namespace PptrMem

variable {P : PageSupply} {s s₀ t u : PptrMem} {g : List InodeView} {J K : InodeView} {k a n start : ℕ}
  {type : CpointType} {done done' : ℕ → ℕ → Prop}

/-- Each page of the list is where the file has it, and the offsets of the snapshots are within the file. -/
structure Placed (P : PageSupply) (start : ℕ) (s₀ : PptrMem) (g : List InodeView) : Prop where
  addr : ∀ a ∈ pagesOf g, start + P.laddr a = a
  lt : ∀ a ∈ pagesOf g, a < 2 ^ 64
  snapshot : ∀ J ∈ g, ∀ k < pptrInodeEntries, s₀.pin J.page (.snapshotLaddr k) ≠ 0 →
    start + s₀.pin J.page (.snapshotLaddr k) < 2 ^ 64
  pos : 0 < start

theorem Placed.ne (h : Placed P start s₀ g) (ha : a ∈ pagesOf g) : a ≠ 0 := by
  rw [← h.addr a ha]
  have := h.pos
  omega

/-- A slot has a snapshot offset other than that of its dnode. -/
def OwnSlot (s : PptrMem) (p k : ℕ) : Prop :=
  s.pin p (.currentLaddr k) ≠ 0 ∧ s.pin p (.snapshotLaddr k) ≠ 0 ∧ s.pin p (.snapshotLaddr k) ≠ s.pin p (.currentLaddr k)

/-! ## The inodes -/

/-- What the first loop leaves alone. -/
structure SameOffsets (s t : PptrMem) : Prop where
  used : t.used = s.used
  head : t.head = s.head
  laddr : ∀ b k, t.pin b (.snapshotLaddr k) = s.pin b (.snapshotLaddr k)

theorem FileChain.suffix {pre suf : List InodeView} (h : s.FileChain P (pre ++ J :: suf)) :
    s.pin J.page .pinNextLaddr = headLaddr P suf := by
  induction pre with
  | nil => exact h.1
  | cons K pre ih => exact ih h.2

/-- From the inode at `J` on, the first loop links the inodes. -/
theorem Filed.pptrMapInodes (hpl : Placed P start s₀ g) : ∀ {suf : List InodeView} {J : InodeView} (pre : List InodeView)
    {n : ℕ} {s : PptrMem}, s.Filed P g → g = pre ++ J :: suf → suf.length < n →
      Ends (fun _ => False) (pptrMapInodes P start n J.page) s fun _ t => t.Filed P g ∧ t.Chain J.page (J :: suf) ∧
        (∀ K ∈ pre, t.pin K.page .pinNextMaddr = s.pin K.page .pinNextMaddr) ∧ SameOffsets s t := by
  intro suf
  induction suf with
  | nil =>
    intro J pre n s h hg hn
    obtain ⟨m, rfl⟩ : ∃ m, n = m + 1 := ⟨n - 1, by rw [List.length_nil] at hn; omega⟩
    have hJ : J ∈ g := by rw [hg]; simp
    have hlast : s.pin J.page .pinNextMaddr = 0 := h.last J (by rw [hg]; simp)
    have hchain := h.chain
    rw [hg] at hchain
    unfold LibPM.pptrMapInodes
    refine (returns_loadPin (h.mapped _ (mem_pagesOf_inode hJ))).ends_bind ?_
    rw [if_neg (not_not_intro (show s.pin J.page .pinNextLaddr = 0 from hchain.suffix))]
    exact ends_pure ⟨h, ⟨rfl, hlast⟩, fun _ _ => rfl, rfl, rfl, fun _ _ => rfl⟩
  | cons K suf ih =>
    intro J pre n s h hg hn
    rw [List.length_cons] at hn
    obtain ⟨m, rfl⟩ : ∃ m, n = m + 1 := ⟨n - 1, by omega⟩
    have hJ : J ∈ g := by rw [hg]; simp
    have hK : K ∈ g := by rw [hg]; simp
    have hm := h.mapped _ (mem_pagesOf_inode hJ)
    have hnext : s.pin J.page .pinNextLaddr = P.laddr K.page := by
      have hchain := h.chain
      rw [hg] at hchain
      exact hchain.suffix
    have hne : P.laddr K.page ≠ 0 := h.next_ne K (by rw [hg]; cases pre <;> simp)
    have haddr : pptrMappage start (P.laddr K.page) = K.page := hpl.addr _ (mem_pagesOf_inode hK)
    have hlt : K.page < 2 ^ 64 := hpl.lt _ (mem_pagesOf_inode hK)
    have hnodup := (List.nodup_append.mp h.nodup).1
    rw [hg, List.map_append, List.map_cons, List.nodup_append] at hnodup
    have hfree : PinField.Free g J .pinNextMaddr := by
      intro I hI he
      rw [hg, List.getLast?_append, List.getLast?_cons_cons, List.getLast?_eq_some_getLast (List.cons_ne_nil K suf),
        Option.some_or, Option.some.injEq] at hI
      refine (List.nodup_cons.mp hnodup.2.1).1 ?_
      rw [← he, ← hI]
      exact List.mem_map_of_mem (List.getLast_mem _)
    have hpre : ∀ L ∈ pre, L.page ≠ J.page := fun L hL =>
      hnodup.2.2 _ (List.mem_map_of_mem hL) _ List.mem_cons_self
    unfold LibPM.pptrMapInodes
    refine (returns_loadPin hm).ends_bind ?_
    rw [hnext, if_pos hne, haddr]
    refine (returns_storeField hm).ends_bind ?_
    refine (ih (pre ++ [J]) (h.congr (h.same_setPin hJ hfree)) (by rw [hg]; simp) (by omega)).mono ?_
    rintro last t ⟨hf, hchain, hkept, hsame⟩
    refine ⟨hf, ⟨rfl, ?_⟩, fun L hL => ?_, hsame.used, hsame.head, fun b k => ?_⟩
    · rw [hkept J (by simp), pin_setField_self hlt]
      exact hchain
    · rw [hkept L (by simp [hL])]
      exact pin_setField_of_ne_page (hpre L hL)
    · rw [hsame.laddr]
      exact pin_setField_of_ne (by simp)

/-! ## The dnodes -/

/-- During the second loop; `done` are the slots that are mapped. -/
structure Mapping (P : PageSupply) (start : ℕ) (type : CpointType) (s₀ : PptrMem) (g : List InodeView) (s : PptrMem)
    (done : ℕ → ℕ → Prop) : Prop where
  filed : s.Filed P g
  chain : s.Chain s.head.firstMaddr g
  used : s.used = s₀.used
  laddr : ∀ J ∈ g, ∀ k < pptrInodeEntries, s.pin J.page (.snapshotLaddr k) = s₀.pin J.page (.snapshotLaddr k)
  current : ∀ J ∈ g, ∀ k < pptrInodeEntries, done J.page k → s.pin J.page (.currentMaddr k) = J.current k
  snapshot : ∀ J ∈ g, ∀ k < J.dnodes.length, done J.page k → s.pin J.page (.snapshotMaddr k) =
    if type = .incomplete ∧ s₀.pin J.page (.snapshotLaddr k) ≠ 0 then start + s₀.pin J.page (.snapshotLaddr k)
    else J.current k

theorem Mapping.mono (h : Mapping P start type s₀ g s done)
    (hd : ∀ p k, k < pptrInodeEntries → done' p k → done p k) : Mapping P start type s₀ g s done' :=
  ⟨h.filed, h.chain, h.used, h.laddr, fun J hJ k hk hdone => h.current J hJ k hk (hd _ _ hk hdone),
    fun J hJ k hk hdone => h.snapshot J hJ k hk (hd _ _ (Nat.lt_of_lt_of_le hk (h.filed.length_le J hJ)) hdone)⟩

theorem InodeView.current_eq {J : InodeView} {d : DnodeView} (h : J.dnodes[k]? = some d) : J.current k = d.page := by
  unfold InodeView.current
  rw [h]
  rfl

theorem InodeView.current_of_le {J : InodeView} (h : J.dnodes.length ≤ k) : J.current k = 0 := by
  unfold InodeView.current
  rw [List.getElem?_eq_none h]
  rfl

/-- A slot that is not mapped yet. -/
theorem Mapping.setSlot {f : PinField} {v : ℕ} (h : Mapping P start type s₀ g s done) (hJ : J ∈ g)
    (hnd : ¬ done J.page k) (hf : f = .currentMaddr k ∧ k < J.dnodes.length ∨ f = .snapshotMaddr k) :
    Mapping P start type s₀ g (s.setField pptrInode J.page f v) done := by
  have hfree : f.Free g J := by
    rcases hf with ⟨rfl, hlt⟩ | rfl
    · exact hlt
    · trivial
  have hpin : ∀ b (f' : PinField), f' ≠ .currentMaddr k → f' ≠ .snapshotMaddr k →
      (s.setField pptrInode J.page f v).pin b f' = s.pin b f' := by
    intro b f' hc hs
    refine pin_setField_of_ne ?_
    rcases hf with ⟨rfl, -⟩ | rfl
    · exact hc
    · exact hs
  have hother : ∀ K ∈ g, ∀ j (f' : PinField), done K.page j → f' = .currentMaddr j ∨ f' = .snapshotMaddr j →
      (s.setField pptrInode J.page f v).pin K.page f' = s.pin K.page f' := by
    intro K _ j f' hd hf'
    by_cases hp : K.page = J.page
    · have hjk : j ≠ k := by
        rintro rfl
        exact hnd (hp ▸ hd)
      refine hpin _ _ ?_ ?_ <;> rcases hf' with rfl | rfl <;> simp [hjk]
    · exact pin_setField_of_ne_page hp
  refine ⟨h.filed.congr (h.filed.same_setPin hJ hfree), h.chain.congr fun K _ => hpin _ _ (by simp) (by simp), h.used,
    fun K hK j hj => (hpin _ _ (by simp) (by simp)).trans (h.laddr K hK j hj), fun K hK j hj hd => ?_,
    fun K hK j hj hd => ?_⟩
  · rw [hother K hK j _ hd (.inl rfl)]
    exact h.current K hK j hj hd
  · rw [hother K hK j _ hd (.inr rfl)]
    exact h.snapshot K hK j hj hd

/-- A slot that is mapped. -/
theorem Mapping.add (h : Mapping P start type s₀ g s done) (hJ : J ∈ g)
    (hcur : s.pin J.page (.currentMaddr k) = J.current k)
    (hsnap : k < J.dnodes.length → s.pin J.page (.snapshotMaddr k) =
      if type = .incomplete ∧ s₀.pin J.page (.snapshotLaddr k) ≠ 0 then start + s₀.pin J.page (.snapshotLaddr k)
      else J.current k) : Mapping P start type s₀ g s fun p j => done p j ∨ p = J.page ∧ j = k := by
  refine ⟨h.filed, h.chain, h.used, h.laddr, fun K hK j hj hd => ?_, fun K hK j hj hd => ?_⟩
  · rcases hd with hd | ⟨hp, rfl⟩
    · exact h.current K hK j hj hd
    · obtain rfl := h.filed.inode_unique hK hJ hp
      exact hcur
  · rcases hd with hd | ⟨hp, rfl⟩
    · exact h.snapshot K hK j hj hd
    · obtain rfl := h.filed.inode_unique hK hJ hp
      exact hsnap hj

/-- One slot is mapped. -/
theorem Mapping.pptrMapEntry (h : Mapping P start type s₀ g s done) (hpl : Placed P start s₀ g)
    (hJ : J ∈ g) (hk : k < pptrInodeEntries) (hnd : ¬ done J.page k) :
    Ends (fun _ => False) (pptrMapEntry P start type J.page k) s fun _ t =>
      Mapping P start type s₀ g t fun p j => done p j ∨ p = J.page ∧ j = k := by
  have hm := h.filed.mapped _ (mem_pagesOf_inode hJ)
  unfold LibPM.pptrMapEntry
  refine (returns_loadPin hm).ends_bind ?_
  rw [h.filed.slot J hJ k hk]
  -- the dnode first
  have hdnode : Ends (fun _ => False) (when (J.currentLaddr P k ≠ 0) do
      storeField P pptrInode J.page (.currentMaddr k) (pptrMappage start (J.currentLaddr P k))
      let current ← loadField P pptrInode J.page (.currentMaddr k)
      storeField P pptrInode J.page (.snapshotMaddr k) current) s fun _ t => Mapping P start type s₀ g t done ∧
        t.pin J.page (.currentMaddr k) = J.current k ∧
        (k < J.dnodes.length → t.pin J.page (.snapshotMaddr k) = J.current k) := by
    rcases Nat.lt_or_ge k J.dnodes.length with hlt | hge
    · have hd : J.dnodes[k]? = some J.dnodes[k] := List.getElem?_eq_getElem hlt
      have hdm := mem_dnodesOf hJ (List.getElem_mem hlt)
      have hpage := mem_pagesOf_dnode hdm
      have hlt64 : J.dnodes[k].page < 2 ^ 64 := hpl.lt _ hpage
      rw [InodeView.currentLaddr_eq hd, InodeView.current_eq hd, when, if_pos (h.filed.laddr_ne _ hdm),
        show pptrMappage start (P.laddr J.dnodes[k].page) = J.dnodes[k].page from hpl.addr _ hpage]
      have h₁ := h.setSlot (v := J.dnodes[k].page) hJ hnd (.inl ⟨rfl, hlt⟩)
      refine (returns_storeField hm).ends_bind ((returns_loadPin hm).ends_bind ?_)
      rw [pin_setField_self (f := .currentMaddr k) hlt64]
      have h₂ := h₁.setSlot (v := J.dnodes[k].page) hJ hnd (.inr rfl)
      refine (returns_storeField hm).ends ⟨h₂, ?_, fun _ => pin_setField_self hlt64⟩
      rw [pin_setField_of_ne (by simp)]
      exact pin_setField_self hlt64
    · rw [InodeView.currentLaddr_of_le hge, InodeView.current_of_le hge, when, if_neg (not_not_intro rfl)]
      exact ends_pure ⟨h, h.filed.empty J hJ k hk hge, fun hlt => absurd hge (Nat.not_le_of_lt hlt)⟩
  refine hdnode.bind ?_
  rintro _ t ⟨ht, hcur, hsnap⟩
  refine (returns_loadPin hm).ends_bind ?_
  rw [ht.laddr J hJ k hk]
  by_cases hown : type = .incomplete ∧ s₀.pin J.page (.snapshotLaddr k) ≠ 0
  · rw [when, if_pos hown]
    have hlt64 := hpl.snapshot J hJ k hk hown.2
    have h' := ht.setSlot (v := pptrMappage start (s₀.pin J.page (.snapshotLaddr k))) hJ hnd (.inr rfl)
    refine (returns_storeField hm).ends (h'.add hJ ?_ fun _ => ?_)
    · rw [pin_setField_of_ne (by simp), hcur]
    · rw [if_pos hown]
      exact pin_setField_self hlt64
  · rw [when, if_neg hown]
    refine ends_pure (ht.add hJ hcur fun hlt => ?_)
    rw [if_neg hown]
    exact hsnap hlt

/-- The slots of the inodes of `pre` are mapped, those of `suf` are next. -/
theorem Mapping.pptrMapEntriesFrom (hpl : Placed P start s₀ g) : ∀ {suf : List InodeView}
    (pre : List InodeView) {n a : ℕ} {s : PptrMem}, Mapping P start type s₀ g s (fun p _ => ∃ K ∈ pre, K.page = p) →
      g = pre ++ suf → s.Chain a suf → suf.length < n →
      Ends (fun _ => False) (pptrMapEntriesFrom P start type n a) s fun _ t =>
        Mapping P start type s₀ g t fun p _ => ∃ K ∈ g, K.page = p := by
  intro suf
  induction suf with
  | nil =>
    intro pre n a s h hg ha hlen
    obtain ⟨m, rfl⟩ : ∃ m, n = m + 1 := ⟨n - 1, by rw [List.length_nil] at hlen; omega⟩
    unfold LibPM.pptrMapEntriesFrom
    rw [if_pos (show a = 0 from ha)]
    rw [List.append_nil] at hg
    exact ends_pure (hg ▸ h)
  | cons J suf ih =>
    intro pre n a s h hg ha hlen
    rw [List.length_cons] at hlen
    obtain ⟨m, rfl⟩ : ∃ m, n = m + 1 := ⟨n - 1, by omega⟩
    obtain ⟨rfl, -⟩ := ha
    have hJ : J ∈ g := by rw [hg]; simp
    have hnew : ¬ ∃ K ∈ pre, K.page = J.page := by
      rintro ⟨K, hK, hp⟩
      have hnodup := (List.nodup_append.mp h.filed.nodup).1
      rw [hg, List.map_append, List.map_cons, List.nodup_append] at hnodup
      exact hnodup.2.2 _ (List.mem_map_of_mem hK) _ List.mem_cons_self hp
    unfold LibPM.pptrMapEntriesFrom
    rw [if_neg (hpl.ne (mem_pagesOf_inode hJ))]
    have hinner : Ends (fun _ => False) ((List.range pptrInodeEntries).forM (LibPM.pptrMapEntry P start type J.page)) s
        fun _ t => Mapping P start type s₀ g t fun p j => (∃ K ∈ pre, K.page = p) ∨ p = J.page ∧ j < pptrInodeEntries := by
      refine Ends.forM_range (J := fun m (t : PptrMem) => Mapping P start type s₀ g t fun p j =>
        (∃ K ∈ pre, K.page = p) ∨ p = J.page ∧ j < m) (h.mono fun _ _ _ hd => ?_) fun k hk t ht => ?_
      · exact hd.resolve_right fun hd => absurd hd.2 (Nat.not_lt_zero _)
      · have hnd : ¬ ((∃ K ∈ pre, K.page = J.page) ∨ J.page = J.page ∧ k < k) := fun hd =>
          hd.elim hnew fun hd => absurd hd.2 (Nat.lt_irrefl k)
        refine (ht.pptrMapEntry hpl hJ hk hnd).mono fun _ _ hu => hu.mono fun p j _ hd => ?_
        rcases hd with hd | ⟨hp, hj⟩
        · exact .inl (.inl hd)
        · rcases Nat.lt_succ_iff_lt_or_eq.mp hj with hj | hj
          · exact .inl (.inr ⟨hp, hj⟩)
          · exact .inr ⟨hp, hj⟩
    refine hinner.bind fun _ t ht => ?_
    refine (returns_loadPin (ht.filed.mapped _ (mem_pagesOf_inode hJ))).ends_bind ?_
    have hchain := ht.chain
    rw [hg] at hchain
    refine ih (pre ++ [J]) (ht.mono fun p j hj hd => ?_) (by rw [hg]; simp) hchain.suffix (by omega)
    obtain ⟨K, hK, rfl⟩ := hd
    rcases List.mem_append.mp hK with hK | hK
    · exact .inl ⟨K, hK, rfl⟩
    · rw [List.mem_singleton.mp hK]
      exact .inr ⟨rfl, hj⟩

/-! ## The checkpoint of an incomplete one -/

/-- Some slot of the list has a snapshot offset of its own. -/
def OwnSlots (s : PptrMem) (g : List InodeView) : Prop := ∃ J ∈ g, ∃ k < pptrInodeEntries, s.OwnSlot J.page k

/-- During the checkpoint of a new process, which has no page in use; `done` are the slots that were passed. -/
structure Settling (P : PageSupply) (start : ℕ) (s₀ : PptrMem) (g : List InodeView) (s : PptrMem) (done : ℕ → ℕ → Prop) :
    Prop where
  filed : s.Filed P g
  chain : s.Chain s.head.firstMaddr g
  used : s.used = []
  current : ∀ J ∈ g, ∀ k < pptrInodeEntries, s.pin J.page (.currentMaddr k) = J.current k
  snapshot : ∀ J ∈ g, ∀ k < J.dnodes.length, ¬ done J.page k → s.pin J.page (.snapshotMaddr k) =
    if s₀.pin J.page (.snapshotLaddr k) ≠ 0 then start + s₀.pin J.page (.snapshotLaddr k) else J.current k
  clear : ∀ J ∈ g, ∀ k < pptrInodeEntries, done J.page k → ¬ s₀.OwnSlot J.page k

theorem Settling.mono (h : Settling P start s₀ g s done) (hd : ∀ p k, k < pptrInodeEntries → (done p k ↔ done' p k)) :
    Settling P start s₀ g s done' := by
  refine ⟨h.filed, h.chain, h.used, h.current, fun J hJ k hk hdone => ?_, fun J hJ k hk hdone => ?_⟩
  · exact h.snapshot J hJ k hk fun hd' => hdone ((hd _ _ (Nat.lt_of_lt_of_le hk (h.filed.length_le J hJ))).mp hd')
  · exact h.clear J hJ k hk ((hd _ _ hk).mpr hdone)

/-- One slot: it has no snapshot page of its own, or the checkpoint stops. -/
theorem Settling.pptrCpointEntry (h : Settling P start s₀ g s done) (h₀ : s₀.Filed P g) (hpl : Placed P start s₀ g)
    (hJ : J ∈ g) (hk : k < pptrInodeEntries) (hnd : ¬ done J.page k) :
    Ends (fun _ => s₀.OwnSlots g) (pptrCpointEntry P J.page k) s fun _ t =>
      Settling P start s₀ g t fun p j => done p j ∨ p = J.page ∧ j = k := by
  have hm := h.filed.mapped _ (mem_pagesOf_inode hJ)
  have hladdr : s₀.pin J.page (.currentLaddr k) = J.currentLaddr P k := h₀.slot J hJ k hk
  unfold LibPM.pptrCpointEntry
  refine (returns_loadPin hm).ends_bind ?_
  rw [h.current J hJ k hk]
  rcases Nat.lt_or_ge k J.dnodes.length with hlt | hge
  · have hd : J.dnodes[k]? = some J.dnodes[k] := List.getElem?_eq_getElem hlt
    have hdm := mem_dnodesOf hJ (List.getElem_mem hlt)
    have hpage := mem_pagesOf_dnode hdm
    rw [InodeView.current_eq hd, when, if_pos (hpl.ne hpage)]
    refine (returns_loadPin hm).ends_bind ?_
    have hsnap := h.snapshot J hJ k hlt hnd
    rw [InodeView.current_eq hd] at hsnap
    rw [InodeView.currentLaddr_eq hd] at hladdr
    by_cases hfree : s.pin J.page (.snapshotMaddr k) ≠ 0 ∧ s.pin J.page (.snapshotMaddr k) ≠ J.dnodes[k].page
    · -- the page is not in use, so it cannot be given back
      have hown : s₀.OwnSlot J.page k := by
        by_cases h0 : s₀.pin J.page (.snapshotLaddr k) = 0
        · rw [if_neg (not_not_intro h0)] at hsnap
          exact absurd hsnap hfree.2
        · rw [if_pos h0] at hsnap
          refine ⟨?_, h0, fun he => hfree.2 ?_⟩
          · rw [hladdr]
            exact h.filed.laddr_ne _ hdm
          · rw [hsnap, he, hladdr]
            exact hpl.addr _ hpage
      rw [when, if_pos hfree]
      have hstops : Stops (pptrFreepages (s.pin J.page (.snapshotMaddr k))) s (.assertion "page not found!") := by
        have hnot : ¬ s.pin J.page (.snapshotMaddr k) ∈ s.used := by
          rw [h.used]
          exact List.not_mem_nil
        unfold pptrFreepages
        exact (returns_get.mpr ⟨rfl, rfl⟩).stops_bind (Stops.bind (stops_require.mpr ⟨hnot, rfl⟩) _)
      exact .inr ⟨_, hstops.bind _, J, hJ, k, hk, hown⟩
    · -- the snapshot is the dnode itself
      have hclear : ¬ s₀.OwnSlot J.page k := by
        rintro ⟨-, h0, hne⟩
        rw [if_pos h0] at hsnap
        have hpos := hpl.pos
        refine hfree ⟨by rw [hsnap]; omega, fun he => hne ?_⟩
        rw [hladdr]
        have haddr := hpl.addr _ hpage
        omega
      rw [when, if_neg hfree]
      refine (returns_pure.mpr ⟨rfl, rfl⟩ : Returns (pure ()) s () s).ends_bind ?_
      refine (returns_loadPin hm).ends_bind ((returns_storeField hm).ends_bind ((returns_storeField hm).ends ?_))
      have hfiled₁ := h.filed.congr (h.filed.same_setPin (v := s.pin J.page (.currentLaddr k)) hJ (f := .snapshotLaddr k)
        trivial)
      have hfiled₂ := hfiled₁.congr (hfiled₁.same_setPin (v := J.dnodes[k].page) hJ (f := .snapshotMaddr k) trivial)
      have hpin : ∀ b (f : PinField), f ≠ .snapshotLaddr k → f ≠ .snapshotMaddr k →
          ((s.setField pptrInode J.page (.snapshotLaddr k) (s.pin J.page (.currentLaddr k))).setField pptrInode J.page
            (.snapshotMaddr k) J.dnodes[k].page).pin b f = s.pin b f := by
        intro b f h1 h2
        rw [pin_setField_of_ne h2, pin_setField_of_ne h1]
      refine ⟨hfiled₂, h.chain.congr fun K _ => hpin _ _ (by simp) (by simp), h.used, fun K hK j hj => ?_,
        fun K hK j hj hnd' => ?_, fun K hK j hj hd' => ?_⟩
      · rw [hpin _ _ (by simp) (by simp)]
        exact h.current K hK j hj
      · rw [not_or] at hnd'
        rw [← h.snapshot K hK j hj hnd'.1]
        by_cases hp : K.page = J.page
        · exact hpin _ _ (by simp) fun he => hnd'.2 ⟨hp, PinField.snapshotMaddr.inj he⟩
        · rw [pin_setField_of_ne_page hp, pin_setField_of_ne_page hp]
      · rcases hd' with hd' | ⟨hp, rfl⟩
        · exact h.clear K hK j hj hd'
        · rw [hp]
          exact hclear
  · rw [InodeView.current_of_le hge, when, if_neg (not_not_intro rfl)]
    rw [InodeView.currentLaddr_of_le hge] at hladdr
    refine ends_pure ⟨h.filed, h.chain, h.used, h.current, fun K hK j hj hnd' => ?_, fun K hK j hj hd' => ?_⟩
    · exact h.snapshot K hK j hj fun hd' => hnd' (.inl hd')
    · rcases hd' with hd' | ⟨hp, rfl⟩
      · exact h.clear K hK j hj hd'
      · rw [hp]
        exact fun hown => hown.1 hladdr

/-- The slots of the inodes of `pre` were passed, those of `suf` are next. -/
theorem Settling.pptrCpointFrom (h₀ : s₀.Filed P g) (hpl : Placed P start s₀ g) : ∀ {suf : List InodeView}
    (pre : List InodeView) {n a : ℕ} {s : PptrMem}, Settling P start s₀ g s (fun p _ => ∃ K ∈ pre, K.page = p) →
      g = pre ++ suf → s.Chain a suf → suf.length < n →
      Ends (fun _ => s₀.OwnSlots g) (pptrCpointFrom P n a) s fun _ t =>
        Settling P start s₀ g t fun p _ => ∃ K ∈ g, K.page = p := by
  intro suf
  induction suf with
  | nil =>
    intro pre n a s h hg ha hlen
    obtain ⟨m, rfl⟩ : ∃ m, n = m + 1 := ⟨n - 1, by rw [List.length_nil] at hlen; omega⟩
    unfold LibPM.pptrCpointFrom
    rw [if_pos (show a = 0 from ha)]
    rw [List.append_nil] at hg
    exact ends_pure (hg ▸ h)
  | cons J suf ih =>
    intro pre n a s h hg ha hlen
    rw [List.length_cons] at hlen
    obtain ⟨m, rfl⟩ : ∃ m, n = m + 1 := ⟨n - 1, by omega⟩
    obtain ⟨rfl, -⟩ := ha
    have hJ : J ∈ g := by rw [hg]; simp
    have hnew : ¬ ∃ K ∈ pre, K.page = J.page := by
      rintro ⟨K, hK, hp⟩
      have hnodup := (List.nodup_append.mp h.filed.nodup).1
      rw [hg, List.map_append, List.map_cons, List.nodup_append] at hnodup
      exact hnodup.2.2 _ (List.mem_map_of_mem hK) _ List.mem_cons_self hp
    unfold LibPM.pptrCpointFrom
    rw [if_neg (hpl.ne (mem_pagesOf_inode hJ))]
    have hinner : Ends (fun _ => s₀.OwnSlots g) ((List.range pptrInodeEntries).forM (LibPM.pptrCpointEntry P J.page)) s
        fun _ t => Settling P start s₀ g t fun p j => (∃ K ∈ pre, K.page = p) ∨ p = J.page ∧ j < pptrInodeEntries := by
      refine Ends.forM_range (J := fun m (t : PptrMem) => Settling P start s₀ g t fun p j =>
        (∃ K ∈ pre, K.page = p) ∨ p = J.page ∧ j < m) (h.mono fun p j _ => ?_) fun k hk t ht => ?_
      · simp
      · have hnd : ¬ ((∃ K ∈ pre, K.page = J.page) ∨ J.page = J.page ∧ k < k) := fun hd =>
          hd.elim hnew fun hd => absurd hd.2 (Nat.lt_irrefl k)
        refine (ht.pptrCpointEntry h₀ hpl hJ hk hnd).mono fun _ _ hu => hu.mono fun p j _ => ?_
        rw [or_assoc, Nat.lt_succ_iff_lt_or_eq]
        exact or_congr_right (by rw [← and_or_left])
    refine hinner.bind fun _ t ht => ?_
    refine (returns_loadPin (ht.filed.mapped _ (mem_pagesOf_inode hJ))).ends_bind ?_
    have hchain := ht.chain
    rw [hg] at hchain
    refine ih (pre ++ [J]) (ht.mono fun p j hj => ?_) (by rw [hg]; simp) hchain.suffix (by omega)
    constructor
    · rintro (⟨K, hK, rfl⟩ | ⟨rfl, -⟩)
      · exact ⟨K, by simp [hK], rfl⟩
      · exact ⟨J, by simp, rfl⟩
    · rintro ⟨K, hK, rfl⟩
      rcases List.mem_append.mp hK with hK | hK
      · exact .inl ⟨K, hK, rfl⟩
      · rw [List.mem_singleton.mp hK]
        exact .inr ⟨rfl, hj⟩

/-! ## The whole of pptr_map -/

end PptrMem

end LibPM

import LibPM.Memory.CopyOnWrite

/-!
# What a write fault leaves as it is

The handler copies the entry whose data page is at the address of the fault. Of the pages in use it
changes the entry, in the fields of its snapshot, and the vector in the directory; data pages keep their
bytes. This is a property of the pages that the allocator does not hand out (`Pm.Spares`).
-/

namespace LibPM

open Recorded Recorded.Prog

variable {s s' s'' : Pm} {n n' n'' : ℕ} {free free' free'' : List ℕ} {u : Unit}

/-! ## Pages in use -/

/-- The fields of an entry that a snapshot of it leaves. -/
structure SlabEntry.SameData (e e' : SlabEntry) : Prop where
  id : e'.seId = e.seId
  size : e'.seSize = e.seSize
  maddr : e'.dataCurrent.maddr = e.dataCurrent.maddr
  bitmap : e'.dataCurrent.bitmap = e.dataCurrent.bitmap
  link : e'.seList = e.seList

theorem SlabEntry.SameData.refl (e : SlabEntry) : e.SameData e := ⟨rfl, rfl, rfl, rfl, rfl⟩

theorem SlabEntry.SameData.trans {e e' e'' : SlabEntry} (h : e.SameData e') (h' : e'.SameData e'') :
    e.SameData e'' :=
  ⟨h'.id.trans h.id, h'.size.trans h.size, h'.maddr.trans h.maddr, h'.bitmap.trans h.bitmap,
    h'.link.trans h.link⟩

/-- What is left of a page. -/
def Page.Spared : Page → Page → Prop
  | .data b, p' => p' = .data b
  | .container c, p' => p' = .container c
  | .dir d, p' => ∃ d', p' = .dir d' ∧ d'.sdMaddrRoot = d.sdMaddrRoot
  | .bucket b, p' => ∃ b', p' = .bucket b' ∧ ∀ l, (b.sbEntries l).SameData (b'.sbEntries l)
  | _, _ => True

theorem Page.Spared.refl (p : Page) : p.Spared p := by
  cases p with
  | dir d => exact ⟨d, rfl, rfl⟩
  | bucket b => exact ⟨b, rfl, fun _ => .refl _⟩
  | data b => exact (rfl : Page.data b = .data b)
  | container c => exact (rfl : Page.container c = .container c)
  | _ => trivial

theorem Page.Spared.trans {p p' p'' : Page} (h : p.Spared p') (h' : p'.Spared p'') :
    p.Spared p'' := by
  cases p with
  | dir d =>
    obtain ⟨d', rfl, hd⟩ := h
    obtain ⟨d'', rfl, hd'⟩ := h'
    exact ⟨d'', rfl, hd'.trans hd⟩
  | bucket b =>
    obtain ⟨b', rfl, hb⟩ := h
    obtain ⟨b'', rfl, hb'⟩ := h'
    exact ⟨b'', rfl, fun l => (hb l).trans (hb' l)⟩
  | data b =>
    obtain rfl : p' = .data b := h
    exact h'
  | container c =>
    obtain rfl : p' = .container c := h
    exact h'
  | _ => trivial

/-- The pages in use are spared. -/
structure Pm.Spares (s : Pm) (n : ℕ) (free : List ℕ) (s' : Pm) (n' : ℕ) (free' : List ℕ) : Prop where
  space : s'.Space n' free'
  le : n ≤ n'
  start : s'.startAddr = s.startAddr
  containers : s'.containers = s.containers
  used : ∀ i < n, i ∉ free → i ∉ free'
  page : ∀ i < n, i ∉ free → (s.page i).Spared (s'.page i)

namespace Pm.Spares

theorem refl (h : s.Space n free) : s.Spares n free s n free :=
  ⟨h, Nat.le_refl n, rfl, rfl, fun _ _ hi => hi, fun _ _ _ => .refl _⟩

theorem trans (h : s.Spares n free s' n' free') (h' : s'.Spares n' free' s'' n'' free'') :
    s.Spares n free s'' n'' free'' :=
  ⟨h'.space, h.le.trans h'.le, h'.start.trans h.start, h'.containers.trans h.containers,
    fun i hi hf => h'.used i (hi.trans_le h.le) (h.used i hi hf),
    fun i hi hf => (h.page i hi hf).trans (h'.page i (hi.trans_le h.le) (h.used i hi hf))⟩

theorem addr (h : s.Spares n free s' n' free') (i : ℕ) : s'.addr i = s.addr i := by
  unfold Pm.addr
  rw [h.start]

/-- A page that is taken was not in use. -/
theorem took {flags : Prot} {maddr laddr p : ℕ}
    (h : s.Took s' flags maddr laddr p n free n' free') : s.Spares n free s' n' free' := by
  refine ⟨h.space, h.takes.le, h.start, ?_, fun i hi hf => ?_, fun i hi hf => ?_⟩
  · obtain ⟨pa, prot, len, vmap, rfl⟩ := h.same
    rfl
  · rcases h.takes.cases with ⟨-, hfree⟩ | ⟨-, -, hrange⟩
    · exact fun hmem => hf (by rw [hfree]; exact List.mem_cons_of_mem _ hmem)
    · intro hmem
      have : i ∈ List.range' n n := by
        rw [← hrange]
        exact List.mem_cons_of_mem _ hmem
      exact absurd (List.mem_range'_1.mp this).1 (Nat.not_le.mpr hi)
  · have hv := h.vmap i hi
    obtain ⟨pa, prot, len, vmap, rfl⟩ := h.same
    unfold Pm.page
    rw [hv]
    exact .refl _

/-- A store to a page that was not in use. -/
theorem setPage_unused (h : s.Spares n free s' n' free') {q : ℕ} (hq : q < n')
    (hne : ∀ i < n, i ∉ free → i ≠ q) (x : Page) :
    s.Spares n free (s'.setPage (s'.vmap q) x) n' free' := by
  refine ⟨h.space.setPage _ _, h.le, h.start, h.containers, h.used, fun i hi hf => ?_⟩
  rw [h.space.page_setPage hq (hi.trans_le h.le), if_neg (hne i hi hf)]
  exact h.page i hi hf

/-- A store that spares its page. -/
theorem put (h : s.Space n free) {a : ℕ} {g : Page → Option Page}
    (hg : ∀ p p', g p = some p' → p.Spared p') (hr : Returns (putPage a g) s u s') :
    s.Spares n free s' n free := by
  obtain ⟨i, p, hi, -, hp, rfl⟩ := returns_putPage.mp hr
  have hin := (h.exists_of_vpage hi).1
  refine ⟨h.setPage _ _, Nat.le_refl n, rfl, rfl, fun _ _ hf => hf, fun j hj _ => ?_⟩
  rw [h.page_setPage hin hj]
  split_ifs with hji
  · rw [hji]
    exact hg _ _ hp
  · exact .refl _

/-- A page and its bytes, where another protection is set. -/
theorem protect (h : s.Spares n free s' n' free') (prot : ℕ → Prot) :
    s.Spares n free { s' with prot := prot } n' free' :=
  ⟨⟨h.space.serves, h.space.aligned, h.space.inj, h.space.maps⟩, h.le, h.start, h.containers, h.used,
    h.page⟩

theorem page_data (h : s.Spares n free s' n' free') {i : ℕ} (hi : i < n) (hf : i ∉ free)
    {b : ℕ → UInt8} (hb : s.page i = .data b) : s'.page i = .data b := by
  have hp := h.page i hi hf
  rw [hb] at hp
  exact hp

end Pm.Spares

/-! ## Entries in use -/

/-- Entry `r` is `e`, in a bucket that is in use. -/
structure Pm.EntryInUse (s : Pm) (n : ℕ) (free : List ℕ) (r : EntryRef) (e : SlabEntry) : Prop where
  read : s.readEntry r = some e
  bucket : ∀ i < n, r.sb = s.addr i → i ∉ free

theorem Pm.EntryInUse.spares {r : EntryRef} {e : SlabEntry} (hs : s.Space n free)
    (h : s.EntryInUse n free r e) (hsp : s.Spares n free s' n' free') :
    ∃ e', s'.EntryInUse n' free' r e' ∧ e.SameData e' := by
  obtain ⟨hidx, i, hi, haddr, b, hb, rfl⟩ := hs.readEntry_iff.mp h.read
  have hfree := h.bucket i hi haddr
  have hp := hsp.page i hi hfree
  rw [hb] at hp
  obtain ⟨b', hb', hsame⟩ := hp
  have haddr' : r.sb = s'.addr i := haddr.trans (hsp.addr i).symm
  refine ⟨b'.sbEntries r.idx, ⟨hsp.space.readEntry_iff.mpr
    ⟨hidx, i, hi.trans_le hsp.le, haddr', b', hb', rfl⟩, fun j hj hj' => ?_⟩, hsame r.idx⟩
  obtain rfl := Pm.addr_injective (haddr'.symm.trans hj')
  exact hsp.used i hi hfree

/-! ## Stores to pages in use -/

/-- The fields of an entry that say where its objects are. -/
structure SlabEntry.SamePlace (e e' : SlabEntry) : Prop where
  size : e'.seSize = e.seSize
  maddr : e'.dataCurrent.maddr = e.dataCurrent.maddr

/-- What is left of a page after a store: a data page may hold other bytes. -/
def Page.Kept : Page → Page → Prop
  | .data _, p' => ∃ b', p' = .data b'
  | .container c, p' => p' = .container c
  | .dir d, p' => ∃ d', p' = .dir d' ∧ d'.sdMaddrRoot = d.sdMaddrRoot
  | .bucket b, p' => ∃ b', p' = .bucket b' ∧ ∀ l, (b.sbEntries l).SamePlace (b'.sbEntries l)
  | _, _ => True

theorem Page.Spared.kept {p p' : Page} (h : p.Spared p') : p.Kept p' := by
  cases p with
  | data b => exact ⟨b, h⟩
  | bucket b =>
    obtain ⟨b', rfl, hb⟩ := h
    exact ⟨b', rfl, fun l => ⟨(hb l).size, (hb l).maddr⟩⟩
  | _ => exact h

/-- The pages in use are kept. -/
structure Pm.Retains (s : Pm) (n : ℕ) (free : List ℕ) (s' : Pm) (n' : ℕ) (free' : List ℕ) :
    Prop where
  space : s'.Space n' free'
  le : n ≤ n'
  start : s'.startAddr = s.startAddr
  containers : s'.containers = s.containers
  used : ∀ i < n, i ∉ free → i ∉ free'
  page : ∀ i < n, i ∉ free → (s.page i).Kept (s'.page i)

theorem Pm.Spares.retains (h : s.Spares n free s' n' free') : s.Retains n free s' n' free' :=
  ⟨h.space, h.le, h.start, h.containers, h.used, fun i hi hf => (h.page i hi hf).kept⟩

theorem Pm.Retains.addr (h : s.Retains n free s' n' free') (i : ℕ) : s'.addr i = s.addr i := by
  unfold Pm.addr
  rw [h.start]

theorem Pm.Retains.put (h : s.Space n free) {a : ℕ} {g : Page → Option Page}
    (hr : Returns (putPage a g) s u s') (hg : ∀ p p', g p = some p' → p.Kept p') :
    s.Retains n free s' n free := by
  obtain ⟨i, p, hi, -, hp, rfl⟩ := returns_putPage.mp hr
  have hin := (h.exists_of_vpage hi).1
  refine ⟨h.setPage _ _, Nat.le_refl n, rfl, rfl, fun _ _ hf => hf, fun j hj _ => ?_⟩
  rw [h.page_setPage hin hj]
  split_ifs with hji
  · rw [hji]
    exact hg _ _ hp
  · exact (Page.Spared.refl _).kept

theorem Pm.EntryInUse.retains {r : EntryRef} {e : SlabEntry} (hs : s.Space n free)
    (h : s.EntryInUse n free r e) (hsp : s.Retains n free s' n' free') :
    ∃ e', s'.EntryInUse n' free' r e' ∧ e.SamePlace e' := by
  obtain ⟨hidx, i, hi, haddr, b, hb, rfl⟩ := hs.readEntry_iff.mp h.read
  have hfree := h.bucket i hi haddr
  have hp := hsp.page i hi hfree
  rw [hb] at hp
  obtain ⟨b', hb', hsame⟩ := hp
  have haddr' : r.sb = s'.addr i := haddr.trans (hsp.addr i).symm
  refine ⟨b'.sbEntries r.idx, ⟨hsp.space.readEntry_iff.mpr
    ⟨hidx, i, hi.trans_le hsp.le, haddr', b', hb', rfl⟩, fun j hj hj' => ?_⟩, hsame r.idx⟩
  obtain rfl := Pm.addr_injective (haddr'.symm.trans hj')
  exact hsp.used i hi hfree

/-! ## A snapshot of an entry -/

theorem onEntry_spared {i : ℕ} {f : SlabEntry → SlabEntry} (hf : ∀ e : SlabEntry, e.SameData (f e))
    (p p' : Page) (h : Page.onEntry i f p = some p') : p.Spared p' := by
  cases p with
  | bucket b =>
    unfold Page.onEntry at h
    split_ifs at h
    cases h
    refine ⟨_, rfl, fun l => ?_⟩
    by_cases hl : l = i
    · rw [hl]
      dsimp only
      rw [Function.update_self]
      exact hf _
    · dsimp only
      rw [Function.update_of_ne hl]
      exact .refl _
  | _ => cases h

theorem Pm.Spares.putEntry (h : s.Space n free) {r : EntryRef} {f : SlabEntry → SlabEntry}
    (hr : Returns (LibPM.putEntry r f) s u s') (hf : ∀ e : SlabEntry, e.SameData (f e)) :
    s.Spares n free s' n free :=
  .put h (onEntry_spared hf) hr

theorem Pm.Spares.appendDirty (h : s.Space n free) {sd : ℕ} {se : EntryRef}
    (hr : Returns (LibPM.appendDirty sd se) s u s') : s.Spares n free s' n free := by
  refine .put h (fun p p' hp => ?_) (appendDirty_put hr)
  cases p with
  | dir d =>
    cases hp
    exact ⟨_, rfl, rfl⟩
  | _ => cases hp

/-- At most one page is copied. -/
theorem returns_pmemcpyPages_le {dst src k : ℕ} (hk : k ≤ pageSize)
    (hr : Returns (pmemcpyPages dst src k) s u s') :
    s = s' ∨ Returns (copyPage dst src) s () s' := by
  have hcount : roundPg k / pageSize ≤ 1 := by
    unfold roundPg pageSize at *
    omega
  unfold pmemcpyPages at hr
  rcases Nat.le_one_iff_eq_zero_or_eq_one.mp hcount with hc | hc
  · rw [hc, List.range_zero] at hr
    exact .inl (returns_forM_nil.mp hr)
  · rw [hc, List.range_one] at hr
    obtain ⟨_, hcopy, hnil⟩ := returns_forM_cons.mp hr
    obtain rfl := returns_forM_nil.mp hnil
    rw [Nat.zero_mul, Nat.add_zero, Nat.add_zero] at hcopy
    exact .inr hcopy

/-- A page is taken, and filled with a copy of a page. -/
theorem Pm.Spares.copy {flags : Prot} {maddr laddr src k p : ℕ} {t : Pm}
    (ht : s.Took t flags maddr laddr p n free n' free') (hk : k ≤ pageSize)
    (hr : Returns (pmemcpyPages maddr src k) t u s') : s.Spares n free s' n' free' := by
  have hsp := Pm.Spares.took ht
  rcases returns_pmemcpyPages_le hk hr with rfl | hcopy
  · exact hsp
  · obtain ⟨i, x, -, hi, -, rfl⟩ := returns_copyPage.mp hcopy
    rw [ht.maddr, ← hsp.addr, ht.space.vpage ht.takes.lt] at hi
    obtain rfl := Option.some.inj hi
    exact hsp.setPage_unused ht.takes.lt (fun j hj hf => ht.takes.ne hj hf) x

/-! ## The handler -/

/-- A snapshot of an entry in use. -/
theorem Pm.Spares.slabEntrySnapshot {se : EntryRef} {e : SlabEntry} (h : s.Space n free)
    (he : s.EntryInUse n free se e) (hsize : e.seSize ≤ pageSize)
    (hr : Returns (LibPM.slabEntrySnapshot se) s u s') : ∃ n' free', s.Spares n free s' n' free' := by
  unfold LibPM.slabEntrySnapshot at hr
  rw [returns_bind] at hr
  obtain ⟨⟨dataMaddr, dataLaddr⟩, s₁, h₁, hr⟩ := hr
  simp only [returns_bind, returns_loadEntry] at hr
  obtain ⟨e₁, _, ⟨he₁, rfl⟩, _, s₃, h₃, sd, s₄, h₄, _, s₅, h₅, e₅, _, ⟨he₅, rfl⟩, _, s₆, h₆, _, s₇, h₇,
    h₈⟩ := hr
  obtain ⟨p, n₁, free₁, ht⟩ := h.getpage h₁
  obtain ⟨e₁', hu₁, hsame₁⟩ := he.spares h (.took ht)
  obtain rfl := Option.some.inj (hu₁.read.symm.trans he₁)
  have hsp₃ := Pm.Spares.copy ht (hsame₁.size.symm ▸ hsize) h₃
  obtain ⟨-, rfl⟩ := returns_currentSlabMaddr.mp h₄
  have hsp₅ := hsp₃.trans (.appendDirty hsp₃.space h₅)
  obtain ⟨e₅', hu₅, hsame₅⟩ := he.spares h hsp₅
  obtain rfl := Option.some.inj (hu₅.read.symm.trans he₅)
  obtain ⟨n₆, free₆, hsp₆⟩ : ∃ n₆ free₆, s.Spares n free s₆ n₆ free₆ := by
    rcases returns_when.mp h₆ with ⟨-, hptr⟩ | ⟨-, rfl⟩
    · rw [returns_bind] at hptr
      obtain ⟨⟨ptrMaddr, ptrLaddr⟩, t₁, g₁, hptr⟩ := hptr
      simp only [returns_bind, returns_loadEntry] at hptr
      obtain ⟨d₁, _, ⟨hd₁, rfl⟩, _, t₂, g₂, _, t₃, g₃, g₄⟩ := hptr
      obtain ⟨q, m₁, fr₁, hq⟩ := hsp₅.space.getpage g₁
      obtain ⟨d₁', hw₁, hsame⟩ := he.spares h (hsp₅.trans (.took hq))
      obtain rfl := Option.some.inj (hw₁.read.symm.trans hd₁)
      have hsp := hsp₅.trans (.copy hq (hsame.size.symm ▸ hsize) g₂)
      have hsp' := hsp.trans (.putEntry hsp.space g₃ fun _ => ⟨rfl, rfl, rfl, rfl, rfl⟩)
      exact ⟨_, _, hsp'.trans (.putEntry hsp'.space g₄ fun _ => ⟨rfl, rfl, rfl, rfl, rfl⟩)⟩
    · exact ⟨_, _, hsp₅⟩
  have hsp₇ := hsp₆.trans (.putEntry hsp₆.space h₇ fun _ => ⟨rfl, rfl, rfl, rfl, rfl⟩)
  exact ⟨_, _, hsp₇.trans (.putEntry hsp₇.space h₈ fun _ => ⟨rfl, rfl, rfl, rfl, rfl⟩)⟩

/-- A copy of an entry in use, with the mappings exchanged. -/
theorem Pm.Spares.slabEntryCopynswap {se : EntryRef} {e : SlabEntry} (h : s.Space n free)
    (he : s.EntryInUse n free se e) (hsize : e.seSize ≤ pageSize)
    (hr : Returns (LibPM.slabEntryCopynswap se) s u s') : ∃ n' free', s.Spares n free s' n' free' := by
  unfold LibPM.slabEntryCopynswap at hr
  rw [returns_bind] at hr
  obtain ⟨⟨dataMaddr, dataLaddr⟩, s₁, h₁, hr⟩ := hr
  simp only [returns_bind, returns_require, returns_loadEntry] at hr
  obtain ⟨e₁, _, ⟨he₁, rfl⟩, _, s₃, h₃, _, s₄, h₄, _, s₅, h₅, e₅, _, ⟨he₅, rfl⟩, _, s₇, h₇, sd, s₈, h₈,
    _, s₉, h₉, _, _, ⟨-, rfl⟩, -, rfl⟩ := hr
  obtain ⟨p, n₁, free₁, ht⟩ := h.getpage h₁
  obtain ⟨e₁', hu₁, hsame₁⟩ := he.spares h (.took ht)
  obtain rfl := Option.some.inj (hu₁.read.symm.trans he₁)
  have hsp₃ := Pm.Spares.copy ht (hsame₁.size.symm ▸ hsize) h₃
  have hmod : se.sb % pageSize = 0 := by
    obtain ⟨-, b, hb, -⟩ := readEntry_eq_some.mp he.read
    exact (pageAt_eq_some.mp (readBucket_eq_some.mp hb)).1
  have hsp₄ := hsp₃.trans (.putEntry hsp₃.space h₄ fun _ => ⟨rfl, rfl, rfl, rfl, rfl⟩)
  have hsp₅ := hsp₄.trans (.putEntry hsp₄.space h₅ fun _ => ⟨rfl, rfl, rfl, rfl, rfl⟩)
  -- the new page is exchanged with itself
  obtain ⟨e₃, -, hread₄⟩ := hsp₃.space.putEntry h₄ hmod
  obtain ⟨e₄, hread₄', hread₅⟩ := hsp₄.space.putEntry h₅ hmod
  obtain rfl := Option.some.inj (hread₄.symm.trans hread₄')
  obtain rfl := Option.some.inj (hread₅.symm.trans he₅)
  have hpf : p ∉ free₁ := by
    rcases ht.takes.cases with ⟨-, hfree⟩ | ⟨-, -, hrange⟩
    · exact (List.nodup_cons.mp (hfree ▸ h.nodup)).1
    · exact (List.nodup_cons.mp (hrange ▸ List.nodup_range')).1
  have hvmap₅ : s₅.vmap = s₁.vmap := by
    obtain ⟨file, rfl⟩ := (keeps_pmemcpyPages _ _ _ h₃).trans
      ((rewrites_putPage h₄).trans (rewrites_putPage h₅))
    rfl
  dsimp only at h₇
  rw [ht.maddr, ht.laddr, ← hsp₅.addr, ← hvmap₅] at h₇
  obtain ⟨hsp₇, hst₇, hvmap₇, pa, vmap, hs₇⟩ :=
    hsp₅.space.swap ht.takes.lt ht.takes.lt hpf hpf (fun hne => (hne rfl).elim) h₇
  rw [swapVmap_self] at hvmap₇
  have hspared₇ : s₅.Spares n₁ free₁ s₇ n₁ free₁ := by
    refine ⟨hsp₇, Nat.le_refl _, hst₇, by rw [hs₇], fun _ _ hf => hf, fun i _ _ => ?_⟩
    unfold Pm.page
    rw [hvmap₇, hs₇]
    exact .refl _
  obtain ⟨-, rfl⟩ := returns_currentSlabMaddr.mp h₈
  exact ⟨_, _, (hsp₅.trans hspared₇).trans (.appendDirty hsp₇ h₉)⟩

/-! ## A container whose pages are in use -/

/-- The container, the directory and the buckets of the entries in use are in use, and an object is not
larger than a page. -/
structure Pm.Home (s : Pm) (n : ℕ) (free : List ℕ) (cont sd : ℕ) : Prop where
  containers : s.containers = some cont
  container : ∃ i < n, i ∉ free ∧ cont = s.addr i ∧ ∃ c, s.page i = .container c ∧ c.currentSlab.maddr = sd
  dir : ∃ i < n, i ∉ free ∧ sd = s.addr i ∧ ∃ d, s.page i = .dir d ∧
    ∀ r ∈ d.sdMaddrRoot, ∃ e, s.EntryInUse n free r e ∧ e.seSize ≤ pageSize

variable {cont sd a : ℕ}

theorem Pm.Home.retains (hs : s.Space n free) (h : s.Home n free cont sd)
    (hsp : s.Retains n free s' n' free') : s'.Home n' free' cont sd := by
  obtain ⟨i, hi, hif, hcont, c, hc, hsd⟩ := h.container
  obtain ⟨j, hj, hjf, hdir, d, hd, hroot⟩ := h.dir
  have hci := hsp.page i hi hif
  have hdj := hsp.page j hj hjf
  rw [hc] at hci
  rw [hd] at hdj
  obtain ⟨d', hd', hsame⟩ := hdj
  refine ⟨hsp.containers.trans h.containers, ⟨i, hi.trans_le hsp.le, hsp.used i hi hif,
    hcont.trans (hsp.addr i).symm, c, hci, hsd⟩, ⟨j, hj.trans_le hsp.le, hsp.used j hj hjf,
    hdir.trans (hsp.addr j).symm, d', hd', fun r hr => ?_⟩⟩
  rw [hsame] at hr
  obtain ⟨e, he, hle⟩ := hroot r hr
  obtain ⟨e', he', hse⟩ := he.retains hs hsp
  exact ⟨e', he', hse.size.symm ▸ hle⟩

/-- **The write-fault handler spares the pages in use.** -/
theorem Pm.Spares.handleMemoryUpdate (h : s.Space n free) (hh : s.Home n free cont sd)
    (hr : Returns (LibPM.handleMemoryUpdate a) s u s') : ∃ n' free', s.Spares n free s' n' free' := by
  unfold LibPM.handleMemoryUpdate at hr
  simp only [returns_bind, returns_currentSlabMaddr, returns_usedFind] at hr
  obtain ⟨sd', _, ⟨⟨cont', c', hcont', hread, rfl⟩, rfl⟩, o, _, ⟨⟨d', hd', hfind⟩, rfl⟩, hr⟩ := hr
  cases o with
  | none => exact (returns_fail hr).elim
  | some se =>
    dsimp only at hr
    obtain ⟨i, hi, hif, hcont, c, hc, hsd⟩ := hh.container
    obtain ⟨j, hj, hjf, hdir, d, hd, hroot⟩ := hh.dir
    obtain rfl := Option.some.inj (hh.containers.symm.trans hcont')
    rw [hcont, readContainer_eq_some, h.pageAt hi, hc] at hread
    cases hread
    rw [hsd, hdir, readDir_eq_some, h.pageAt hj, hd] at hd'
    cases hd'
    obtain ⟨e, he, hle⟩ := hroot se (findEntry_eq_some_some hfind).1
    simp only [returns_bind] at hr
    obtain ⟨_, s₁, h₁, e₁, s₂, h₂, hr⟩ := hr
    obtain ⟨-, rfl⟩ := returns_loadEntry.mp h₂
    unfold pageAllocatorMprotect at hr
    simp only [returns_bind, returns_get, returns_ofOption, returns_modify] at hr
    obtain ⟨_, _, ⟨rfl, rfl⟩, k, _, ⟨-, rfl⟩, rfl⟩ := hr
    obtain ⟨n', free', hsp⟩ : ∃ n' free', s.Spares n free s₁ n' free' := by
      unfold funcSlabEntrySnapshot at h₁
      rw [returns_bind] at h₁
      obtain ⟨_, _, hget, h₁⟩ := h₁
      obtain ⟨rfl, rfl⟩ := returns_get.mp hget
      split at h₁
      · exact Pm.Spares.slabEntryCopynswap h he hle h₁
      · exact Pm.Spares.slabEntrySnapshot h he hle h₁
    exact ⟨n', free', hsp.protect _⟩

/-- **A page is made writable**: pages in use are spared. -/
theorem Pm.Spares.makeWritable (h : s.Space n free) (hh : s.Home n free cont sd)
    (hr : Returns (LibPM.makeWritable a) s u s') : ∃ n' free', s.Spares n free s' n' free' := by
  obtain ⟨i, -, ⟨-, rfl⟩ | ⟨-, hr⟩⟩ := returns_makeWritable.mp hr
  · exact ⟨n, free, .refl h⟩
  · exact Pm.Spares.handleMemoryUpdate h hh hr

end LibPM

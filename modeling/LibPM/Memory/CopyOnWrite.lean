import LibPM.Allocator.Runs
import LibPM.Session.Basic

/-!
# Copy on write of an entry

What a snapshot of an entry is for: the committed bytes are in the page of the snapshot, a page with
the same bytes is behind the address of the object, and the entry records which is which
(`Pm.CopiesOnWrite`). `slab_entry_snapshot` does this for the fixed mapper. `slab_entry_copynswap`
overwrites `snapshot.maddr` before it hands the address to the allocator, so that the new page is
exchanged with itself (`maps_copynswap`) and the record is wrong in every case.
-/

namespace LibPM

open Recorded Recorded.Prog

variable {s s' : Pm} {n : ℕ} {free : List ℕ} {u : Unit}

/-- The page at the offset `laddr` of the file is mapped at `a`. -/
def Pm.Maps (s : Pm) (a laddr : ℕ) : Prop := ∃ i, s.vpage a = some i ∧ s.vmap i * pageSize = laddr

/-- The entry was committed without a pointer page, and a store to its data page faults. -/
structure Pm.Awaits (s : Pm) (e : SlabEntry) : Prop where
  maddr : e.dataSnapshot.maddr = e.dataCurrent.maddr
  laddr : e.dataSnapshot.laddr = e.dataCurrent.laddr
  ptr : e.ptrSnapshot.maddr = 0
  faults : ∃ i, s.vpage e.dataCurrent.maddr = some i ∧ (s.prot i).write = false

/-- `e'` is the entry `e` of the state `s` after a snapshot that led to `s'`. -/
structure Pm.Copied (s s' : Pm) (e e' : SlabEntry) : Prop where
  current : s'.Maps e'.dataCurrent.maddr e'.dataCurrent.laddr
  snapshot : s'.Maps e'.dataSnapshot.maddr e'.dataSnapshot.laddr
  pages : e'.dataCurrent.laddr ≠ e'.dataSnapshot.laddr
  maddr : e'.dataCurrent.maddr = e.dataCurrent.maddr
  currentBytes : s'.pageAt e'.dataCurrent.maddr = s.pageAt e.dataCurrent.maddr
  snapshotBytes : s'.pageAt e'.dataSnapshot.maddr = s.pageAt e.dataCurrent.maddr
  stores : ∀ (g : Page → Option Page) (t : Pm), Returns (putPage e'.dataCurrent.maddr g) s' () t →
    ∀ k, k * pageSize ≠ e'.dataCurrent.laddr → t.file k = s'.file k

def Pm.CopiesOnWrite (s s' : Pm) (se : EntryRef) : Prop :=
  ∃ e e', s.readEntry se = some e ∧ s'.readEntry se = some e' ∧ s.Copied s' e e'

/-! ## Entries and pages -/

theorem Pm.Space.readEntry_iff (h : s.Space n free) {r : EntryRef} {e : SlabEntry} :
    s.readEntry r = some e ↔ r.idx < slabBucketEntries ∧ ∃ i < n, r.sb = s.addr i ∧
      ∃ b, s.page i = .bucket b ∧ b.sbEntries r.idx = e := by
  rw [readEntry_eq_some]
  refine and_congr_right fun _ => ⟨?_, ?_⟩
  · rintro ⟨b, hb, he⟩
    obtain ⟨hmod, i, hi, hpage⟩ := pageAt_eq_some.mp (readBucket_eq_some.mp hb)
    obtain ⟨hin, haddr⟩ := h.exists_of_vpage hi
    unfold roundDwnPg at haddr
    rw [Nat.div_mul_cancel (Nat.dvd_of_mod_eq_zero hmod)] at haddr
    exact ⟨i, hin, haddr, b, hpage, he⟩
  · rintro ⟨i, hi, haddr, b, hpage, he⟩
    refine ⟨b, readBucket_eq_some.mpr ?_, he⟩
    rw [haddr, h.pageAt hi, hpage]

/-- The entry is where it was when its page holds the same. -/
theorem Pm.Space.readEntry_congr {n' : ℕ} {free' : List ℕ} (h : s.Space n free)
    (h' : s'.Space n' free') (hst : s'.startAddr = s.startAddr) (hn : n ≤ n') {r : EntryRef}
    {e : SlabEntry} (hr : s.readEntry r = some e)
    (hpage : ∀ i < n, ∀ b, r.sb = s.addr i → s.page i = .bucket b → s'.page i = s.page i) :
    s'.readEntry r = some e := by
  obtain ⟨hidx, i, hi, haddr, b, hb, he⟩ := h.readEntry_iff.mp hr
  refine h'.readEntry_iff.mpr ⟨hidx, i, hi.trans_le hn, ?_, b, ?_, he⟩
  · rw [haddr]
    unfold Pm.addr
    rw [hst]
  · rw [hpage i hi b haddr hb, hb]

/-- A store to the file leaves the rest of the state. -/
def Pm.Rewrites (s s' : Pm) : Prop := ∃ file, s' = { s with file := file }

theorem Pm.Rewrites.trans {s'' : Pm} (h : s.Rewrites s') (h' : s'.Rewrites s'') : s.Rewrites s'' := by
  obtain ⟨f, rfl⟩ := h
  obtain ⟨f', rfl⟩ := h'
  exact ⟨f', rfl⟩

theorem Pm.Rewrites.space (h : s.Rewrites s') (hs : s.Space n free) : s'.Space n free := by
  obtain ⟨f, rfl⟩ := h
  exact ⟨hs.serves, hs.aligned, hs.inj, hs.maps⟩

theorem rewrites_putPage {a : ℕ} {g : Page → Option Page} (hr : Returns (putPage a g) s u s') :
    s.Rewrites s' := by
  obtain ⟨i, p, -, -, -, rfl⟩ := returns_putPage.mp hr
  exact ⟨_, rfl⟩

instance : IsTrans Pm Pm.Rewrites := ⟨fun _ _ _ => Pm.Rewrites.trans⟩

instance : Std.Refl Pm.Rewrites := ⟨fun t => ⟨t.file, rfl⟩⟩

theorem keeps_pmemcpyPages (dst src k : ℕ) : Keeps Pm.Rewrites (pmemcpyPages dst src k) := by
  refine Keeps.forM fun i _ t _ t' ht => ?_
  obtain ⟨j, p, -, -, -, rfl⟩ := returns_copyPage.mp ht
  exact ⟨_, rfl⟩

/-- A store changes the page behind its address and no other. -/
theorem Pm.Space.put (h : s.Space n free) {a : ℕ} {g : Page → Option Page}
    (hr : Returns (putPage a g) s u s') : ∃ i < n, ∃ p, s.vpage a = some i ∧
      g (s.page i) = some p ∧ ∀ j < n, s'.page j = if j = i then p else s.page j := by
  obtain ⟨i, p, hi, -, hp, rfl⟩ := returns_putPage.mp hr
  have hin := (h.exists_of_vpage hi).1
  exact ⟨i, hin, p, hi, hp, fun j hj => h.page_setPage hin hj p⟩

/-- A store to an entry. -/
theorem Pm.Space.putEntry (h : s.Space n free) {r : EntryRef} {f : SlabEntry → SlabEntry}
    (hr : Returns (LibPM.putEntry r f) s u s') (hmod : r.sb % pageSize = 0) :
    ∃ e, s.readEntry r = some e ∧ s'.readEntry r = some (f e) := by
  have hrw := rewrites_putPage hr
  obtain ⟨i, hi, p, hv, hp, hpage⟩ := h.put hr
  obtain ⟨-, haddr⟩ := h.exists_of_vpage hv
  unfold roundDwnPg at haddr
  rw [Nat.div_mul_cancel (Nat.dvd_of_mod_eq_zero hmod)] at haddr
  have hst : s'.addr i = s.addr i := by
    obtain ⟨file, rfl⟩ := hrw
    rfl
  cases hb : s.page i with
  | bucket b =>
    rw [hb] at hp
    unfold Page.onEntry at hp
    split_ifs at hp with hidx
    cases hp
    have hnew := hpage i hi
    rw [if_pos rfl] at hnew
    exact ⟨b.sbEntries r.idx, h.readEntry_iff.mpr ⟨hidx, i, hi, haddr, b, hb, rfl⟩,
      (hrw.space h).readEntry_iff.mpr
        ⟨hidx, i, hi, haddr.trans hst.symm, _, hnew, Function.update_self ..⟩⟩
  | _ => rw [hb] at hp; cases hp

/-- A store to a page of another kind leaves the entries. -/
theorem Pm.Space.readEntry_put (h : s.Space n free) {a : ℕ} {g : Page → Option Page}
    (hr : Returns (putPage a g) s u s') (hg : ∀ b, g (.bucket b) = none) {r : EntryRef}
    {e : SlabEntry} (he : s.readEntry r = some e) : s'.readEntry r = some e := by
  have hrw := rewrites_putPage hr
  obtain ⟨i, hi, p, -, hp, hpage⟩ := h.put hr
  refine h.readEntry_congr (hrw.space h) ?_ le_rfl he fun j hj b _ hb => ?_
  · obtain ⟨file, rfl⟩ := hrw
    rfl
  · rw [hpage j hj, if_neg]
    rintro rfl
    rw [hb, hg] at hp
    cases hp

/-- A store to a page of another kind leaves the data pages. -/
theorem Pm.Space.page_put (h : s.Space n free) {a : ℕ} {g : Page → Option Page}
    (hr : Returns (putPage a g) s u s') (hg : ∀ b, g (.data b) = none) {j : ℕ} (hj : j < n)
    {b : ℕ → UInt8} (hb : s.page j = .data b) : s'.page j = .data b := by
  obtain ⟨i, hi, p, -, hp, hpage⟩ := h.put hr
  rw [hpage j hj, if_neg, hb]
  rintro rfl
  rw [hb, hg] at hp
  cases hp

theorem appendDirty_put {sd : ℕ} {se : EntryRef} (hr : Returns (appendDirty sd se) s u s') :
    Returns (putPage sd (Page.onDir fun d =>
      { d with sdVector := d.sdVector.append se, sdVectorHeap := s.heap })) s () s' := by
  unfold appendDirty at hr
  simp only [returns_bind, returns_loadDir, returns_get, returns_require] at hr
  obtain ⟨d, _, ⟨-, rfl⟩, _, _, ⟨rfl, rfl⟩, _, _, ⟨-, rfl⟩, hr⟩ := hr
  exact hr

/-! ## The fixed mapper -/

theorem Pm.Space.vmap_eq_id (h : s.Space n free) (hf : s.IsFixed) : s.vmap = id := by
  have hs := h.serves
  obtain ⟨fm, hpa⟩ := hf
  rw [hpa] at hs
  exact hs.2.2.2

/-- The entry has a data page, which the allocator knows, in a bucket that it knows. -/
structure Pm.Keeping (s : Pm) (n : ℕ) (free : List ℕ) (se : EntryRef) (e : SlabEntry) (q : ℕ)
    (b : ℕ → UInt8) : Prop where
  entry : s.readEntry se = some e
  bucket : ∀ i < n, se.sb = s.addr i → i ∉ free
  lt : q < n
  used : q ∉ free
  maddr : e.dataCurrent.maddr = s.addr q
  laddr : e.dataCurrent.laddr = q * pageSize
  bytes : s.page q = .data b
  size : 0 < e.seSize ∧ e.seSize ≤ pageSize

/-- With the fixed mapper a snapshot of an entry without pointers is a copy on write. -/
theorem copiesOnWrite_snapshot {se : EntryRef} {e : SlabEntry} {q : ℕ} {b : ℕ → UInt8}
    (h : s.Space n free) (hf : s.IsFixed) (hk : s.Keeping n free se e q b)
    (hptr : e.ptrSnapshot.maddr = 0) (hr : Returns (slabEntrySnapshot se) s u s') :
    s.CopiesOnWrite s' se := by
  unfold slabEntrySnapshot at hr
  rw [returns_bind] at hr
  obtain ⟨⟨dataMaddr, dataLaddr⟩, s₁, h₁, hr⟩ := hr
  simp only [returns_bind, returns_loadEntry] at hr
  obtain ⟨e₁, _, ⟨he₁, rfl⟩, _, s₃, h₃, sd, s₄, h₄, _, s₅, h₅, e₅, _, ⟨he₅, rfl⟩, _, s₆, h₆, _, s₇, h₇,
    h₈⟩ := hr
  obtain ⟨p, n', free', ht⟩ := h.getpage h₁
  have hsp₁ := ht.space
  have hid : s₁.vmap = id := hsp₁.vmap_eq_id (ht.prot.kind.mpr hf)
  have hqp : q ≠ p := ht.takes.ne hk.lt hk.used
  have hqn' : q < n' := hk.lt.trans_le ht.takes.le
  have hpage₁ : ∀ i < n, s₁.page i = s.page i := by
    intro i hi
    have hv := ht.vmap i hi
    obtain ⟨pa, prot, len, vmap, rfl⟩ := ht.same
    unfold Pm.page
    rw [hv]
  have hread₁ := h.readEntry_congr hsp₁ ht.start ht.takes.le hk.entry fun i hi _ _ _ => hpage₁ i hi
  obtain rfl := Option.some.inj (hread₁.symm.trans he₁)
  -- the copy
  have hcount : roundPg e.seSize / pageSize = 1 := by
    have := hk.size
    unfold roundPg pageSize at *
    omega
  unfold pmemcpyPages at h₃
  rw [hcount, List.range_one] at h₃
  obtain ⟨_, hcopy, hnil⟩ := returns_forM_cons.mp h₃
  obtain rfl := returns_forM_nil.mp hnil
  obtain ⟨i, x, hx, hi, -, rfl⟩ := returns_copyPage.mp hcopy
  have hmaddr : e.dataCurrent.maddr = s₁.addr q := by
    rw [hk.maddr]
    unfold Pm.addr
    rw [ht.start]
  rw [Nat.zero_mul, Nat.add_zero] at hx hi
  rw [hmaddr, hsp₁.pageAt hqn', hpage₁ q hk.lt, hk.bytes] at hx
  obtain rfl := Option.some.inj hx
  have hdata : dataMaddr = s₁.addr p := by
    rw [ht.maddr]
    unfold Pm.addr
    rw [ht.start]
  rw [hdata, hsp₁.vpage ht.takes.lt] at hi
  obtain rfl := Option.some.inj hi
  have hsp₃ := hsp₁.setPage (s₁.vmap p) (.data b)
  have hp₃ := hsp₁.page_setPage ht.takes.lt ht.takes.lt (.data b)
  have hq₃ := hsp₁.page_setPage ht.takes.lt hqn' (.data b)
  rw [if_pos rfl] at hp₃
  rw [if_neg hqp, hpage₁ q hk.lt, hk.bytes] at hq₃
  have hread₃ : (s₁.setPage (s₁.vmap p) (.data b)).readEntry se = some e := by
    obtain ⟨hidx, i, hi, haddr, bk, hb, hbe⟩ := h.readEntry_iff.mp hk.entry
    have hip := ht.takes.ne hi (hk.bucket i hi haddr)
    refine hsp₃.readEntry_iff.mpr ⟨hidx, i, hi.trans_le ht.takes.le, ?_, bk, ?_, hbe⟩
    · rw [haddr]
      unfold Pm.addr
      rw [← ht.start]
      rfl
    · rw [hsp₁.page_setPage ht.takes.lt (hi.trans_le ht.takes.le), if_neg hip, hpage₁ i hi, hb]
  -- the stores to the directory and to the entry
  obtain ⟨-, rfl⟩ := returns_currentSlabMaddr.mp h₄
  have hput₅ := appendDirty_put h₅
  have hread₅ := hsp₃.readEntry_put hput₅ (fun _ => rfl) hread₃
  have hsp₅ := (rewrites_putPage hput₅).space hsp₃
  obtain rfl := Option.some.inj (hread₅.symm.trans he₅)
  rw [returns_when_false (not_not.mpr hptr)] at h₆
  obtain rfl := h₆
  have hmod : se.sb % pageSize = 0 := by
    obtain ⟨-, _, hb, -⟩ := readEntry_eq_some.mp hk.entry
    exact (pageAt_eq_some.mp (readBucket_eq_some.mp hb)).1
  have hsp₇ := (rewrites_putPage h₇).space hsp₅
  have hsp₈ := (rewrites_putPage h₈).space hsp₇
  obtain ⟨e₇, he₇, hread₇⟩ := hsp₅.putEntry h₇ hmod
  obtain ⟨e₈, he₈, hread₈⟩ := hsp₇.putEntry h₈ hmod
  obtain rfl := Option.some.inj (hread₅.symm.trans he₇)
  obtain rfl := Option.some.inj (hread₇.symm.trans he₈)
  have hdata₈ : ∀ j < n', (s₁.setPage (s₁.vmap p) (.data b)).page j = .data b →
      s'.page j = .data b := fun j hj hb =>
    hsp₇.page_put h₈ (fun _ => rfl) hj (hsp₅.page_put h₇ (fun _ => rfl) hj
      (hsp₃.page_put hput₅ (fun _ => rfl) hj hb))
  obtain ⟨file, hs'⟩ : s₁.Rewrites s' := ((Pm.Rewrites.trans ⟨_, rfl⟩ (rewrites_putPage hput₅)).trans
    (rewrites_putPage h₇)).trans (rewrites_putPage h₈)
  have haddr' : ∀ i, s'.addr i = s₁.addr i := fun i => by rw [hs']; rfl
  have hvmap' : s'.vmap = id := by rw [hs', ← hid]
  have hlin : dataLaddr = p * pageSize := by rw [ht.laddr, hid, id]
  have hqv : s'.vpage e.dataCurrent.maddr = some q := by
    rw [hmaddr, ← haddr', hsp₈.vpage hqn']
  refine ⟨e, _, hk.entry, hread₈, ⟨q, hqv, ?_⟩, ⟨p, ?_, ?_⟩, ?_, rfl, ?_, ?_, fun g t hg k hkq => ?_⟩
  · rw [hvmap', id]
    exact hk.laddr.symm
  · dsimp only
    rw [hdata, ← haddr', hsp₈.vpage ht.takes.lt]
  · rw [hvmap', id]
    exact hlin.symm
  · dsimp only
    rw [hk.laddr, hlin]
    exact fun heq => hqp (Nat.eq_of_mul_eq_mul_right pageSize_pos heq)
  · dsimp only
    rw [hk.maddr, h.pageAt hk.lt, hk.bytes, ← hk.maddr, hmaddr, ← haddr', hsp₈.pageAt hqn',
      hdata₈ q hqn' hq₃]
  · dsimp only
    rw [hk.maddr, h.pageAt hk.lt, hk.bytes, hdata, ← haddr', hsp₈.pageAt ht.takes.lt,
      hdata₈ p ht.takes.lt hp₃]
  · obtain ⟨j, x, hj, -, -, rfl⟩ := returns_putPage.mp hg
    obtain rfl := Option.some.inj (hqv.symm.trans hj)
    refine Function.update_of_ne (fun hkj => hkq ?_) _ _
    rw [hkj, hvmap', id]
    exact hk.laddr.symm

/-! ## The non-linear mapper -/

/-- After `slab_entry_copynswap` the snapshot address maps the page of the current version. -/
theorem maps_copynswap {se : EntryRef} (h : s.Space n free)
    (hr : Returns (slabEntryCopynswap se) s u s') :
    ∃ e', s'.readEntry se = some e' ∧ s'.Maps e'.dataSnapshot.maddr e'.dataCurrent.laddr := by
  unfold slabEntryCopynswap at hr
  rw [returns_bind] at hr
  obtain ⟨⟨dataMaddr, dataLaddr⟩, s₁, h₁, hr⟩ := hr
  simp only [returns_bind, returns_require, returns_loadEntry] at hr
  obtain ⟨e₀, _, ⟨he₀, rfl⟩, _, s₃, h₃, _, s₄, h₄, _, s₅, h₅, e, _, ⟨he, rfl⟩, _, s₇, h₇, sd, s₈, h₈,
    _, s₉, h₉, e', _, ⟨he', rfl⟩, -, rfl⟩ := hr
  obtain ⟨p, n', free', ht⟩ := h.getpage h₁
  have hsp₁ := ht.space
  have hmod : se.sb % pageSize = 0 := by
    obtain ⟨-, b, hb, -⟩ := readEntry_eq_some.mp he₀
    exact (pageAt_eq_some.mp (readBucket_eq_some.mp hb)).1
  have hrw : s₁.Rewrites s₅ :=
    (keeps_pmemcpyPages _ _ _ h₃).trans ((rewrites_putPage h₄).trans (rewrites_putPage h₅))
  have hsp₃ := (keeps_pmemcpyPages _ _ _ h₃).space hsp₁
  have hsp₄ := (rewrites_putPage h₄).space hsp₃
  have hsp₅ := hrw.space hsp₁
  -- the entry, with the address of the new page and its offset
  obtain ⟨e₃, -, hread₄⟩ := hsp₃.putEntry h₄ hmod
  obtain ⟨e₄, hread₄', hread₅⟩ := hsp₄.putEntry h₅ hmod
  obtain rfl := Option.some.inj (hread₄.symm.trans hread₄')
  obtain rfl := Option.some.inj (hread₅.symm.trans he)
  -- the new page is exchanged with itself
  have hpf : p ∉ free' := by
    rcases ht.takes.cases with ⟨-, hfree⟩ | ⟨-, -, hrange⟩
    · exact (List.nodup_cons.mp (hfree ▸ h.nodup)).1
    · exact (List.nodup_cons.mp (hrange ▸ List.nodup_range')).1
  obtain ⟨hvmap₅, haddr₅⟩ : s₅.vmap = s₁.vmap ∧ s₅.addr p = s.addr p := by
    have hst := ht.start
    obtain ⟨file, rfl⟩ := hrw
    unfold Pm.addr
    exact ⟨rfl, congrArg (· + p * pageSize) hst⟩
  dsimp only at h₇
  rw [ht.maddr, ht.laddr, ← haddr₅, ← hvmap₅] at h₇
  obtain ⟨hsp₇, hst₇, hvmap₇, pa, vmap, hsame⟩ :=
    hsp₅.swap ht.takes.lt ht.takes.lt hpf hpf (fun hne => (hne rfl).elim) h₇
  rw [swapVmap_self] at hvmap₇
  have hread₇ := hsp₅.readEntry_congr hsp₇ hst₇ le_rfl hread₅ fun i _ _ _ _ => by
    unfold Pm.page
    rw [hvmap₇, hsame]
  obtain ⟨-, rfl⟩ := returns_currentSlabMaddr.mp h₈
  have hread₉ := hsp₇.readEntry_put (appendDirty_put h₉) (fun _ => rfl) hread₇
  have hrw₉ := rewrites_putPage (appendDirty_put h₉)
  have hsp₉ := hrw₉.space hsp₇
  obtain ⟨haddr₉, hvmap₉⟩ : s₉.addr p = s.addr p ∧ s₉.vmap = s₁.vmap := by
    obtain ⟨file, rfl⟩ := hrw₉
    refine ⟨?_, hvmap₇.trans hvmap₅⟩
    unfold Pm.addr at haddr₅ ⊢
    rw [← haddr₅]
    exact congrArg (· + p * pageSize) hst₇
  refine ⟨_, hread₉, p, ?_, ?_⟩
  · dsimp only
    rw [ht.maddr, ← haddr₉]
    exact hsp₉.vpage ht.takes.lt
  · dsimp only
    rw [ht.laddr, hvmap₉]

theorem not_copiesOnWrite_of_maps {se : EntryRef} {e : SlabEntry} (he : s'.readEntry se = some e)
    (hm : s'.Maps e.dataSnapshot.maddr e.dataCurrent.laddr) : ¬ s.CopiesOnWrite s' se := by
  rintro ⟨_, e', -, he', hc⟩
  obtain rfl := Option.some.inj (he.symm.trans he')
  obtain ⟨i, hi, hladdr⟩ := hm
  obtain ⟨j, hj, hladdr'⟩ := hc.snapshot
  obtain rfl := Option.some.inj (hi.symm.trans hj)
  exact hc.pages (hladdr.symm.trans hladdr')

/-- **Copy and swap is no copy on write.** Whatever the permutation of the mappings, the two versions
of the entry are not where its record says. -/
theorem not_copiesOnWrite_copynswap {se : EntryRef} (h : s.Space n free)
    (hr : Returns (slabEntryCopynswap se) s u s') : ¬ s.CopiesOnWrite s' se := by
  obtain ⟨e, he, hm⟩ := maps_copynswap h hr
  exact not_copiesOnWrite_of_maps he hm

/-- A container with one committed entry. -/
def oneEntry (s : Pm) : Pm := { s with
  containers := some (2 ^ 40)
  file := fun i =>
    let dir : Slot := ⟨2 ^ 40 + pageSize, pageSize⟩
    let data : DataVersion := ⟨2 ^ 40 + 3 * pageSize, 3 * pageSize, 1⟩
    let entry := { SlabEntry.zero with seSize := 512, dataCurrent := data, dataSnapshot := data }
    match i with
    | 0 => .container ⟨0, dir, dir, 0⟩
    | 1 => .dir (dirOfBytes fun _ => 0)
    | 2 => .bucket { bucketOfBytes (fun _ => 0) with sbEntries := fun _ => entry }
    | _ => Page.zero }

/-- Four pages are taken, one for each page of the container, and the entry is snapshotted. -/
def snapshotsOneEntry (kind : MapperKind) (size : ℕ) : PmProg Unit := do
  pageAllocatorInit kind size
  let _ ← pageAllocatorGetpage paProtWrite
  let _ ← pageAllocatorGetpage paProtWrite
  let _ ← pageAllocatorGetpage paProtWrite
  let _ ← pageAllocatorGetpage paProtRead
  modify oneEntry
  slabEntryCopynswap ⟨2 ^ 40 + 2 * pageSize, 0⟩

/-- With one entry. -/
theorem not_copiesOnWrite_copynswap_oneEntry : ∃ s s' : Pm, ∃ n free,
    s.Space n free ∧ ¬ s.CopiesOnWrite s' ⟨2 ^ 40 + 2 * pageSize, 0⟩ := by
  have hrun : (snapshotsOneEntry .nonlinearMapper (Env.standard .nonlinearMapper).initSize
      (Machine.fresh (Env.standard .nonlinearMapper)).pm).value? = some () := by
    decide +kernel
  obtain ⟨t, h⟩ := exists_returns_of_value hrun
  unfold snapshotsOneEntry at h
  simp only [returns_bind, returns_modify] at h
  obtain ⟨_, s₀, h₀, ⟨x, _⟩, s₁, h₁, ⟨y, _⟩, s₂, h₂, ⟨z, _⟩, s₃, h₃, ⟨w, _⟩, s₄, h₄, _, _, rfl, h⟩ := h
  have hrun := (((((@AllocatorRun.init (Env.standard .nonlinearMapper) s₀ h₀).alloc h₁).alloc h₂).alloc
    h₃).alloc h₄)
  obtain ⟨n, free, pages, ht, -⟩ := hrun.tracks
  have hsp : (oneEntry s₄).Space n free :=
    ⟨ht.space.serves, ht.space.aligned, ht.space.inj, ht.space.maps⟩
  exact ⟨oneEntry s₄, t, n, free, hsp, not_copiesOnWrite_copynswap hsp h⟩

/-- The entry of the first object of a container. -/
def firstEntry : EntryRef := ⟨2 ^ 40 + 4 * pageSize, 0⟩

/-- A session with one object and a stored byte, a checkpoint and the snapshot of the entry: whether
the entry waited for it, and whether the address of the snapshot maps the current version after it. -/
def sessionCopynswap (env : Env) : MachineProg (Bool × Bool) := do
  let _ ← containerInit env
  [Action.palloc 512, .store (2 ^ 40 + 6 * pageSize) 7, .cpoint].forM Action.run
  let e ← onPm (loadEntry firstEntry)
  let m ← get
  onPm (slabEntryCopynswap firstEntry)
  let e' ← onPm (loadEntry firstEntry)
  let m' ← get
  return (decide (e.dataSnapshot.maddr = e.dataCurrent.maddr ∧
      e.dataSnapshot.laddr = e.dataCurrent.laddr ∧ e.ptrSnapshot.maddr = 0 ∧
      ((m.pm.vpage e.dataCurrent.maddr).map fun i => (m.pm.prot i).write) = some false),
    decide (((m'.pm.vpage e'.dataSnapshot.maddr).map fun i => m'.pm.vmap i * pageSize) =
      some e'.dataCurrent.laddr))

/-- The promise is broken for the first object after its first checkpoint. -/
theorem not_forall_copiesOnWrite : ∃ saved m e t,
    Session anyAction (Env.standard .nonlinearMapper) saved m ∧
      m.pm.readEntry firstEntry = some e ∧ m.pm.Awaits e ∧
      Returns (slabEntryCopynswap firstEntry) m.pm () t ∧ ¬ m.pm.CopiesOnWrite t firstEntry := by
  have hrun : (sessionCopynswap (Env.standard .nonlinearMapper)
      (Machine.fresh (Env.standard .nonlinearMapper))).value? = some (true, true) := by
    decide +kernel
  obtain ⟨t, h⟩ := exists_returns_of_value hrun
  unfold sessionCopynswap onPm at h
  simp only [returns_bind, returns_get, returns_pure, Prod.mk.injEq, decide_eq_true_iff,
    returns_zoom, returns_loadEntry, Option.map_eq_some_iff] at h
  obtain ⟨cont, m₀, hinit, _, m₁, hacts, e, _, ⟨_, ⟨he, rfl⟩, rfl⟩, _, _, ⟨rfl, rfl⟩, _, _,
    ⟨t, hsnap, rfl⟩, e', _, ⟨_, ⟨he', rfl⟩, rfl⟩, _, _, ⟨rfl, rfl⟩, ⟨⟨hm, hl, hptr, hfault⟩, hmaps⟩, -⟩ := h
  obtain ⟨saved, hs⟩ := (Session.init hinit).forM hacts
  exact ⟨saved, m₁, e, t, hs, he, ⟨hm, hl, hptr, hfault⟩, hsnap, not_copiesOnWrite_of_maps he' hmaps⟩

end LibPM

import LibPM.Session.Evolution

/-!
# Pages handed out and given back

A page the allocator hands out counts as lost until an entry or a node holds it. `Holds` survives both
requests: the fixed mapper may protect every page again when it grows, but it remembers which pages were
writable.
-/

namespace LibPM

open Recorded Recorded.Prog

/-- The view once the mapping has `n` pages, of which `free` are free. -/
def View.sized (v : View) (n : ℕ) (free : List ℕ) : View := { v with n := n, free := free }

namespace View

variable {v : View} {n : ℕ} {free : List ℕ}

theorem Linked.sized (h : v.Linked) (n : ℕ) (free : List ℕ) : (v.sized n free).Linked :=
  ⟨h.current, h.committed, h.sdIndex, h.sdCurrent, h.sdOther, h.sdSnapshot, h.sdSame, h.soIndex,
    h.inners, h.soCurrent, h.soSnapshot, h.soSame, h.linked, h.buckets, h.siIndex, h.siCurrent,
    h.siSnapshot, h.siOther, h.sbId⟩

theorem Ok.sized (h : v.Ok) (n : ℕ) (free : List ℕ) : (v.sized n free).Ok :=
  ⟨h.used, h.taken, h.root, h.entry, h.seId, h.blank, h.first, h.last, h.size, h.vector⟩

theorem Paired.sized (h : v.Paired) (n : ℕ) (free : List ℕ) : (v.sized n free).Paired :=
  ⟨h.cont, h.sdCurrent, h.sdSnapshot, h.soCurrent, h.soSnapshot, h.siCurrent, h.siSnapshot, h.entry⟩

end View

theorem TakesPage.mem_free {p n n' q : ℕ} {free free' : List ℕ} (h : TakesPage p n free n' free')
    (hq : q ∈ free') : q ∈ free ∨ n ≤ q := by
  rcases h.cases with ⟨-, hfree⟩ | ⟨-, -, hrange⟩
  · left
    rw [hfree]
    exact List.mem_cons_of_mem p hq
  · right
    have hmem : q ∈ List.range' n n := by
      rw [← hrange]
      exact List.mem_cons_of_mem p hq
    exact (List.mem_range'_1.mp hmem).1

theorem TakesPage.lt_of_nil {p n n' : ℕ} {free free' : List ℕ} (h : TakesPage p n free n' free')
    (hn : 0 < n) (hf : free = []) : n < n' := by
  rcases h.cases with ⟨-, hfree⟩ | ⟨hn', -⟩
  · rw [hf] at hfree
    cases hfree
  · omega

/-- The mapper is about to protect every page again. -/
theorem Pm.Space.nil_of_reprotects {s : Pm} {n : ℕ} {free : List ℕ} (h : s.Space n free)
    (hre : s.Reprotects) : free = [] := by
  obtain ⟨fm, hfm, h0⟩ := hre
  have hs := h.serves
  rw [hfm] at hs
  obtain ⟨hg, -, rfl, -⟩ := hs
  rw [hg.freeSize] at h0
  exact List.eq_nil_of_length_eq_zero h0

namespace Pm

variable {s s' : Pm} {v : View} {lost : Multiset ℕ} {flags : Prot} {maddr laddr p q n' : ℕ}
  {free' : List ℕ}

theorem Shows.vmap_of_isFixed (h : s.Shows v) (hf : s.IsFixed) : s.vmap = id := by
  obtain ⟨fm, hfm⟩ := hf
  have hs := h.space.serves
  rw [hfm] at hs
  exact hs.2.2.2

theorem Took.shows (ht : s.Took s' flags maddr laddr p v.n v.free n' free') (h : s.Shows v) :
    s'.Shows (v.sized n' free') := by
  obtain ⟨pa, prot, len, vmap, hs'⟩ := ht.same
  have hfile : s'.file = s.file := by rw [hs']
  refine ⟨ht.space, ht.start.trans h.start, ?_, fun x hx => ?_, ?_,
    ⟨fun x hx => (h.wf.lt x hx).trans_le ht.takes.le, h.wf.inj⟩⟩
  · rw [hs']
    exact h.containers
  · have hp := h.page x hx
    unfold Pm.page at hp ⊢
    rw [hfile, show (v.sized n' free').pageOf x = v.pageOf x from rfl,
      ht.vmap _ (h.wf.lt x hx), hp]
    rfl
  · rw [hs']
    exact h.sizes

/-- The pages of the file behind the mapping stay. -/
theorem Took.filePage (ht : s.Took s' flags maddr laddr p v.n v.free n' free') (q : ℕ) :
    s'.filePage n' q = s.filePage v.n q := by
  have hle := ht.takes.le
  unfold Pm.filePage
  by_cases hq : q < v.n
  · rw [if_pos (hq.trans_le hle), if_pos hq, ht.vmap q hq]
  · rw [if_neg hq]
    split_ifs with hq'
    · exact ht.fresh q (Nat.not_lt.mp hq) hq'
    · rfl

/-- The page comes with the bytes it had. -/
theorem Took.bytes (ht : s.Took s' flags maddr laddr p v.n v.free n' free') :
    s'.bytesOf (s'.page p) = s.restBytes v.n p := by
  have hvmap : s'.vmap p = s.filePage v.n p := by
    rw [← ht.filePage]
    exact (if_pos ht.takes.lt).symm
  obtain ⟨pa, prot, len, vmap, hs'⟩ := ht.same
  unfold Pm.restBytes Pm.page
  rw [hvmap, hs']
  rfl

namespace Took

variable (ht : s.Took s' flags maddr laddr p v.n v.free n' free') (h : s.Holds v lost)

include ht h

theorem ne_of_meta (hq : v.IsMeta q) : q < v.n ∧ q ≠ p := by
  obtain ⟨x, hx, rfl⟩ := hq
  have hlt := h.shows.wf.lt x hx
  exact ⟨hlt, ht.takes.ne hlt fun hf => h.balanced.free_notMeta hf ⟨x, hx, rfl⟩⟩

theorem ne_of_data (hq : v.IsData q) : q < v.n ∧ q ≠ p := by
  obtain ⟨hlt, hfree, -⟩ := h.ok.isData_facts h.linked h.balanced hq
  exact ⟨hlt, ht.takes.ne hlt hfree⟩

/-- The mapper kept or restored the protection of a page other than a data page. -/
theorem write_iff (hq : q < v.n) (hqp : q ≠ p) (hd : ¬ v.IsData q) :
    (s'.prot q).write = true ↔ (s.prot q).write = true := by
  rcases ht.prot.old q hq hqp with heq | ⟨hre, hiff⟩
  · rw [heq]
  · obtain ⟨fm, hfm, -⟩ := hre
    exact hiff.trans (h.guarded.synced q hq hd ⟨fm, hfm⟩).symm

/-- A page can only lose its write permission. -/
theorem write_of (hq : q < v.n) (hqp : q ≠ p) (hw : (s'.prot q).write = true) :
    (s.prot q).write = true := by
  by_cases hd : v.IsData q
  · rcases ht.prot.old q hq hqp with heq | ⟨-, hiff⟩
    · rwa [heq] at hw
    · exact (h.guarded.data q hd (hiff.mp hw)).elim
  · exact (ht.write_iff h hq hqp hd).mp hw

theorem metadata (hq : v.IsMeta q) : (s'.prot q).write = true := by
  obtain ⟨hlt, hqp⟩ := ht.ne_of_meta h hq
  refine (ht.write_iff h hlt hqp fun hd => ?_).mpr (h.guarded.metadata q hq)
  exact (h.ok.isData_facts h.linked h.balanced hd).2.2.1 hq

theorem synced (hq : q < n') (hqp : q ≠ p) (hd : ¬ v.IsData q) (hf : s'.IsFixed) :
    (s'.prot q).write = true ↔ s'.Resets q := by
  by_cases hlt : q < v.n
  · rw [ht.write_iff h hlt hqp hd, ht.prot.resets q hlt hqp]
    exact h.guarded.synced q hlt hd (ht.prot.kind.mp hf)
  · obtain ⟨hw, hres⟩ := ht.prot.fresh q (Nat.not_lt.mp hlt) hq hqp
    rw [hw]
    exact iff_of_false Bool.false_ne_true hres

theorem notResets (hd : v.IsData q) : ¬ s'.Resets q := by
  obtain ⟨hlt, hqp⟩ := ht.ne_of_data h hd
  rw [ht.prot.resets q hlt hqp]
  exact h.guarded.data q hd

theorem guarded (hw : flags.write = true) : s'.Guarded (v.sized n' free') := by
  refine ⟨fun q hq => ht.metadata h hq, fun q hq hd hf => ?_, fun q hd => ht.notResets h hd⟩
  by_cases hqp : q = p
  · obtain ⟨fm, hfm⟩ := hf
    refine iff_of_true ?_ ⟨fm, hfm, ?_⟩
    · rw [hqp]
      exact ht.prot.writable hw
    · rw [hqp, ht.prot.taken fm hfm]
      exact hw
  · exact ht.synced h hq hqp hd hf

theorem balanced : (v.sized n' free').Balanced (lost + {p}) := h.balanced.took ht.takes

theorem laddr_bucket {b : ℕ} (hb : b < v.linked) :
    (v.siCurrent b).laddr = s'.vmap (v.bucketPage b) * pageSize := by
  rw [h.laddr b hb]
  congr 1
  refine (ht.vmap _ ?_).symm
  exact h.shows.wf.lt (.bucket b) (hb.trans_le h.linked.linked)

theorem next : s'.nextSlabBucketId = v.buckets ∧ s'.nextSlabEntryId = v.used := by
  obtain ⟨pa, prot, len, vmap, rfl⟩ := ht.same
  exact ⟨h.nextBucket, h.nextEntry⟩

/-- The page is none of those that rest afterwards. -/
theorem ne_of_rests (hq : (v.sized n' free').Rests q) (hlt : q < n') : q ≠ p := by
  rcases hq with hfree | hn | hd
  · rintro rfl
    exact (ht.balanced h).lost_notMem_free (by simp) hfree
  · exact absurd hlt (Nat.not_lt.mpr hn)
  · exact (ht.ne_of_data h hd).2

theorem evolves : s.Evolves v ∅ s' (v.sized n' free') := by
  have hrests : ∀ q, (v.sized n' free').Rests q → v.Rests q := by
    rintro q (hfree | hn | hd)
    · exact (ht.takes.mem_free hfree).imp_right .inl
    · exact .inr (.inl (ht.takes.le.trans hn))
    · exact .inr (.inr hd)
  refine ⟨rfl, ht.takes.le, Nat.le_refl _, fun _ _ => rfl, fun _ _ => rfl, fun _ _ => rfl,
    fun _ _ _ _ _ => rfl, fun _ _ => rfl, fun i hi hi' => absurd hi' (Nat.not_lt.mpr hi),
    fun _ ht => .inl ht, fun _ hr => hr, fun q hq => ht.takes.mem_free hq, hrests, fun q _ => ht.filePage q,
    fun q hq _ => ?_, fun q hq hopen => ?_, fun q hq hopen => ?_, fun q hq hopen => ?_⟩
  · obtain ⟨pa, prot, len, vmap, hs'⟩ := ht.same
    have hfile : s'.file = s.file := by rw [hs']
    have hraw : s'.bytesOf = s.bytesOf := by
      rw [hs']
      rfl
    unfold Pm.restBytes
    rw [show (v.sized n' free').n = n' from rfl, ht.filePage q, hfile, hraw]
  · left
    have hqp := ht.ne_of_rests h hq hopen.1
    by_cases hlt : q < v.n
    · exact ⟨hlt, ht.write_of h hlt hqp hopen.2⟩
    · obtain ⟨hw, -⟩ := ht.prot.fresh q (Nat.not_lt.mp hlt) hopen.1 hqp
      have := hopen.2
      rw [hw] at this
      cases this
  · have hlt : q < n' := hopen.1.trans_le ht.takes.le
    refine ⟨hlt, (ht.write_iff h hopen.1 (ht.ne_of_rests h (.inl hq) hlt) fun hd => ?_).mpr hopen.2⟩
    exact (h.ok.isData_facts h.linked h.balanced hd).2.1
      ((ht.takes.mem_free hq).resolve_right (Nat.not_le.mpr hopen.1))
  · obtain ⟨hlt, hqp⟩ := ht.ne_of_data h hq
    rcases ht.prot.old q hlt hqp with heq | ⟨hre, -⟩
    · left
      refine ⟨hlt.trans_le ht.takes.le, ?_⟩
      rw [heq]
      exact hopen.2
    · right
      exact ht.takes.lt_of_nil h.shows.space.pos (h.shows.space.nil_of_reprotects hre)

end Took

/-- The page `p` was handed out to write to, at `maddr` and `laddr`. -/
structure Got (s : Pm) (v : View) (lost : Multiset ℕ) (s' : Pm) (maddr laddr p n' : ℕ)
    (free' : List ℕ) : Prop where
  took : s.Took s' paProtWrite maddr laddr p v.n v.free n' free'
  maddr : maddr = v.addr p
  holds : s'.Holds (v.sized n' free') (lost + {p})
  evolves : s.Evolves v ∅ s' (v.sized n' free')

/-- **A page to write to.** -/
theorem Holds.getpage (h : s.Holds v lost)
    (hr : Returns (pageAllocatorGetpage paProtWrite) s (maddr, laddr) s') :
    ∃ p n' free', s.Got v lost s' maddr laddr p n' free' := by
  obtain ⟨p, n', free', ht⟩ := h.shows.space.getpage hr
  obtain ⟨hb, he⟩ := ht.next h
  refine ⟨p, n', free', ht, ?_,
    ⟨ht.shows h.shows, h.linked.sized n' free', h.ok.sized n' free', ht.guarded h rfl,
      ht.balanced h, fun hf => (h.paired (ht.prot.kind.mp hf)).sized n' free',
      fun b hb => ht.laddr_bucket h hb, hb, he⟩, ht.evolves h⟩
  rw [ht.maddr, ← h.shows.addr_eq]

namespace Got

variable (hg : s.Got v lost s' maddr laddr p n' free')

include hg

theorem heap : s'.heap = s.heap := by
  obtain ⟨pa, prot, len, vmap, rfl⟩ := hg.took.same
  rfl

theorem kind : s'.IsFixed ↔ s.IsFixed := hg.took.prot.kind

/-- The page comes with the bytes it had. -/
theorem bytes : s'.bytesOf (s'.page p) = s.restBytes v.n p := hg.took.bytes

theorem laddr_of_isFixed (hf : s.IsFixed) : laddr = p * pageSize := by
  rw [hg.took.laddr, hg.holds.shows.vmap_of_isFixed (hg.kind.mpr hf)]
  rfl

end Got

/-- A store leaves the bytes of the other pages. -/
theorem Space.restBytes_setPage {n : ℕ} {free : List ℕ} (h : s.Space n free) (hp : p < n) (hqp : q ≠ p)
    (x : Page) : (s.setPage (s.vmap p) x).restBytes n q = s.restBytes n q := by
  have hne : s.filePage n q ≠ s.vmap p := by
    unfold Pm.filePage
    split_ifs with hlt
    · exact fun heq => hqp (h.inj q p hlt hp heq)
    · have := h.maps p hp
      omega
  unfold Pm.restBytes
  show s.bytesOf (Function.update s.file (s.vmap p) x (s.filePage n q)) = _
  rw [Function.update_of_ne hne]

/-- **A store to a page that holds no metadata.** -/
theorem Holds.setPage (h : s.Holds v lost) (hp : p < v.n) (hm : ¬ v.IsMeta p) (x : Page) {W : Set ℕ}
    (hW : v.Rests p → p ∈ W) :
    (s.setPage (s.vmap p) x).Holds v lost ∧ s.Evolves v W (s.setPage (s.vmap p) x) v := by
  refine ⟨⟨h.shows.setData hp hm x, h.linked, h.ok, ⟨h.guarded.metadata, h.guarded.synced,
    h.guarded.data⟩, h.balanced, h.paired, h.laddr, h.nextBucket, h.nextEntry⟩,
    { Evolves.refl s v W with
      filePage := fun q _ => rfl
      closed := fun q _ hopen => .inl hopen
      opened := fun q _ hopen => hopen
      kept := fun q _ hopen => .inl hopen
      bytes := fun q hq hqW => ?_ }⟩
  refine h.shows.space.restBytes_setPage hp ?_ x
  rintro rfl
  exact hqW (hW hq)

theorem Holds.lost_lt (h : s.Holds v lost) (hp : p ∈ lost) : p < v.n := h.balanced.lost_lt hp

theorem Holds.lost_notRests (h : s.Holds v lost) (hp : p ∈ lost) : ¬ v.Rests p := by
  rintro (hfree | hn | hd)
  · exact h.balanced.lost_notMem_free hp hfree
  · exact absurd (h.lost_lt hp) (Nat.not_lt.mpr hn)
  · exact (h.ok.isData_facts h.linked h.balanced hd).2.2.2 hp

/-- A store to a page no one holds. -/
theorem Holds.setLost (h : s.Holds v lost) (hp : p ∈ lost) (x : Page) :
    (s.setPage (s.vmap p) x).Holds v lost ∧ s.Evolves v ∅ (s.setPage (s.vmap p) x) v :=
  h.setPage (h.lost_lt hp) (h.balanced.lost_notMeta hp) x fun hr => (h.lost_notRests hp hr).elim

variable {a n : ℕ} {u : Unit}

theorem Holds.copyPage (h : s.Holds v lost) (hp : p ∈ lost)
    (hr : Returns (copyPage (v.addr p) a) s u s') :
    ∃ x, s.pageAt a = some x ∧ s' = s.setPage (s.vmap p) x ∧ s'.Holds v lost ∧
      s.Evolves v ∅ s' v := by
  obtain ⟨i, x, hx, hi, -, rfl⟩ := returns_copyPage.mp hr
  rw [h.shows.vpage (h.lost_lt hp), Option.some.injEq] at hi
  subst hi
  exact ⟨x, hx, rfl, h.setLost hp x⟩

/-- At most one page is copied. -/
theorem Holds.pmemcpyPages (h : s.Holds v lost) (hp : p ∈ lost) (hn : n ≤ pageSize)
    (hr : Returns (pmemcpyPages (v.addr p) a n) s u s') :
    (s' = s ∨ ∃ x, s' = s.setPage (s.vmap p) x) ∧ s'.Holds v lost ∧ s.Evolves v ∅ s' v := by
  unfold LibPM.pmemcpyPages at hr
  have hcount : roundPg n / pageSize = 0 ∨ roundPg n / pageSize = 1 := by
    unfold roundPg pageSize at *
    omega
  rcases hcount with h0 | h1
  · rw [h0, List.range_zero, returns_forM_nil] at hr
    subst hr
    exact ⟨.inl rfl, h, .refl _ _ _⟩
  · rw [h1, List.range_one] at hr
    obtain ⟨t, ht, hnil⟩ := returns_forM_cons.mp hr
    rw [returns_forM_nil] at hnil
    subst hnil
    rw [Nat.zero_mul] at ht
    obtain ⟨x, -, hs', hh, he⟩ := h.copyPage hp ht
    exact ⟨.inr ⟨x, hs'⟩, hh, he⟩

theorem Holds.retypePage (h : s.Holds v lost) (hp : p ∈ lost) {g : (ℕ → UInt8) → Page}
    (hr : Returns (retypePage (v.addr p) g) s u s') :
    s' = s.setPage (s.vmap p) (g (s.bytesOf (s.page p))) ∧ s'.Holds v lost ∧ s.Evolves v ∅ s' v := by
  unfold LibPM.retypePage at hr
  simp only [returns_bind, returns_get, returns_ofOption, returns_modify] at hr
  obtain ⟨_, _, ⟨rfl, rfl⟩, i, _, ⟨hi, rfl⟩, rfl⟩ := hr
  unfold Pm.fpage at hi
  rw [h.shows.vpage (h.lost_lt hp)] at hi
  cases hi
  exact ⟨rfl, h.setLost hp _⟩

/-- **A page given back.** -/
theorem Holds.freepages (h : s.Holds v (lost + {p}))
    (hr : Returns (pageAllocatorFreepages (v.addr p)) s u s') :
    s'.Holds (v.sized v.n (v.free ++ [p])) lost ∧ ∃ pa, s' = { s with pa := pa } := by
  rw [h.shows.addr_eq] at hr
  have hmem : p ∈ lost + {p} := by simp
  obtain ⟨-, hspace, hstart, ⟨hfix, hres⟩, pa, hs'⟩ :=
    h.shows.space.freepages (h.lost_lt hmem) hr
  refine ⟨⟨⟨hspace, hstart.trans h.shows.start, ?_, fun x hx => ?_, ?_, ⟨h.shows.wf.lt, h.shows.wf.inj⟩⟩,
    h.linked.sized _ _, h.ok.sized _ _, ⟨fun q hq => ?_, fun q hq hd hf => ?_, fun q hd => ?_⟩,
    h.balanced.gave, fun hf => (h.paired (hfix.mp hf)).sized _ _, fun b hb => ?_, ?_, ?_⟩, pa, hs'⟩
  · rw [hs']
    exact h.shows.containers
  · rw [hs']
    exact h.shows.page x hx
  · rw [hs']
    exact h.shows.sizes
  · rw [hs']
    exact h.guarded.metadata q hq
  · rw [hres, hs']
    exact h.guarded.synced q hq hd (hfix.mp hf)
  · rw [hres]
    exact h.guarded.data q hd
  · rw [hs']
    exact h.laddr b hb
  · rw [hs']
    exact h.nextBucket
  · rw [hs']
    exact h.nextEntry

end Pm

end LibPM

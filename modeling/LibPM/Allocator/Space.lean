import LibPM.Allocator.Nonlinear
import LibPM.Memory.Access

/-!
# The page allocator as a list of free pages

What the two mappers have in common in a session, seen from above: a mapping of `n` pages at
consecutive addresses, of which the pages `free` are handed out next, in this order. A page given back
goes to the end, and when no page is left the mapping doubles.
-/

namespace LibPM

open Recorded Recorded.Prog

/-! ## The mapping -/

/-- `pa` has `n` pages from `start` on, mapped by `vmap`, and the pages `free` on its list. -/
def PageAllocator.Serves (pa : PageAllocator) (vmap : ℕ → ℕ) (start n : ℕ) (free : List ℕ) : Prop :=
  match pa with
  | .unset => False
  | .fixed fm => fm.Good n ∧ fm.startAddr = start ∧ fm.freeHead = free ∧ vmap = id
  | .nonlinear nlm => nlm.Good vmap n ∧ nlm.startAddr = start ∧
      nlm.freeHead.map (·.addr) = free.map (start + · * pageSize)

structure Pm.Space (s : Pm) (n : ℕ) (free : List ℕ) : Prop where
  serves : s.pa.Serves s.vmap s.startAddr n free
  aligned : s.startAddr % pageSize = 0
  inj : ∀ i j, i < n → j < n → s.vmap i = s.vmap j → i = j
  maps : ∀ i < n, s.vmap i < n

/-- The page at the address of page `i` of the mapping. -/
def Pm.page (s : Pm) (i : ℕ) : Page := s.file (s.vmap i)

/-- The address of page `i` of the mapping. -/
def Pm.addr (s : Pm) (i : ℕ) : ℕ := s.startAddr + i * pageSize

theorem Pm.addr_injective {s : Pm} {i j : ℕ} (h : s.addr i = s.addr j) : i = j :=
  LibPM.addr_injective h

theorem getLast?_addr_eq {start : ℕ} {l : List NlmPage} {free : List ℕ}
    (h : l.map (·.addr) = free.map (start + · * pageSize)) : l.length = free.length := by
  have := congrArg List.length h
  rwa [List.length_map, List.length_map] at this

namespace Pm.Space

variable {s s' : Pm} {n : ℕ} {free : List ℕ}

theorem facts (h : s.Space n free) :
    0 < n ∧ s.startAddr ≠ 0 ∧ s.mapLen = n * pageSize ∧ free.Nodup ∧ ∀ p ∈ free, p < n := by
  have hs := h.serves
  unfold PageAllocator.Serves at hs
  cases hpa : s.pa with
  | unset => simp only [hpa] at hs
  | fixed fm =>
    rw [hpa] at hs
    obtain ⟨hg, hst, rfl, -⟩ := hs
    have hlen : s.mapLen = fm.fileSize := by unfold Pm.mapLen; rw [hpa]
    exact ⟨hg.pos, hst ▸ hg.start, hlen.trans hg.size, hg.nodup, hg.lt⟩
  | nonlinear nlm =>
    rw [hpa] at hs
    obtain ⟨hg, hst, hfree⟩ := hs
    have hlen : s.mapLen = nlm.fileSize := by unfold Pm.mapLen; rw [hpa]
    refine ⟨hg.pos, hst ▸ hg.start, hlen.trans hg.size, ?_, fun p hp => ?_⟩
    · have := hg.freeHead_nodup
      rw [hfree] at this
      exact this.of_map
    · have hmem : s.startAddr + p * pageSize ∈ nlm.freeHead.map (·.addr) := by
        rw [hfree]
        exact List.mem_map_of_mem hp
      obtain ⟨q, hq, haddr⟩ := List.mem_map.mp hmem
      obtain ⟨k, hk, hk'⟩ := hg.exists_addr (List.mem_append_left _ hq)
      rw [hk', hst] at haddr
      rwa [← LibPM.addr_injective haddr]

theorem pos (h : s.Space n free) : 0 < n := h.facts.1
theorem start_ne (h : s.Space n free) : s.startAddr ≠ 0 := h.facts.2.1
theorem len (h : s.Space n free) : s.mapLen = n * pageSize := h.facts.2.2.1
theorem nodup (h : s.Space n free) : free.Nodup := h.facts.2.2.2.1
theorem lt (h : s.Space n free) {p : ℕ} (hp : p ∈ free) : p < n := h.facts.2.2.2.2 p hp

theorem vpage (h : s.Space n free) {p : ℕ} (hp : p < n) : s.vpage (s.addr p) = some p := by
  have hle : p * pageSize < n * pageSize := (Nat.mul_lt_mul_right pageSize_pos).mpr hp
  unfold Pm.vpage Pm.addr
  rw [h.len, if_pos (by omega), Nat.add_sub_cancel_left, Nat.mul_div_cancel _ pageSize_pos]

theorem addr_mod (h : s.Space n free) (p : ℕ) : s.addr p % pageSize = 0 := by
  unfold Pm.addr
  rw [Nat.add_mul_mod_self_right]
  exact h.aligned

theorem pageAt (h : s.Space n free) {p : ℕ} (hp : p < n) :
    s.pageAt (s.addr p) = some (s.page p) := by
  unfold Pm.pageAt Pm.fpage
  rw [if_pos (h.addr_mod p), h.vpage hp]
  rfl

/-- An address in the mapping is in one of its pages. -/
theorem exists_of_vpage (h : s.Space n free) {a i : ℕ} (hi : s.vpage a = some i) :
    i < n ∧ roundDwnPg a = s.addr i := by
  unfold Pm.vpage at hi
  split_ifs at hi with hin
  rw [h.len] at hin
  have hi := Option.some.inj hi
  refine ⟨?_, ?_⟩
  · rw [← hi, Nat.div_lt_iff_lt_mul pageSize_pos]
    omega
  · have hst := h.aligned
    unfold roundDwnPg Pm.addr pageSize at *
    omega

theorem addr_ne_zero (h : s.Space n free) (p : ℕ) : s.addr p ≠ 0 := by
  have := h.start_ne
  unfold Pm.addr
  omega

/-- A store to a page of the mapping changes no other page. -/
theorem page_setPage (h : s.Space n free) {i j : ℕ} (hi : i < n) (hj : j < n) (p : Page) :
    (s.setPage (s.vmap i) p).page j = if j = i then p else s.page j := by
  unfold Pm.setPage Pm.page
  dsimp only
  by_cases hij : j = i
  · rw [hij, if_pos rfl, Function.update_self]
  · rw [if_neg hij, Function.update_of_ne]
    exact fun hv => hij (h.inj j i hj hi hv)

theorem setPage (h : s.Space n free) (i : ℕ) (p : Page) : (s.setPage i p).Space n free :=
  ⟨h.serves, h.aligned, h.inj, h.maps⟩

end Pm.Space

/-! ## Taking a page -/

/-- The page `p` is taken from the list, or is the first page of the part by which the mapping
doubled. -/
structure TakesPage (p n : ℕ) (free : List ℕ) (n' : ℕ) (free' : List ℕ) : Prop where
  lt : p < n'
  cases : n' = n ∧ free = p :: free' ∨ n' = 2 * n ∧ free = [] ∧ p :: free' = List.range' n n

/-- The next request grows the file and maps it again, with the protections of the index of pages. -/
def Pm.Reprotects (s : Pm) : Prop := ∃ fm, s.pa = .fixed fm ∧ fm.freeSize = 0

/-- When the file is mapped again, page `p` becomes writable. -/
def Pm.Resets (s : Pm) (p : ℕ) : Prop := ∃ fm, s.pa = .fixed fm ∧ (fm.protOf p).write = true

/-- The fixed mapper is in use. -/
def Pm.IsFixed (s : Pm) : Prop := ∃ fm, s.pa = .fixed fm

theorem Pm.Resets.isFixed {s : Pm} {p : ℕ} (h : s.Resets p) : s.IsFixed := h.imp fun _ => And.left

theorem Pm.not_isFixed {s : Pm} {nlm : Nlm} (h : s.pa = .nonlinear nlm) : ¬ s.IsFixed := by
  rintro ⟨fm, hfm⟩
  rw [h] at hfm
  cases hfm

theorem Pm.not_resets {s : Pm} {nlm : Nlm} (h : s.pa = .nonlinear nlm) (p : ℕ) : ¬ s.Resets p :=
  fun hr => not_isFixed h hr.isFixed

/-- What the allocator does to protections when it hands out page `p`; the mapping has `n` pages
before and `n'` after. -/
structure Pm.Protects (s s' : Pm) (flags : Prot) (p n n' : ℕ) : Prop where
  kind : s'.IsFixed ↔ s.IsFixed
  fresh : ∀ q, n ≤ q → q < n' → q ≠ p → (s'.prot q).write = false ∧ ¬ s'.Resets q
  old : ∀ q < n, q ≠ p → s'.prot q = s.prot q ∨
    s.Reprotects ∧ ((s'.prot q).write = true ↔ s.Resets q)
  resets : ∀ q < n, q ≠ p → (s'.Resets q ↔ s.Resets q)
  writable : flags.write = true → (s'.prot p).write = true
  readOnly : flags.write = false → (s'.prot p).write = true → p < n ∧ (s.prot p).write = true
  taken : ∀ fm, s'.pa = .fixed fm → fm.protOf p = flags

/-- `s'` is `s` after the allocator handed out a page. -/
structure Pm.Took (s s' : Pm) (flags : Prot) (maddr laddr p n : ℕ) (free : List ℕ) (n' : ℕ)
    (free' : List ℕ) : Prop where
  takes : TakesPage p n free n' free'
  maddr : maddr = s.addr p
  laddr : laddr = s'.vmap p * pageSize
  same : ∃ pa prot len vmap,
    s' = { s with pa := pa, prot := prot, fileLen := len, vmap := vmap }
  vmap : ∀ i < n, s'.vmap i = s.vmap i
  fresh : ∀ i, n ≤ i → i < n' → s'.vmap i = i
  start : s'.startAddr = s.startAddr
  space : s'.Space n' free'
  prot : s.Protects s' flags p n n'

theorem TakesPage.le {p n n' : ℕ} {free free' : List ℕ} (h : TakesPage p n free n' free') :
    n ≤ n' := by
  rcases h.cases with ⟨hn, -⟩ | ⟨hn, -⟩ <;> omega

/-- The page is new to whoever was using pages. -/
theorem TakesPage.ne {p n n' q : ℕ} {free free' : List ℕ} (h : TakesPage p n free n' free')
    (hq : q < n) (hqf : q ∉ free) : q ≠ p := by
  rintro rfl
  rcases h.cases with ⟨-, hfree⟩ | ⟨-, -, hrange⟩
  · exact hqf (by simp [hfree])
  · have hmem : q ∈ List.range' n n := by
      rw [← hrange]
      exact List.mem_cons_self
    have := (List.mem_range'_1.mp hmem).1
    omega

theorem grownVmap_inj {vmap : ℕ → ℕ} {n : ℕ} (hinj : ∀ i j, i < n → j < n → vmap i = vmap j → i = j)
    (hmaps : ∀ i < n, vmap i < n) (i j : ℕ) (h : grownVmap vmap n i = grownVmap vmap n j) :
    i = j := by
  unfold grownVmap at h
  split_ifs at h with hi hj hj
  · exact hinj i j hi hj h
  · have := hmaps i hi
    omega
  · have := hmaps j hj
    omega
  · exact h

theorem grownVmap_lt {vmap : ℕ → ℕ} {n : ℕ} (hmaps : ∀ i < n, vmap i < n) {i : ℕ}
    (hi : i < 2 * n) : grownVmap vmap n i < 2 * n := by
  unfold grownVmap
  split_ifs with h
  · have := hmaps i h
    omega
  · exact hi

theorem protects_fixed {s : Pm} {fm fm' : FixedMapper} {n n' p len : ℕ} {flags : Prot}
    {prot : ℕ → Prot} (hpa : s.pa = .fixed fm) (hg : fm.Good n) (ht : fm.Takes fm' n n' p)
    (hp : fm.Protects fm' flags s.prot prot n n' p) :
    s.Protects { s with pa := .fixed fm', prot := prot, fileLen := len, vmap := id } flags p n n' := by
  have hof : ∀ q < n, q ≠ p → fm'.protOf q = fm.protOf q := by
    intro q hq hqp
    unfold FixedMapper.protOf
    rw [hp.index q hq hqp]
  have hres : ∀ {f : FixedMapper} {t : Pm} {q : ℕ}, t.pa = .fixed f →
      (t.Resets q ↔ (f.protOf q).write = true) := by
    intro f t q ht
    constructor
    · rintro ⟨f', hf', hw⟩
      rw [ht] at hf'
      cases hf'
      exact hw
    · exact fun hw => ⟨f, ht, hw⟩
  have hold : ∀ q, q ≠ p → prot q = fm.remapped s.prot n n' q := by
    intro q hqp
    rw [hp.prot]
    split_ifs
    · exact Function.update_of_ne hqp _ _
    · rfl
  refine ⟨⟨fun _ => ⟨fm, hpa⟩, fun _ => ⟨fm', rfl⟩⟩, fun q hq hq' hqp => ?_, fun q hq hqp => ?_,
    fun q hq hqp => ?_, fun hf => ?_, fun hf hw => ?_, fun f hf => ?_⟩
  · refine ⟨?_, fun h => ?_⟩
    · show (prot q).write = false
      rw [hold q hqp]
      unfold FixedMapper.remapped
      rw [if_neg (by omega), if_neg (by omega)]
      rfl
    · rw [hres rfl] at h
      unfold FixedMapper.protOf at h
      rw [hp.fresh q hq hq' hqp] at h
      cases h
  · show prot q = s.prot q ∨ _ ∧ ((prot q).write = true ↔ _)
    rw [hold q hqp, hres hpa]
    unfold FixedMapper.remapped
    rcases ht.free with ⟨hn, -⟩ | ⟨hn, hnil, -⟩
    · rw [if_pos hn]
      exact .inl rfl
    · refine .inr ⟨⟨fm, hpa, ?_⟩, ?_⟩
      · rw [hg.freeSize, hnil]
        rfl
      · have := hg.pos
        rw [if_neg (by omega), if_pos hq]
  · rw [hres hpa, hres rfl, hof q hq hqp]
  · show (prot p).write = true
    rw [hp.prot, if_pos hf, Function.update_self]
    exact hf
  · replace hw : (prot p).write = true := hw
    rw [hp.prot, if_neg (by rw [hf]; exact Bool.false_ne_true)] at hw
    unfold FixedMapper.remapped at hw
    rcases ht.free with ⟨hn, -⟩ | ⟨hn, -, hrange⟩
    · rw [if_pos hn] at hw
      exact ⟨hn ▸ ht.lt, hw⟩
    · -- a page of the new part is mapped read only
      have hmem : p ∈ List.range' n n := by
        rw [← hrange]
        exact List.mem_cons_self
      have hnp := (List.mem_range'_1.mp hmem).1
      have := hg.pos
      rw [if_neg (by omega), if_neg (by omega)] at hw
      cases hw
  · cases hf
    unfold FixedMapper.protOf
    rw [hp.taken]

theorem took_fixed {s s' : Pm} {n : ℕ} {free : List ℕ} {fm : FixedMapper} {flags : Prot}
    {maddr laddr : ℕ} (h : s.Space n free) (hpa : s.pa = .fixed fm)
    (hr : Returns (pageAllocatorGetpage flags) s (maddr, laddr) s') :
    ∃ p n' free', s.Took s' flags maddr laddr p n free n' free' := by
  have hs := h.serves
  rw [hpa] at hs
  obtain ⟨hg, hst, rfl, hv⟩ := hs
  obtain ⟨fm', n', p, prot, len, ht, rfl, rfl, -, hprot, rfl⟩ := returns_getpage_fixed hpa hg hv hr
  have hst' : fm'.startAddr = s.startAddr := ht.start.trans hst
  refine ⟨p, n', fm'.freeHead, ⟨ht.lt, ht.free⟩, ?_, rfl, ⟨_, _, _, _, rfl⟩, fun i _ => by rw [hv],
    fun _ _ _ => rfl, hst', ⟨⟨ht.good, rfl, rfl, rfl⟩, ?_, fun _ _ _ _ hij => hij,
    fun _ hi => hi⟩, protects_fixed hpa hg ht hprot⟩
  · rw [hst]
    rfl
  · show fm'.startAddr % pageSize = 0
    rw [hst']
    exact h.aligned

theorem vpage_nonlinear {nlm : Nlm} {vmap : ℕ → ℕ} {n k : ℕ} {s : Pm} (hpa : s.pa = .nonlinear nlm)
    (hg : nlm.Good vmap n) (hk : k < n) : s.vpage (nlm.startAddr + k * pageSize) = some k := by
  have hle : k * pageSize < n * pageSize := (Nat.mul_lt_mul_right pageSize_pos).mpr hk
  have hstart : s.startAddr = nlm.startAddr := by
    unfold Pm.startAddr
    rw [hpa]
  have hlen : s.mapLen = n * pageSize := by
    unfold Pm.mapLen
    rw [hpa]
    exact hg.size
  unfold Pm.vpage
  rw [hstart, hlen, if_pos (by omega), Nat.add_sub_cancel_left, Nat.mul_div_cancel _ pageSize_pos]

/-- `nlm₁`, which maps `n₁` pages by `vmap₁`, is `nlm` once it has a free page. -/
def Nlm.Ready (nlm nlm₁ : Nlm) (vmap vmap₁ : ℕ → ℕ) (n n₁ limit : ℕ) : Prop :=
  nlm.freeHead ≠ [] ∧ nlm₁ = nlm ∧ vmap₁ = vmap ∧ n₁ = n ∨
    nlm.freeHead = [] ∧ nlm₁ = nlm.doubled n ∧ vmap₁ = grownVmap vmap n ∧ n₁ = 2 * n ∧
      nlm.startAddr + 2 * n * pageSize ≤ limit

theorem Nlm.Ready.good {nlm nlm₁ : Nlm} {vmap vmap₁ : ℕ → ℕ} {n n₁ limit : ℕ}
    (h : nlm.Ready nlm₁ vmap vmap₁ n n₁ limit) (hg : nlm.Good vmap n) : nlm₁.Good vmap₁ n₁ := by
  rcases h with ⟨-, rfl, rfl, rfl⟩ | ⟨hhead, rfl, rfl, rfl, -⟩
  · exact hg
  · refine hg.doubled ?_
    rw [hg.freeSize, hhead]
    rfl

theorem Nlm.Ready.start {nlm nlm₁ : Nlm} {vmap vmap₁ : ℕ → ℕ} {n n₁ limit : ℕ}
    (h : nlm.Ready nlm₁ vmap vmap₁ n n₁ limit) : nlm₁.startAddr = nlm.startAddr := by
  rcases h with ⟨-, rfl, -⟩ | ⟨-, rfl, -⟩ <;> rfl

/-- The protections once the mapping was extended, if it was. -/
def remappedProt (prot : ℕ → Prot) (n n₁ : ℕ) : ℕ → Prot :=
  if n₁ = n then prot else grownProt prot n

/-- **A page from the non-linear mapper** is the head of the free list, which was filled first if it
was empty. -/
theorem returns_getpage_nonlinear {s s' : Pm} {n : ℕ} {nlm : Nlm} {flags : Prot} {maddr laddr : ℕ}
    (hpa : s.pa = .nonlinear nlm) (hg : nlm.Good s.vmap n)
    (hr : Returns (pageAllocatorGetpage flags) s (maddr, laddr) s') :
    ∃ nlm₁ vmap₁ n₁ p nlm' prot len, nlm.Ready nlm₁ s.vmap vmap₁ n n₁ s.mapLimit ∧
      nlm₁.usePage = .ok (p, nlm') ∧ maddr = p.addr ∧ laddr = p.pgoff ∧
      (∃ k, p.addr = nlm.startAddr + k * pageSize ∧
        prot = if flags.write = true then Function.update (remappedProt s.prot n n₁) k flags
          else remappedProt s.prot n n₁) ∧
      s' = { s with pa := .nonlinear nlm', prot := prot, fileLen := len, vmap := vmap₁ } := by
  unfold pageAllocatorGetpage at hr
  rw [returns_bind] at hr
  obtain ⟨_, _, hget, hr⟩ := hr
  rw [returns_get] at hget
  obtain ⟨rfl, rfl⟩ := hget
  rw [hpa] at hr
  unfold nlmAllocPage at hr
  rw [returns_bind] at hr
  obtain ⟨nlm₁, s₁, h₁, hr⟩ := hr
  obtain ⟨vmap₁, n₁, len₁, hready, rfl⟩ : ∃ vmap₁ n₁ len₁,
      nlm.Ready nlm₁ s.vmap vmap₁ n n₁ s.mapLimit ∧
      s₁ = { s with prot := remappedProt s.prot n n₁, fileLen := len₁, vmap := vmap₁ } := by
    by_cases h0 : nlm.freeSize = 0
    · obtain ⟨hhead, hlast⟩ := hg.eq_nil h0
      rw [if_pos h0, returns_bind] at h₁
      obtain ⟨nlm₂, s₂, hgrow, hmap⟩ := h₁
      unfold nlmGrowFile posixFallocate at hgrow
      simp only [returns_bind, returns_require, returns_modify, returns_pure] at hgrow
      obtain ⟨_, _, ⟨-, rfl⟩, _, _, rfl, rfl, rfl⟩ := hgrow
      obtain ⟨rfl, hle, rfl⟩ := mapAppending_again hmap hg.start hhead h0 hlast hg.size
        (by rw [hg.size])
      dsimp only at hle
      rw [hg.size, Nat.mul_comm, ← Nat.mul_assoc] at hle
      refine ⟨_, 2 * n, max s.fileLen (nlm.fileSize + nlm.fileSize * 2),
        .inr ⟨hhead, rfl, rfl, rfl, hle⟩, ?_⟩
      have hn : 2 * n ≠ n := by
        have := hg.pos
        omega
      unfold remappedProt
      rw [if_neg hn]
    · rw [if_neg h0, returns_pure] at h₁
      obtain ⟨rfl, rfl⟩ := h₁
      refine ⟨s.vmap, n, s.fileLen, .inl ⟨fun hnil => h0 ?_, rfl, rfl, rfl⟩, ?_⟩
      · rw [hg.freeSize, hnil]
        rfl
      · unfold remappedProt
        rw [if_pos rfl]
  simp only [returns_bind, returns_ofResult, returns_modify, returns_pure] at hr
  obtain ⟨⟨p, nlm'⟩, _, ⟨huse, rfl⟩, _, _, rfl, _, t, hw, hq, rfl⟩ := hr
  obtain ⟨rfl, rfl⟩ := Prod.mk.inj hq
  obtain ⟨q, rest, -, -, -, hmem, hg₂, hst₂, -⟩ := (hready.good hg).usePage huse
  obtain ⟨k, hk, haddr⟩ := hg₂.exists_addr (List.mem_append_right _ hmem)
  have haddr' : p.addr = nlm.startAddr + k * pageSize := by
    rw [haddr, hst₂, hready.start]
  rw [returns_when] at hw
  rcases hw with ⟨hf, hw⟩ | ⟨hf, rfl⟩
  · rw [returns_pageAllocatorMprotect] at hw
    obtain ⟨i, hi, rfl⟩ := hw
    rw [haddr, @vpage_nonlinear nlm' vmap₁ n₁ k _ rfl hg₂ hk, Option.some.injEq] at hi
    subst hi
    exact ⟨nlm₁, vmap₁, n₁, p, nlm', _, len₁, hready, huse, rfl, rfl,
      ⟨k, haddr', (if_pos hf).symm⟩, rfl⟩
  · exact ⟨nlm₁, vmap₁, n₁, p, nlm', _, len₁, hready, huse, rfl, rfl,
      ⟨k, haddr', (if_neg hf).symm⟩, rfl⟩

theorem protects_nonlinear {s s' : Pm} {nlm nlm' : Nlm} {n n₁ p : ℕ} {flags : Prot}
    (hpa : s.pa = .nonlinear nlm) (hpa' : s'.pa = .nonlinear nlm') (hp : n₁ ≠ n → n ≤ p)
    (hlt : p < n₁) (hprot : s'.prot = if flags.write = true then
      Function.update (remappedProt s.prot n n₁) p flags else remappedProt s.prot n n₁) :
    s.Protects s' flags p n n₁ := by
  have hsame : ∀ q < n, remappedProt s.prot n n₁ q = s.prot q := by
    intro q hq
    unfold remappedProt
    split_ifs
    · rfl
    · exact if_pos hq
  refine ⟨iff_of_false (Pm.not_isFixed hpa') (Pm.not_isFixed hpa),
    fun q hq hq' hqp => ⟨?_, Pm.not_resets hpa' q⟩,
    fun q hq hqp => .inl ?_, fun q _ _ => ?_, fun hf => ?_, fun hf hw => ?_, fun f hf => ?_⟩
  · -- a page of the new part
    have hdef : remappedProt s.prot n n₁ q = defaultMappingProt := by
      unfold remappedProt
      rw [if_neg (by omega)]
      exact if_neg (by omega)
    rw [hprot]
    split_ifs
    · rw [Function.update_of_ne hqp, hdef]
      rfl
    · rw [hdef]
      rfl
  · rw [hprot, ← hsame q hq]
    split_ifs
    · exact Function.update_of_ne hqp _ _
    · rfl
  · exact iff_of_false (Pm.not_resets hpa' _) (Pm.not_resets hpa _)
  · rw [hprot, if_pos hf, Function.update_self]
    exact hf
  · rw [hprot, if_neg (by rw [hf]; exact Bool.false_ne_true)] at hw
    by_cases hn : n₁ = n
    · have hpn : p < n := hn ▸ hlt
      rw [hsame p hpn] at hw
      exact ⟨hpn, hw⟩
    · -- a page of the new part is mapped read only
      have hnp := hp hn
      have hdef : remappedProt s.prot n n₁ p = defaultMappingProt := by
        unfold remappedProt
        rw [if_neg hn]
        exact if_neg (by omega)
      rw [hdef] at hw
      cases hw
  · rw [hpa'] at hf
    cases hf

theorem took_nonlinear {s s' : Pm} {n : ℕ} {free : List ℕ} {nlm : Nlm} {flags : Prot}
    {maddr laddr : ℕ} (h : s.Space n free) (hpa : s.pa = .nonlinear nlm)
    (hr : Returns (pageAllocatorGetpage flags) s (maddr, laddr) s') :
    ∃ p n' free', s.Took s' flags maddr laddr p n free n' free' := by
  have hs := h.serves
  rw [hpa] at hs
  obtain ⟨hg, hst, hfree⟩ := hs
  obtain ⟨nlm₁, vmap₁, n₁, q, nlm₂, prot, len, hready, huse, rfl, rfl, ⟨k, hk, hprot⟩, rfl⟩ :=
    returns_getpage_nonlinear hpa hg hr
  obtain ⟨q', rest, hhead, hrest, haddr, hmem, hg₂, hst₂, -⟩ := (hready.good hg).usePage huse
  obtain ⟨p, hp, hpa₂⟩ := hg₂.exists_addr (List.mem_append_right _ hmem)
  have hpgoff := hg₂.pgoff q (List.mem_append_right _ hmem) p hp hpa₂
  have hstart : nlm₂.startAddr = s.startAddr := hst₂.trans (hready.start.trans hst)
  rw [hstart] at hpa₂
  -- the free pages of the mapper that has one, as numbers
  obtain ⟨free₁, hfree₁, hold, hfresh, hinj, hmaps, hcase⟩ : ∃ free₁,
      nlm₁.freeHead.map (·.addr) = free₁.map (s.startAddr + · * pageSize) ∧
      (∀ i < n, vmap₁ i = s.vmap i) ∧ (∀ i, n ≤ i → i < n₁ → vmap₁ i = i) ∧
      (∀ i j, i < n₁ → j < n₁ → vmap₁ i = vmap₁ j → i = j) ∧ (∀ i < n₁, vmap₁ i < n₁) ∧
      (n₁ = n ∧ free₁ = free ∨ n₁ = 2 * n ∧ free = [] ∧ free₁ = List.range' n n) := by
    rcases hready with ⟨-, rfl, rfl, rfl⟩ | ⟨hnil, rfl, rfl, rfl, -⟩
    · exact ⟨free, hfree, fun _ _ => rfl, fun i hi hi' => by omega, h.inj, h.maps,
        .inl ⟨rfl, rfl⟩⟩
    · refine ⟨List.range' n n, ?_, fun i hi => if_pos hi, fun i hi _ => if_neg (by omega),
        fun i j _ _ hij => grownVmap_inj h.inj h.maps i j hij, fun i hi => grownVmap_lt h.maps hi,
        .inr ⟨rfl, ?_, rfl⟩⟩
      · show ((List.range n).map _).map _ = _
        rw [List.map_map, List.range'_eq_map_range, List.map_map]
        refine List.map_congr_left fun i _ => ?_
        unfold Nlm.newPage
        simp only [Function.comp_apply, hg.size, Nat.add_mul, hst]
      · rw [← List.length_eq_zero_iff, ← getLast?_addr_eq hfree, hnil]
        rfl
  obtain ⟨free₂, hfree₁', hfree₂⟩ : ∃ free₂, free₁ = p :: free₂ ∧
      rest.map (·.addr) = free₂.map (s.startAddr + · * pageSize) := by
    rw [hhead, List.map_cons] at hfree₁
    cases free₁ with
    | nil => cases hfree₁
    | cons p' free₂ =>
      rw [List.map_cons, List.cons.injEq] at hfree₁
      have : p' = p := @LibPM.addr_injective s.startAddr _ _
        (hfree₁.1.symm.trans (haddr.trans hpa₂))
      exact ⟨free₂, by rw [this], hfree₁.2⟩
  have htakes : TakesPage p n free n₁ free₂ := by
    refine ⟨hp, ?_⟩
    rcases hcase with ⟨hn, hf⟩ | ⟨hn, hnil, hf⟩
    · exact .inl ⟨hn, by rw [← hf, hfree₁']⟩
    · exact .inr ⟨hn, hnil, by rw [← hfree₁', hf]⟩
  refine ⟨p, n₁, free₂, htakes, hpa₂, hpgoff, ⟨_, _, _, _, rfl⟩, hold, hfresh, hstart,
    ⟨⟨hg₂, rfl, ?_⟩, ?_, hinj, hmaps⟩, ?_⟩
  · show nlm₂.freeHead.map (·.addr) = free₂.map (nlm₂.startAddr + · * pageSize)
    rw [hrest, hfree₂, hstart]
  · show nlm₂.startAddr % pageSize = 0
    rw [hstart]
    exact h.aligned
  · obtain rfl : k = p := by
      rw [hpa₂, hst] at hk
      exact (LibPM.addr_injective hk).symm
    refine protects_nonlinear hpa rfl (fun hn => ?_) hp hprot
    rcases htakes.cases with ⟨hn', -⟩ | ⟨-, -, hrange⟩
    · exact (hn hn').elim
    · have hmem : k ∈ List.range' n n := by
        rw [← hrange]
        exact List.mem_cons_self
      exact (List.mem_range'_1.mp hmem).1

/-- **A page from the allocator**, with either mapper. -/
theorem Pm.Space.getpage {s s' : Pm} {n : ℕ} {free : List ℕ} {flags : Prot} {maddr laddr : ℕ}
    (h : s.Space n free) (hr : Returns (pageAllocatorGetpage flags) s (maddr, laddr) s') :
    ∃ p n' free', s.Took s' flags maddr laddr p n free n' free' := by
  cases hpa : s.pa with
  | unset =>
    have := h.serves
    rw [hpa] at this
    exact this.elim
  | fixed fm => exact took_fixed h hpa hr
  | nonlinear nlm => exact took_nonlinear h hpa hr

/-! ## Giving back a page -/

theorem returns_freepages_nonlinear {s s' : Pm} {nlm : Nlm} {a : ℕ} {u : Unit}
    (hpa : s.pa = .nonlinear nlm) (ha : a % pageSize = 0)
    (hr : Returns (pageAllocatorFreepages a) s u s') :
    ∃ p nlm', nlm.root.find? (·.addr == a) = some p ∧ nlm.freePage p = .ok nlm' ∧
      s' = { s with pa := .nonlinear nlm' } := by
  unfold pageAllocatorFreepages at hr
  rw [returns_bind] at hr
  obtain ⟨_, _, hget, hr⟩ := hr
  rw [returns_get] at hget
  obtain ⟨rfl, rfl⟩ := hget
  rw [hpa] at hr
  have hround : roundDwnPg a = a := by
    unfold roundDwnPg pageSize at *
    omega
  unfold nlmFreePages at hr
  simp only [hround, returns_bind, returns_ofOption, returns_ofResult, returns_modify] at hr
  obtain ⟨q, _, ⟨hq, rfl⟩, nlm', _, ⟨hfp, rfl⟩, rfl⟩ := hr
  exact ⟨q, nlm', hq, hfp, rfl⟩

/-- **A page given back** was not on the list and joins its end. -/
theorem Pm.Space.freepages {s s' : Pm} {n p : ℕ} {free : List ℕ} {u : Unit} (h : s.Space n free)
    (hp : p < n) (hr : Returns (pageAllocatorFreepages (s.addr p)) s u s') :
    p ∉ free ∧ s'.Space n (free ++ [p]) ∧ s'.startAddr = s.startAddr ∧
      ((s'.IsFixed ↔ s.IsFixed) ∧ ∀ q, s'.Resets q ↔ s.Resets q) ∧
      ∃ pa, s' = { s with pa := pa } := by
  have hs := h.serves
  cases hpa : s.pa with
  | unset =>
    rw [hpa] at hs
    exact hs.elim
  | fixed fm =>
    rw [hpa] at hs
    obtain ⟨hg, hst, rfl, hv⟩ := hs
    unfold Pm.addr at hr
    rw [← hst] at hr
    obtain ⟨hmem, fm', hg', hst', hhead, hindex, rfl⟩ := returns_freepages_fixed hpa hg hp hr
    have hst'' : fm'.startAddr = s.startAddr := hst'.trans hst
    have hof : ∀ q, fm'.protOf q = fm.protOf q := by
      intro q
      unfold FixedMapper.protOf
      rw [hindex]
    refine ⟨hmem, ⟨⟨hg', rfl, hhead, hv⟩, ?_, h.inj, h.maps⟩, hst'',
      ⟨⟨fun _ => ⟨fm, hpa⟩, fun _ => ⟨fm', rfl⟩⟩, fun q => ⟨?_, ?_⟩⟩, _, rfl⟩
    rotate_left
    · rintro ⟨f, hf, hw⟩
      cases hf
      exact ⟨fm, hpa, hof q ▸ hw⟩
    · rintro ⟨f, hf, hw⟩
      rw [hpa] at hf
      cases hf
      exact ⟨fm', rfl, (hof q).symm ▸ hw⟩
    show fm'.startAddr % pageSize = 0
    rw [hst'']
    exact h.aligned
  | nonlinear nlm =>
    rw [hpa] at hs
    obtain ⟨hg, hst, hfree⟩ := hs
    obtain ⟨q, nlm', hq, hfp, rfl⟩ := returns_freepages_nonlinear hpa (h.addr_mod p) hr
    have hmem := List.mem_of_find?_eq_some hq
    have haddr : q.addr = s.addr p := by simpa using List.find?_some hq
    obtain ⟨hhead, hg', hst', -⟩ := hg.freePage hmem hfp
    have hst'' : nlm'.startAddr = s.startAddr := hst'.trans hst
    refine ⟨fun hin => ?_, ⟨⟨hg', rfl, ?_⟩, ?_, h.inj, h.maps⟩, hst'',
      ⟨iff_of_false (Pm.not_isFixed rfl) (Pm.not_isFixed hpa),
        fun q => iff_of_false (Pm.not_resets rfl q) (Pm.not_resets hpa q)⟩, _, rfl⟩
    · have hin' : s.startAddr + p * pageSize ∈ nlm.freeHead.map (·.addr) := by
        rw [hfree]
        exact List.mem_map_of_mem hin
      obtain ⟨r, hr, hra⟩ := List.mem_map.mp hin'
      exact hg.disjoint hr hmem (hra.trans haddr.symm)
    · show nlm'.freeHead.map (·.addr) = (free ++ [p]).map (nlm'.startAddr + · * pageSize)
      rw [hhead, List.map_append, hfree, List.map_append, hst'']
      exact congrArg _ (congrArg (· :: []) haddr)
    · show nlm'.startAddr % pageSize = 0
      rw [hst'']
      exact h.aligned

/-! ## Exchanging two pages -/

theorem swapVmap_lt {vmap : ℕ → ℕ} {n x y i : ℕ} (hmaps : ∀ i < n, vmap i < n) (hx : x < n)
    (hy : y < n) (hi : i < n) : swapVmap vmap x y i < n := by
  by_cases hiy : i = y
  · rw [hiy, swapVmap_right]
    exact hmaps x hx
  · by_cases hix : i = x
    · rw [hix, swapVmap_left]
      exact hmaps y hy
    · rw [swapVmap_of_ne _ hix hiy]
      exact hmaps i hi

/-- A page of the mapping and the one that takes its place. -/
theorem swapVmap_eq (vmap : ℕ → ℕ) (x y i : ℕ) :
    swapVmap vmap x y i = vmap (if i = y then x else if i = x then y else i) := by
  by_cases hiy : i = y
  · rw [if_pos hiy, hiy, swapVmap_right]
  · by_cases hix : i = x
    · rw [if_neg hiy, if_pos hix, hix, swapVmap_left]
    · rw [if_neg hiy, if_neg hix, swapVmap_of_ne _ hix hiy]

theorem swapVmap_inj {vmap : ℕ → ℕ} {n x y i j : ℕ}
    (hinj : ∀ i j, i < n → j < n → vmap i = vmap j → i = j) (hx : x < n) (hy : y < n) (hi : i < n)
    (hj : j < n) (h : swapVmap vmap x y i = swapVmap vmap x y j) : i = j := by
  rw [swapVmap_eq, swapVmap_eq] at h
  have := hinj _ _ (by split_ifs <;> assumption) (by split_ifs <;> assumption) h
  split_ifs at this <;> omega

/-- The mapper after `nlm_swap_pages`. -/
def Nlm.swap (nlm : Nlm) (xaddr yaddr xpgoff : ℕ) : Nlm :=
  (if xaddr - nlm.startAddr ≠ xpgoff then { nlm with isNonlinear := true } else nlm)
    |>.updateSwappedPages xaddr yaddr

theorem returns_swapMappings {s s' : Pm} {xaddr ypgoff yaddr xpgoff : ℕ} {u : Unit}
    (hr : Returns (pageAllocatorSwapMappings xaddr ypgoff yaddr xpgoff) s u s') :
    ∃ nlm, s.pa = .nonlinear nlm ∧ ∃ i j, s.vpage xaddr = some i ∧ s.vpage yaddr = some j ∧
      s' = { s with
        pa := .nonlinear (nlm.swap xaddr yaddr xpgoff)
        vmap := Function.update (Function.update s.vmap i (ypgoff / pageSize)) j
          (xpgoff / pageSize) } := by
  unfold pageAllocatorSwapMappings at hr
  rw [returns_bind] at hr
  obtain ⟨_, _, hget, hr⟩ := hr
  rw [returns_get] at hget
  obtain ⟨rfl, rfl⟩ := hget
  cases hpa : s.pa with
  | unset =>
    rw [hpa] at hr
    exact (returns_fail hr).elim
  | fixed fm =>
    rw [hpa] at hr
    exact (returns_fail hr).elim
  | nonlinear nlm =>
    rw [hpa] at hr
    unfold nlmSwapPages remapFilePages at hr
    simp only [returns_bind, returns_get, returns_ofOption, returns_modify] at hr
    obtain ⟨_, _, ⟨_, _, ⟨rfl, rfl⟩, i, _, ⟨hi, rfl⟩, rfl⟩, _, _,
      ⟨_, _, ⟨rfl, rfl⟩, j, _, ⟨hj, rfl⟩, rfl⟩, rfl⟩ := hr
    exact ⟨nlm, rfl, i, j, hi, hj, rfl⟩

/-- Two pages in use are exchanged, under their addresses. Only the non-linear mapper does this. -/
theorem Pm.Space.swap {s s' : Pm} {n x y ypgoff : ℕ} {free : List ℕ} {u : Unit} (h : s.Space n free)
    (hx : x < n) (hy : y < n) (hxf : x ∉ free) (hyf : y ∉ free)
    (hyp : x ≠ y → ypgoff = s.vmap y * pageSize)
    (hr : Returns (pageAllocatorSwapMappings (s.addr x) ypgoff (s.addr y) (s.vmap x * pageSize))
      s u s') :
    s'.Space n free ∧ s'.startAddr = s.startAddr ∧ s'.vmap = swapVmap s.vmap x y ∧
      ∃ pa vmap, s' = { s with pa := pa, vmap := vmap } := by
  have hs := h.serves
  obtain ⟨nlm, hpa, i, j, hi, hj, rfl⟩ := returns_swapMappings hr
  rw [hpa] at hs
  obtain ⟨hg, hst, hfree⟩ := hs
  rw [h.vpage hx, Option.some.injEq] at hi
  rw [h.vpage hy, Option.some.injEq] at hj
  subst hi hj
  have hroot : ∀ p < n, p ∉ free → s.addr p ∈ nlm.root.map (·.addr) := by
    intro p hp hpf
    have hmem := hg.perm.mem_iff.mpr (mem_pageAddrs.mpr ⟨p, hp, rfl⟩)
    rw [List.map_append, List.mem_append, hfree, hst] at hmem
    refine hmem.resolve_left fun hin => hpf ?_
    obtain ⟨q, hq, haddr⟩ := List.mem_map.mp hin
    rwa [← LibPM.addr_injective haddr]
  have hvmap : Function.update (Function.update s.vmap x (ypgoff / pageSize)) y
      (s.vmap x * pageSize / pageSize) = swapVmap s.vmap x y := by
    unfold swapVmap
    rw [Nat.mul_div_cancel _ pageSize_pos]
    by_cases hxy : x = y
    · rw [hxy, Function.update_idem, Function.update_idem]
    · rw [hyp hxy, Nat.mul_div_cancel _ pageSize_pos]
  -- the flag `is_nonlinear` of the mapper does not matter
  obtain ⟨nlm₁, hnlm₁, hg₁, hst₁, hhead₁, hroot₁⟩ : ∃ nlm₁ : Nlm,
      (if s.addr x - nlm.startAddr ≠ s.vmap x * pageSize then { nlm with isNonlinear := true }
        else nlm) = nlm₁ ∧ nlm₁.Good s.vmap n ∧ nlm₁.startAddr = s.startAddr ∧
      nlm₁.freeHead = nlm.freeHead ∧ nlm₁.root = nlm.root := by
    refine ⟨_, rfl, ?_⟩
    split_ifs
    · exact ⟨⟨hg.pos, hg.size, hg.start, hg.perm, hg.pgoff, hg.isFree, hg.freeSize, hg.freeLast⟩,
        hst, rfl, rfl⟩
    · exact ⟨hg, hst, rfl, rfl⟩
  have hxr := hroot x hx hxf
  have hyr := hroot y hy hyf
  unfold Pm.addr at hxr hyr
  rw [← hroot₁, ← hst₁] at hxr hyr
  obtain ⟨hg', hhead', hst'⟩ := hg₁.swapped hx hy hxr hyr
  rw [hst₁] at hg' hhead' hst'
  unfold Nlm.swap
  rw [hnlm₁, hvmap]
  unfold Pm.addr
  refine ⟨⟨⟨hg', rfl, ?_⟩, ?_, ?_, ?_⟩, hst', rfl, _, _, rfl⟩
  · show _ = free.map (Nlm.startAddr _ + · * pageSize)
    rw [hhead', hhead₁, hfree, hst']
  · show Nlm.startAddr _ % pageSize = 0
    rw [hst']
    exact h.aligned
  · exact fun i j hi hj hij => swapVmap_inj h.inj hx hy hi hj hij
  · exact fun i hi => swapVmap_lt h.maps hx hy hi

/-! ## A new file -/

theorem space_fixedMapperInit {s s' : Pm} {fm : FixedMapper} {size n : ℕ} (hn : 0 < n)
    (hsize : size = n * pageSize) (h0 : s.fileLen = 0)
    (h : Returns (fixedMapperInit size) s fm s') :
    fm.Good n ∧ fm.startAddr = s.mapHint ∧ fm.freeHead = List.range n ∧
      ∃ prot len, s' = { s with prot := prot, fileLen := len, vmap := id } := by
  have hold : bytes2pgs s.fileLen = 0 := by rw [h0]; rfl
  have hnew : bytes2pgs size - (0 + 1) + 1 = n := by
    unfold bytes2pgs
    rw [hsize, Nat.mul_div_cancel _ pageSize_pos]
    omega
  unfold fixedMapperInit at h
  simp only [returns_bind, returns_get] at h
  obtain ⟨_, _, ⟨rfl, rfl⟩, fm₁, t₁, h₁, hmap⟩ := h
  rw [if_pos h0, returns_fixedMapperGrowFile, growFile_eq rfl rfl] at h₁
  obtain ⟨hfm, rfl⟩ := h₁
  simp only [hold, hnew, Except.ok.injEq] at hfm
  subst hfm
  obtain ⟨rfl, hne, -, rfl⟩ := returns_mapFile_first rfl hmap
  exact ⟨good_first hne hn hsize, rfl, (List.range_eq_range' ..).symm, _, _, rfl⟩

theorem good_withPages {nlm : Nlm} {n : ℕ} (hn : 0 < n) (hsize : nlm.fileSize = n * pageSize)
    (hstart : nlm.startAddr ≠ 0) (hprev : nlm.prevFileSize = 0) (hroot : nlm.root = []) :
    (nlm.withPages n).Good id n ∧
      (nlm.withPages n).freeHead.map (·.addr) = pageAddrs nlm.startAddr n := by
  have hpage : ∀ i, (nlm.newPage i).addr = nlm.startAddr + i * pageSize := by
    intro i
    unfold Nlm.newPage
    rw [hprev, Nat.zero_add]
  have hhead : (nlm.withPages n).freeHead.map (·.addr) = pageAddrs nlm.startAddr n := by
    unfold Nlm.withPages pageAddrs
    rw [List.map_map]
    exact List.map_congr_left fun i _ => hpage i
  refine ⟨⟨hn, hsize, hstart, ?_, ?_, ?_, ?_, rfl⟩, hhead⟩
  · rw [show (nlm.withPages n).root = [] from hroot, List.append_nil, hhead]
    exact List.Perm.refl _
  · intro p hp k _ haddr
    rw [show (nlm.withPages n).root = [] from hroot, List.append_nil] at hp
    obtain ⟨i, -, rfl⟩ := List.mem_map.mp hp
    obtain rfl : i = k := addr_injective ((hpage i).symm.trans haddr)
    unfold Nlm.newPage
    rw [hprev, Nat.zero_add]
    rfl
  · intro p hp
    obtain ⟨i, -, rfl⟩ := List.mem_map.mp hp
    rfl
  · unfold Nlm.withPages
    simp

/-- The mapper of a new file of `n` pages. -/
def Nlm.ofPages (start n : ℕ) : Nlm :=
  { (⟨n * pageSize, 0, start, false, false, 0, 0, [], none, []⟩ : Nlm).withPages n with
    isFullyMapped := true }

theorem returns_nlmInit_new {s s' : Pm} {nlm : Nlm} {size n : ℕ} (hsize : size = n * pageSize)
    (h0 : s.fileLen = 0) (h : Returns (nlmInit size) s nlm s') :
    nlm = Nlm.ofPages s.mapHint n ∧ s.mapHint ≠ 0 ∧ s.mapHint + size ≤ s.mapLimit ∧
      ∃ prot len, s' = { s with prot := prot, fileLen := len, vmap := id } := by
  unfold nlmInit at h
  simp only [returns_bind, returns_get] at h
  obtain ⟨_, _, ⟨rfl, rfl⟩, nlm₁, s₁, h₁, h⟩ := h
  rw [if_pos h0, h0] at h₁
  unfold nlmGrowFile posixFallocate at h₁
  simp only [returns_bind, returns_require, returns_modify, returns_pure] at h₁
  obtain ⟨_, _, ⟨-, rfl⟩, _, _, rfl, rfl, rfl⟩ := h₁
  unfold mapAppending at h
  simp only [returns_bind, returns_require, returns_get, returns_mmapAt, returns_modify,
    returns_ofResult, returns_pure, if_true] at h
  obtain ⟨_, _, ⟨-, rfl⟩, _, _, ⟨rfl, rfl⟩, _, _, ⟨hne, hle, rfl⟩, _, _, rfl, n₂, _, ⟨h₂, rfl⟩, rfl,
    rfl⟩ := h
  have hk : (size - 0) / pageSize = n := by
    rw [hsize, Nat.sub_zero, Nat.mul_div_cancel _ pageSize_pos]
  rw [addPagesToFreeList_eq rfl rfl rfl] at h₂
  dsimp only at h₂
  rw [hk, hsize] at h₂
  cases h₂
  refine ⟨rfl, hne, hle, fun _ => defaultMappingProt, max s.fileLen (0 + size), ?_⟩
  simp [bytes2pgs]
  rfl

theorem space_nlmInit {s s' : Pm} {nlm : Nlm} {size n : ℕ} (hn : 0 < n)
    (hsize : size = n * pageSize) (h0 : s.fileLen = 0) (h : Returns (nlmInit size) s nlm s') :
    nlm.Good id n ∧ nlm.startAddr = s.mapHint ∧
      nlm.freeHead.map (·.addr) = pageAddrs s.mapHint n ∧
      ∃ prot len, s' = { s with prot := prot, fileLen := len, vmap := id } := by
  obtain ⟨rfl, hne, -, hs'⟩ := returns_nlmInit_new hsize h0 h
  obtain ⟨hg, hhead⟩ := @good_withPages
    ⟨n * pageSize, 0, s.mapHint, false, false, 0, 0, [], none, []⟩ n hn rfl hne rfl rfl
  exact ⟨⟨hg.pos, hg.size, hg.start, hg.perm, hg.pgoff, hg.isFree, hg.freeSize, hg.freeLast⟩, rfl,
    hhead, hs'⟩

/-- **A new file**: all its pages are free. -/
theorem space_pageAllocatorInit {kind : MapperKind} {s s' : Pm} {size n : ℕ} {u : Unit} (hn : 0 < n)
    (hsize : size = n * pageSize) (h0 : s.fileLen = 0) (hal : s.mapHint % pageSize = 0)
    (h : Returns (pageAllocatorInit kind size) s u s') :
    s'.Space n (List.range n) ∧ s'.startAddr = s.mapHint ∧
      ∃ pa prot len, s' = { s with pa := pa, prot := prot, fileLen := len, vmap := id } := by
  cases kind with
  | fixedMapper =>
    unfold pageAllocatorInit at h
    simp only [returns_bind, returns_modify] at h
    obtain ⟨fm, t, hinit, rfl⟩ := h
    obtain ⟨hg, hst, hhead, prot, len, rfl⟩ := space_fixedMapperInit hn hsize h0 hinit
    refine ⟨⟨⟨hg, rfl, hhead, rfl⟩, ?_, fun _ _ _ _ h => h, fun _ h => h⟩, hst, _, _, _, rfl⟩
    show fm.startAddr % pageSize = 0
    rw [hst, hal]
  | nonlinearMapper =>
    unfold pageAllocatorInit at h
    simp only [returns_bind, returns_modify] at h
    obtain ⟨nlm, t, hinit, rfl⟩ := h
    obtain ⟨hg, hst, hhead, prot, len, rfl⟩ := space_nlmInit hn hsize h0 hinit
    refine ⟨⟨⟨hg, rfl, ?_⟩, ?_, fun _ _ _ _ h => h, fun _ h => h⟩, hst, _, _, _, rfl⟩
    · show _ = (List.range n).map (nlm.startAddr + · * pageSize)
      rw [hhead, hst]
      rfl
    · show nlm.startAddr % pageSize = 0
      rw [hst, hal]

end LibPM

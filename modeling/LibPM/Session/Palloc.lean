import LibPM.Session.Entries
import LibPM.Session.Frame

/-!
# Allocating an object

`slab_palloc` takes an entry from the list of the size, or the next free entry, has the bucket copied, and marks an
object of the entry. Between two allocations every entry that has left the free list is initialised.
-/

namespace LibPM

open Recorded Recorded.Prog

/-! ## The kind of the mapper -/

/-- The fixed mapper stays in use. -/
def Pm.StaysFixed (s s' : Pm) : Prop := s.IsFixed → s'.IsFixed

namespace StaysFixed

instance : IsTrans Pm Pm.StaysFixed := ⟨fun _ _ _ h h' hf => h' (h hf)⟩

instance : Std.Refl Pm.StaysFixed := ⟨fun _ hf => hf⟩

theorem mapFile (fm : FixedMapper) (updateMappings : Bool) : Keeps Pm.StaysFixed (mapFile fm updateMappings) :=
  keeps_get.bind fun _ => (Keeps.when (keeps_require.bind fun _ => keeps_get.bind fun _ => keeps_require)).bind
    fun _ => keeps_require.bind fun _ => (Keeps.modify fun _ hf => hf).bind fun _ => (Keeps.when (Keeps.forM
      fun _ _ => keeps_ofOption.bind fun _ => Keeps.modify fun _ hf => hf)).bind fun _ => keeps_pure

theorem getpage (flags : Prot) : Keeps Pm.StaysFixed (pageAllocatorGetpage flags) := by
  intro s x s' hr hf
  have hkeep := hf
  obtain ⟨fm, hfm⟩ := hf
  unfold pageAllocatorGetpage at hr
  rw [returns_bind] at hr
  obtain ⟨_, _, hget, hr⟩ := hr
  obtain ⟨rfl, rfl⟩ := returns_get.mp hget
  rw [hfm] at hr
  have hgrow : ∀ size, Keeps Pm.StaysFixed (fixedMapperGrowFile fm size) := fun size =>
    keeps_ofResult.bind fun _ => (Keeps.modify fun _ hf => hf).bind fun _ => keeps_pure
  have halloc : Keeps Pm.StaysFixed (fixedMapperAllocPage fm flags) := by
    refine Keeps.bind (Keeps.ite ((hgrow _).bind fun fm => mapFile fm true) keeps_pure) fun fm =>
      keeps_ofResult.bind fun ⟨p, fm⟩ => keeps_ofOption.bind fun _ => ?_
    exact (Keeps.modify fun _ _ => ⟨_, rfl⟩).bind fun _ => (Keeps.when (Keeps.modify fun _ hf => hf)).bind
      fun _ => keeps_pure
  exact halloc hr hkeep

theorem freepages (a : ℕ) : Keeps Pm.StaysFixed (pageAllocatorFreepages a) := by
  intro s x s' hr hf
  have hkeep := hf
  obtain ⟨fm, hfm⟩ := hf
  unfold pageAllocatorFreepages at hr
  rw [returns_bind] at hr
  obtain ⟨_, _, hget, hr⟩ := hr
  obtain ⟨rfl, rfl⟩ := returns_get.mp hget
  rw [hfm] at hr
  have hfree : Keeps Pm.StaysFixed (fixedMapperFreepages fm a) :=
    keeps_require.bind fun _ => keeps_require.bind fun _ => keeps_ofOption.bind fun _ => keeps_ofResult.bind
      fun _ => Keeps.modify fun _ _ => ⟨_, rfl⟩
  exact hfree hr hkeep

theorem swap (xaddr ypgoff yaddr xpgoff : ℕ) :
    Keeps Pm.StaysFixed (pageAllocatorSwapMappings xaddr ypgoff yaddr xpgoff) := by
  intro s x s' hr hf
  obtain ⟨nlm, hnlm, -⟩ := returns_swapMappings hr
  exact absurd hf (Pm.not_isFixed hnlm)

instance : Counted Pm.StaysFixed where
  getpage := getpage
  freepages := freepages
  swap := swap
  prot _ _ hf := hf
  file _ _ hf := hf
  records _ _ _ hf := hf
  buckets _ _ hf := hf

end StaysFixed

namespace Pm

variable {s s' t : Pm} {v v' : View} {lost lost' : Multiset ℕ} {i j k p size : ℕ} {u : Unit}

/-! ## New entries -/

/-- The entry `i` is `e`, after stores to it. -/
structure Stored (s : Pm) (v : View) (i : ℕ) (e : SlabEntry) (t : Pm) : Prop where
  shows : t.Shows (v.setEntry i e)
  same : s.SameData v.toPlaces t

/-- One more store to an entry the directory does not list. -/
theorem Stored.update {e : SlabEntry} (h : s.Stored v i e t) (hq : v.Quiet) (hi : i < v.cap)
    (hfree : v.ref i ∉ v.dir.sdMaddrRoot) {f : SlabEntry → SlabEntry}
    (hr : Returns (LibPM.updateEntry (v.ref i) f) t u s') : ∃ e', e' = f e ∧ s.Stored v i e' s' := by
  obtain ⟨e', he', hs, hm⟩ := h.shows.updateFree hq hi hfree hr
  exact ⟨e', he', hs, h.same.trans hm⟩

/-- **`slab_entry_init`**, and the insertion of the entry in the directory. -/
theorem Holds.initEntry (h : s.Holds v lost) (hlt : v.used < v.taken) (hsize : size ≤ pageSize)
    (hfirst : ∀ k, (v.queue (.size k)).first = some (v.ref v.used) → size = k)
    (h₁ : Returns (slabEntryInit (v.ref v.used) size) s u t)
    (h₂ : Returns (usedInsert (v.addr 1) (v.ref v.used)) t u s') :
    ∃ p n free laddr e, TakesPage p v.n v.free n free ∧
      e = (v.entry v.used).initial (v.addr p) laddr size v.used ∧
      s'.Holds ((v.sized n free).addEntry e) lost ∧ s.Evolves v ∅ s' ((v.sized n free).addEntry e) := by
  have hcap : v.used < v.cap := hlt.trans_le h.ok.taken
  unfold slabEntryInit at h₁
  rw [returns_bind] at h₁
  obtain ⟨⟨maddr, laddr⟩, s₁, h₁, hr⟩ := h₁
  obtain ⟨p, n, free, ht⟩ := h.shows.space.getpage h₁
  have hs₁ := ht.shows h.shows
  have hmaddr : maddr = v.addr p := by rw [ht.maddr, ← h.shows.addr_eq]
  subst hmaddr
  have hnext : s₁.nextSlabEntryId = v.used := (ht.next h).2
  have hid : v.used + 1 < 2 ^ 32 := by
    have hb := h.linked.buckets_le
    have hmax : View.maxBuckets = 16129 := by decide
    unfold Places.cap at hcap
    simp only [slabBucketEntries_eq] at hcap
    omega
  unfold LibPM.retypePage getNextSlabEntryId at hr
  simp only [returns_bind, returns_get, returns_ofOption, returns_modify, returns_pure] at hr
  obtain ⟨_, _, ⟨_, _, ⟨rfl, rfl⟩, j, _, ⟨hj, rfl⟩, rfl⟩, _, t₁, g₁, _, t₂, g₂, _, t₃, g₃, _, t₄, g₄, _, t₅, g₅, _, t₆, g₆,
    _, t₇, g₇, _, t₈, g₈, _, t₉, g₉, _, t₁₀, g₁₀, _, t₁₁, g₁₁, _, _, ⟨_, _, ⟨rfl, rfl⟩, _, _, rfl, rfl, rfl⟩, g₁₂⟩ := hr
  unfold Pm.fpage at hj
  rw [show v.addr p = (v.sized n free).addr p from rfl, hs₁.vpage ht.takes.lt] at hj
  cases hj
  have hs₂ := hs₁.setData ht.takes.lt (ht.notMeta h) (.data (s₁.bytesOf (s₁.page p)))
  have hq : (v.sized n free).Quiet := h.quiet
  have hfree : (v.sized n free).ref v.used ∉ (v.sized n free).dir.sdMaddrRoot := h.ref_used_notMem hcap
  -- the stores to the entry, each to what the one before it left
  obtain ⟨hs₃, hm₃⟩ := hs₂.updateEntry hq hcap g₁
  have st₁ : Stored _ (v.sized n free) v.used _ t₁ := ⟨hs₃, hm₃⟩
  obtain ⟨e₂, he₂, st₂⟩ := st₁.update hq hcap hfree g₂
  obtain ⟨e₃, he₃, st₃⟩ := st₂.update hq hcap hfree g₃
  obtain ⟨e₄, he₄, st₄⟩ := st₃.update hq hcap hfree g₄
  obtain ⟨e₅, he₅, st₅⟩ := st₄.update hq hcap hfree g₅
  obtain ⟨e₆, he₆, st₆⟩ := st₅.update hq hcap hfree g₆
  obtain ⟨e₇, he₇, st₇⟩ := st₆.update hq hcap hfree g₇
  obtain ⟨e₈, he₈, st₈⟩ := st₇.update hq hcap hfree g₈
  obtain ⟨e₉, he₉, st₉⟩ := st₈.update hq hcap hfree g₉
  obtain ⟨e₁₀, he₁₀, st₁₀⟩ := st₉.update hq hcap hfree g₁₀
  obtain ⟨e₁₁, he₁₁, st₁₁⟩ := st₁₀.update hq hcap hfree g₁₁
  have hnext₁₁ : t₁₁.nextSlabEntryId = v.used := by
    obtain ⟨file, sizes, rfl⟩ := st₁₁.same.same
    exact hnext
  rw [hnext₁₁, Nat.mod_eq_of_lt hid] at g₁₂
  have st := st₁₁.same.setNextEntry (v.used + 1)
  obtain ⟨e₁₂, he₁₂, st₁₂⟩ := Stored.update ⟨st₁₁.shows.setNextEntry (v.used + 1), st⟩ hq hcap hfree g₁₂
  have he : e₁₂ = (v.entry v.used).initial (v.addr p) laddr size v.used := by
    simp only [he₁₂, he₁₁, he₁₀, he₉, he₈, he₇, he₆, he₅, he₄, he₃, he₂]
    rfl
  have hmaddr : e₁₂.dataCurrent.maddr = v.addr p := by
    rw [he]
    rfl
  obtain ⟨hs', hm⟩ := Shows.insertInitial (v := v.sized n free) st₁₂.shows (h.ok.sized n free) hq hcap hfree hmaddr
    (ht.notData h) h₂
  have hsame := st₁₂.same.trans hm
  exact ⟨p, n, free, laddr, e₁₂, ht.takes, he, ht.addEntry_holds h he hlt hs' hsame hsize hfirst,
    ht.addEntry_evolves h he hsame⟩

end Pm

/-! ## Between two calls -/

/-- No list of a size is empty. -/
def View.Headed (v : View) : Prop := ∀ n, v.HasQueue (.size n) → (v.queue (.size n)).first ≠ none

/-- The flag of a bucket is only set if the slot of the bucket has a snapshot. -/
def View.Flagged (v : View) : Prop :=
  ∀ b < v.linked, (v.bucket b).sbHasSnapshot ≠ 0 → (v.siSnapshot b).maddr ≠ (v.siCurrent b).maddr

/-- The state between two calls: every entry that has left the free list is initialised. -/
structure Pm.Idle (s : Pm) (v : View) (lost : Multiset ℕ) : Prop where
  holds : s.Holds v lost
  complete : v.Complete
  free : v.FreeRange v.taken v.cap
  used : v.used = v.taken
  headed : v.Headed

/-- The list of a size is there, with no entries. -/
def View.addSize (v : View) (n : ℕ) : View := { v with sizes := ⟨n, Stailq.init⟩ :: v.sizes }

namespace View

variable {v v' : View} {k n i : ℕ}

theorem Flagged.congr (h : v.Flagged) (hl : v'.linked = v.linked) (hi : v'.inner = v.inner)
    (hf : ∀ b, (v'.bucket b).sbHasSnapshot = (v.bucket b).sbHasSnapshot) : v'.Flagged := by
  intro b hb
  unfold siSnapshot siCurrent
  rw [hf b, hi]
  exact h b (hl ▸ hb)

theorem Flagged.relink (h : v.Flagged) (hr : v.Relinked v') : v'.Flagged := h.congr hr.linked hr.inner hr.flag

/-- New buckets have no flag. -/
theorem Flagged.grown (h : v.Flagged) (hc : v.Complete) (hc' : v'.Complete) (hg : v.Grown v') : v'.Flagged := by
  intro b hb
  by_cases hlt : b < v.linked
  · obtain ⟨hcur, hsnap⟩ := hg.slot b hlt
    rw [hg.flag b (hc.linked ▸ hlt), hcur, hsnap]
    exact h b hlt
  · intro hne
    exact absurd (hg.newFlag b (hc.linked ▸ Nat.not_lt.mp hlt) (hc'.linked ▸ hb)) hne

theorem relinked_addSize (v : View) (n : ℕ) : v.Relinked (v.addSize n) :=
  ⟨rfl, rfl, rfl, rfl, rfl, rfl, ⟨_, rfl⟩, rfl, rfl, fun _ => rfl, fun _ => rfl, fun _ => ⟨_, rfl⟩⟩

theorem hasQueue_addSize (v : View) (n : ℕ) : (v.addSize n).HasQueue (.size n) := by
  unfold HasQueue addSize
  dsimp only
  rw [List.find?_cons, beq_self_eq_true]
  rfl

theorem hasQueue_addSize_of_ne (v : View) {q : Queue} (h : q ≠ .size n) : (v.addSize n).HasQueue q ↔ v.HasQueue q := by
  cases q with
  | free => rfl
  | size k =>
    have hk : (n == k) = false := beq_eq_false_iff_ne.mpr fun he => h (by rw [he])
    unfold HasQueue addSize
    dsimp only
    rw [List.find?_cons, hk]

theorem queue_addSize (v : View) (n : ℕ) : (v.addSize n).queue (.size n) = Stailq.init := by
  unfold queue addSize
  dsimp only
  rw [List.find?_cons, beq_self_eq_true]

theorem queue_addSize_of_ne (v : View) {q : Queue} (h : q ≠ .size n) : (v.addSize n).queue q = v.queue q := by
  cases q with
  | free => rfl
  | size k =>
    have hk : (n == k) = false := beq_eq_false_iff_ne.mpr fun he => h (by rw [he])
    unfold queue addSize
    dsimp only
    rw [List.find?_cons, hk]

end View

namespace Pm

variable {s s' t : Pm} {v v' : View} {lost lost' : Multiset ℕ} {i j k n p size : ℕ} {u : Unit} {r : EntryRef}

/-! ## The lists of sizes -/

/-- **`slab_entry_size_init`.** -/
theorem Holds.slabEntrySizeInit (h : s.Holds v lost) (hr : Returns (slabEntrySizeInit n) s u s') :
    s'.Holds (v.addSize n) lost ∧ s.Evolves v ∅ s' (v.addSize n) := by
  unfold LibPM.slabEntrySizeInit at hr
  obtain rfl := returns_modify.mp hr
  obtain ⟨hs, hm⟩ := h.shows.onSize (⟨n, Stailq.init⟩ :: s.sizes)
  have hview : ({ v with sizes := ⟨n, Stailq.init⟩ :: s.sizes } : View) = v.addSize n := by
    unfold View.addSize
    rw [h.shows.sizes]
  rw [hview] at hs
  have hcases : ∀ k, (v.addSize n).queue (.size k) = Stailq.init ∨ (v.addSize n).queue (.size k) = v.queue (.size k) := by
    intro k
    by_cases hk : k = n
    · exact .inl (hk ▸ View.queue_addSize v n)
    · exact .inr (View.queue_addSize_of_ne v fun he => hk (Queue.size.inj he))
  refine h.relink hs hm (View.relinked_addSize v n) (fun k => ?_) (fun k => ?_) fun k i hf hi => ?_
  · rcases hcases k with he | he <;> rw [he]
    · exact fun r hr => absurd hr (by simp [Stailq.init])
    · exact h.ok.first k
  · rcases hcases k with he | he <;> rw [he]
    · exact fun r hr => absurd hr (by simp [Stailq.init])
    · exact h.ok.last k
  · rcases hcases k with he | he <;> rw [he] at hf
    · exact absurd hf (by simp [Stailq.init])
    · exact h.ok.size k i hf hi

/-- What an operation on the list of size `n` leaves as it is. -/
structure Listed (s : Pm) (v : View) (lost : Multiset ℕ) (n : ℕ) (s' : Pm) (v' : View) : Prop where
  holds : s'.Holds v' lost
  evolves : s.Evolves v ∅ s' v'
  relinked : v.Relinked v'
  this : v.HasQueue (.size n)
  has : ∀ q, v'.HasQueue q ↔ v.HasQueue q
  other : ∀ q, q ≠ .size n → v'.queue q = v.queue q
  link : ∀ j, v.taken ≤ j → j < v.cap → (v'.entry j).seList = (v.entry j).seList

theorem Listed.complete (h : s.Listed v lost n s' v') (hc : v.Complete) : v'.Complete := by
  obtain ⟨hso, hlinked, hpos, hspan⟩ := hc
  rw [← h.relinked.linked] at hlinked
  rw [← h.relinked.outer] at hso
  have hp := h.relinked.places
  refine ⟨?_, ?_, ?_, ?_⟩
  · rw [hso, hp]
  · rw [hlinked, hp]
  · rw [hp]
    exact hpos
  · rw [hp]
    exact hspan

theorem Listed.freeRange (h : s.Listed v lost n s' v') (hf : v.FreeRange v.taken v.cap) :
    v'.FreeRange v'.taken v'.cap := by
  rw [h.relinked.taken, h.relinked.cap]
  exact hf.congr h.relinked (h.other .free (by simp)) h.link

/-- An entry joins the front of a list. -/
theorem Holds.insertHead (h : s.Holds v lost) (hi : i < v.taken) (hsize : i < v.used → (v.entry i).seSize = n)
    (hr : Returns (stailqInsertHead (esListAt n) (v.ref i)) s u s') :
    ∃ v', s.Listed v lost n s' v' ∧ (v'.queue (.size n)).first = some (v.ref i) := by
  have hcap := hi.trans_le h.ok.taken
  obtain ⟨v', hre, hs, hm, hhas, hqueue, hother, hhas', hlink⟩ :=
    requeues_insertHead (q := .size n) h.shows h.quiet hcap hr
  have htaken : v.RefsTaken v.taken (some (v.ref i)) := fun x hx => ⟨i, hi, (Option.some.inj hx).symm⟩
  have hfirst : (v'.queue (.size n)).first = some (v.ref i) := by rw [hqueue]
  suffices hh : s'.Holds v' lost ∧ s.Evolves v ∅ s' v' from
    ⟨v', ⟨hh.1, hh.2, hre, hhas, hhas', hother, fun j hj _ => hlink j (by omega)⟩, hfirst⟩
  refine h.relink hs hm hre (fun k => ?_) (fun k => ?_) fun k j hf hj => ?_
  · by_cases hk : k = n
    · rw [hk, hfirst]
      exact htaken
    · rw [hother _ fun he => hk (Queue.size.inj he)]
      exact h.ok.first k
  · by_cases hk : k = n
    · rw [hk, hqueue]
      dsimp only
      split_ifs
      · exact htaken
      · exact h.ok.last n
    · rw [hother _ fun he => hk (Queue.size.inj he)]
      exact h.ok.last k
  · by_cases hk : k = n
    · rw [hk, hfirst] at hf
      obtain rfl := h.shows.wf.ref_inj hcap (h.lt_cap hj) (Option.some.inj hf)
      rw [hk]
      exact hsize hj
    · rw [hother _ fun he => hk (Queue.size.inj he)] at hf
      exact h.ok.size k j hf hj

/-- An entry joins the end of a list. -/
theorem Holds.insertTail (h : s.Holds v lost) (hi : i < v.used) (hsize : (v.entry i).seSize = n)
    (hr : Returns (stailqInsertTail (esListAt n) (v.ref i)) s u s') : ∃ v', s.Listed v lost n s' v' ∧
      ((v.queue (.size n)).first ≠ none → (v'.queue (.size n)).first ≠ none) := by
  have htk := hi.trans_le h.ok.used
  have hcap := htk.trans_le h.ok.taken
  have hlast : ∀ r ∈ (v.queue (.size n)).last, ∃ j < v.taken, r = v.ref j := h.ok.last n
  obtain ⟨v', hre, hs, hm, hhas, hqueue, hother, hhas', hlink⟩ := requeues_insertTail (q := .size n) h.shows h.quiet hcap
    (fun r hr => (hlast r hr).imp fun _ hj => ⟨hj.1.trans_le h.ok.taken, hj.2⟩) hr
  have htaken : v.RefsTaken v.taken (some (v.ref i)) := fun x hx => ⟨i, htk, (Option.some.inj hx).symm⟩
  suffices hh : s'.Holds v' lost ∧ s.Evolves v ∅ s' v' by
    refine ⟨v', ⟨hh.1, hh.2, hre, hhas, hhas', hother, fun j hj hc => ?_⟩, fun hne => ?_⟩
    · rw [hlink j hc]
      unfold tailLink
      rw [if_neg, if_neg (by omega)]
      intro hl
      obtain ⟨k, hk, he⟩ := hlast _ hl
      have := h.shows.wf.ref_inj hc (hk.trans_le h.ok.taken) he
      omega
    · rw [hqueue]
      dsimp only
      split_ifs
      · exact Option.some_ne_none _
      · exact hne
  refine h.relink hs hm hre (fun k => ?_) (fun k => ?_) fun k j hf hj => ?_
  · by_cases hk : k = n
    · rw [hk, hqueue]
      dsimp only
      split_ifs
      · exact htaken
      · exact h.ok.first n
    · rw [hother _ fun he => hk (Queue.size.inj he)]
      exact h.ok.first k
  · by_cases hk : k = n
    · rw [hk, hqueue]
      exact htaken
    · rw [hother _ fun he => hk (Queue.size.inj he)]
      exact h.ok.last k
  · by_cases hk : k = n
    · rw [hk, hqueue] at hf
      dsimp only at hf
      split_ifs at hf
      · obtain rfl := h.shows.wf.ref_inj hcap (h.lt_cap hj) (Option.some.inj hf)
        rw [hk]
        exact hsize
      · rw [hk]
        exact h.ok.size n j hf hj
    · rw [hother _ fun he => hk (Queue.size.inj he)] at hf
      exact h.ok.size k j hf hj

/-! ## The entry of an allocation -/

/-- The entry `i` is to be allocated from: it was in use and has room, or it is the next one. -/
structure Picked (s : Pm) (v : View) (lost : Multiset ℕ) (n i : ℕ) (s' : Pm) (v' : View) : Prop where
  holds : s'.Holds v' lost
  evolves : s.Evolves v ∅ s' v'
  complete : v'.Complete
  free : v'.FreeRange v'.taken v'.cap
  used : v'.used = v.used
  cap : v.cap ≤ v'.cap
  has : v'.HasQueue (.size n)
  headed : v'.Headed
  flagged : v.Flagged → v'.Flagged
  entry : i < v.used ∧ s' = s ∧ v' = v ∧ (v.entry i).seSize = n ∧ ¬ s.Full v i ∧ v.used = v.taken ∨
    i = v.used ∧ v'.taken = v.used + 1 ∧ ∀ k, (v'.queue (.size k)).first = some (v'.ref i) → n = k

/-- The next free entry joins the list of size `n`. -/
theorem Holds.pickFree {s₁ : Pm} (h : s.Holds v lost) (hc : v.Complete) (hf : v.FreeRange v.taken v.cap)
    (hu : v.used = v.taken) (hclean : v.taken = v.cap → s.CleanNode v)
    (hhead : ∀ k, k ≠ n → v.HasQueue (.size k) → (v.queue (.size k)).first ≠ none)
    (h₁ : Returns LibPM.getFreeSlabEntry s r s₁) (h₂ : Returns (stailqInsertHead (esListAt n) r) s₁ u s') :
    ∃ v', s.Picked v lost n v.used s' v' ∧ r = v'.ref v.used := by
  obtain ⟨v₁, hh₁, hv₁, hg, hc₁, ht, hf₁, rfl, -⟩ := h.getFreeSlabEntry hc hf hclean h₁
  have hlt : v.taken < v₁.taken := by omega
  have hnot : ¬ v.taken < v₁.used := by
    rw [hg.used, hu]
    exact Nat.lt_irrefl _
  obtain ⟨v', hl, hfirst⟩ := hh₁.insertHead hlt (fun hi => absurd hi hnot) h₂
  refine ⟨v', ⟨hl.holds, hh₁.trans hv₁ hl.evolves hg.cap, hl.complete hc₁, hl.freeRange hf₁,
    hl.relinked.used.trans hg.used, hl.relinked.cap ▸ hg.cap, (hl.has _).mpr hl.this, fun k hk => ?_,
    fun hfl => (hfl.grown hc hc₁ hg).relink hl.relinked, .inr ⟨rfl, ?_, fun k hk => ?_⟩⟩, ?_⟩
  · by_cases hkn : k = n
    · rw [hkn, hfirst]
      exact Option.some_ne_none _
    · have hne : Queue.size k ≠ .size n := fun he => hkn (Queue.size.inj he)
      rw [hl.other _ hne, hg.queue _ (by simp)]
      exact hhead k hkn ((hg.has _).mp ((hl.has _).mp hk))
  · rw [hl.relinked.taken, ht, hu]
  · by_contra hkn
    have hne : Queue.size k ≠ .size n := fun he => hkn (Queue.size.inj he).symm
    rw [hl.other _ hne, hg.queue _ (by simp), hl.relinked.ref] at hk
    obtain ⟨j, hj, he⟩ := h.ok.first k _ hk
    have hjc := hj.trans_le h.ok.taken
    rw [← hg.ref hjc] at he
    have := hh₁.shows.wf.ref_inj (hu ▸ hlt.trans_le hh₁.ok.taken) (hjc.trans_le hg.cap) he
    omega
  · rw [hl.relinked.ref, hu]

/-- **The first part of `slab_palloc`.** -/
theorem Idle.pallocEntry (h : s.Idle v lost) (hclean : v.taken = v.cap → s.CleanNode v)
    (hr : Returns (LibPM.pallocEntry n) s r s') : ∃ v' i, s.Picked v lost n i s' v' ∧ r = v'.ref i := by
  have hh := h.holds
  unfold LibPM.pallocEntry at hr
  rw [returns_bind] at hr
  obtain ⟨_, _, hget, hr⟩ := hr
  obtain ⟨rfl, rfl⟩ := returns_get.mp hget
  rw [hh.shows.sizes] at hr
  cases hfind : v.sizes.find? (·.esSize == n) with
  | some es =>
    rw [hfind] at hr
    simp only [returns_bind, returns_ofOption] at hr
    obtain ⟨se, _, ⟨hse, rfl⟩, full, s₁, h₁, hr⟩ := hr
    have hhas : v.HasQueue (.size n) := by
      show (v.sizes.find? (·.esSize == n)).isSome = true
      rw [hfind]
      rfl
    have hqueue : v.queue (.size n) = es.esList := by
      unfold View.queue
      dsimp only
      rw [hfind]
    obtain ⟨i, hi, rfl⟩ := hh.ok.first n se (by rw [hqueue, hse]; rfl)
    rw [← h.used] at hi
    obtain ⟨rfl, hfull, -⟩ := hh.slabEntryFull hi h₁
    cases full with
    | true =>
      rw [if_pos rfl] at hr
      simp only [returns_bind, returns_pure] at hr
      obtain ⟨se, s₂, h₂, _, s₃, h₃, rfl, rfl⟩ := hr
      obtain ⟨v', hp, rfl⟩ := hh.pickFree h.complete h.free h.used hclean (fun k _ => h.headed k) h₂ h₃
      exact ⟨v', v.used, hp, rfl⟩
    | false =>
      rw [if_neg Bool.false_ne_true] at hr
      obtain ⟨rfl, rfl⟩ := returns_pure.mp hr
      have hsize := hh.ok.size n i (by rw [hqueue, hse]) hi
      exact ⟨v, i, ⟨hh, .refl s v ∅, h.complete, h.free, rfl, Nat.le_refl _, hhas, h.headed, id,
        .inl ⟨hi, rfl, rfl, hsize, fun hf => Bool.false_ne_true (hfull.mpr hf), h.used⟩⟩, rfl⟩
  | none =>
    rw [hfind] at hr
    simp only [returns_bind, returns_pure] at hr
    obtain ⟨_, s₁, h₁, se, s₂, h₂, _, s₃, h₃, rfl, rfl⟩ := hr
    obtain ⟨hh₁, hv₁⟩ := hh.slabEntrySizeInit h₁
    have hclean₁ : (v.addSize n).taken = (v.addSize n).cap → s₁.CleanNode (v.addSize n) := by
      intro hcap hlinked
      have hbytes : s₁.restBytes v.n (v.upcoming v.outerPages) = s.restBytes v.n (v.upcoming v.outerPages) :=
        hv₁.bytes _ (View.rests_upcoming (v := v.addSize n) hh.two_le v.outerPages_le) (Set.notMem_empty _)
      show (innerOfBytes (s₁.restBytes v.n (v.upcoming v.outerPages))).Clean
      rw [hbytes]
      exact hclean hcap hlinked
    have hheads : ∀ k, k ≠ n → (v.addSize n).HasQueue (.size k) → ((v.addSize n).queue (.size k)).first ≠ none := by
      intro k hk hhas
      have hne : Queue.size k ≠ .size n := fun he => hk (Queue.size.inj he)
      rw [View.queue_addSize_of_ne v hne]
      exact h.headed k ((View.hasQueue_addSize_of_ne v hne).mp hhas)
    obtain ⟨v', hp, rfl⟩ := hh₁.pickFree ⟨h.complete.soIndex, h.complete.linked, h.complete.pos, h.complete.span⟩
      ⟨h.free.first, h.free.last, h.free.next⟩ h.used hclean₁ hheads h₂ h₃
    refine ⟨v', v.used, ⟨hp.holds, hh₁.trans hv₁ hp.evolves (Nat.le_refl _), hp.complete, hp.free, hp.used, hp.cap,
      hp.has, hp.headed, fun hfl => hp.flagged (hfl.relink (View.relinked_addSize v n)), .inr ?_⟩, rfl⟩
    rcases hp.entry with ⟨hlt, -⟩ | hentry
    · exact absurd hlt (Nat.lt_irrefl v.used)
    · exact hentry

end Pm

/-! ## The flag of a bucket -/

/-- The flag of bucket `b` is `t`. -/
def View.setFlag (v : View) (b t : ℕ) : View := v.setBucket b { v.bucket b with sbHasSnapshot := t }

namespace View

variable {v : View} {lost : Multiset ℕ} {b t : ℕ}

theorem setFlag_sbId (v : View) (b t c : ℕ) : ((v.setFlag b t).bucket c).sbId = (v.bucket c).sbId := by
  unfold setFlag
  by_cases hc : c = b
  · rw [hc, setBucket_bucket]
  · rw [setBucket_bucket_of_ne _ _ hc]

theorem setFlag_entry (v : View) (b t i : ℕ) : (v.setFlag b t).entry i = v.entry i := by
  unfold entry setFlag
  by_cases hb : i / slabBucketEntries = b
  · rw [hb, setBucket_bucket]
  · rw [setBucket_bucket_of_ne _ _ hb]

theorem setFlag_sbHasSnapshot (v : View) (b t c : ℕ) :
    ((v.setFlag b t).bucket c).sbHasSnapshot = if c = b then t else (v.bucket c).sbHasSnapshot := by
  unfold setFlag
  by_cases hc : c = b
  · rw [if_pos hc, hc, setBucket_bucket]
  · rw [if_neg hc, setBucket_bucket_of_ne _ _ hc]

theorem Linked.setFlag (h : v.Linked) : (v.setFlag b t).Linked :=
  ⟨h.current, h.committed, h.sdIndex, h.sdCurrent, h.sdOther, h.sdSnapshot, h.sdSame, h.soIndex,
    h.inners, h.soCurrent, h.soSnapshot, h.soSame, h.linked, h.buckets, h.siIndex, h.siCurrent, h.siSnapshot,
    h.siOther, fun c hc => (setFlag_sbId v b t c).trans (h.sbId c hc)⟩

theorem Ok.setFlag (h : v.Ok) : (v.setFlag b t).Ok := by
  refine ⟨h.used, h.taken, h.root, fun i hi => ?_, fun i hi => ?_, fun i hi hc => ?_, h.first, h.last,
    fun n i hf hi => ?_, h.vector⟩ <;> rw [setFlag_entry]
  · exact h.entry i hi
  · exact h.seId i hi
  · exact h.blank i hi hc
  · exact h.size n i hf hi

theorem Balanced.setFlag (h : v.Balanced lost) : (v.setFlag b t).Balanced lost := by
  refine h.same (fun y _ => ?_) rfl rfl
  cases y with
  | entry i =>
    unfold held
    dsimp only
    rw [setFlag_entry]
    rfl
  | _ => rfl

theorem Paired.setFlag (h : v.Paired) : (v.setFlag b t).Paired :=
  ⟨h.cont, h.sdCurrent, h.sdSnapshot, h.soCurrent, h.soSnapshot, h.siCurrent, h.siSnapshot, fun i hi => by
    rw [setFlag_entry]
    exact h.entry i hi⟩

theorem touched_setFlag (v : View) (b t : ℕ) : v.Touched (v.setFlag b t) :=
  ⟨⟨rfl, rfl, rfl, rfl, rfl, rfl, rfl, rfl, fun i _ _ => by rw [setFlag_entry]⟩, rfl, rfl, fun i _ => by
    rw [setFlag_entry]⟩

end View

namespace Pm

variable {s s' t : Pm} {v v' : View} {lost lost' : Multiset ℕ} {a b f i j k n p size : ℕ} {u : Unit} {r : EntryRef}

theorem Holds.setFlag (h : s.Holds v lost) (hb : b < v.buckets)
    (hr : Returns (updatePage (v.addr (v.bucketPage b)) (Page.onBucket fun x => { x with sbHasSnapshot := f })) s u s') :
    s'.Holds (v.setFlag b f) lost ∧ s.Evolves v ∅ s' (v.setFlag b f) := by
  obtain ⟨hs, hm⟩ := h.shows.updateBucket h.quiet hb hr
  replace hs : s'.Shows (v.setFlag b f) := hs
  have hentry := View.setFlag_entry v b f
  exact h.update hs hm rfl rfl h.linked.setFlag h.ok.setFlag h.balanced.setFlag (fun i _ => by rw [hentry])
    (fun i _ => by rw [hentry]) (fun i _ _ _ _ => by rw [hentry]) (fun i _ => by rw [hentry]) (fun _ ht => .inl ht)
    (fun _ hr => hr) (fun _ hp => hp.setFlag) h.laddr

namespace BucketCopied

variable (hb : s.BucketCopied v lost b f s' v' lost')

include hb

theorem holds (h : s.Holds v lost) : s'.Holds v' lost' := by
  cases hb with
  | skip _ => exact h
  | copy _ _ _ _ hh _ => exact hh

theorem evolves : s.Evolves v ∅ s' v' := by
  cases hb with
  | skip _ => exact .refl s v ∅
  | copy _ _ _ _ _ hv => exact hv

theorem touched : v.Touched v' := by
  cases hb with
  | skip _ => exact .refl v
  | copy _ _ _ _ _ _ => exact ⟨⟨rfl, rfl, rfl, rfl, rfl, rfl, rfl, rfl, fun _ _ _ => rfl⟩, rfl, rfl, fun _ _ => rfl⟩

theorem entry (i : ℕ) : v'.entry i = v.entry i := by
  cases hb with
  | skip _ => rfl
  | copy _ _ _ _ _ _ => rfl

end BucketCopied

end Pm

end LibPM

import LibPM.Allocator.Reopen
import LibPM.Session.Begun
import LibPM.Session.Progress

/-!
# The order of the entries

The requests of a new container get the entries in the order of their ids, and each is the one that
`get_slab_entry_by_id` finds under its id. The tree grows like a counter: a bucket for every
`SLAB_BUCKET_ENTRIES` entries, an inner node for every `SLAB_INNER_ENTRIES` buckets. The outer node has room
for more inner nodes than the directory has slots, and the growth path indexes the directory with the index
of the outer node.
-/

namespace LibPM

open Recorded Recorded.Prog

/-! ## The tree of a container -/

/-- The number of groups of `k` that `n` things make up. -/
def groups (k n : ℕ) : ℕ := (n + (k - 1)) / k

/-- The buckets of a container with `n` entries in use: there is always one. -/
def bucketsFor (n : ℕ) : ℕ := max 1 (groups slabBucketEntries n)

/-- The entries of the buckets that one outer node has room for before the growth path leaves
`sd_current`. -/
def orderedEntries : ℕ := slabBucketEntries * slabInnerEntries * (slabDirEntries + 1)

/-- The carry of the lowest digit. -/
theorem bucketsFor_succ (n : ℕ) : bucketsFor (n + 1) =
    if n = bucketsFor n * slabBucketEntries then bucketsFor n + 1 else bucketsFor n := by
  by_cases hfull : n = bucketsFor n * slabBucketEntries
  · rw [if_pos hfull]
    unfold bucketsFor groups at *
    simp only [slabBucketEntries_eq] at *
    omega
  · rw [if_neg hfull]
    unfold bucketsFor groups at *
    simp only [slabBucketEntries_eq] at *
    omega

namespace Pm

variable {s s' : Pm} {v v' : View} {lost : Multiset ℕ} {k n : ℕ} {r : EntryRef} {rs : List EntryRef}

/-- **An entry is found under its number.** -/
theorem Holds.returns_getSlabEntryById (h : s.Holds v lost) (hc : v.Complete) (hk : k < v.cap) :
    Returns (LibPM.getSlabEntryById k) s (v.ref k) s := by
  have hb : k / slabBucketEntries < v.buckets := Places.div_lt hk
  have hj := h.linked.div_lt hb
  have hle := h.linked.soIndex.trans h.linked.inners
  have hdir : k / slabBucketEntries / slabInnerEntries / slabOuterEntries % slabDirEntries = 0 := by
    rw [Nat.div_eq_of_lt (hj.trans_le (hle.trans (by decide))), Nat.zero_mod]
  have hinner : k / slabBucketEntries / slabInnerEntries % slabOuterEntries =
      k / slabBucketEntries / slabInnerEntries :=
    Nat.mod_eq_of_lt (hj.trans_le (hle.trans (by decide)))
  have hcur := h.linked.siCurrent _ (hb.trans_le hc.linked.ge)
  unfold LibPM.getSlabEntryById LibPM.currentDir
  simp only [returns_bind, returns_loadDir, returns_loadOuter, returns_loadInner, returns_pure]
  refine ⟨v.dir, s, ⟨_, s, h.returns_currentSlab, h.shows.readDir, rfl⟩, v.outer, s, ⟨?_, rfl⟩,
    v.inner (k / slabBucketEntries / slabInnerEntries), s, ⟨?_, rfl⟩, ?_, rfl⟩
  · rw [hdir, h.linked.sdCurrent]
    exact h.shows.readOuter
  · rw [hinner, h.linked.soCurrent _ hj]
    exact h.shows.readInner (hj.trans_le h.linked.soIndex)
  · unfold Places.ref
    rw [← hcur]
    rfl

/-- What `k` requests of a new container leave: their entries were `rs`. -/
structure Hands (k : ℕ) (rs : List EntryRef) (s : Pm) (v : View) : Prop where
  holds : s.Holds v 0
  complete : v.Complete
  free : v.FreeRange v.taken v.cap
  taken : v.taken = k
  buckets : v.buckets = bucketsFor k
  zero : ∀ p, v.Rests p → s.restBytes v.n p = fun _ => 0
  roomy : s.Roomy
  refs : rs = (List.range k).map v.ref

namespace Hands

/-- A page that was never written is a clean node. -/
theorem cleanNode (h : Hands k rs s v) : s.CleanNode v := by
  intro _
  rw [h.zero _ (View.rests_upcoming h.holds.two_le v.outerPages_le)]
  exact ⟨le32_zero 0, fun i _ => le64_zero (8 + 16 * i)⟩

theorem le_cap (h : Hands k rs s v) : k ≤ v.cap := by
  rw [← h.taken]
  exact h.holds.ok.taken

/-- **One more request** gets the next entry. -/
theorem step (h : Hands k rs s v) (hr : Returns getFreeSlabEntry s r s') :
    ∃ v', Hands (k + 1) (rs ++ [r]) s' v' := by
  obtain ⟨v', hh, hv, hg, hc, ht, hf, rfl, hsame, hgrow⟩ :=
    h.holds.getFreeSlabEntry h.complete h.free (fun _ => h.cleanNode) hr
  have hle := h.le_cap
  have hcap : v.cap = bucketsFor k * slabBucketEntries := congrArg (· * slabBucketEntries) h.buckets
  rw [h.taken] at ht hsame hgrow
  refine ⟨v', hh, hc, hf, ht, ?_, fun p hp => ?_, ?_, ?_⟩
  · rw [bucketsFor_succ, ← hcap, ← h.buckets]
    split_ifs with hfull
    · exact hgrow hfull
    · exact congrArg Places.buckets (hsame (by omega)).1
  · rw [hv.bytes p hp (Set.notMem_empty p)]
    exact h.zero p (hv.rests p hp)
  · exact hv.roomy h.holds.shows hh.shows (SameLimit.getFreeSlabEntry hr) h.roomy
  · rw [List.range_succ, List.map_append, h.refs, h.taken]
    refine congrArg (· ++ _) (List.map_congr_left fun i hi => ?_)
    exact (hv.ref i ((List.mem_range.mp hi).trans_le hle)).symm

/-- Below the limit a request returns. -/
theorem total (h : Hands k rs s v) (hk : k < orderedEntries) : Total getFreeSlabEntry s := by
  refine h.holds.total_getFreeSlabEntry h.roomy (Nat.zero_le _) h.complete h.free (fun _ => h.cleanNode)
    fun hcap hfull => ?_
  unfold orderedEntries at hk
  rw [h.taken] at hcap
  unfold Places.cap at hcap
  rw [hcap, hfull] at hk
  simp only [slabBucketEntries_eq, slabInnerEntries_eq, slabDirEntries_eq] at hk ⊢
  omega

end Hands

end Pm

/-! ## The order of the requests -/

end LibPM

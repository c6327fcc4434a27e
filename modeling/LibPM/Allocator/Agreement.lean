import LibPM.Allocator.Reopen
import LibPM.Allocator.Swaps

/-!
# The two mappers agree

Both mappers hand out pages as one queue does: a page that is given back goes to its end, and when it
is empty the file doubles. So they answer alike, as long as no pages are exchanged.
-/

namespace LibPM

open Recorded Recorded.Prog

/-! ## The queue of pages -/

/-- What the caller of a mapper sees of an answer: the offset of the page in the file, its distance
from the start of the mapping, and the length of the file. -/
inductive Reply where
  | page (laddr : ℕ) (offset : ℤ) (fileSize : ℕ)
  | freed (fileSize : ℕ)
  deriving DecidableEq

/-- The pages of a file, with those that are free in the order in which they are handed out. -/
structure PageQueue where
  count : ℕ
  free : List ℕ
  used : List ℕ

namespace PageQueue

def new (n : ℕ) : PageQueue := ⟨n, List.range n, []⟩

/-- The queue once it has a page. -/
def filled (q : PageQueue) : PageQueue :=
  if q.free = [] then { q with count := 2 * q.count, free := List.range' q.count q.count } else q

/-- The answer to a request, unless it gives back a page that is not in use. -/
def serve (q : PageQueue) : PageRequest → Option (Reply × PageQueue)
  | .getpage _ =>
    match q.filled.free with
    | [] => none
    | p :: rest => some (.page (p * pageSize) (p * pageSize) (q.filled.count * pageSize),
        { q.filled with free := rest, used := p :: q.used })
  | .freepages p =>
    if p ∈ q.used then some (.freed (q.count * pageSize),
      { q with free := q.free ++ [p], used := q.used.erase p })
    else none

/-- The answers to a list of requests, both with the latest first. -/
def run (q : PageQueue) : List PageRequest → Option (List Reply × PageQueue)
  | [] => some ([], q)
  | r :: reqs => do
    let (replies, q) ← run q reqs
    let (reply, q) ← q.serve r
    return (reply :: replies, q)

end PageQueue

/-- Requests to the mapper of a new file, with its answers and the addresses of the pages in use; the
latest request comes first. -/
inductive Served (env : Env) : List PageRequest → List Reply → List ℕ → Pm → Prop
  | init {s : Pm} :
      Returns (pageAllocatorInit env.kind env.initSize) (Machine.fresh env).pm () s →
        Served env [] [] [] s
  | getpage {reqs : List PageRequest} {replies : List Reply} {used : List ℕ} {s s' : Pm}
      {flags : Prot} {maddr laddr : ℕ} :
      Served env reqs replies used s → Returns (pageAllocatorGetpage flags) s (maddr, laddr) s' →
        Served env (.getpage flags :: reqs)
          (.page laddr ((maddr : ℤ) - s'.startAddr) s'.mapLen :: replies) (maddr :: used) s'
  | freepages {reqs : List PageRequest} {replies : List Reply} {used : List ℕ} {s s' : Pm}
      {p : ℕ} :
      Served env reqs replies used s → s.addr p ∈ used →
        Returns (pageAllocatorFreepages (s.addr p)) s () s' →
        Served env (.freepages p :: reqs) (.freed s'.mapLen :: replies) (used.erase (s.addr p)) s'

/-! ## The mappers follow the queue -/

theorem Served.allocatorRun {env : Env} {reqs : List PageRequest} {replies : List Reply}
    {used : List ℕ} {s : Pm} (h : Served env reqs replies used s) : AllocatorRun env used s := by
  induction h with
  | init h => exact .init h
  | getpage _ hr ih => exact ih.alloc hr
  | freepages _ ha hr ih => exact ih.free ha hr

/-- The mapper stands where the queue does. -/
structure PageQueue.Matches (q : PageQueue) (env : Env) (used : List ℕ) (s : Pm) : Prop where
  tracks : s.Tracks q.count q.free q.used
  linear : ∀ i < q.count, s.vmap i = i
  used : used = q.used.map s.addr
  start : s.startAddr = env.mapHint
  limit : s.mapLimit = env.mapLimit
  room : env.mapHint + q.count * pageSize ≤ env.mapLimit

namespace PageQueue.Matches

variable {env : Env} {q : PageQueue} {used : List ℕ} {s s' : Pm}

theorem addr (h : q.Matches env used s) (p : ℕ) : s.addr p = env.mapHint + p * pageSize := by
  unfold Pm.addr
  rw [h.start]

theorem mem_used (h : q.Matches env used s) {p : ℕ} : s.addr p ∈ used ↔ p ∈ q.used := by
  rw [h.used]
  exact List.mem_map_of_injective fun _ _ => Pm.addr_injective

theorem getpage (h : q.Matches env used s) {flags : Prot} {maddr laddr : ℕ}
    (hr : Returns (pageAllocatorGetpage flags) s (maddr, laddr) s') :
    ∃ q', q.serve (.getpage flags) =
        some (.page laddr ((maddr : ℤ) - s'.startAddr) s'.mapLen, q') ∧
      q'.Matches env (maddr :: used) s' := by
  obtain ⟨p, n', free', htook, ht', -⟩ := h.tracks.getpage hr
  have hfill : q.filled = { q with count := n', free := p :: free' } ∧
      env.mapHint + n' * pageSize ≤ env.mapLimit := by
    unfold PageQueue.filled
    rcases htook.takes.cases with ⟨rfl, hfree⟩ | ⟨rfl, hnil, hrange⟩
    · rw [if_neg (by rw [hfree]; exact List.cons_ne_nil _ _), ← hfree]
      exact ⟨rfl, h.room⟩
    · rw [if_pos hnil, hrange, ← h.start, ← h.limit]
      exact ⟨rfl, h.tracks.space.room hr hnil⟩
  have hlinear : ∀ i < n', s'.vmap i = i := by
    intro i hi
    by_cases hin : i < q.count
    · rw [htook.vmap i hin, h.linear i hin]
    · exact htook.fresh i (by omega) hi
  refine ⟨⟨n', free', p :: q.used⟩, ?_, ht', hlinear, ?_, htook.start.trans h.start, ?_, hfill.2⟩
  · unfold PageQueue.serve
    rw [hfill.1]
    dsimp only
    rw [htook.laddr, hlinear p htook.takes.lt, htook.maddr, htook.space.len, htook.start]
    unfold Pm.addr
    rw [Int.natCast_add, Int.natCast_mul, Int.add_comm, Int.add_sub_cancel]
  · rw [htook.maddr, h.used, List.map_cons]
    unfold Pm.addr
    rw [htook.start]
  · obtain ⟨_, _, _, _, rfl⟩ := htook.same
    exact h.limit

theorem freepages (h : q.Matches env used s) {p : ℕ} (hp : s.addr p ∈ used)
    (hr : Returns (pageAllocatorFreepages (s.addr p)) s () s') :
    ∃ q', q.serve (.freepages p) = some (.freed s'.mapLen, q') ∧
      q'.Matches env (used.erase (s.addr p)) s' := by
  have hpu := h.mem_used.mp hp
  obtain ⟨ht', hst⟩ := h.tracks.freepages hpu hr
  obtain ⟨-, -, -, -, pa, hs'⟩ := h.tracks.space.freepages (h.tracks.lt hpu) hr
  refine ⟨⟨q.count, q.free ++ [p], q.used.erase p⟩, ?_, ht', ?_, ?_, hst.trans h.start, ?_, h.room⟩
  · unfold PageQueue.serve
    dsimp only
    rw [if_pos hpu, ht'.space.len]
  · rw [hs']
    exact h.linear
  · rw [h.used, ← List.map_erase fun i j hij => Pm.addr_injective hij]
    unfold Pm.addr
    rw [hst]
  · rw [hs']
    exact h.limit

end PageQueue.Matches

theorem matches_init {env : Env} {n : ℕ} {s : Pm} (hn : env.initSize = n * pageSize)
    (h : Returns (pageAllocatorInit env.kind env.initSize) (Machine.fresh env).pm () s) :
    (PageQueue.new n).Matches env [] s := by
  obtain ⟨m, ht, hv, hm, hst, hlim⟩ := tracks_init h
  have hmn : m = n := Nat.eq_of_mul_eq_mul_right pageSize_pos (hm.trans hn)
  have hroom := room_pageAllocatorInit rfl ⟨n, hn⟩ h
  rw [hn] at hroom
  subst hmn
  exact ⟨ht, fun i _ => by rw [hv]; rfl, rfl, hst, hlim, hroom⟩

/-- **A mapper follows the queue**: its answers are those of the queue. -/
theorem Served.follows {env : Env} {n : ℕ} {reqs : List PageRequest} {replies : List Reply}
    {used : List ℕ} {s : Pm} (hn : env.initSize = n * pageSize)
    (h : Served env reqs replies used s) :
    ∃ q, (PageQueue.new n).run reqs = some (replies, q) ∧ q.Matches env used s := by
  induction h with
  | init h => exact ⟨_, rfl, matches_init hn h⟩
  | getpage _ hr ih =>
    obtain ⟨q, hrun, hq⟩ := ih
    obtain ⟨q', hserve, hq'⟩ := hq.getpage hr
    refine ⟨q', ?_, hq'⟩
    rw [PageQueue.run, hrun]
    show (q.serve _ >>= _) = _
    rw [hserve]
    rfl
  | freepages _ ha hr ih =>
    obtain ⟨q, hrun, hq⟩ := ih
    obtain ⟨q', hserve, hq'⟩ := hq.freepages ha hr
    refine ⟨q', ?_, hq'⟩
    rw [PageQueue.run, hrun]
    show (q.serve _ >>= _) = _
    rw [hserve]
    rfl

/-! ## Every answer of the queue is given -/

theorem AllocatorRun.exists_freepages {env : Env} {used : List ℕ} {s : Pm} {a : ℕ}
    (h : AllocatorRun env used s) (ha : a ∈ used) :
    ∃ s', Returns (pageAllocatorFreepages a) s () s' := by
  obtain ⟨n, free, pages, ht, rfl⟩ := h.tracks
  obtain ⟨p, hp, rfl⟩ := List.mem_map.mp ha
  have hs := ht.space.serves
  cases hk : env.kind with
  | fixedMapper =>
    obtain ⟨fm, hpa⟩ := h.pa_fixed hk
    rw [hpa] at hs
    obtain ⟨hg, hst, hfree, -⟩ := hs
    have hal := ht.space.aligned
    rw [← hst] at hal
    have hex := exists_returns_freepages_fixed hpa hg hal (ht.lt hp)
      (by rw [hfree]; exact ht.notMem_free hp)
    rwa [hst] at hex
  | nonlinearMapper =>
    obtain ⟨nlm, hpa, hm⟩ := h.marked hk
    rw [hpa] at hs
    obtain ⟨hg, -⟩ := hs
    have hacc := ht.accounts_nonlinear hpa hm
    obtain ⟨q, hq, haddr⟩ := List.mem_map.mp (hacc.inUse.mem_iff.mpr ha)
    rw [← haddr]
    exact exists_returns_freepages_nonlinear hpa hg (haddr ▸ ht.space.addr_mod p) hq
      fun r hr => (hm.use r hr).1

namespace PageQueue

theorem count_le_filled (q : PageQueue) : q.count ≤ q.filled.count := by
  unfold filled
  split_ifs
  · show q.count ≤ 2 * q.count
    omega
  · exact Nat.le_refl _

theorem serve_getpage {q q' : PageQueue} {flags : Prot} {reply : Reply}
    (h : q.serve (.getpage flags) = some (reply, q')) : q'.count = q.filled.count := by
  unfold serve at h
  cases hfree : q.filled.free with
  | nil =>
    rw [hfree] at h
    cases h
  | cons p rest =>
    rw [hfree] at h
    cases h
    rfl

theorem serve_freepages {q q' : PageQueue} {p : ℕ} {reply : Reply}
    (h : q.serve (.freepages p) = some (reply, q')) : p ∈ q.used ∧ q'.count = q.count := by
  unfold serve at h
  dsimp only at h
  split_ifs at h with hp
  cases h
  exact ⟨hp, rfl⟩

end PageQueue

/-- **The queue is followed** as long as there is room behind the mapping. -/
theorem exists_served {env : Env} {n : ℕ} (hn : env.initSize = n * pageSize) (hhint : env.mapHint ≠ 0)
    {reqs : List PageRequest} {replies : List Reply} {q : PageQueue}
    (hrun : (PageQueue.new n).run reqs = some (replies, q))
    (hroom : env.mapHint + q.count * pageSize ≤ env.mapLimit) :
    ∃ used s, Served env reqs replies used s := by
  induction reqs generalizing replies q with
  | nil =>
    cases hrun
    have hfit : env.mapHint + env.initSize ≤ env.mapLimit := by
      rw [hn]
      exact hroom
    obtain ⟨s, hs⟩ := @exists_returns_pageAllocatorInit env.kind env.initSize
      (Machine.fresh env).pm rfl hhint hfit
    exact ⟨[], s, .init hs⟩
  | cons r reqs ih =>
    rw [PageQueue.run, Option.bind_eq_bind, Option.bind_eq_some_iff] at hrun
    obtain ⟨⟨replies₀, q₀⟩, hrun₀, hrun⟩ := hrun
    dsimp only at hrun
    rw [Option.bind_eq_bind, Option.bind_eq_some_iff] at hrun
    obtain ⟨⟨reply, q₁⟩, hserve, hq⟩ := hrun
    cases hq
    cases r with
    | getpage flags =>
      rw [PageQueue.serve_getpage hserve] at hroom
      have hle := Nat.mul_le_mul_right pageSize q₀.count_le_filled
      obtain ⟨used, s, hs⟩ := ih hrun₀ ((Nat.add_le_add_left hle _).trans hroom)
      obtain ⟨q', hrun', hq'⟩ := hs.follows hn
      obtain rfl : q' = q₀ := by
        rw [hrun₀] at hrun'
        cases hrun'
        rfl
      obtain ⟨⟨maddr, laddr⟩, s', hr⟩ := hq'.tracks.space.exists_returns_getpage flags fun hnil => by
        rw [hq'.start, hq'.limit]
        unfold PageQueue.filled at hroom
        rwa [if_pos hnil] at hroom
      obtain ⟨q'', hserve', -⟩ := hq'.getpage hr
      rw [hserve] at hserve'
      cases hserve'
      exact ⟨_, _, hs.getpage hr⟩
    | freepages p =>
      obtain ⟨hp, hcount⟩ := PageQueue.serve_freepages hserve
      rw [hcount] at hroom
      obtain ⟨used, s, hs⟩ := ih hrun₀ hroom
      obtain ⟨q', hrun', hq'⟩ := hs.follows hn
      obtain rfl : q' = q₀ := by
        rw [hrun₀] at hrun'
        cases hrun'
        rfl
      have hmem := hq'.mem_used.mpr hp
      obtain ⟨s', hr⟩ := hs.allocatorRun.exists_freepages hmem
      obtain ⟨q'', hserve', -⟩ := hq'.freepages hmem hr
      rw [hserve] at hserve'
      cases hserve'
      exact ⟨_, _, hs.freepages hmem hr⟩

theorem served_congr {env env' : Env} (hsize : env.initSize = env'.initSize)
    (hhint : env.mapHint = env'.mapHint) (hlimit : env.mapLimit = env'.mapLimit)
    {reqs : List PageRequest} {replies : List Reply} {used : List ℕ} {s : Pm}
    (h : Served env reqs replies used s) : ∃ used s, Served env' reqs replies used s := by
  obtain ⟨n, -, hn⟩ := initSize_eq env
  obtain ⟨q, hrun, hq⟩ := h.follows hn
  refine exists_served (hsize ▸ hn) ?_ hrun ?_
  · rw [← hhint, ← hq.start]
    exact hq.tracks.space.start_ne
  · rw [← hhint, ← hlimit]
    exact hq.room

/-- **The two mappers agree** on new files of one size: they give the same answers to the same
requests, and where they find the same room for their mappings, they serve the same requests. -/
theorem mappers_agree {env env' : Env} (hsize : env.initSize = env'.initSize)
    (reqs : List PageRequest) :
    (∀ replies replies' used used' s s',
      Served { env with kind := .fixedMapper } reqs replies used s →
      Served { env' with kind := .nonlinearMapper } reqs replies' used' s' → replies = replies') ∧
    (env.mapHint = env'.mapHint → env.mapLimit = env'.mapLimit → ∀ replies,
      ((∃ used s, Served { env with kind := .fixedMapper } reqs replies used s) ↔
        ∃ used s, Served { env' with kind := .nonlinearMapper } reqs replies used s)) := by
  refine ⟨fun replies replies' used used' s s' h h' => ?_, fun hhint hlimit replies => ?_⟩
  · obtain ⟨n, -, hn⟩ := initSize_eq { env with kind := .fixedMapper }
    obtain ⟨q, hrun, -⟩ := h.follows hn
    obtain ⟨q', hrun', -⟩ := h'.follows (hsize ▸ hn)
    rw [hrun] at hrun'
    cases hrun'
    rfl
  · constructor
    · rintro ⟨used, s, h⟩
      exact @served_congr { env with kind := .fixedMapper } { env' with kind := .nonlinearMapper }
        hsize hhint hlimit _ _ _ _ h
    · rintro ⟨used, s, h⟩
      exact @served_congr { env' with kind := .nonlinearMapper } { env with kind := .fixedMapper }
        hsize.symm hhint.symm hlimit.symm _ _ _ _ h

theorem exists_served_grown (kind : MapperKind) : ∃ used s, Served (Env.standard kind)
    [.freepages 1, .getpage paProtWrite, .getpage paProtRead, .getpage paProtWrite]
    [.freed (4 * pageSize), .page (2 * pageSize) (2 * pageSize) (4 * pageSize),
      .page pageSize pageSize (2 * pageSize), .page 0 0 (2 * pageSize)] used s := by
  refine @exists_served _ 2 rfl (by cases kind <;> decide) _ _ ⟨4, [3, 1], [2, 0]⟩ ?_ ?_
  · rfl
  · cases kind <;> decide

/-- With a file that grows. -/
theorem mappers_agree_grown :
    (Env.standard .fixedMapper).initSize = (Env.standard .nonlinearMapper).initSize ∧
      ∃ reqs replies used used' s s',
        Served (Env.standard .fixedMapper) reqs replies used s ∧
        Served (Env.standard .nonlinearMapper) reqs replies used' s' ∧ replies.length = 4 := by
  obtain ⟨used, s, h⟩ := exists_served_grown .fixedMapper
  obtain ⟨used', s', h'⟩ := ((@mappers_agree (Env.standard .fixedMapper)
    (Env.standard .nonlinearMapper) rfl _).2 rfl rfl _).mp ⟨used, s, h⟩
  exact ⟨rfl, _, _, used, used', s, s', h, h', rfl⟩

end LibPM

import LibPM.Restore.Again
import LibPM.Tailq.Basic

/-!
# The queues of the directory

The free list and the list of each size run through the links of the entries. `Heads` says where they
begin and end. An insertion makes one queue longer by one entry, and it touches the links of that
queue and of the entry only (`Inserted`).
-/

namespace LibPM

open Recorded Recorded.Prog

variable {s s' : Pm} {sd : ℕ} {r : EntryRef}

/-! ## Names and heads -/

/-- The free list, and the list of each size. -/
inductive QueueName where
  | free
  | ofSize (size : ℕ)
  deriving DecidableEq

def QueueName.at (sd : ℕ) : QueueName → StailqAt
  | .free => sdFreeListAt sd
  | .ofSize size => esListAt size

/-- The entries that belong in a queue. -/
def QueueName.Takes : QueueName → SlabEntry → Prop
  | .free, e => ¬ e.isInit = true
  | .ofSize size, e => e.isInit = true ∧ e.seSize = size

theorem QueueName.Takes.unique {w w' : QueueName} {e : SlabEntry} (h : w.Takes e) (h' : w'.Takes e) :
    w = w' := by
  cases w with
  | free =>
    cases w' with
    | free => rfl
    | ofSize m => exact (h h'.1).elim
  | ofSize n =>
    cases w' with
    | free => exact (h' h.1).elim
    | ofSize m => exact congrArg QueueName.ofSize (h.2.symm.trans h'.2)

/-- The tree of entries, and the heads of the queues that there are. -/
structure Heads where
  roots : List EntryRef
  queue : QueueName → Option Stailq

/-- A size without a heap node has an empty list. -/
def Heads.head (H : Heads) (w : QueueName) : Stailq := (H.queue w).getD Stailq.init

def Heads.set (H : Heads) (w : QueueName) (f : Stailq → Stailq) : Heads :=
  { H with queue := Function.update H.queue w ((H.queue w).map f) }

/-- The heads kept in the directory and on the heap. -/
def headsOf (sizes : List SlabEntrySize) (h : List EntryRef × Stailq) : Heads where
  roots := h.1
  queue
    | .free => some h.2
    | .ofSize size => (sizes.find? (·.esSize == size)).map (·.esList)

def Pm.heads (s : Pm) (sd : ℕ) : Option Heads :=
  ((s.pageAt sd).bind Page.heads).map (headsOf s.sizes)

/-- The link of an entry. -/
def Pm.link (s : Pm) (r : EntryRef) : Option EntryRef := (s.readEntry r).bind (·.seList)

theorem Pm.heads_eq {d : SlabDir} (hd : s.pageAt sd = some (.dir d)) :
    s.heads sd = some (headsOf s.sizes (d.sdMaddrRoot, d.sdFreeList)) := by
  unfold Pm.heads
  rw [hd]
  rfl

/-- The directory behind the heads. -/
theorem Pm.exists_dir {H : Heads} (h : s.heads sd = some H) : ∃ d, s.pageAt sd = some (.dir d) ∧
    H = headsOf s.sizes (d.sdMaddrRoot, d.sdFreeList) := by
  obtain ⟨x, hx, rfl⟩ := Option.map_eq_some_iff.mp h
  obtain ⟨p, hp, hx⟩ := Option.bind_eq_some_iff.mp hx
  cases p with
  | dir d =>
    cases hx
    exact ⟨d, hp, rfl⟩
  | _ => cases hx

theorem Pm.SameIndexes.heads_eq (h : Pm.SameIndexes sd s s') : s'.heads sd = s.heads sd := by
  unfold Pm.heads
  rw [h.heads, h.sizes]

/-! ## Stores to links and heads -/

/-- Two pages of the mapping at one place are one. -/
theorem Pm.Reopened.vpage_inj (hs : s.Reopened) {a b q : ℕ} (ha : a % pageSize = 0)
    (hb : b % pageSize = 0) (h : s.vpage a = some q) (h' : s.vpage b = some q) : a = b := by
  have hstart := hs.aligned
  unfold Pm.vpage at h h'
  split_ifs at h h'
  have hq := Option.some.inj (h.trans h'.symm)
  unfold pageSize at *
  omega

/-- The entries after a store to one of them. -/
theorem Pm.Sets.readEntry_eq {e e' : SlabEntry} (h : s.Sets r e e' s') (hs : s.Reopened)
    (y : EntryRef) : s'.readEntry y = if y = r then some e' else s.readEntry y := by
  by_cases hy : y = r
  · rw [if_pos hy, hy, h.readEntry hs]
  · rw [if_neg hy]
    obtain ⟨q, b, hmod, hidx, hq, hb, -, rfl⟩ := h
    unfold Pm.readEntry Pm.readBucket
    rw [Pm.pageAt_setPage hs.vmap]
    by_cases hp : y.sb % pageSize = 0 ∧ s.vpage y.sb = some q
    · have hsb := hs.vpage_inj hp.1 hmod hp.2 hq
      have hne : y.idx ≠ r.idx := fun hi => hy (by
        obtain ⟨a, i⟩ := y
        obtain ⟨a', i'⟩ := r
        exact congr (congrArg EntryRef.mk hsb) hi)
      rw [if_pos hp, Pm.pageAt_of_vpage hs.vmap hp.1 hp.2, hb]
      dsimp only [Option.map_some]
      rw [Function.update_of_ne hne]
    · rw [if_neg hp]

theorem Pm.Sets.link {e e' : SlabEntry} (h : s.Sets r e e' s') (hs : s.Reopened) :
    s'.link = Function.update s.link r e'.seList := by
  funext y
  unfold Pm.link
  rw [h.readEntry_eq hs]
  by_cases hy : y = r
  · rw [if_pos hy, hy, Function.update_self]
    rfl
  · rw [if_neg hy, Function.update_of_ne hy]

theorem Pm.Sets.sameHeads {e e' : SlabEntry} (h : s.Sets r e e' s') (hs : s.Reopened) :
    s'.heads sd = s.heads sd := by
  have hheads := h.heads hs sd
  obtain ⟨q, b, -, -, -, -, -, rfl⟩ := h
  unfold Pm.heads
  rw [hheads]
  rfl

/-- A store to the link of an entry. -/
theorem Pm.Reopened.setLink (hs : s.Reopened) {e : SlabEntry} (he : s.readEntry r = some e)
    {x : Option EntryRef} {u : Unit}
    (hr : Returns (LibPM.updateEntry r fun e => { e with seList := x }) s u s') :
    s'.Reopened ∧ s'.heads sd = s.heads sd ∧ s'.link = Function.update s.link r x ∧
      ∀ y, s.readEntry y ≠ none → s'.readEntry y ≠ none := by
  have hset := hs.updateEntry he hr
  refine ⟨hset.edits.reopened hs, hset.sameHeads hs, hset.link hs, fun y hy => ?_⟩
  rw [hset.readEntry_eq hs]
  split_ifs
  · exact Option.some_ne_none _
  · exact hy

/-- A store to the head of a queue. -/
def QueueName.modify (sd : ℕ) (f : Stailq → Stailq) : QueueName → PmProg Unit
  | .free => updatePage sd (Page.onDir fun d => { d with sdFreeList := f d.sdFreeList })
  | .ofSize size => Prog.modify fun s => { s with sizes := s.sizes.map (updateSize size f) }

theorem QueueName.setFirst_eq (w : QueueName) (x : Option EntryRef) :
    (w.at sd).setFirst x = w.modify sd fun q => { q with first := x } := by
  cases w <;> rfl

theorem QueueName.setLast_eq (w : QueueName) (x : Option EntryRef) :
    (w.at sd).setLast x = w.modify sd fun q => { q with last := x } := by
  cases w <;> rfl

theorem find?_updateSize (size n : ℕ) (f : Stailq → Stailq) (l : List SlabEntrySize) :
    ((l.map (updateSize size f)).find? (·.esSize == n)).map (·.esList) =
      if n = size then ((l.find? (·.esSize == n)).map (·.esList)).map f
      else (l.find? (·.esSize == n)).map (·.esList) := by
  have hsize : ∀ es, (updateSize size f es).esSize = es.esSize := by
    intro es
    unfold updateSize
    split_ifs <;> rfl
  have hfun : (fun es : SlabEntrySize => es.esSize == n) ∘ updateSize size f =
      fun es => es.esSize == n := by
    funext es
    exact congrArg (· == n) (hsize es)
  rw [List.find?_map, hfun]
  cases hfind : l.find? (·.esSize == n) with
  | none => simp
  | some es =>
    have hes : es.esSize = n := by simpa using List.find?_some hfind
    dsimp only [Option.map_some]
    unfold updateSize
    by_cases hn : n = size
    · rw [if_pos hn, if_pos (hes.trans hn)]
    · rw [if_neg hn, if_neg fun h => hn (hes.symm.trans h)]

theorem QueueName.modify_heads (hs : s.Reopened) {H : Heads} (hH : s.heads sd = some H)
    {w : QueueName} {f : Stailq → Stailq} {u : Unit} (hr : Returns (w.modify sd f) s u s') :
    s'.Reopened ∧ s'.heads sd = some (H.set w f) ∧ s'.readEntry = s.readEntry := by
  obtain ⟨d, hd, rfl⟩ := Pm.exists_dir hH
  cases w with
  | free =>
    have hset : s.SetsNode dirKind sd d { d with sdFreeList := f d.sdFreeList } s' :=
      hs.updateNode (K := dirKind) hd hr
    refine ⟨hset.edits.reopened hs, ?_, funext (hset.readEntry hs)⟩
    rw [Pm.heads_eq (hset.pageAt hs)]
    obtain ⟨q, -, -, -, rfl⟩ := hset
    unfold Heads.set headsOf
    refine congrArg some (congrArg (Heads.mk _) (funext fun w => ?_))
    cases w with
    | free => rfl
    | ofSize n => rfl
  | ofSize size =>
    rw [← returns_modify.mp hr]
    refine ⟨⟨hs.vmap, hs.start, hs.aligned, hs.stores⟩, ?_, rfl⟩
    unfold Pm.heads
    rw [show ({ s with sizes := s.sizes.map (updateSize size f) } : Pm).pageAt sd = s.pageAt sd from rfl,
      hd]
    unfold Heads.set headsOf
    refine congrArg some (congrArg (Heads.mk _) (funext fun w => ?_))
    cases w with
    | free => rfl
    | ofSize n =>
      dsimp only
      rw [find?_updateSize]
      by_cases hn : n = size
      · rw [if_pos hn, hn, Function.update_self]
      · rw [if_neg hn, Function.update_of_ne (fun h => hn (QueueName.ofSize.inj h))]

theorem QueueName.head_eq {H : Heads} (hH : s.heads sd = some H) {w : QueueName} {h : Stailq}
    (hr : Returns (w.at sd).head s h s') : H.queue w = some h ∧ s = s' := by
  obtain ⟨d, hd, rfl⟩ := Pm.exists_dir hH
  cases w with
  | free =>
    obtain ⟨d', hload, rfl⟩ := returns_map.mp hr
    obtain ⟨hd', rfl⟩ := returns_loadDir.mp hload
    obtain rfl := Page.dir.inj (Option.some.inj (hd.symm.trans (readDir_eq_some.mp hd')))
    exact ⟨rfl, rfl⟩
  | ofSize size =>
    unfold QueueName.at esListAt at hr
    simp only [returns_bind, returns_get, returns_ofOption, returns_pure] at hr
    obtain ⟨_, _, ⟨rfl, rfl⟩, es, _, ⟨hes, rfl⟩, rfl, rfl⟩ := hr
    refine ⟨?_, rfl⟩
    unfold headsOf
    dsimp only
    rw [hes]
    rfl

theorem Heads.queue_set {H : Heads} {w : QueueName} {h : Stailq} (hw : H.queue w = some h)
    (f : Stailq → Stailq) : (H.set w f).queue w = some (f h) := by
  unfold Heads.set
  dsimp only
  rw [Function.update_self, hw, Option.map_some]

theorem Heads.head_set {H : Heads} {w w' : QueueName} (hw : w' ≠ w) (f : Stailq → Stailq) :
    (H.set w f).head w' = H.head w' := by
  unfold Heads.set Heads.head
  dsimp only
  rw [Function.update_of_ne hw]

theorem Heads.head_of_queue {H : Heads} {w : QueueName} {h : Stailq} (hw : H.queue w = some h) :
    H.head w = h := by
  unfold Heads.head
  rw [hw, Option.getD_some]

/-! ## Insertions -/

/-- The entry `r` joined the queue `w`, which held `l` and now holds `l'`. -/
structure Inserted (sd : ℕ) (w : QueueName) (r : EntryRef) (l l' : List EntryRef) (H : Heads)
    (s s' : Pm) : Prop where
  reopened : s'.Reopened
  heads : ∃ H', s'.heads sd = some H' ∧ H'.roots = H.roots ∧
    (∀ w', w' ≠ w → H'.head w' = H.head w') ∧
    Tailq.Queue s'.link (H'.head w).first (H'.head w).last l'
  link : ∀ y, y ≠ r → y ∉ l → s'.link y = s.link y

section Insert

variable {w : QueueName} {l : List EntryRef} {H : Heads} {e : SlabEntry} {u : Unit}

theorem Inserted.insertTail (hs : s.Reopened) (hH : s.heads sd = some H) (he : s.readEntry r = some e)
    (hl : ∀ y ∈ l, s.readEntry y ≠ none)
    (hq : Tailq.Queue s.link (H.head w).first (H.head w).last l) (hrl : r ∉ l)
    (hr : Returns (stailqInsertTail (w.at sd) r) s u s') : Inserted sd w r l (l ++ [r]) H s s' := by
  unfold stailqInsertTail at hr
  simp only [returns_bind] at hr
  obtain ⟨_, s₁, h₁, h, _, hhead, _, s₂, h₂, h₃⟩ := hr
  obtain ⟨hs₁, hH₁, hlink₁, hread₁⟩ := hs.setLink he h₁
  obtain ⟨hw, rfl⟩ := QueueName.head_eq (hH₁.trans hH) hhead
  rw [Heads.head_of_queue hw] at hq
  rw [QueueName.setLast_eq] at h₃
  cases hlast : h.last with
  | none =>
    rw [hlast] at h₂ hq
    dsimp only at h₂
    rw [QueueName.setFirst_eq] at h₂
    obtain ⟨hs₂, hH₂, hread₂⟩ := QueueName.modify_heads hs₁ (hH₁.trans hH) h₂
    obtain ⟨hs₃, hH₃, hread₃⟩ := QueueName.modify_heads hs₂ hH₂ h₃
    have hlink : s'.link = Function.update s.link r none := by
      rw [← hlink₁]
      unfold Pm.link
      rw [hread₃, hread₂]
    obtain rfl := hq.eq_nil_iff.mp rfl
    refine ⟨hs₃, ⟨_, hH₃, rfl, fun w' hw' => ?_, ?_⟩, fun y hy _ => ?_⟩
    · rw [Heads.head_set hw', Heads.head_set hw']
    · rw [Heads.head_of_queue (Heads.queue_set (Heads.queue_set hw _) _), hlink]
      exact .insertTail_nil s.link r
    · rw [hlink, Function.update_of_ne hy]
  | some y =>
    rw [hlast] at h₂ hq
    dsimp only at h₂
    have hy : y ∈ l := hq.last_mem rfl
    obtain ⟨ey, hey⟩ := Option.ne_none_iff_exists'.mp (hread₁ y (hl y hy))
    obtain ⟨hs₂, hH₂, hlink₂, -⟩ := hs₁.setLink hey h₂
    obtain ⟨hs₃, hH₃, hread₃⟩ := QueueName.modify_heads hs₂ (hH₂.trans (hH₁.trans hH)) h₃
    have hlink : s'.link = Function.update (Function.update s.link r none) y (some r) := by
      rw [← hlink₁, ← hlink₂]
      unfold Pm.link
      rw [hread₃]
    refine ⟨hs₃, ⟨_, hH₃, rfl, fun w' hw' => Heads.head_set hw' _, ?_⟩, fun z hz hzl => ?_⟩
    · rw [Heads.head_of_queue (Heads.queue_set hw _), hlink]
      exact hq.insertTail hrl
    · rw [hlink, Function.update_of_ne (fun hzy : z = y => hzl (hzy ▸ hy)), Function.update_of_ne hz]

theorem Inserted.insertHead (hs : s.Reopened) (hH : s.heads sd = some H) (he : s.readEntry r = some e)
    (hq : Tailq.Queue s.link (H.head w).first (H.head w).last l) (hrl : r ∉ l)
    (hr : Returns (stailqInsertHead (w.at sd) r) s u s') : Inserted sd w r l (r :: l) H s s' := by
  unfold stailqInsertHead at hr
  simp only [returns_bind] at hr
  obtain ⟨h, _, hhead, _, s₁, h₁, _, s₂, h₂, h₃⟩ := hr
  obtain ⟨hw, rfl⟩ := QueueName.head_eq hH hhead
  rw [Heads.head_of_queue hw] at hq
  obtain ⟨hs₁, hH₁, hlink₁, -⟩ := hs.setLink he h₁
  rw [QueueName.setLast_eq] at h₂
  rw [QueueName.setFirst_eq] at h₃
  have hqueue := hq.insertHead hrl
  rcases returns_when.mp h₂ with ⟨hfirst, h₂⟩ | ⟨hfirst, rfl⟩
  · obtain ⟨hs₂, hH₂, hread₂⟩ := QueueName.modify_heads hs₁ (hH₁.trans hH) h₂
    obtain ⟨hs₃, hH₃, hread₃⟩ := QueueName.modify_heads hs₂ hH₂ h₃
    have hlink : s'.link = Function.update s.link r h.first := by
      rw [← hlink₁]
      unfold Pm.link
      rw [hread₃, hread₂]
    rw [if_pos hfirst] at hqueue
    refine ⟨hs₃, ⟨_, hH₃, rfl, fun w' hw' => ?_, ?_⟩, fun y hy _ => ?_⟩
    · rw [Heads.head_set hw', Heads.head_set hw']
    · rw [Heads.head_of_queue (Heads.queue_set (Heads.queue_set hw _) _), hlink]
      exact hqueue
    · rw [hlink, Function.update_of_ne hy]
  · obtain ⟨hs₃, hH₃, hread₃⟩ := QueueName.modify_heads hs₁ (hH₁.trans hH) h₃
    have hlink : s'.link = Function.update s.link r h.first := by
      rw [← hlink₁]
      unfold Pm.link
      rw [hread₃]
    rw [if_neg hfirst] at hqueue
    refine ⟨hs₃, ⟨_, hH₃, rfl, fun w' hw' => Heads.head_set hw' _, ?_⟩, fun y hy _ => ?_⟩
    · rw [Heads.head_of_queue (Heads.queue_set hw _), hlink]
      exact hqueue
    · rw [hlink, Function.update_of_ne hy]

end Insert

/-- A size without a node gets an empty one. -/
theorem heads_slabEntrySizeInit {H : Heads} {size : ℕ} {u : Unit} (hs : s.Reopened)
    (hH : s.heads sd = some H) (hnone : s.sizes.find? (·.esSize == size) = none)
    (hr : Returns (slabEntrySizeInit size) s u s') : s'.Reopened ∧ s'.readEntry = s.readEntry ∧
      ∃ H', s'.heads sd = some H' ∧ H'.roots = H.roots ∧ H'.head = H.head := by
  obtain ⟨d, hd, rfl⟩ := Pm.exists_dir hH
  unfold slabEntrySizeInit at hr
  rw [← returns_modify.mp hr]
  refine ⟨⟨hs.vmap, hs.start, hs.aligned, hs.stores⟩, rfl, _, Pm.heads_eq hd, rfl, funext fun w => ?_⟩
  unfold Heads.head headsOf
  cases w with
  | free => rfl
  | ofSize n =>
    dsimp only
    rw [List.find?_cons]
    by_cases hn : size = n
    · subst hn
      rw [hnone]
      simp
    · rw [show (size == n) = false by simpa using hn]

theorem readEntry_usedInsert {H : Heads} {u : Unit} (hs : s.Reopened) (hH : s.heads sd = some H)
    (hr : Returns (usedInsert sd r) s u s') : s'.readEntry = s.readEntry := by
  obtain ⟨d, hd, -⟩ := Pm.exists_dir hH
  unfold usedInsert at hr
  simp only [returns_bind, returns_loadEntry, returns_usedFind] at hr
  obtain ⟨e, _, ⟨-, rfl⟩, o, _, ⟨-, rfl⟩, hr⟩ := hr
  rcases returns_when.mp hr with ⟨-, hr⟩ | ⟨-, rfl⟩
  · have hset : s.SetsNode dirKind sd d { d with sdMaddrRoot := r :: d.sdMaddrRoot } s' :=
      hs.updateNode (K := dirKind) hd hr
    exact funext (hset.readEntry hs)
  · rfl

/-- The tree of entries gets an entry whose address is not there yet. -/
theorem heads_usedInsert {H : Heads} {e : SlabEntry} {u : Unit} (hs : s.Reopened)
    (hH : s.heads sd = some H) (he : s.readEntry r = some e)
    (hkey : ∀ y ∈ H.roots, ∀ e', s.readEntry y = some e' →
      e'.dataCurrent.maddr ≠ e.dataCurrent.maddr)
    (hr : Returns (usedInsert sd r) s u s') :
    ∃ H', s'.heads sd = some H' ∧ H'.roots = r :: H.roots ∧ H'.head = H.head := by
  obtain ⟨d, hd, rfl⟩ := Pm.exists_dir hH
  unfold usedInsert at hr
  simp only [returns_bind, returns_loadEntry, returns_usedFind] at hr
  obtain ⟨e', _, ⟨he', rfl⟩, o, _, ⟨⟨d', hd', hfind⟩, rfl⟩, hr⟩ := hr
  obtain rfl := Option.some.inj (he.symm.trans he')
  obtain rfl := Page.dir.inj (Option.some.inj (hd.symm.trans (readDir_eq_some.mp hd')))
  obtain rfl : o = none := by
    cases o with
    | none => rfl
    | some y =>
      obtain ⟨hy, ey, hey, hsearch⟩ := findEntry_eq_some_some hfind
      unfold searchNormal at hsearch
      exact (hkey y hy ey hey (by simpa using hsearch)).elim
  rw [returns_when_true rfl] at hr
  have hset : s.SetsNode dirKind sd d { d with sdMaddrRoot := r :: d.sdMaddrRoot } s' :=
    hs.updateNode (K := dirKind) hd hr
  refine ⟨_, Pm.heads_eq (hset.pageAt hs), rfl, ?_⟩
  obtain ⟨q, -, -, -, rfl⟩ := hset
  rfl

end LibPM

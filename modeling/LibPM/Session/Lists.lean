import LibPM.Session.View

/-!
# The tail queues of a container

The free list and the lists of sizes are queues of entries. An operation on one of them changes its
head and the links of entries, and nothing else. The free list holds the entries from one number on, in
their order.
-/

namespace LibPM

open Recorded Recorded.Prog

/-- The queues of a container. -/
inductive Queue where
  | free
  | size (n : ℕ)
  deriving DecidableEq

namespace View

/-! ## Queues of a view -/

/-- The list of size `n` exists. -/
def HasQueue (v : View) : Queue → Prop
  | .free => True
  | .size n => (v.sizes.find? (·.esSize == n)).isSome

def queue (v : View) : Queue → Stailq
  | .free => v.dir.sdFreeList
  | .size n =>
    match v.sizes.find? (·.esSize == n) with
    | some es => es.esList
    | none => Stailq.init

/-- The head of one queue changes. -/
def onQueue (v : View) (q : Queue) (f : Stailq → Stailq) : View :=
  match q with
  | .free => { v with dir := { v.dir with sdFreeList := f v.dir.sdFreeList } }
  | .size n => { v with sizes := v.sizes.map (updateSize n f) }

/-- The link of one entry changes. -/
def setLink (v : View) (i : ℕ) (r : Option EntryRef) : View :=
  v.setEntry i { v.entry i with seList := r }

variable {v v' v'' : View} {q : Queue} {f : Stailq → Stailq}

theorem find?_onSize (l : List SlabEntrySize) (n k : ℕ) (f : Stailq → Stailq) :
    (l.map (updateSize n f)).find? (·.esSize == k) =
      (l.find? (·.esSize == k)).map (updateSize n f) := by
  rw [List.find?_map]
  apply congrArg
  apply congrFun (congrArg _ _)
  funext es
  unfold updateSize Function.comp
  dsimp only
  split_ifs <;> rfl

theorem hasQueue_onQueue (q' : Queue) : (v.onQueue q f).HasQueue q' ↔ v.HasQueue q' := by
  cases q' with
  | free => rfl
  | size k =>
    cases q with
    | free => rfl
    | size n =>
      unfold HasQueue onQueue
      dsimp only
      rw [find?_onSize, Option.isSome_map]

theorem queue_onQueue (h : v.HasQueue q) : (v.onQueue q f).queue q = f (v.queue q) := by
  cases q with
  | free => rfl
  | size n =>
    unfold HasQueue at h
    obtain ⟨es, hes⟩ := Option.isSome_iff_exists.mp h
    have hsize : es.esSize = n := by simpa using List.find?_some hes
    unfold queue onQueue
    dsimp only
    rw [find?_onSize, hes]
    show (updateSize n f es).esList = f es.esList
    unfold updateSize
    rw [if_pos hsize]

theorem queue_onQueue_of_ne {q' : Queue} (h : q' ≠ q) : (v.onQueue q f).queue q' = v.queue q' := by
  cases q with
  | free =>
    cases q' with
    | free => exact (h rfl).elim
    | size k => rfl
  | size n =>
    cases q' with
    | free => rfl
    | size k =>
      unfold queue onQueue
      dsimp only
      rw [find?_onSize]
      cases hes : v.sizes.find? (·.esSize == k) with
      | none => rfl
      | some es =>
        have hsize : es.esSize = k := by simpa using List.find?_some hes
        show (updateSize n f es).esList = es.esList
        unfold updateSize
        rw [if_neg]
        exact fun he => h (congrArg _ (hsize.symm.trans he))

/-! ## Views that differ in queues -/

/-- The views differ in links and in heads of queues only. -/
structure Relinked (v v' : View) : Prop where
  places : v'.toPlaces = v.toPlaces
  linked : v'.linked = v.linked
  taken : v'.taken = v.taken
  used : v'.used = v.used
  torn : v'.torn = v.torn
  cont : v'.cont = v.cont
  dir : ∃ q, v'.dir = { v.dir with sdFreeList := q }
  outer : v'.outer = v.outer
  inner : v'.inner = v.inner
  sbId : ∀ b, (v'.bucket b).sbId = (v.bucket b).sbId
  flag : ∀ b, (v'.bucket b).sbHasSnapshot = (v.bucket b).sbHasSnapshot
  entry : ∀ i, ∃ r, v'.entry i = { v.entry i with seList := r }

theorem Relinked.refl (v : View) : v.Relinked v :=
  ⟨rfl, rfl, rfl, rfl, rfl, rfl, ⟨_, rfl⟩, rfl, rfl, fun _ => rfl, fun _ => rfl, fun _ => ⟨_, rfl⟩⟩

theorem Relinked.trans (h : v.Relinked v') (h' : v'.Relinked v'') : v.Relinked v'' := by
  refine ⟨h'.places.trans h.places, h'.linked.trans h.linked, h'.taken.trans h.taken, h'.used.trans h.used,
    h'.torn.trans h.torn, h'.cont.trans h.cont, ?_, h'.outer.trans h.outer, h'.inner.trans h.inner,
    fun b => (h'.sbId b).trans (h.sbId b), fun b => (h'.flag b).trans (h.flag b), fun i => ?_⟩
  · obtain ⟨q, hq⟩ := h.dir
    obtain ⟨q', hq'⟩ := h'.dir
    exact ⟨q', by rw [hq', hq]⟩
  · obtain ⟨r, hr⟩ := h.entry i
    obtain ⟨r', hr'⟩ := h'.entry i
    exact ⟨r', by rw [hr', hr]⟩

theorem relinked_onQueue (v : View) (q : Queue) (f : Stailq → Stailq) :
    v.Relinked (v.onQueue q f) := by
  cases q with
  | free =>
    exact ⟨rfl, rfl, rfl, rfl, rfl, rfl, ⟨_, rfl⟩, rfl, rfl, fun _ => rfl, fun _ => rfl,
      fun _ => ⟨_, rfl⟩⟩
  | size n =>
    exact ⟨rfl, rfl, rfl, rfl, rfl, rfl, ⟨_, rfl⟩, rfl, rfl, fun _ => rfl, fun _ => rfl,
      fun _ => ⟨_, rfl⟩⟩

theorem relinked_setLink (v : View) (i : ℕ) (r : Option EntryRef) : v.Relinked (v.setLink i r) := by
  refine ⟨rfl, rfl, rfl, rfl, rfl, rfl, ⟨_, rfl⟩, rfl, rfl, v.setEntry_sbId i _, v.setEntry_sbHasSnapshot i _,
    fun j => ?_⟩
  by_cases hj : j = i
  · subst hj
    exact ⟨r, setEntry_entry ..⟩
  · exact ⟨(v.entry j).seList, setEntry_entry_of_ne _ _ hj⟩

theorem link_setLink (v : View) (i : ℕ) (r : Option EntryRef) (j : ℕ) :
    ((v.setLink i r).entry j).seList = if j = i then r else (v.entry j).seList := by
  unfold setLink
  by_cases hj : j = i
  · rw [if_pos hj, hj, setEntry_entry]
  · rw [if_neg hj, setEntry_entry_of_ne _ _ hj]

theorem link_onQueue (v : View) (q : Queue) (f : Stailq → Stailq) (j : ℕ) :
    ((v.onQueue q f).entry j).seList = (v.entry j).seList := by
  cases q <;> rfl

theorem Relinked.ref (h : v.Relinked v') (i : ℕ) : v'.ref i = v.ref i :=
  congrArg (fun l : Places => l.ref i) h.places

theorem Relinked.addr (h : v.Relinked v') (p : ℕ) : v'.addr p = v.addr p :=
  congrArg (fun l : Places => l.addr p) h.places

theorem Relinked.cap (h : v.Relinked v') : v'.cap = v.cap := congrArg Places.cap h.places

theorem Relinked.base (h : v.Relinked v') : v'.base = v.base := congrArg Places.base h.places

theorem Relinked.rooted (h : v.Relinked v') (hr : v.Rooted) : v'.Rooted := by
  obtain ⟨q, hq⟩ := h.dir
  intro r hmem
  rw [hq] at hmem
  obtain ⟨i, p, rfl, hi, hp, haddr⟩ := hr r hmem
  obtain ⟨x, hx⟩ := h.entry i
  refine ⟨i, p, (h.ref i).symm, h.cap.symm ▸ hi, ?_, ?_⟩
  · rw [h.places]
    exact hp
  · rw [hx, h.addr]
    exact haddr

theorem Relinked.quiet (h : v.Relinked v') (hq : v.Quiet) : v'.Quiet := by
  unfold Quiet
  rw [h.cont, h.addr]
  exact hq.imp_right fun ⟨hsd, hr⟩ => ⟨hsd, h.rooted hr⟩

/-- One operation on the queue `q`: its new head, and the new links. -/
structure Queued (v : View) (q : Queue) (x : Stailq) (link : ℕ → Option EntryRef) (v' : View) :
    Prop where
  relinked : v.Relinked v'
  this : v'.queue q = x
  other : ∀ q', q' ≠ q → v'.queue q' = v.queue q'
  has : ∀ q', v'.HasQueue q' ↔ v.HasQueue q'
  link : ∀ i, (v'.entry i).seList = link i

theorem Queued.refl (v : View) (q : Queue) :
    v.Queued q (v.queue q) (fun i => (v.entry i).seList) v :=
  ⟨.refl v, rfl, fun _ _ => rfl, fun _ => Iff.rfl, fun _ => rfl⟩

variable {x : Stailq} {link : ℕ → Option EntryRef}

theorem Queued.setLink (h : v.Queued q x link v') (i : ℕ) (r : Option EntryRef) :
    v.Queued q x (Function.update link i r) (v'.setLink i r) := by
  refine ⟨h.relinked.trans (relinked_setLink v' i r), h.this, h.other, h.has, fun j => ?_⟩
  rw [link_setLink, h.link, Function.update_apply]

theorem Queued.onQueue (h : v.Queued q x link v') (hq : v.HasQueue q) (f : Stailq → Stailq) :
    v.Queued q (f x) link (v'.onQueue q f) := by
  refine ⟨h.relinked.trans (relinked_onQueue v' q f), ?_, fun q' hq' => ?_, fun q' => ?_,
    fun j => ?_⟩
  · rw [queue_onQueue ((h.has q).mpr hq), h.this]
  · rw [queue_onQueue_of_ne hq', h.other q' hq']
  · exact (hasQueue_onQueue q').trans (h.has q')
  · rw [link_onQueue, h.link]

end View

/-! ## The operations -/

/-- The program side of a queue. -/
def Queue.at (base : ℕ) : Queue → StailqAt
  | .free => sdFreeListAt (base + 1 * pageSize)
  | .size n => esListAt n

section

variable {s s' : Pm} {v v' : View} {u : Unit} {q : Queue} {i : ℕ} {x : Stailq}
  {link : ℕ → Option EntryRef}

theorem Pm.Shows.queueHead (h : s.Shows v) {hd : Stailq} (hr : Returns (q.at v.base).head s hd s') :
    s = s' ∧ hd = v.queue q ∧ v.HasQueue q := by
  cases q with
  | free =>
    unfold Queue.at sdFreeListAt at hr
    dsimp only at hr
    rw [returns_map] at hr
    obtain ⟨d, hd, rfl⟩ := hr
    obtain ⟨rfl, rfl⟩ := h.loadDir hd
    exact ⟨rfl, rfl, trivial⟩
  | size n =>
    unfold Queue.at esListAt at hr
    simp only [returns_bind, returns_get, returns_ofOption, returns_pure] at hr
    obtain ⟨_, _, ⟨rfl, rfl⟩, es, _, ⟨hes, rfl⟩, rfl, rfl⟩ := hr
    rw [h.sizes] at hes
    unfold View.queue View.HasQueue
    dsimp only
    rw [hes]
    exact ⟨rfl, rfl, rfl⟩

theorem Pm.Shows.onSize (h : s.Shows v) (sz : List SlabEntrySize) :
    Pm.Shows { s with sizes := sz } { v with sizes := sz } ∧
      s.SameData v.toPlaces { s with sizes := sz } := by
  refine ⟨⟨⟨h.space.serves, h.space.aligned, h.space.inj, h.space.maps⟩, h.start, h.containers,
    fun y hy => ?_, rfl, h.wf⟩, ⟨⟨s.file, sz, rfl⟩, fun _ _ _ => rfl, fun _ _ => rfl⟩⟩
  cases y <;> exact h.page _ hy

theorem Pm.Shows.setFirst (h : s.Shows v) (hq : v.Quiet) {r : Option EntryRef}
    (hr : Returns ((q.at v.base).setFirst r) s u s') :
    s'.Shows (v.onQueue q fun x => { x with first := r }) ∧ s.SameData v.toPlaces s' := by
  cases q with
  | free => exact h.updateDir hq hr
  | size n =>
    obtain rfl := returns_modify.mp hr
    have hsz := h.onSize (v.sizes.map (updateSize n fun x => { x with first := r }))
    show Pm.Shows _ { v with sizes := v.sizes.map _ } ∧ _
    rw [← h.sizes] at hsz ⊢
    exact hsz

theorem Pm.Shows.setLast (h : s.Shows v) (hq : v.Quiet) {r : Option EntryRef}
    (hr : Returns ((q.at v.base).setLast r) s u s') :
    s'.Shows (v.onQueue q fun x => { x with last := r }) ∧ s.SameData v.toPlaces s' := by
  cases q with
  | free => exact h.updateDir hq hr
  | size n =>
    obtain rfl := returns_modify.mp hr
    have hsz := h.onSize (v.sizes.map (updateSize n fun x => { x with last := r }))
    show Pm.Shows _ { v with sizes := v.sizes.map _ } ∧ _
    rw [← h.sizes] at hsz ⊢
    exact hsz

/-- `s'` is `s` after an operation on the queue `q`. -/
def Pm.Requeues (s : Pm) (v : View) (q : Queue) (x : Stailq) (link : ℕ → Option EntryRef) (s' : Pm) :
    Prop :=
  ∃ v', v.Queued q x link v' ∧ s'.Shows v' ∧ s.SameData v.toPlaces s'

theorem Pm.Requeues.refl (h : s.Shows v) (q : Queue) :
    s.Requeues v q (v.queue q) (fun i => (v.entry i).seList) s :=
  ⟨v, .refl v q, h, .refl _ s⟩

/-- One more store to a link. -/
theorem Pm.Requeues.setLink {t : Pm} (h : s.Requeues v q x link t) (hq : v.Quiet) (hi : i < v.cap)
    {r : Option EntryRef} (hr : Returns (updateEntry (v.ref i) fun e => { e with seList := r }) t u s') :
    s.Requeues v q x (Function.update link i r) s' := by
  obtain ⟨v₁, hv, hs, hm⟩ := h
  rw [← hv.relinked.ref] at hr
  rw [← hv.relinked.cap] at hi
  obtain ⟨hs', hm'⟩ := hs.updateEntry (hv.relinked.quiet hq) hi hr
  rw [hv.relinked.places] at hm'
  exact ⟨_, hv.setLink i r, hs', hm.trans hm'⟩

theorem Pm.Requeues.setFirst {t : Pm} (h : s.Requeues v q x link t) (hq : v.Quiet)
    (hhas : v.HasQueue q) {r : Option EntryRef} (hr : Returns ((q.at v.base).setFirst r) t u s') :
    s.Requeues v q { x with first := r } link s' := by
  obtain ⟨v₁, hv, hs, hm⟩ := h
  rw [← hv.relinked.base] at hr
  obtain ⟨hs', hm'⟩ := hs.setFirst (hv.relinked.quiet hq) hr
  rw [hv.relinked.places] at hm'
  exact ⟨_, hv.onQueue hhas fun x => { x with first := r }, hs', hm.trans hm'⟩

theorem Pm.Requeues.setLast {t : Pm} (h : s.Requeues v q x link t) (hq : v.Quiet)
    (hhas : v.HasQueue q) {r : Option EntryRef} (hr : Returns ((q.at v.base).setLast r) t u s') :
    s.Requeues v q { x with last := r } link s' := by
  obtain ⟨v₁, hv, hs, hm⟩ := h
  rw [← hv.relinked.base] at hr
  obtain ⟨hs', hm'⟩ := hs.setLast (hv.relinked.quiet hq) hr
  rw [hv.relinked.places] at hm'
  exact ⟨_, hv.onQueue hhas fun x => { x with last := r }, hs', hm.trans hm'⟩

theorem Pm.Requeues.head {t : Pm} {hd : Stailq} (h : s.Requeues v q x link t)
    (hr : Returns (q.at v.base).head t hd s') : t = s' ∧ hd = x ∧ v.HasQueue q := by
  obtain ⟨v₁, hv, hs, -⟩ := h
  rw [← hv.relinked.base] at hr
  obtain ⟨rfl, rfl, hhas⟩ := hs.queueHead hr
  exact ⟨rfl, hv.this, (hv.has q).mp hhas⟩

/-- The links after the entry `i` joined the end of a queue. -/
def tailLink (v : View) (last : Option EntryRef) (i : ℕ) (j : ℕ) : Option EntryRef :=
  if last = some (v.ref j) then some (v.ref i) else if j = i then none else (v.entry j).seList

/-- **`STAILQ_INSERT_TAIL`.** -/
theorem requeues_insertTail (h : s.Shows v) (hq : v.Quiet) (hi : i < v.cap)
    (hlast : ∀ r ∈ (v.queue q).last, ∃ j < v.cap, r = v.ref j)
    (hr : Returns (stailqInsertTail (q.at v.base) (v.ref i)) s u s') :
    ∃ v', v.Relinked v' ∧ s'.Shows v' ∧ s.SameData v.toPlaces s' ∧ v.HasQueue q ∧
      v'.queue q = ⟨if (v.queue q).last = none then some (v.ref i) else (v.queue q).first,
        some (v.ref i)⟩ ∧
      (∀ q', q' ≠ q → v'.queue q' = v.queue q') ∧ (∀ q', v'.HasQueue q' ↔ v.HasQueue q') ∧
      ∀ j < v.cap, (v'.entry j).seList = tailLink v (v.queue q).last i j := by
  unfold stailqInsertTail at hr
  rw [returns_bind] at hr
  obtain ⟨_, s₁, h₁, hr⟩ := hr
  have hs₁ := (Pm.Requeues.refl h q).setLink hq hi h₁
  rw [returns_bind] at hr
  obtain ⟨hd, s₂, h₂, hr⟩ := hr
  obtain ⟨rfl, rfl, hhas⟩ := hs₁.head h₂
  rw [returns_bind] at hr
  obtain ⟨_, s₃, h₃, hr⟩ := hr
  unfold tailLink
  cases hl : (v.queue q).last with
  | none =>
    rw [hl] at h₃
    obtain ⟨v', hv, hs', hm⟩ := (hs₁.setFirst hq hhas h₃).setLast hq hhas hr
    refine ⟨v', hv.relinked, hs', hm, hhas, ?_, hv.other, hv.has, fun j _ => ?_⟩
    · rw [hv.this, if_pos rfl]
    · rw [hv.link, Function.update_apply, if_neg (Option.some_ne_none _).symm]
  | some r =>
    rw [hl] at h₃
    obtain ⟨k, hk, rfl⟩ := hlast r hl
    obtain ⟨v', hv, hs', hm⟩ := (hs₁.setLink hq hk h₃).setLast hq hhas hr
    refine ⟨v', hv.relinked, hs', hm, hhas, ?_, hv.other, hv.has, fun j hj => ?_⟩
    · rw [hv.this, if_neg (Option.some_ne_none _)]
    · rw [hv.link, Function.update_apply, Function.update_apply]
      by_cases hjk : j = k
      · rw [if_pos hjk, hjk, if_pos rfl]
      · have hne : some (v.ref k) ≠ some (v.ref j) := fun he =>
          hjk (h.wf.ref_inj hk hj (Option.some.inj he)).symm
        rw [if_neg hjk, if_neg hne]

/-- **`STAILQ_INSERT_HEAD`.** -/
theorem requeues_insertHead (h : s.Shows v) (hq : v.Quiet) (hi : i < v.cap)
    (hr : Returns (stailqInsertHead (q.at v.base) (v.ref i)) s u s') :
    ∃ v', v.Relinked v' ∧ s'.Shows v' ∧ s.SameData v.toPlaces s' ∧ v.HasQueue q ∧
      v'.queue q = ⟨some (v.ref i), if (v.queue q).first = none then some (v.ref i)
        else (v.queue q).last⟩ ∧
      (∀ q', q' ≠ q → v'.queue q' = v.queue q') ∧ (∀ q', v'.HasQueue q' ↔ v.HasQueue q') ∧
      ∀ j, j ≠ i → (v'.entry j).seList = (v.entry j).seList := by
  unfold stailqInsertHead at hr
  rw [returns_bind] at hr
  obtain ⟨hd, s₁, h₁, hr⟩ := hr
  obtain ⟨rfl, rfl, hhas⟩ := h.queueHead h₁
  rw [returns_bind] at hr
  obtain ⟨_, s₂, h₂, hr⟩ := hr
  have hs₂ := (Pm.Requeues.refl h q).setLink hq hi h₂
  rw [returns_bind] at hr
  obtain ⟨_, s₃, h₃, hr⟩ := hr
  rw [returns_when] at h₃
  rcases h₃ with ⟨hf, h₃⟩ | ⟨hf, rfl⟩
  · obtain ⟨v', hv, hs', hm⟩ := (hs₂.setLast hq hhas h₃).setFirst hq hhas hr
    refine ⟨v', hv.relinked, hs', hm, hhas, ?_, hv.other, hv.has, fun j hj => ?_⟩
    · rw [hv.this, if_pos hf]
    · rw [hv.link, Function.update_of_ne hj]
  · obtain ⟨v', hv, hs', hm⟩ := hs₂.setFirst hq hhas hr
    refine ⟨v', hv.relinked, hs', hm, hhas, ?_, hv.other, hv.has, fun j hj => ?_⟩
    · rw [hv.this, if_neg hf]
    · rw [hv.link, Function.update_of_ne hj]

/-- **`STAILQ_REMOVE_HEAD`.** -/
theorem requeues_removeHead (h : s.Shows v) (hq : v.Quiet) (hi : i < v.cap)
    (hfirst : (v.queue q).first = some (v.ref i))
    (hr : Returns (stailqRemoveHead (q.at v.base)) s u s') :
    ∃ v', v.Relinked v' ∧ s'.Shows v' ∧ s.SameData v.toPlaces s' ∧
      v'.queue q = ⟨(v.entry i).seList, if (v.entry i).seList = none then none
        else (v.queue q).last⟩ ∧
      (∀ q', q' ≠ q → v'.queue q' = v.queue q') ∧ (∀ q', v'.HasQueue q' ↔ v.HasQueue q') ∧
      ∀ j, (v'.entry j).seList = (v.entry j).seList := by
  unfold stailqRemoveHead at hr
  rw [returns_bind] at hr
  obtain ⟨hd, s₁, h₁, hr⟩ := hr
  obtain ⟨rfl, rfl, hhas⟩ := h.queueHead h₁
  simp only [returns_bind, returns_ofOption] at hr
  obtain ⟨r, _, ⟨hr₁, rfl⟩, e, s₂, h₂, _, s₃, h₃, hr⟩ := hr
  rw [hfirst, Option.some.injEq] at hr₁
  subst hr₁
  obtain ⟨rfl, rfl⟩ := h.loadEntry hi h₂
  have hs₃ := (Pm.Requeues.refl h q).setFirst hq hhas h₃
  rw [returns_when] at hr
  rcases hr with ⟨hn, hr⟩ | ⟨hn, rfl⟩
  · obtain ⟨v', hv, hs', hm⟩ := hs₃.setLast hq hhas hr
    refine ⟨v', hv.relinked, hs', hm, ?_, hv.other, hv.has, hv.link⟩
    rw [hv.this, if_pos hn]
  · obtain ⟨v', hv, hs', hm⟩ := hs₃
    refine ⟨v', hv.relinked, hs', hm, ?_, hv.other, hv.has, hv.link⟩
    rw [hv.this, if_neg hn]

end

/-! ## The free list -/

/-- The free list holds the entries `k`, …, `c - 1` in this order. -/
structure View.FreeRange (v : View) (k c : ℕ) : Prop where
  first : (v.queue .free).first = if k < c then some (v.ref k) else none
  last : (v.queue .free).last = if k < c then some (v.ref (c - 1)) else none
  next : ∀ i, k ≤ i → i < c → (v.entry i).seList = if i + 1 < c then some (v.ref (i + 1)) else none

theorem View.FreeRange.congr {v v' : View} {k c : ℕ} (h : v.FreeRange k c) (hr : v.Relinked v')
    (hq : v'.queue .free = v.queue .free)
    (hl : ∀ i, k ≤ i → i < c → (v'.entry i).seList = (v.entry i).seList) : v'.FreeRange k c := by
  refine ⟨?_, ?_, fun i hk hc => ?_⟩
  · rw [hq, h.first, hr.ref]
  · rw [hq, h.last, hr.ref]
  · rw [hl i hk hc, h.next i hk hc, hr.ref]

/-- The next entry joins the free list. -/
theorem Pm.Shows.freeNext {s s' : Pm} {v : View} {u : Unit} {k c : ℕ} (h : s.Shows v) (hq : v.Quiet)
    (hf : v.FreeRange k c) (hk : k ≤ c) (hc : c < v.cap)
    (hr : Returns (stailqInsertTail (sdFreeListAt (v.addr 1)) (v.ref c)) s u s') :
    ∃ v', v.Relinked v' ∧ s'.Shows v' ∧ s.SameData v.toPlaces s' ∧ v'.FreeRange k (c + 1) ∧
      (∀ q, q ≠ .free → v'.queue q = v.queue q) ∧ (∀ q, v'.HasQueue q ↔ v.HasQueue q) := by
  have hlast : ∀ r ∈ (v.queue .free).last, ∃ j < v.cap, r = v.ref j := by
    intro r hr
    rw [hf.last] at hr
    split_ifs at hr with hlt
    · cases hr
      exact ⟨c - 1, by omega, rfl⟩
    · cases hr
  obtain ⟨v', hv, hs', hm, -, hqueue, hother, hhas, hlink⟩ :=
    @requeues_insertTail s s' v u .free c h hq hc hlast hr
  have hkc : k < c + 1 := by omega
  refine ⟨v', hv, hs', hm, ⟨?_, ?_, fun i hki hi => ?_⟩, hother, hhas⟩
  · rw [hqueue, hv.ref, if_pos hkc]
    show (if (v.queue .free).last = none then some (v.ref c) else (v.queue .free).first) = _
    rw [hf.last, hf.first]
    by_cases hlt : k < c
    · rw [if_pos hlt, if_neg (Option.some_ne_none _), if_pos hlt]
    · rw [if_neg hlt, if_pos rfl, show k = c by omega]
  · rw [hqueue, hv.ref, if_pos hkc, Nat.add_sub_cancel]
  · rw [hlink i (by omega), hv.ref]
    unfold tailLink
    rw [hf.last]
    by_cases hic : i = c
    · subst hic
      have hne : (if k < i then some (v.ref (i - 1)) else none) ≠ some (v.ref i) := by
        split_ifs with hlt
        · intro he
          have := h.wf.ref_inj (by omega) (by omega) (Option.some.inj he)
          omega
        · exact (Option.some_ne_none _).symm
      rw [if_neg hne, if_pos rfl, if_neg (Nat.lt_irrefl _)]
    · have hlt : k < c := by omega
      have hi1 : i + 1 < c + 1 := by omega
      rw [if_pos hlt, if_pos hi1]
      by_cases hlast : i = c - 1
      · rw [hlast, if_pos rfl, show c - 1 + 1 = c by omega]
      · have hne : some (v.ref (c - 1)) ≠ some (v.ref i) := fun he =>
          hlast (h.wf.ref_inj (by omega) (by omega) (Option.some.inj he)).symm
        have hi2 : i + 1 < c := by omega
        rw [if_neg hne, if_neg hic, hf.next i hki (by omega), if_pos hi2]

/-- The first entry leaves the free list. -/
theorem Pm.Shows.freeTake {s s' : Pm} {v : View} {u : Unit} {k c : ℕ} (h : s.Shows v) (hq : v.Quiet)
    (hf : v.FreeRange k c) (hk : k < c) (hc : c ≤ v.cap)
    (hr : Returns (stailqRemoveHead (sdFreeListAt (v.addr 1))) s u s') :
    ∃ v', v.Relinked v' ∧ s'.Shows v' ∧ s.SameData v.toPlaces s' ∧ v'.FreeRange (k + 1) c ∧
      (∀ q, q ≠ .free → v'.queue q = v.queue q) ∧ (∀ q, v'.HasQueue q ↔ v.HasQueue q) := by
  have hfirst : (v.queue .free).first = some (v.ref k) := by rw [hf.first, if_pos hk]
  obtain ⟨v', hv, hs', hm, hqueue, hother, hhas, hlink⟩ :=
    @requeues_removeHead s s' v u .free k h hq (by omega) hfirst hr
  have hnext := hf.next k (Nat.le_refl k) hk
  refine ⟨v', hv, hs', hm, ⟨?_, ?_, fun i hki hi => ?_⟩, hother, hhas⟩
  · rw [hqueue, hv.ref]
    exact hnext
  · rw [hqueue, hv.ref]
    show (if (v.entry k).seList = none then none else (v.queue .free).last) = _
    rw [hnext, hf.last, if_pos hk]
    by_cases hlt : k + 1 < c
    · rw [if_pos hlt, if_pos hlt, if_neg (Option.some_ne_none _)]
    · rw [if_neg hlt, if_neg hlt, if_pos rfl]
  · rw [hlink, hf.next i (by omega) hi, hv.ref]

end LibPM

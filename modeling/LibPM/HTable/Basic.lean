import Mathlib.Data.Finmap
import LibPM.Chains.Basic
import LibPM.Model.HTable

/-!
# The hash table is a finite map

`HTable.Wf` is the invariant of a table and `HTable.toMap` the map it stands for. Every call keeps
the invariant and does to the map what `MapCall` says, so that the answers of a run are those of a
finite map (`htable_run`).
-/

namespace LibPM

/-- The map of a list of entries. -/
def mapOf (l : List HtableEntry) : Finmap fun _ : ℕ => ℕ :=
  (l.map fun e => (⟨e.key, e.val⟩ : (_ : ℕ) × ℕ)).toFinmap

/-- No key occurs twice. -/
abbrev KeysNodup (l : List HtableEntry) : Prop := (l.map HtableEntry.key).Nodup

theorem KeysNodup.perm {l l' : List HtableEntry} (h : KeysNodup l) (hp : l.Perm l') :
    KeysNodup l' :=
  (hp.map _).nodup_iff.mp h

theorem KeysNodup.nodupKeys {l : List HtableEntry} (h : KeysNodup l) :
    (l.map fun e => (⟨e.key, e.val⟩ : (_ : ℕ) × ℕ)).NodupKeys := by
  unfold List.NodupKeys List.keys
  rw [List.map_map]
  exact h

theorem KeysNodup.eq {l : List HtableEntry} (h : KeysNodup l) {e e' : HtableEntry} (he : e ∈ l)
    (he' : e' ∈ l) (hk : e.key = e'.key) : e = e' :=
  List.inj_on_of_nodup_map h he he' hk

theorem mapOf_cons (e : HtableEntry) (l : List HtableEntry) :
    mapOf (e :: l) = (mapOf l).insert e.key e.val := by
  unfold mapOf
  rw [List.map_cons, Finmap.toFinmap_cons]

theorem lookup_mapOf {l : List HtableEntry} (h : KeysNodup l) {k v : ℕ} :
    (mapOf l).lookup k = some v ↔ ∃ e ∈ l, e.key = k ∧ e.val = v := by
  unfold mapOf
  rw [Finmap.dlookup_list_toFinmap, ← Option.mem_def, List.mem_dlookup_iff h.nodupKeys]
  simp

theorem mapOf_perm {l l' : List HtableEntry} (h : KeysNodup l) (hp : l.Perm l') :
    mapOf l = mapOf l' := by
  refine Finmap.ext_lookup fun k => Option.ext fun v => ?_
  rw [lookup_mapOf h, lookup_mapOf (h.perm hp)]
  simp only [hp.mem_iff]

theorem mem_mapOf {l : List HtableEntry} (h : KeysNodup l) {k : ℕ} :
    k ∈ mapOf l ↔ ∃ e ∈ l, e.key = k := by
  rw [← Finmap.lookup_isSome, Option.isSome_iff_exists]
  simp only [lookup_mapOf h]
  constructor
  · rintro ⟨v, e, he, hk, -⟩
    exact ⟨e, he, hk⟩
  · rintro ⟨e, he, hk⟩
    exact ⟨e.val, e, he, hk, rfl⟩

namespace HTable

/-- The map a table stands for. -/
def toMap (ht : HTable) : Finmap fun _ : ℕ => ℕ := mapOf ht.entries

/-- The invariant of a table. -/
structure Wf (ht : HTable) : Prop where
  length : ∃ i, ht.length = 2 ^ (i + 2)
  home : ∀ i < ht.length, ∀ e ∈ ht.list i, e.hash.toNat &&& (ht.length - 1) = i
  hash : ∀ e ∈ ht.entries, e.hash = hashKey e.key
  nodup : KeysNodup ht.entries
  elems : ht.elems = ht.entries.length

/-! ## Slots and chains -/

theorem slot_two_pow (i : ℕ) (h : UInt32) : slot (2 ^ i) h = h.toNat &&& (2 ^ i - 1) :=
  (Nat.and_two_pow_sub_one_eq_mod _ _).symm

theorem entries_eq (ht : HTable) : ht.entries = Chains.items ht.length ht.list := rfl

theorem push_eq (n : ℕ) : push n = Chains.push fun e => slot n e.hash := rfl

variable {ht : HTable}

namespace Wf

theorem pos (h : ht.Wf) : 0 < ht.length := by
  obtain ⟨i, hi⟩ := h.length
  rw [hi]
  exact Nat.two_pow_pos _

theorem slot_lt (h : ht.Wf) (w : UInt32) : slot ht.length w < ht.length := Nat.mod_lt _ h.pos

theorem chains (h : ht.Wf) : Chains.Home ht.length (fun e => slot ht.length e.hash) ht.list := by
  intro i hi e he
  obtain ⟨j, hj⟩ := h.length
  have hhome := h.home i hi e he
  simp only [hj, slot_two_pow] at hhome ⊢
  exact hhome

/-- The invariant, with the chains in the words of `slot`. -/
theorem of_chains (hlen : ∃ i, ht.length = 2 ^ (i + 2))
    (hhome : Chains.Home ht.length (fun e => slot ht.length e.hash) ht.list)
    (hhash : ∀ e ∈ ht.entries, e.hash = hashKey e.key) (hnodup : KeysNodup ht.entries)
    (helems : ht.elems = ht.entries.length) : ht.Wf := by
  refine ⟨hlen, fun i hi e he => ?_, hhash, hnodup, helems⟩
  obtain ⟨j, hj⟩ := hlen
  have h := hhome i hi e he
  simp only [hj, slot_two_pow] at h ⊢
  exact h

/-- The chain of a key holds its entry. -/
theorem find?_eq_some (h : ht.Wf) {key : ℕ} {e : HtableEntry} :
    (ht.list (slot ht.length (hashKey key))).find? (hit key (hashKey key)) = some e ↔
      e ∈ ht.entries ∧ e.key = key := by
  have hsound : ∀ x, (ht.list (slot ht.length (hashKey key))).find? (hit key (hashKey key)) =
      some x → x ∈ ht.entries ∧ x.key = key := by
    intro x hx
    have hhit := List.find?_some hx
    simp only [hit, Bool.and_eq_true, beq_iff_eq] at hhit
    exact ⟨Chains.mem_items.mpr ⟨_, h.slot_lt _, List.mem_of_find?_eq_some hx⟩, hhit.2⟩
  constructor
  · exact hsound e
  · rintro ⟨he, rfl⟩
    have hmem := h.chains.mem_chain he
    rw [h.hash e he] at hmem
    have hex : ((ht.list (slot ht.length (hashKey e.key))).find?
        (hit e.key (hashKey e.key))).isSome :=
      List.find?_isSome.mpr ⟨e, hmem, by simp [hit, h.hash e he]⟩
    obtain ⟨x, hx⟩ := Option.isSome_iff_exists.mp hex
    obtain ⟨hxe, hxk⟩ := hsound x hx
    rw [hx, h.nodup.eq hxe he hxk]

theorem find?_eq_none (h : ht.Wf) {key : ℕ} :
    (ht.list (slot ht.length (hashKey key))).find? (hit key (hashKey key)) = none ↔
      key ∉ ht.toMap := by
  rw [toMap, mem_mapOf h.nodup, Option.eq_none_iff_forall_ne_some]
  constructor
  · rintro hn ⟨e, he, hk⟩
    exact hn e (h.find?_eq_some.mpr ⟨he, hk⟩)
  · intro hn e he
    exact hn ⟨e, h.find?_eq_some.mp he⟩

/-- The answer of a search in the chain is that of the map. -/
theorem map_find? (h : ht.Wf) (key : ℕ) :
    ((ht.list (slot ht.length (hashKey key))).find? (hit key (hashKey key))).map
      HtableEntry.val = ht.toMap.lookup key := by
  refine Option.ext fun v => ?_
  rw [toMap, lookup_mapOf h.nodup, Option.map_eq_some_iff]
  simp only [h.find?_eq_some, and_assoc]

/-- One chain is replaced, and its entries with those of the others are `l`. -/
theorem replace (h : ht.Wf) {i : ℕ} {chain l : List HtableEntry} {n : ℕ}
    (hchain : ∀ e ∈ chain, slot ht.length e.hash = i)
    (hp : (Chains.items ht.length (Function.update ht.list i chain)).Perm l)
    (hhash : ∀ e ∈ l, e.hash = hashKey e.key) (hnodup : KeysNodup l) (hn : n = l.length) :
    ({ ht with elems := n, list := Function.update ht.list i chain } : HTable).Wf := by
  refine of_chains h.length (h.chains.update hchain) (fun e he => hhash e (hp.mem_iff.mp he))
    (hnodup.perm hp.symm) ?_
  rw [hn]
  exact hp.length_eq.symm

end Wf

/-! ## Resizing -/

theorem newLength_two_pow (elems fuel j : ℕ) :
    ∃ i, newLength elems fuel (2 ^ (j + 2)) = 2 ^ (i + 2) := by
  induction fuel generalizing j with
  | zero => exact ⟨j, rfl⟩
  | succ fuel ih =>
    unfold newLength
    split
    · rw [← Nat.pow_succ']
      exact ih (j + 1)
    · exact ⟨j, rfl⟩

/-- The length never passes a power of two that holds the entries. -/
theorem newLength_le {elems k : ℕ} (hk : elems ≤ 2 ^ k) (fuel j : ℕ) (hj : j ≤ k) :
    newLength elems fuel (2 ^ j) ≤ 2 ^ k := by
  induction fuel generalizing j with
  | zero => exact Nat.pow_le_pow_right (by omega) hj
  | succ fuel ih =>
    unfold newLength
    split
    · next hlt =>
      have hjk : j < k := (Nat.pow_lt_pow_iff_right (by omega)).mp (lt_of_lt_of_le hlt hk)
      rw [← Nat.pow_succ']
      exact ih (j + 1) hjk
    · exact Nat.pow_le_pow_right (by omega) hj

theorem resize_length (ht : HTable) : ∃ i, ht.resize.length = 2 ^ (i + 2) :=
  newLength_two_pow ht.elems 30 0

theorem resize_length_le {k : ℕ} (hk : ht.elems ≤ 2 ^ k) (h2 : 2 ≤ k) :
    ht.resize.length ≤ 2 ^ k :=
  newLength_le hk 30 2 h2

theorem slot_lt_resize (ht : HTable) (w : UInt32) : slot ht.resize.length w < ht.resize.length := by
  obtain ⟨i, hi⟩ := ht.resize_length
  rw [hi]
  exact Nat.mod_lt _ (Nat.two_pow_pos _)

/-- Taking the chains apart keeps the entries. -/
theorem entries_resize (ht : HTable) : ht.resize.entries.Perm ht.entries := by
  have h := Chains.items_foldl_push (fun e : HtableEntry => slot ht.resize.length e.hash)
    ht.entries (fun _ => []) fun e _ => ht.slot_lt_resize e.hash
  rw [Chains.items_nil, List.append_nil] at h
  exact h

theorem resize_wf (hhash : ∀ e ∈ ht.entries, e.hash = hashKey e.key)
    (hnodup : KeysNodup ht.entries) (helems : ht.elems = ht.entries.length) : ht.resize.Wf := by
  have hp := ht.entries_resize
  refine Wf.of_chains ht.resize_length ?_ (fun e he => hhash e (hp.mem_iff.mp he))
    (hnodup.perm hp.symm) (helems.trans hp.length_eq.symm)
  exact Chains.Home.foldl_push _ (fun e _ => ht.slot_lt_resize e.hash) (Chains.home_nil _ _)

theorem Wf.resize (h : ht.Wf) : ht.resize.Wf := resize_wf h.hash h.nodup h.elems

theorem Wf.toMap_resize (h : ht.Wf) : ht.resize.toMap = ht.toMap :=
  mapOf_perm h.resize.nodup ht.entries_resize

/-- The assertion of `htable_resize` holds. -/
theorem Wf.htableResize (h : ht.Wf) : ht.htableResize = some ht.resize := if_pos h.elems

theorem init_wf : init.Wf := resize_wf (fun _ he => by cases he) List.nodup_nil rfl

theorem toMap_init : init.toMap = ∅ := rfl

/-! ## Inserting -/

theorem insertChain_of_find?_none {key : ℕ} {hash : UInt32} (val : ℕ) {l : List HtableEntry}
    (h : l.find? (hit key hash) = none) : insertChain key val hash l = l ++ [⟨hash, key, val⟩] := by
  induction l with
  | nil => rfl
  | cons e l ih =>
    rw [List.find?_cons] at h
    unfold insertChain
    split at h
    · cases h
    · next hhit => simp [hhit, ih h]

theorem insertChain_of_find?_some {key : ℕ} {hash : UInt32} (val : ℕ) {l : List HtableEntry}
    {e : HtableEntry} (h : l.find? (hit key hash) = some e) :
    ∃ l₁ l₂, l = l₁ ++ e :: l₂ ∧
      insertChain key val hash l = l₁ ++ { e with val := val } :: l₂ := by
  induction l with
  | nil => cases h
  | cons x l ih =>
    rw [List.find?_cons] at h
    unfold insertChain
    split at h
    · next hhit =>
      cases h
      exact ⟨[], l, rfl, by simp [hhit]⟩
    · next hhit =>
      obtain ⟨l₁, l₂, rfl, hl⟩ := ih h
      exact ⟨x :: l₁, l₂, rfl, by simp [hhit, hl]⟩

/-- The table that `htable_insert` writes before it looks at its size. -/
def written (ht : HTable) (key val n : ℕ) : HTable :=
  let i := slot ht.length (hashKey key)
  { ht with
    elems := n
    list := Function.update ht.list i (insertChain key val (hashKey key) (ht.list i)) }

/-- A new key. -/
theorem Wf.written_new (h : ht.Wf) {key : ℕ} (hk : key ∉ ht.toMap) (val : ℕ) :
    (ht.written key val (ht.elems + 1)).Wf ∧
      (ht.written key val (ht.elems + 1)).toMap = ht.toMap.insert key val := by
  let new : HtableEntry := ⟨hashKey key, key, val⟩
  obtain ⟨rest, hold, hnew⟩ := Chains.items_split (h.slot_lt (hashKey key)) ht.list
  have hchain := insertChain_of_find?_none val (h.find?_eq_none.mpr hk)
  have hp : (ht.written key val (ht.elems + 1)).entries.Perm (new :: ht.entries) := by
    refine (hnew _).trans ?_
    rw [hchain, List.append_assoc]
    exact List.perm_middle.trans (hold.symm.cons _)
  have hnodup : KeysNodup (new :: ht.entries) := by
    refine List.nodup_cons.mpr ⟨fun hmem => hk ?_, h.nodup⟩
    obtain ⟨e, he, hek⟩ := List.mem_map.mp hmem
    exact (mem_mapOf h.nodup).mpr ⟨e, he, hek⟩
  have hwf : (ht.written key val (ht.elems + 1)).Wf := by
    refine h.replace (fun e he => ?_) hp (fun e he => ?_) hnodup ?_
    · rw [hchain] at he
      rcases List.mem_append.mp he with he | he
      · exact h.chains _ (h.slot_lt _) e he
      · rw [List.mem_singleton.mp he]
    · rcases List.mem_cons.mp he with rfl | he
      · rfl
      · exact h.hash e he
    · rw [h.elems]
      rfl
  exact ⟨hwf, (mapOf_perm hwf.nodup hp).trans (mapOf_cons _ _)⟩

/-- A key that the table holds. -/
theorem Wf.written_old (h : ht.Wf) {key : ℕ} (hk : key ∈ ht.toMap) (val : ℕ) :
    (ht.written key val ht.elems).Wf ∧
      (ht.written key val ht.elems).toMap = ht.toMap.insert key val := by
  obtain ⟨e, he, rfl⟩ := (mem_mapOf h.nodup).mp hk
  obtain ⟨rest, hold, hnew⟩ := Chains.items_split (h.slot_lt (hashKey e.key)) ht.list
  obtain ⟨l₁, l₂, hl, hchain⟩ := insertChain_of_find?_some val (h.find?_eq_some.mpr ⟨he, rfl⟩)
  have hp₀ : ht.entries.Perm (e :: (l₁ ++ l₂ ++ rest)) := by
    refine hold.trans ?_
    rw [hl]
    exact (List.perm_middle.append_right rest)
  have hp : (ht.written e.key val ht.elems).entries.Perm
      ({ e with val := val } :: (l₁ ++ l₂ ++ rest)) := by
    refine (hnew _).trans ?_
    rw [hchain]
    exact (List.perm_middle.append_right rest)
  have hnodup₀ := h.nodup.perm hp₀
  have hwf : (ht.written e.key val ht.elems).Wf := by
    refine h.replace (fun x hx => ?_) hp (fun x hx => ?_) hnodup₀ ?_
    · have hin : ∀ y ∈ ht.list (slot ht.length (hashKey e.key)),
          slot ht.length y.hash = slot ht.length (hashKey e.key) :=
        h.chains _ (h.slot_lt _)
      rw [hl] at hin
      rw [hchain] at hx
      rcases List.mem_append.mp hx with hx | hx
      · exact hin x (List.mem_append_left _ hx)
      · rcases List.mem_cons.mp hx with rfl | hx
        · exact hin e (by simp)
        · exact hin x (by simp [hx])
    · rcases List.mem_cons.mp hx with rfl | hx
      · exact h.hash e he
      · exact h.hash x (hp₀.mem_iff.mpr (List.mem_cons_of_mem _ hx))
    · rw [h.elems, hp₀.length_eq]
      rfl
  refine ⟨hwf, (mapOf_perm hwf.nodup hp).trans ?_⟩
  rw [mapOf_cons, toMap, mapOf_perm h.nodup hp₀, mapOf_cons, Finmap.insert_insert]

theorem Wf.any_hit (h : ht.Wf) (key : ℕ) :
    (ht.list (slot ht.length (hashKey key))).any (hit key (hashKey key)) = true ↔
      key ∈ ht.toMap := by
  rw [List.any_eq_true, ← List.find?_isSome, ← not_iff_not, ← h.find?_eq_none,
    Bool.not_eq_true, Option.isSome_eq_false_iff, Option.isNone_iff_eq_none]

/-- What `htable_insert` does and answers. -/
theorem Wf.htableInsert (h : ht.Wf) (key val : ℕ) :
    ∃ ht' r, ht.htableInsert key val = some (ht', r) ∧ ht' = ht.insert key val ∧ ht'.Wf ∧
      ht'.toMap = ht.toMap.insert key val ∧ (r = if key ∈ ht.toMap then 0 else 1) ∧
      (ht'.length = ht.length ∨ ∃ t : HTable, t.elems = ht'.elems ∧ ht' = t.resize) := by
  by_cases hk : key ∈ ht.toMap
  · obtain ⟨hwf, hmap⟩ := h.written_old hk val
    refine ⟨ht.written key val ht.elems, 0, ?_, ?_, hwf, hmap, (if_pos hk).symm, .inl rfl⟩
    · exact if_pos ((h.any_hit key).mpr hk)
    · exact (if_pos ((h.any_hit key).mpr hk)).symm
  · obtain ⟨hwf, hmap⟩ := h.written_new hk val
    have hany : ¬(ht.list (slot ht.length (hashKey key))).any (hit key (hashKey key)) = true :=
      fun hc => hk ((h.any_hit key).mp hc)
    by_cases hlen : ht.elems + 1 > ht.length
    · refine ⟨(ht.written key val (ht.elems + 1)).resize, 1, ?_, ?_, hwf.resize,
        hwf.toMap_resize.trans hmap, (if_neg hk).symm,
        .inr ⟨ht.written key val (ht.elems + 1), rfl, rfl⟩⟩
      · refine (if_neg hany).trans ((if_pos hlen).trans ?_)
        exact congrArg (Option.map fun ht => (ht, 1)) hwf.htableResize
      · exact ((if_neg hany).trans (if_pos hlen)).symm
    · refine ⟨ht.written key val (ht.elems + 1), 1, ?_, ?_, hwf, hmap, (if_neg hk).symm, .inl rfl⟩
      · exact (if_neg hany).trans (if_neg hlen)
      · exact ((if_neg hany).trans (if_neg hlen)).symm

/-! ## Looking up and removing -/

/-- The answer of `htable_lookup`. -/
theorem Wf.lookup (h : ht.Wf) (key : ℕ) : ht.lookup key = (ht.toMap.lookup key).getD 0 := by
  rw [← h.map_find?]
  unfold HTable.lookup
  dsimp only
  split <;> next heq => simp [heq]

theorem Wf.unlink (h : ht.Wf) {e : HtableEntry} (he : e ∈ ht.entries) :
    (ht.unlink e).Wf ∧ (ht.unlink e).toMap = ht.toMap.erase e.key := by
  obtain ⟨rest, hold, hnew⟩ := Chains.items_split (h.slot_lt e.hash) ht.list
  have hmem := h.chains.mem_chain he
  have hp₀ : ht.entries.Perm (e :: ((ht.list (slot ht.length e.hash)).erase e ++ rest)) :=
    hold.trans ((List.perm_cons_erase hmem).append_right rest)
  have hnodup := h.nodup.perm hp₀
  have hwf : (ht.unlink e).Wf := by
    refine h.replace (fun x hx => ?_) (hnew _) (fun x hx => ?_) (List.nodup_cons.mp hnodup).2 ?_
    · exact h.chains _ (h.slot_lt _) x (List.mem_of_mem_erase hx)
    · exact h.hash x (hp₀.mem_iff.mpr (List.mem_cons_of_mem _ hx))
    · rw [h.elems, hp₀.length_eq]
      rfl
  refine ⟨hwf, (mapOf_perm hwf.nodup (hnew _)).trans ?_⟩
  have hnot : e.key ∉ mapOf ((ht.list (slot ht.length e.hash)).erase e ++ rest) := by
    intro hc
    obtain ⟨x, hx, hxk⟩ := (mem_mapOf (List.nodup_cons.mp hnodup).2).mp hc
    exact (List.nodup_cons.mp hnodup).1 (List.mem_map.mpr ⟨x, hx, hxk⟩)
  rw [toMap, mapOf_perm h.nodup hp₀, mapOf_cons]
  refine Finmap.ext_lookup fun k => ?_
  by_cases hk : k = e.key
  · subst hk
    rw [Finmap.lookup_erase, Finmap.lookup_eq_none.mpr hnot]
  · rw [Finmap.lookup_erase_ne hk, Finmap.lookup_insert_of_ne _ hk]

/-- What `htable_remove` does and answers. -/
theorem Wf.htableRemove (h : ht.Wf) (key : ℕ) :
    (ht.htableRemove key).1 = ht.remove key ∧ (ht.htableRemove key).1.Wf ∧
      (ht.htableRemove key).1.toMap = ht.toMap.erase key ∧
      (ht.htableRemove key).2 = (ht.toMap.lookup key).getD 0 ∧
      (ht.htableRemove key).1.length = ht.length := by
  have hmap := h.map_find? key
  unfold HTable.htableRemove HTable.remove
  dsimp only
  cases hf : (ht.list (slot ht.length (hashKey key))).find? (hit key (hashKey key)) with
  | none =>
    rw [hf] at hmap
    have hnot : key ∉ ht.toMap := h.find?_eq_none.mp hf
    refine ⟨rfl, h, ?_, by rw [← hmap]; rfl, rfl⟩
    refine Finmap.ext_lookup fun k => ?_
    by_cases hk : k = key
    · subst hk
      rw [Finmap.lookup_erase, Finmap.lookup_eq_none.mpr hnot]
    · rw [Finmap.lookup_erase_ne hk]
  | some e =>
    rw [hf] at hmap
    obtain ⟨he, rfl⟩ := h.find?_eq_some.mp hf
    obtain ⟨hwf, hm⟩ := h.unlink he
    exact ⟨rfl, hwf, hm, by rw [← hmap]; rfl, rfl⟩

/-! ## Walking over the table -/

section Walks

variable {σ : Type}

/-- The function of a filter, asked about an entry. -/
def ask (fn : ℕ → ℕ → σ → Bool × σ) (e : HtableEntry) (s : σ) : Bool × σ := fn e.key e.val s

theorem filterChain_eq (fn : ℕ → ℕ → σ → Bool × σ) (l : List HtableEntry) {n : ℕ}
    (hn : l.length ≤ n) (s : σ) :
    (filterChain fn l n s).1 = Chains.kept (Chains.walk (ask fn) l s).1 ∧
      (filterChain fn l n s).2.2 = (Chains.walk (ask fn) l s).2 ∧
      (filterChain fn l n s).2.1 + l.length =
        n + (Chains.kept (Chains.walk (ask fn) l s).1).length := by
  induction l generalizing n s with
  | nil => exact ⟨rfl, rfl, rfl⟩
  | cons e l ih =>
    rw [List.length_cons] at hn
    unfold filterChain Chains.walk ask
    rcases hfn : fn e.key e.val s with ⟨drop, s₁⟩
    cases drop with
    | true =>
      obtain ⟨hl, hs, hlen⟩ := ih (n := n - 1) (by omega) s₁
      refine ⟨hl, hs, ?_⟩
      change (filterChain fn l (n - 1) s₁).2.1 + (l.length + 1) =
        n + (Chains.kept (Chains.walk (ask fn) l s₁).1).length
      omega
    | false =>
      obtain ⟨hl, hs, hlen⟩ := ih (n := n) (by omega) s₁
      refine ⟨congrArg (e :: ·) hl, hs, ?_⟩
      change (filterChain fn l n s₁).2.1 + (l.length + 1) =
        n + ((Chains.kept (Chains.walk (ask fn) l s₁).1).length + 1)
      omega

/-- The table after the first `j` turns of the outer loop of `htable_filter`. -/
structure FilteredTo (fn : ℕ → ℕ → σ → Bool × σ) (ht : HTable) (s : σ) (j : ℕ) (x : HTable × σ) :
    Prop where
  length : x.1.length = ht.length
  kept : Chains.items j x.1.list =
    Chains.kept (Chains.walk (ask fn) (Chains.items j ht.list) s).1
  state : x.2 = (Chains.walk (ask fn) (Chains.items j ht.list) s).2
  rest : ∀ i, j ≤ i → x.1.list i = ht.list i
  sublist : ∀ i, (x.1.list i).Sublist (ht.list i)
  elems : x.1.elems + (Chains.items j ht.list).length =
    ht.elems + (Chains.items j x.1.list).length

theorem FilteredTo.step {fn : ℕ → ℕ → σ → Bool × σ} {s : σ} {j : ℕ} {x : HTable × σ}
    (h : FilteredTo fn ht s j x) (hn : (Chains.items (j + 1) ht.list).length ≤ ht.elems) :
    FilteredTo fn ht s (j + 1) (filterSlot fn x j) := by
  rw [Chains.items_succ, List.length_append] at hn
  have helems := h.elems
  obtain ⟨hl, hs, hlen⟩ := filterChain_eq fn (x.1.list j) (n := x.1.elems)
    (by rw [h.rest j le_rfl]; omega) x.2
  rw [h.rest j le_rfl, h.state] at hl hs hlen
  have hitems : Chains.items j (filterSlot fn x j).1.list = Chains.items j x.1.list :=
    Chains.items_congr fun i hi => Function.update_of_ne (by omega) _ _
  have hat : (filterSlot fn x j).1.list j = (filterChain fn (x.1.list j) x.1.elems x.2).1 :=
    Function.update_self ..
  rw [h.rest j le_rfl, h.state, hl] at hat
  refine ⟨h.length, ?_, ?_, fun i hi => ?_, fun i => ?_, ?_⟩
  · rw [Chains.items_succ, Chains.items_succ, hitems, hat, h.kept, Chains.walk_append,
      Chains.kept_append]
  · rw [Chains.items_succ, Chains.walk_append]
    change (filterChain fn (x.1.list j) x.1.elems x.2).2.2 = _
    rw [h.rest j le_rfl, h.state]
    exact hs
  · exact (Function.update_of_ne (by omega) _ _).trans (h.rest i (by omega))
  · by_cases hij : i = j
    · subst hij
      rw [hat]
      exact Chains.kept_walk_sublist _ _ _
    · have hi : (filterSlot fn x j).1.list i = x.1.list i := Function.update_of_ne hij _ _
      rw [hi]
      exact h.sublist i
  · rw [Chains.items_succ, Chains.items_succ, hitems, hat, List.length_append, List.length_append]
    change (filterChain fn (x.1.list j) x.1.elems x.2).2.1 + _ = _
    rw [h.rest j le_rfl, h.state]
    omega

theorem Wf.filteredTo (h : ht.Wf) (fn : ℕ → ℕ → σ → Bool × σ) (s : σ) {j : ℕ}
    (hj : j ≤ ht.length) :
    FilteredTo fn ht s j ((List.range j).foldl (filterSlot fn) (ht, s)) := by
  induction j with
  | zero => exact ⟨rfl, rfl, rfl, fun _ _ => rfl, fun _ => .refl _, rfl⟩
  | succ j ih =>
    rw [List.range_succ, List.foldl_append]
    refine (ih (by omega)).step ?_
    rw [h.elems, entries_eq]
    exact Chains.length_items_le hj ht.list

/-- What `htable_filter` does: it asks about every entry once and keeps those answered zero. -/
theorem Wf.htableFilter (h : ht.Wf) (fn : ℕ → ℕ → σ → Bool × σ) (s : σ) :
    (ht.htableFilter fn s).1.Wf ∧
      (ht.htableFilter fn s).1.entries = Chains.kept (Chains.walk (ask fn) ht.entries s).1 ∧
      (ht.htableFilter fn s).2 = (Chains.walk (ask fn) ht.entries s).2 ∧
      (ht.htableFilter fn s).1.length = ht.length := by
  have hf := h.filteredTo fn s le_rfl
  have hlen : (ht.htableFilter fn s).1.length = ht.length := hf.length
  have hentries : (ht.htableFilter fn s).1.entries =
      Chains.kept (Chains.walk (ask fn) ht.entries s).1 := by
    rw [entries_eq, hlen]
    exact hf.kept
  have hsub : (ht.htableFilter fn s).1.entries.Sublist ht.entries := by
    rw [hentries]
    exact Chains.kept_walk_sublist _ _ _
  refine ⟨⟨?_, ?_, ?_, ?_, ?_⟩, hentries, hf.state, hlen⟩
  · rw [hlen]
    exact h.length
  · intro i hi e he
    rw [hlen] at hi ⊢
    exact h.home i hi e ((hf.sublist i).subset he)
  · exact fun e he => h.hash e (hsub.subset he)
  · exact h.nodup.sublist (hsub.map _)
  · have helems := hf.elems
    rw [h.elems, ← entries_eq] at helems
    rw [entries_eq, hlen]
    exact Nat.add_right_cancel (helems.trans (Nat.add_comm _ _))

/-- The assertion of `htable_foreach` holds. -/
theorem Wf.htableForeach (h : ht.Wf) (fn : ℕ → ℕ → σ → σ) (s : σ) :
    ht.htableForeach fn s = some (ht.entries.foldl (fun s e => fn e.key e.val s) s) :=
  if_pos h.elems

end Walks

end HTable

/-! ## Runs -/

section Runs

variable {σ : Type}

/-- The keys of a map with their values, each key once. -/
structure Enumerates (m : Finmap fun _ : ℕ => ℕ) (l : List (ℕ × ℕ)) : Prop where
  nodup : (l.map Prod.fst).Nodup
  mem : ∀ k v, (k, v) ∈ l ↔ m.lookup k = some v

/-- What a call does to a finite map and to the state of the function, and what it answers. -/
def MapCall (m : Finmap fun _ : ℕ => ℕ) (s : σ) :
    HtableCall σ → ℕ → (Finmap fun _ : ℕ => ℕ) → σ → Prop
  | .insert key val, r, m', s' =>
    m' = m.insert key val ∧ s' = s ∧ r = if key ∈ m then 0 else 1
  | .remove key, r, m', s' => m' = m.erase key ∧ s' = s ∧ r = (m.lookup key).getD 0
  | .lookup key, r, m', s' => m' = m ∧ s' = s ∧ r = (m.lookup key).getD 0
  | .foreach fn, r, m', s' =>
    m' = m ∧ r = 0 ∧ ∃ l, Enumerates m l ∧ s' = l.foldl (fun s e => fn e.1 e.2 s) s
  | .filter fn, r, m', s' =>
    r = 0 ∧ ∃ l, Enumerates m l ∧ s' = (Chains.walk (fun e => fn e.1 e.2) l s).2 ∧
      ∀ k v, m'.lookup k = some v ↔ ((k, v), false) ∈ (Chains.walk (fun e => fn e.1 e.2) l s).1

/-- The calls on a new table with their answers, the table and the state they leave. The table
never holds `2 ^ 31` entries. -/
inductive HtableRun (s₀ : σ) : List (HtableCall σ × ℕ) → HTable → σ → Prop
  | init : HtableRun s₀ [] HTable.init s₀
  | call {calls : List (HtableCall σ × ℕ)} {ht ht' : HTable} {s s' : σ} {c : HtableCall σ} {r : ℕ} :
      HtableRun s₀ calls ht s → ht.call s c = some (r, ht', s') → ht'.entries.length < 2 ^ 31 →
        HtableRun s₀ (calls ++ [(c, r)]) ht' s'

/-- The same calls on a finite map, with the same answers. -/
inductive MapRun (s₀ : σ) : List (HtableCall σ × ℕ) → (Finmap fun _ : ℕ => ℕ) → σ → Prop
  | init : MapRun s₀ [] ∅ s₀
  | call {calls : List (HtableCall σ × ℕ)} {m m' : Finmap fun _ : ℕ => ℕ} {s s' : σ}
      {c : HtableCall σ} {r : ℕ} :
      MapRun s₀ calls m s → MapCall m s c r m' s' → MapRun s₀ (calls ++ [(c, r)]) m' s'

namespace HTable.Wf

variable {ht ht' : HTable} {s s' : σ} {c : HtableCall σ} {r : ℕ}

theorem enumerates (h : ht.Wf) :
    Enumerates ht.toMap (ht.entries.map fun e => (e.key, e.val)) := by
  refine ⟨?_, fun k v => ?_⟩
  · rw [List.map_map]
    exact h.nodup
  · rw [toMap, lookup_mapOf h.nodup]
    simp

/-- No assertion fails. -/
theorem call_isSome (h : ht.Wf) (s : σ) (c : HtableCall σ) : (ht.call s c).isSome := by
  cases c with
  | insert key val =>
    obtain ⟨ht', r, hi, -⟩ := h.htableInsert key val
    simp [call, hi]
  | foreach fn => simp [call, h.htableForeach]
  | remove key => rfl
  | lookup key => rfl
  | filter fn => rfl

/-- The step lemma: a call keeps the invariant and does what it does to the map. -/
theorem call (h : ht.Wf) (hc : ht.call s c = some (r, ht', s')) :
    ht'.Wf ∧ MapCall ht.toMap s c r ht'.toMap s' ∧
      (ht'.length = ht.length ∨ ∃ t : HTable, t.elems = ht'.elems ∧ ht' = t.resize) := by
  cases c with
  | insert key val =>
    obtain ⟨t, r', hi, -, hwf, hmap, hr, hlen⟩ := h.htableInsert key val
    simp only [HTable.call, hi, Option.map_some, Option.some.injEq, Prod.mk.injEq] at hc
    obtain ⟨rfl, rfl, rfl⟩ := hc
    exact ⟨hwf, ⟨hmap, rfl, hr⟩, hlen⟩
  | remove key =>
    obtain ⟨-, hwf, hmap, hr, hlen⟩ := h.htableRemove key
    simp only [HTable.call, Option.some.injEq, Prod.mk.injEq] at hc
    obtain ⟨rfl, rfl, rfl⟩ := hc
    exact ⟨hwf, ⟨hmap, rfl, hr⟩, .inl hlen⟩
  | lookup key =>
    simp only [HTable.call, Option.some.injEq, Prod.mk.injEq] at hc
    obtain ⟨rfl, rfl, rfl⟩ := hc
    exact ⟨h, ⟨rfl, rfl, h.lookup key⟩, .inl rfl⟩
  | foreach fn =>
    simp only [HTable.call, h.htableForeach, Option.map_some, Option.some.injEq,
      Prod.mk.injEq] at hc
    obtain ⟨rfl, rfl, rfl⟩ := hc
    refine ⟨h, ⟨rfl, rfl, _, h.enumerates, ?_⟩, .inl rfl⟩
    rw [List.foldl_map]
  | filter fn =>
    obtain ⟨hwf, hentries, hstate, hlen⟩ := h.htableFilter fn s
    simp only [HTable.call, Option.some.injEq, Prod.mk.injEq] at hc
    obtain ⟨rfl, hht⟩ := hc
    rw [hht] at hwf hentries hstate hlen
    refine ⟨hwf, ⟨rfl, _, h.enumerates, ?_, fun k v => ?_⟩, .inl hlen⟩
    · rw [Chains.walk_map]
      exact hstate
    · rw [Chains.walk_map, toMap, lookup_mapOf hwf.nodup, hentries]
      simp only [Chains.mem_kept, List.mem_map, Prod.exists, Prod.map, id, Prod.mk.injEq]
      constructor
      · rintro ⟨e, he, rfl, rfl⟩
        exact ⟨e, false, he, ⟨rfl, rfl⟩, rfl⟩
      · rintro ⟨e, b, he, ⟨rfl, rfl⟩, rfl⟩
        exact ⟨e, he, rfl, rfl⟩

end HTable.Wf

/-- A table is the finite map of its calls: the invariant holds, the map and the answers are those
of the same calls on a map, the fields fit their 32 bits, and no assertion fails. -/
theorem htable_run {s₀ s : σ} {calls : List (HtableCall σ × ℕ)} {ht : HTable}
    (h : HtableRun s₀ calls ht s) :
    ht.Wf ∧ MapRun s₀ calls ht.toMap s ∧ ht.elems < 2 ^ 31 ∧ ht.length ≤ 2 ^ 31 ∧
      ∀ c : HtableCall σ, (ht.call s c).isSome := by
  induction h with
  | init =>
    exact ⟨HTable.init_wf, HTable.toMap_init ▸ .init, by decide, by decide,
      HTable.init_wf.call_isSome s₀⟩
  | @call calls ht ht' s s' c r _ hc hbound ih =>
    obtain ⟨hwf, hrun, -, hlen, -⟩ := ih
    obtain ⟨hwf', hmap, hlen'⟩ := hwf.call hc
    have helems : ht'.elems < 2 ^ 31 := hwf'.elems ▸ hbound
    refine ⟨hwf', hrun.call hmap, helems, ?_, hwf'.call_isSome s'⟩
    rcases hlen' with heq | ⟨t, ht, rfl⟩
    · exact heq ▸ hlen
    · exact HTable.resize_length_le (by omega) (by omega)

/-- Five keys, which resize the table, and a filter that counts its calls and removes the keys
above three. -/
theorem htable_run_filter :
    let ht := [1, 2, 3, 4, 5].foldl (fun ht k => ht.insert k k) HTable.init
    let fn : ℕ → ℕ → ℕ → Bool × ℕ := fun k _ s => (decide (3 < k), s + 1)
    (ht.htableFilter fn 0).2 = 5 ∧ (ht.htableFilter fn 0).1.toMap.lookup 4 = none ∧
      (ht.htableFilter fn 0).1.Wf := by
  have hinit : HtableRun (0 : ℕ) [] HTable.init 0 := .init
  have hrun := (((((hinit.call (c := .insert 1 1) rfl (by decide +kernel)).call
    (c := .insert 2 2) rfl (by decide +kernel)).call (c := .insert 3 3) rfl (by decide +kernel)).call
    (c := .insert 4 4) rfl (by decide +kernel)).call (c := .insert 5 5) rfl (by decide +kernel)).call
    (c := .filter fun k _ s => (decide (3 < k), s + 1)) rfl (by decide +kernel)
  exact ⟨by decide +kernel, by decide +kernel, (htable_run hrun).1⟩

end Runs

end LibPM

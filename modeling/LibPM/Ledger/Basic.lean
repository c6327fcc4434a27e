import Mathlib.Algebra.BigOperators.Group.Finset.Piecewise
import Mathlib.Algebra.Order.BigOperators.Group.Finset
import Mathlib.Algebra.Order.Group.Multiset
import Mathlib.Tactic.Abel

/-!
# Keeping account of resources

Every unit of a resource is free, held by one of finitely many holders, or lost: handed out but held
by no one. `Balanced` says that these add up to a given total. An operation is judged by what it adds
to the lost units; a unit that was just handed out counts as lost until someone holds it.
-/

namespace Ledger

variable {α ι : Type} {s : Finset ι} {held : ι → Multiset α}
  {lost free total add drop m : Multiset α} {i j : ι} {a : α}

/-- The lost, the free and the held units make up the total. -/
def Balanced (s : Finset ι) (held : ι → Multiset α) (lost free total : Multiset α) : Prop :=
  lost + free + ∑ i ∈ s, held i = total

theorem sum_update_add [DecidableEq ι] (hi : i ∈ s) :
    ∑ j ∈ s, Function.update held i m j + held i = ∑ j ∈ s, held j + m := by
  rw [Finset.sum_update_of_mem hi, Finset.sum_eq_add_sum_sdiff_singleton_of_mem hi held]
  abel

theorem Balanced.congr {held' : ι → Multiset α} (h : Balanced s held lost free total)
    (hheld : ∀ i ∈ s, held' i = held i) : Balanced s held' lost free total := by
  unfold Balanced at h ⊢
  rw [Finset.sum_congr rfl hheld, h]

/-- One holder takes up the units `add`, which were lost, and leaves the units `drop`. -/
theorem Balanced.move [DecidableEq ι] (h : Balanced s held (lost + add) free total) (hi : i ∈ s)
    (hm : m + drop = held i + add) :
    Balanced s (Function.update held i m) (lost + drop) free total := by
  unfold Balanced at h ⊢
  have hsum := @sum_update_add _ _ _ held m _ _ hi
  rw [← h]
  refine add_right_cancel (b := held i) ?_
  calc lost + drop + free + ∑ j ∈ s, Function.update held i m j + held i
      = lost + drop + free + (∑ j ∈ s, Function.update held i m j + held i) := by abel
    _ = lost + free + ∑ j ∈ s, held j + (m + drop) := by rw [hsum]; abel
    _ = lost + add + free + ∑ j ∈ s, held j + held i := by rw [hm]; abel

/-- A free unit is handed out. -/
theorem Balanced.take (h : Balanced s held lost ({a} + free) total) :
    Balanced s held (lost + {a}) free total := by
  unfold Balanced at h ⊢
  rw [← h]
  abel

/-- A unit is given back. -/
theorem Balanced.give (h : Balanced s held (lost + {a}) free total) :
    Balanced s held lost (free + {a}) total := by
  unfold Balanced at h ⊢
  rw [← h]
  abel

/-- There are more units, all free. -/
theorem Balanced.grow (h : Balanced s held lost free total) (m : Multiset α) :
    Balanced s held lost (free + m) (total + m) := by
  unfold Balanced at h ⊢
  rw [← h]
  abel

theorem Balanced.lost_le (h : Balanced s held lost free total) : lost ≤ total := by
  rw [← h, add_assoc]
  exact le_add_of_nonneg_right zero_le

theorem Balanced.held_le (h : Balanced s held lost free total) (hi : i ∈ s) : held i ≤ total := by
  rw [← h]
  exact le_add_of_nonneg_of_le zero_le (Finset.single_le_sum (fun _ _ => zero_le) hi)

theorem Balanced.mem_total (h : Balanced s held lost free total) (hi : i ∈ s) (ha : a ∈ held i) :
    a ∈ total := Multiset.mem_of_le (h.held_le hi) ha

section Nodup

variable (h : Balanced s held lost free total) (hnd : total.Nodup)

include h hnd

/-- A held unit is not free. -/
theorem Balanced.notMem_free (hi : i ∈ s) (ha : a ∈ held i) : a ∉ free := by
  intro hf
  rw [← h, Multiset.nodup_add] at hnd
  refine Multiset.disjoint_left.mp hnd.2.2 (Multiset.mem_add.mpr (.inr hf)) ?_
  exact Multiset.mem_of_le (Finset.single_le_sum (fun _ _ => zero_le) hi) ha

/-- A held unit is not lost. -/
theorem Balanced.notMem_lost (hi : i ∈ s) (ha : a ∈ held i) : a ∉ lost := by
  intro hl
  rw [← h, Multiset.nodup_add] at hnd
  refine Multiset.disjoint_left.mp hnd.2.2 (Multiset.mem_add.mpr (.inl hl)) ?_
  exact Multiset.mem_of_le (Finset.single_le_sum (fun _ _ => zero_le) hi) ha

/-- A lost unit is not free. -/
theorem Balanced.lost_notMem_free (ha : a ∈ lost) : a ∉ free := by
  intro hf
  rw [← h, Multiset.nodup_add, Multiset.nodup_add] at hnd
  exact Multiset.disjoint_left.mp hnd.1.2.2 ha hf

/-- No unit has two holders. -/
theorem Balanced.holder_unique (hi : i ∈ s) (hj : j ∈ s) (ha : a ∈ held i) (ha' : a ∈ held j) :
    i = j := by
  classical
  by_contra hij
  have hle : held i + held j ≤ total := by
    rw [← h, Finset.sum_eq_add_sum_sdiff_singleton_of_mem hi held]
    have hj' : j ∈ s \ {i} := by
      rw [Finset.mem_sdiff, Finset.mem_singleton]
      exact ⟨hj, Ne.symm hij⟩
    refine le_add_of_nonneg_of_le zero_le (add_le_add_right ?_ _)
    exact Finset.single_le_sum (fun _ _ => zero_le) hj'
  have := Multiset.nodup_of_le hle hnd
  exact Multiset.disjoint_left.mp (Multiset.nodup_add.mp this).2.2 ha ha'

/-- A holder holds no unit twice. -/
theorem Balanced.held_nodup (hi : i ∈ s) : (held i).Nodup := Multiset.nodup_of_le (h.held_le hi) hnd

end Nodup

/-- Where a unit is, if nothing is lost. -/
theorem Balanced.free_or_held (h : Balanced s held 0 free total) (ha : a ∈ total) :
    a ∈ free ∨ ∃ i ∈ s, a ∈ held i := by
  rw [← h, zero_add, Multiset.mem_add, Multiset.mem_sum] at ha
  exact ha

end Ledger

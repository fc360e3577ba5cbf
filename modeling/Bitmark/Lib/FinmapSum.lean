import Mathlib.Data.Finmap
import Mathlib.Algebra.BigOperators.Group.Multiset.Basic
import Mathlib.Algebra.Order.BigOperators.Group.Multiset
import Mathlib.Tactic.Abel

/-!
# Sums over finite maps

The sum of a weight over the values of a finite map, and how replacing one value changes it.
-/

namespace Finmap

variable {α β M : Type*} [DecidableEq α] [AddCommGroup M]

/-- The sum of the weights of all values. -/
def sumValues (w : β → M) (m : Finmap fun _ : α ↦ β) : M :=
  (m.entries.map fun e ↦ w e.2).sum

/-- The weight of the value at a key, zero where there is none. -/
def weightAt (w : β → M) (m : Finmap fun _ : α ↦ β) (k : α) : M :=
  ((m.lookup k).map w).getD 0

theorem weightAt_of_lookup {w : β → M} {m : Finmap fun _ : α ↦ β} {k : α} {v : β}
    (h : m.lookup k = some v) : weightAt w m k = w v := by
  simp [weightAt, h]

theorem weightAt_of_none {w : β → M} {m : Finmap fun _ : α ↦ β} {k : α}
    (h : m.lookup k = none) : weightAt w m k = 0 := by
  simp [weightAt, h]

private theorem sumValues_insert_of_notMem (w : β → M) {m : Finmap fun _ : α ↦ β} {k : α}
    (h : k ∉ m) (v : β) : sumValues w (m.insert k v) = w v + sumValues w m := by
  rw [sumValues, sumValues, entries_insert_of_notMem h, Multiset.map_cons, Multiset.sum_cons]

private theorem insert_erase_self (m : Finmap fun _ : α ↦ β) (k : α) (v : β) :
    (m.erase k).insert k v = m.insert k v := by
  refine ext_lookup fun x ↦ ?_
  by_cases hx : x = k
  · rw [hx, lookup_insert, lookup_insert]
  · rw [lookup_insert_of_ne _ hx, lookup_insert_of_ne _ hx, lookup_erase_ne hx]

/-- The sum is the weight at a key and the sum without the key. -/
theorem sumValues_eq_erase (w : β → M) (m : Finmap fun _ : α ↦ β) (k : α) :
    sumValues w m = weightAt w m k + sumValues w (m.erase k) := by
  by_cases hk : k ∈ m
  · obtain ⟨u, hu⟩ := mem_iff.mp hk
    have hm : m = (m.erase k).insert k u := by
      rw [insert_erase_self]
      refine ext_lookup fun x ↦ ?_
      by_cases hx : x = k
      · rw [hx, lookup_insert, hu]
      · rw [lookup_insert_of_ne _ hx]
    conv_lhs => rw [hm]
    rw [sumValues_insert_of_notMem w notMem_erase_self, weightAt_of_lookup hu]
  · rw [weightAt_of_none (lookup_eq_none.mpr hk), zero_add]
    congr 1
    refine ext_lookup fun x ↦ ?_
    by_cases hx : x = k
    · rw [hx, lookup_erase, lookup_eq_none.mpr hk]
    · rw [lookup_erase_ne hx]

/-- Replacing the value at a key changes the sum by the difference of the weights. -/
theorem sumValues_insert (w : β → M) (m : Finmap fun _ : α ↦ β) (k : α) (v : β) :
    sumValues w (m.insert k v) = sumValues w m - weightAt w m k + w v := by
  rw [sumValues_eq_erase w m k, ← insert_erase_self m k v,
    sumValues_insert_of_notMem w notMem_erase_self]
  abel

section Order

variable [PartialOrder M] [IsOrderedAddMonoid M] {w : β → M} {m : Finmap fun _ : α ↦ β}

theorem sumValues_nonneg (h : ∀ k v, m.lookup k = some v → 0 ≤ w v) : 0 ≤ sumValues w m := by
  refine Multiset.sum_nonneg fun x hx ↦ ?_
  obtain ⟨⟨k, v⟩, hmem, rfl⟩ := Multiset.mem_map.mp hx
  exact h k v (mem_lookup_iff.mpr hmem)

/-- With nonnegative weights no single weight exceeds the sum. -/
theorem weightAt_le_sumValues (h : ∀ k v, m.lookup k = some v → 0 ≤ w v) (k : α) :
    weightAt w m k ≤ sumValues w m := by
  rw [sumValues_eq_erase w m k]
  refine le_add_of_nonneg_right (sumValues_nonneg fun k' v hlookup ↦ ?_)
  by_cases hk : k' = k
  · rw [hk, lookup_erase] at hlookup
    cases hlookup
  · rw [lookup_erase_ne hk] at hlookup
    exact h k' v hlookup

end Order

end Finmap

import Mathlib.Data.Finset.Insert
import Mathlib.Data.Finset.Erase
import Bitmark.Lib.SortedMap

/-!
# Sets under keys

A map from keys to finite sets is a relation between keys and elements. An element is put under a
key with a new set when there is none, and a set that becomes empty is removed.
-/

namespace SortedMap

variable {κ β : Type*} [LinearOrder κ]

/-- An element is in the set under a key. -/
def Holds (m : SortedMap κ (Finset β)) (k : κ) (b : β) : Prop := ∃ s, m.lookup k = some s ∧ b ∈ s

/-- No key has an empty set. -/
def NoEmpty (m : SortedMap κ (Finset β)) : Prop := ∀ k s, m.lookup k = some s → s.Nonempty

theorem not_holds_empty {k : κ} {b : β} : ¬ (∅ : SortedMap κ (Finset β)).Holds k b := by
  rintro ⟨s, hs, -⟩
  cases hs

theorem noEmpty_empty : (∅ : SortedMap κ (Finset β)).NoEmpty := by
  intro k s hs
  cases hs

variable [DecidableEq β]

/-- `m[k].insert(b)`. -/
def insertInto (m : SortedMap κ (Finset β)) (k : κ) (b : β) : SortedMap κ (Finset β) :=
  m.insert k (Insert.insert b ((m.lookup k).getD ∅))

/-- Take an element out of the set under a key, and the key with it when that was the last one. -/
def eraseFrom (m : SortedMap κ (Finset β)) (k : κ) (b : β) : SortedMap κ (Finset β) :=
  match m.lookup k with
  | none => m
  | some s => if s.erase b = ∅ then m.erase k else m.insert k (s.erase b)

variable {m : SortedMap κ (Finset β)} {k k' : κ} {b b' : β}

theorem holds_insertInto :
    (m.insertInto k b).Holds k' b' ↔ (k' = k ∧ b' = b) ∨ m.Holds k' b' := by
  unfold Holds insertInto
  by_cases hk : k' = k
  · subst hk
    simp only [lookup_insert_self, Option.some.injEq, exists_eq_left', Finset.mem_insert, true_and]
    cases hs : m.lookup k' with
    | none => simp
    | some s => simp
  · rw [lookup_insert_of_ne _ _ hk]
    simp [hk]

theorem NoEmpty.insertInto (h : m.NoEmpty) (k : κ) (b : β) : (m.insertInto k b).NoEmpty := by
  intro k' s hs
  rw [SortedMap.insertInto, lookup_insert] at hs
  split at hs
  · obtain rfl := Option.some.inj hs
    exact Finset.insert_nonempty _ _
  · exact h k' s hs

theorem holds_eraseFrom :
    (m.eraseFrom k b).Holds k' b' ↔ m.Holds k' b' ∧ ¬ (k' = k ∧ b' = b) := by
  unfold Holds eraseFrom
  by_cases hk : k' = k
  · subst hk
    split
    next hnone => simp [hnone]
    next s hs =>
      split
      next hempty =>
        rw [lookup_erase, if_pos rfl]
        simp only [hs, Option.some.injEq, exists_eq_left', true_and, reduceCtorEq, false_and,
          exists_false, false_iff, not_and, not_not]
        intro hmem
        by_contra hne
        exact Finset.notMem_empty b' (hempty ▸ Finset.mem_erase.mpr ⟨hne, hmem⟩)
      next => simp [lookup_insert_self, hs, and_comm]
  · split
    next => simp [hk]
    next =>
      split
      · rw [lookup_erase, if_neg hk]
        simp [hk]
      · rw [lookup_insert_of_ne _ _ hk]
        simp [hk]

theorem NoEmpty.eraseFrom (h : m.NoEmpty) (k : κ) (b : β) : (m.eraseFrom k b).NoEmpty := by
  intro k' s' hs'
  unfold SortedMap.eraseFrom at hs'
  split at hs'
  next => exact h k' s' hs'
  next s hs =>
    split at hs'
    next =>
      rw [lookup_erase] at hs'
      split at hs'
      · cases hs'
      · exact h k' s' hs'
    next hne =>
      rw [lookup_insert] at hs'
      split at hs'
      · obtain rfl := Option.some.inj hs'
        exact Finset.nonempty_iff_ne_empty.mpr hne
      · exact h k' s' hs'

/-! ### One element under several keys -/

theorem holds_insertInto_all (m : SortedMap κ (Finset β)) (ks : List κ) :
    (ks.foldl (fun m k ↦ m.insertInto k b) m).Holds k' b' ↔ (k' ∈ ks ∧ b' = b) ∨ m.Holds k' b' := by
  induction ks generalizing m with
  | nil => simp
  | cons k ks ih =>
    rw [List.foldl_cons, ih, holds_insertInto, List.mem_cons, or_and_right, ← or_assoc]
    exact or_congr_left or_comm

theorem holds_eraseFrom_all (m : SortedMap κ (Finset β)) (ks : List κ) :
    (ks.foldl (fun m k ↦ m.eraseFrom k b) m).Holds k' b' ↔ m.Holds k' b' ∧ ¬ (k' ∈ ks ∧ b' = b) := by
  induction ks generalizing m with
  | nil => simp
  | cons k ks ih =>
    rw [List.foldl_cons, ih, holds_eraseFrom, List.mem_cons, or_and_right, not_or, and_assoc]

theorem NoEmpty.insertInto_all (h : m.NoEmpty) (ks : List κ) (b : β) :
    (ks.foldl (fun m k ↦ m.insertInto k b) m).NoEmpty := by
  induction ks generalizing m with
  | nil => exact h
  | cons k ks ih => exact ih (h.insertInto k b)

theorem NoEmpty.eraseFrom_all (h : m.NoEmpty) (ks : List κ) (b : β) :
    (ks.foldl (fun m k ↦ m.eraseFrom k b) m).NoEmpty := by
  induction ks generalizing m with
  | nil => exact h
  | cons k ks ih => exact ih (h.eraseFrom k b)

end SortedMap

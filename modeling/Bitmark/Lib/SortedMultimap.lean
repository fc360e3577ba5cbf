import Mathlib.Data.List.Nodup
import Mathlib.Order.Lattice

/-!
# Multimaps with an order of iteration

A `std::multimap` is its list of entries in ascending order of the keys. A new entry goes behind
those with the same key, and a search finds the first of them.
-/

/-- Entries with keys that do not descend. -/
structure SortedMultimap (κ α : Type*) [LinearOrder κ] where
  entries : List (κ × α)
  sorted : entries.Pairwise fun p q ↦ p.1 ≤ q.1

namespace SortedMultimap

variable {κ α : Type*} [LinearOrder κ]

instance [DecidableEq α] : DecidableEq (SortedMultimap κ α) := fun m m' ↦
  decidable_of_iff (m.entries = m'.entries) (by cases m; cases m'; simp)

def empty : SortedMultimap κ α := ⟨[], List.Pairwise.nil⟩

instance : EmptyCollection (SortedMultimap κ α) := ⟨empty⟩

/-- An entry into a list of entries, behind those whose keys are not above its own. -/
def insertEntry (e : κ × α) : List (κ × α) → List (κ × α)
  | [] => [e]
  | p :: l => if e.1 < p.1 then e :: p :: l else p :: insertEntry e l

theorem perm_insertEntry (e : κ × α) (l : List (κ × α)) : (insertEntry e l).Perm (e :: l) := by
  induction l with
  | nil => exact List.Perm.refl _
  | cons p l ih =>
    rw [insertEntry]
    split
    · exact List.Perm.refl _
    · exact (ih.cons p).trans (List.Perm.swap e p l)

theorem sorted_insertEntry {e : κ × α} {l : List (κ × α)}
    (h : l.Pairwise fun p q ↦ p.1 ≤ q.1) :
    (insertEntry e l).Pairwise fun p q ↦ p.1 ≤ q.1 := by
  induction l with
  | nil => exact List.pairwise_singleton _ _
  | cons p l ih =>
    obtain ⟨hp, hl⟩ := List.pairwise_cons.mp h
    rw [insertEntry]
    split
    case isTrue hlt =>
      apply List.pairwise_cons.mpr
      constructor
      · intro q hq
        rcases List.mem_cons.mp hq with rfl | hq
        · exact hlt.le
        · exact hlt.le.trans (hp q hq)
      · exact h
    case isFalse hle =>
      apply List.pairwise_cons.mpr
      constructor
      · intro q hq
        rcases List.mem_cons.mp ((perm_insertEntry e l).mem_iff.mp hq) with rfl | hq
        · exact not_lt.mp hle
        · exact hp q hq
      · exact ih hl

/-- `m.insert(make_pair(k, a))`. -/
def insert (m : SortedMultimap κ α) (k : κ) (a : α) : SortedMultimap κ α :=
  ⟨insertEntry (k, a) m.entries, sorted_insertEntry m.sorted⟩

/-- `m.find(k)`. -/
def find (m : SortedMultimap κ α) (k : κ) : Option (κ × α) := m.entries.find? (·.1 = k)

/-- The values from `m.lower_bound(k)` to `m.upper_bound(k)`. -/
def equalRange (m : SortedMultimap κ α) (k : κ) : List α :=
  (m.entries.filter (·.1 = k)).map (·.2)

/-- `m.erase(k)`. -/
def eraseKey (m : SortedMultimap κ α) (k : κ) : SortedMultimap κ α :=
  ⟨m.entries.filter (·.1 ≠ k), m.sorted.filter _⟩

/-- `m.erase(it)`, for an iterator at an entry. -/
def eraseEntry [DecidableEq α] (m : SortedMultimap κ α) (e : κ × α) : SortedMultimap κ α :=
  ⟨m.entries.erase e, m.sorted.sublist List.erase_sublist⟩

/-- `m.size()`. -/
def size (m : SortedMultimap κ α) : ℕ := m.entries.length

variable {m : SortedMultimap κ α} {k k' : κ} {a a' : α} {e : κ × α}

@[simp] theorem entries_empty : (∅ : SortedMultimap κ α).entries = [] := rfl

@[simp] theorem mem_insert : e ∈ (m.insert k a).entries ↔ e = (k, a) ∨ e ∈ m.entries :=
  (perm_insertEntry (k, a) m.entries).mem_iff.trans List.mem_cons

theorem nodup_insert (h : m.entries.Nodup) (hnew : (k, a) ∉ m.entries) :
    (m.insert k a).entries.Nodup :=
  (perm_insertEntry (k, a) m.entries).nodup_iff.mpr (List.nodup_cons.mpr ⟨hnew, h⟩)

theorem size_insert : (m.insert k a).size = m.size + 1 :=
  (perm_insertEntry (k, a) m.entries).length_eq

theorem find_eq_none : m.find k = none ↔ ∀ a, (k, a) ∉ m.entries := by
  rw [find, List.find?_eq_none]
  constructor
  · intro h a ha
    exact h (k, a) ha (decide_eq_true rfl)
  · rintro h ⟨k', a⟩ ha hk
    obtain rfl := of_decide_eq_true hk
    exact h a ha

theorem mem_of_find (h : m.find k = some e) : e ∈ m.entries ∧ e.1 = k := by
  have hk := List.find?_some h
  exact ⟨List.mem_of_find?_eq_some h, of_decide_eq_true hk⟩

@[simp] theorem mem_equalRange : a ∈ m.equalRange k ↔ (k, a) ∈ m.entries := by
  rw [equalRange, List.mem_map]
  constructor
  · rintro ⟨⟨k', a'⟩, hmem, rfl⟩
    rw [List.mem_filter, decide_eq_true_eq] at hmem
    exact hmem.2 ▸ hmem.1
  · intro h
    exact ⟨(k, a), List.mem_filter.mpr ⟨h, decide_eq_true rfl⟩, rfl⟩

theorem nodup_equalRange (h : m.entries.Nodup) (k : κ) : (m.equalRange k).Nodup := by
  apply List.Nodup.map_on _ (h.filter _)
  intro p hp q hq heq
  have hpk : p.1 = k := of_decide_eq_true (List.mem_filter.mp hp).2
  have hqk : q.1 = k := of_decide_eq_true (List.mem_filter.mp hq).2
  exact Prod.ext (hpk.trans hqk.symm) heq

@[simp] theorem mem_eraseKey : e ∈ (m.eraseKey k).entries ↔ e ∈ m.entries ∧ e.1 ≠ k := by
  rw [eraseKey, List.mem_filter, decide_eq_true_eq]

theorem nodup_eraseKey (h : m.entries.Nodup) (k : κ) : (m.eraseKey k).entries.Nodup := h.filter _

/-- Erasing a key takes as many entries as there are values under it. -/
theorem size_eraseKey (m : SortedMultimap κ α) (k : κ) :
    (m.equalRange k).length + (m.eraseKey k).size = m.size := by
  have hsplit := List.length_eq_length_filter_add (l := m.entries) (fun p ↦ decide (p.1 = k))
  rw [equalRange, List.length_map, size, size, eraseKey, hsplit]
  congr 2
  apply List.filter_congr
  intro p _
  by_cases hp : p.1 = k
  · simp [hp]
  · simp [hp]

variable [DecidableEq α]

theorem mem_eraseEntry (h : m.entries.Nodup) {e' : κ × α} :
    e' ∈ (m.eraseEntry e).entries ↔ e' ≠ e ∧ e' ∈ m.entries := h.mem_erase_iff

theorem nodup_eraseEntry (h : m.entries.Nodup) (e : κ × α) : (m.eraseEntry e).entries.Nodup :=
  h.erase e

theorem size_eraseEntry (h : e ∈ m.entries) : (m.eraseEntry e).size + 1 = m.size :=
  List.length_erase_add_one h

end SortedMultimap

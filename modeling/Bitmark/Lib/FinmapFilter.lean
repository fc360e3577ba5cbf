import Mathlib.Data.Finmap

/-!
# Filtered finite maps

The entries of a finite map that satisfy a predicate on key and value, and whether all of them do.
-/

namespace Finmap

universe u v

variable {α : Type u} {β : Type v}

private theorem nodupKeys_filter (p : Sigma (fun _ : α ↦ β) → Bool)
    {s : Multiset (Sigma fun _ : α ↦ β)} (h : s.NodupKeys) :
    (s.filter fun e ↦ p e = true).NodupKeys := by
  induction s using Quotient.inductionOn with
  | h l => exact List.NodupKeys.sublist List.filter_sublist h

/-- The entries that satisfy `p`. -/
def filter (p : α → β → Bool) (m : Finmap fun _ : α ↦ β) : Finmap fun _ : α ↦ β where
  entries := m.entries.filter fun e ↦ p e.1 e.2 = true
  nodupKeys := nodupKeys_filter (fun e ↦ p e.1 e.2) m.nodupKeys

variable [DecidableEq α]

theorem lookup_filter (p : α → β → Bool) (m : Finmap fun _ : α ↦ β) (k : α) :
    (m.filter p).lookup k = (m.lookup k).filter (p k) := by
  ext v
  rw [Option.filter_eq_some_iff]
  constructor
  · intro h
    have hmem : (⟨k, v⟩ : Sigma fun _ : α ↦ β) ∈ (m.filter p).entries := mem_lookup_iff.mp h
    rw [filter, Multiset.mem_filter] at hmem
    exact ⟨mem_lookup_iff.mpr hmem.1, hmem.2⟩
  · intro h
    refine mem_lookup_iff.mpr ?_
    rw [filter, Multiset.mem_filter]
    exact ⟨mem_lookup_iff.mp h.1, h.2⟩

theorem lookup_union (m m' : Finmap fun _ : α ↦ β) (k : α) :
    (m ∪ m').lookup k = (m.lookup k).or (m'.lookup k) := by
  by_cases h : k ∈ m
  · obtain ⟨v, hv⟩ := mem_iff.mp h
    rw [lookup_union_left h, hv, Option.some_or]
  · rw [lookup_union_right h, lookup_eq_none.mpr h, Option.none_or]

theorem all_eq_true_iff {p : α → β → Bool} {m : Finmap fun _ : α ↦ β} :
    m.all p = true ↔ ∀ k v, m.lookup k = some v → p k v = true := by
  have hentries : m.all p = true ↔ ∀ e ∈ m.entries, p e.1 e.2 = true := by
    unfold all foldl
    induction m.entries using Quotient.inductionOn with
    | h l =>
      have hfold : ∀ acc : Bool, l.foldl (fun d s ↦ d && p s.1 s.2) acc = (acc && l.all
          fun s ↦ p s.1 s.2) := by
        induction l with
        | nil => simp
        | cons s l ih =>
          intro acc
          rw [List.foldl_cons, ih, List.all_cons, Bool.and_assoc]
      simp only [Multiset.quot_mk_to_coe, Multiset.coe_foldl, Multiset.mem_coe]
      rw [hfold, Bool.true_and, List.all_eq_true]
  rw [hentries]
  constructor
  · intro h k v hv
    exact h ⟨k, v⟩ (mem_lookup_iff.mp hv)
  · intro h e he
    exact h e.1 e.2 (mem_lookup_iff.mpr he)

end Finmap

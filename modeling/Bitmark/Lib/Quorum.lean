import Mathlib.Data.Finset.Card

/-!
# The first members of a set, in the order of a list

Of the members of a set, those that come first in a list, up to a number. What two such choices
have in common with their sets is enough to choose from the union of the sets.
-/

variable {α : Type*} [DecidableEq α] {m : ℕ} {S S' T T' : Finset α} {l : List α} {a : α}

/-- The first `m` entries of a list that are in a set. -/
def quorum (m : ℕ) (S : Finset α) (l : List α) : List α := (l.filter (· ∈ S)).take m

theorem quorum_nil : quorum m S [] = [] := by rw [quorum, List.filter_nil, List.take_nil]

theorem quorum_zero : quorum 0 S l = [] := List.take_zero

theorem quorum_cons_of_mem (h : a ∈ S) : quorum (m + 1) S (a :: l) = a :: quorum m S l := by
  rw [quorum, List.filter_cons_of_pos (by simpa using h), List.take_succ_cons, quorum]

theorem quorum_cons_of_notMem (h : a ∉ S) : quorum m S (a :: l) = quorum m S l := by
  rw [quorum, List.filter_cons_of_neg (by simpa using h), quorum]

theorem quorum_empty : quorum m ∅ l = [] := by
  rw [quorum, List.filter_eq_nil_iff.mpr (by simp), List.take_nil]

theorem quorum_sublist : (quorum m S l).Sublist l := (List.take_sublist m _).trans List.filter_sublist

theorem mem_of_mem_quorum (h : a ∈ quorum m S l) : a ∈ l ∧ a ∈ S := by
  obtain ⟨hmem, hS⟩ := List.mem_filter.mp (List.mem_of_mem_take h)
  exact ⟨hmem, of_decide_eq_true hS⟩

theorem take_quorum : (quorum (m + 1) S l).take m = quorum m S l := by
  rw [quorum, List.take_take, Nat.min_eq_left m.le_succ, quorum]

/-- Only the entries of the list matter. -/
theorem quorum_congr (h : ∀ a ∈ l, a ∈ S ↔ a ∈ T) : quorum m S l = quorum m T l := by
  have hfilter : l.filter (· ∈ S) = l.filter (· ∈ T) :=
    List.filter_congr fun a ha ↦ decide_eq_decide.mpr (h a ha)
  rw [quorum, hfilter, quorum]

theorem length_quorum (hl : l.Nodup) (hS : S ⊆ l.toFinset) :
    (quorum m S l).length = min m S.card := by
  have hfilter : (l.filter (· ∈ S)).toFinset = S := by
    ext a
    rw [List.mem_toFinset, List.mem_filter, decide_eq_true_eq]
    exact ⟨And.right, fun ha ↦ ⟨List.mem_toFinset.mp (hS ha), ha⟩⟩
  rw [quorum, List.length_take, ← List.toFinset_card_of_nodup (hl.filter _), hfilter]

/-- Two sets with one choice agree on the first entry and on the choice from the others. -/
theorem quorum_cons_eq (hl : (a :: l).Nodup)
    (h : quorum (m + 1) S (a :: l) = quorum (m + 1) S' (a :: l)) :
    (a ∈ S ↔ a ∈ S') ∧ quorum m S l = quorum m S' l ∧
      (a ∉ S → quorum (m + 1) S l = quorum (m + 1) S' l) := by
  have hnot : ∀ {n} {U : Finset α}, a ∉ quorum n U l := fun hmem ↦
    (List.nodup_cons.mp hl).1 (mem_of_mem_quorum hmem).1
  by_cases hS : a ∈ S
  · by_cases hS' : a ∈ S'
    · rw [quorum_cons_of_mem hS, quorum_cons_of_mem hS'] at h
      exact ⟨iff_of_true hS hS', (List.cons.inj h).2, fun hout ↦ absurd hS hout⟩
    · rw [quorum_cons_of_mem hS, quorum_cons_of_notMem hS'] at h
      exact absurd (h ▸ List.mem_cons_self) hnot
  · by_cases hS' : a ∈ S'
    · rw [quorum_cons_of_notMem hS, quorum_cons_of_mem hS'] at h
      exact absurd (h ▸ List.mem_cons_self) hnot
    · rw [quorum_cons_of_notMem hS, quorum_cons_of_notMem hS'] at h
      refine ⟨iff_of_false hS hS', ?_, fun _ ↦ h⟩
      rw [← take_quorum, h, take_quorum]

/-- The choices from two sets determine the choice from their union. -/
theorem quorum_union_congr (hl : l.Nodup) (hS : quorum m S l = quorum m S' l)
    (hT : quorum m T l = quorum m T' l) : quorum m (S ∪ T) l = quorum m (S' ∪ T') l := by
  induction l generalizing m with
  | nil => rw [quorum_nil, quorum_nil]
  | cons a l ih =>
    cases m with
    | zero => rw [quorum_zero, quorum_zero]
    | succ m =>
      obtain ⟨hmemS, hrestS, hskipS⟩ := quorum_cons_eq hl hS
      obtain ⟨hmemT, hrestT, hskipT⟩ := quorum_cons_eq hl hT
      have hl' := (List.nodup_cons.mp hl).2
      have hmem : a ∈ S ∪ T ↔ a ∈ S' ∪ T' := by
        rw [Finset.mem_union, Finset.mem_union, hmemS, hmemT]
      by_cases ha : a ∈ S ∪ T
      · rw [quorum_cons_of_mem ha, quorum_cons_of_mem (hmem.mp ha), ih hl' hrestS hrestT]
      · rw [quorum_cons_of_notMem ha, quorum_cons_of_notMem fun ha' ↦ ha (hmem.mpr ha')]
        rw [Finset.mem_union, not_or] at ha
        exact ih hl' (hskipS ha.1) (hskipT ha.2)

/-- Choosing from what was chosen. -/
theorem quorum_quorum (hl : l.Nodup) : quorum m (quorum m S l).toFinset l = quorum m S l := by
  induction l generalizing m with
  | nil => rw [quorum_nil, quorum_nil]
  | cons a l ih =>
    cases m with
    | zero => rw [quorum_zero, quorum_zero]
    | succ m =>
      obtain ⟨hnot, hl'⟩ := List.nodup_cons.mp hl
      by_cases ha : a ∈ S
      · have hrest : quorum m (a :: quorum m S l).toFinset l = quorum m (quorum m S l).toFinset l := by
          apply quorum_congr
          intro b hb
          have hne : b ≠ a := fun heq ↦ hnot (heq ▸ hb)
          rw [List.mem_toFinset, List.mem_toFinset, List.mem_cons, or_iff_right hne]
        rw [quorum_cons_of_mem ha, quorum_cons_of_mem (List.mem_toFinset.mpr List.mem_cons_self),
          hrest, ih hl']
      · rw [quorum_cons_of_notMem ha, quorum_cons_of_notMem _, ih hl']
        rw [List.mem_toFinset]
        exact fun hmem ↦ hnot (mem_of_mem_quorum hmem).1

/-- Two choices together have what the choice from the union needs. -/
theorem quorum_union_quorum (hl : l.Nodup) :
    quorum m ((quorum m S l).toFinset ∪ (quorum m T l).toFinset) l = quorum m (S ∪ T) l :=
  quorum_union_congr hl (quorum_quorum hl) (quorum_quorum hl)

/-! ### Lists side by side -/

section Forall2

variable {α β : Type*} {R : β → α → Prop}

/-- What a partial function gives for the entries of a list, beside the entries it is defined on. -/
theorem forall₂_filterMap {f : α → Option β} {l : List α}
    (h : ∀ a ∈ l, ∀ b, f a = some b → R b a) :
    List.Forall₂ R (l.filterMap f) (l.filter fun a ↦ (f a).isSome) := by
  induction l with
  | nil => exact .nil
  | cons a l ih =>
    have hrest := ih fun a' ha' ↦ h a' (List.mem_cons_of_mem _ ha')
    cases hf : f a with
    | none => rwa [List.filterMap_cons_none hf, List.filter_cons_of_neg (by simp [hf])]
    | some b =>
      rw [List.filterMap_cons_some hf, List.filter_cons_of_pos (by simp [hf])]
      exact .cons (h a List.mem_cons_self b hf) hrest

/-- Entries side by side. -/
theorem exists_of_forall₂ {l : List β} {l' : List α} (h : List.Forall₂ R l l') :
    (∀ b ∈ l, ∃ a ∈ l', R b a) ∧ ∀ a ∈ l', ∃ b ∈ l, R b a := by
  induction h with
  | nil => simp
  | @cons b a l l' hR _ ih =>
    constructor
    · intro b' hb'
      rcases List.mem_cons.mp hb' with rfl | hb'
      · exact ⟨a, List.mem_cons_self, hR⟩
      · obtain ⟨a', ha', hR'⟩ := ih.1 b' hb'
        exact ⟨a', List.mem_cons_of_mem _ ha', hR'⟩
    · intro a' ha'
      rcases List.mem_cons.mp ha' with rfl | ha'
      · exact ⟨b, List.mem_cons_self, hR⟩
      · obtain ⟨b', hb', hR'⟩ := ih.2 a' ha'
        exact ⟨b', List.mem_cons_of_mem _ hb', hR'⟩

end Forall2

import Mathlib.Data.List.Nodup
import Mathlib.Logic.Function.Basic

/-!
# Registries of list elements

Owners keep lists whose elements can be referred to, and one index leads from a key to the owner
and the reference of the element with that key. The index is exact when it leads to the elements
of the lists and to nothing else; then a key is listed once, and adding, removing and dropping an
owner together with its keys keep it exact.
-/

namespace Registry

variable {ι ρ κ ε : Type*} (key : ε → κ)

/-- The index leads exactly to the listed elements, and references are unique within a list. -/
structure Exact (lists : ι → Option (List (ρ × ε))) (index : κ → Option (ι × ρ)) : Prop where
  index_iff : ∀ k o r, index k = some (o, r) ↔ ∃ l, lists o = some l ∧ ∃ e, (r, e) ∈ l ∧ key e = k
  refs_nodup : ∀ o l, lists o = some l → (l.map Prod.fst).Nodup

/-- Taking an element out by its reference. -/
def eraseRef [DecidableEq ρ] (r : ρ) (l : List (ρ × ε)) : List (ρ × ε) := l.eraseP fun p ↦ p.1 = r

section Lists

variable [DecidableEq ρ] {r : ρ} {l : List (ρ × ε)}

theorem eraseRef_eq_filter (hnodup : (l.map Prod.fst).Nodup) :
    eraseRef r l = l.filter fun p ↦ p.1 ≠ r := by
  induction l with
  | nil => rfl
  | cons p l ih =>
    obtain ⟨hnot, hnodup⟩ := List.nodup_cons.mp hnodup
    by_cases hp : p.1 = r
    · have hrest : l.filter (fun p ↦ decide (p.1 ≠ r)) = l := by
        refine List.filter_eq_self.mpr fun q hq ↦ ?_
        refine decide_eq_true fun hqr ↦ hnot ?_
        rw [hp, ← hqr]
        exact List.mem_map_of_mem hq
      rw [eraseRef, List.eraseP_cons_of_pos (by simpa using hp),
        List.filter_cons_of_neg (by simpa using hp), hrest]
    · rw [eraseRef, List.eraseP_cons_of_neg (by simpa using hp),
        List.filter_cons_of_pos (by simpa using hp), ← eraseRef, ih hnodup]

theorem mem_eraseRef (hnodup : (l.map Prod.fst).Nodup) {p : ρ × ε} :
    p ∈ eraseRef r l ↔ p ∈ l ∧ p.1 ≠ r := by
  rw [eraseRef_eq_filter hnodup, List.mem_filter, decide_eq_true_eq]

theorem length_eraseRef {e : ε} (h : (r, e) ∈ l) : (eraseRef r l).length + 1 = l.length := by
  have hlen := List.length_eraseP_of_mem (p := fun p : ρ × ε ↦ decide (p.1 = r)) h (by simp)
  have hpos := List.length_pos_of_mem h
  rw [eraseRef, hlen]
  omega

/-- The keys that are left, when the reference is the only one with its key. -/
theorem map_eraseRef [DecidableEq κ] {k : κ} (h : ∀ p ∈ l, p.1 = r ↔ key p.2 = k) :
    (eraseRef r l).map (fun p ↦ key p.2) = (l.map fun p ↦ key p.2).erase k := by
  induction l with
  | nil => rfl
  | cons p l ih =>
    rw [List.forall_mem_cons] at h
    by_cases hp : p.1 = r
    · rw [eraseRef, List.eraseP_cons_of_pos (by simpa using hp), List.map_cons, h.1.mp hp,
        List.erase_cons_head]
    · have hkey : ¬(key p.2 == k) = true := by
        rw [beq_iff_eq]
        exact mt h.1.mpr hp
      rw [eraseRef, List.eraseP_cons_of_neg (by simpa using hp), List.map_cons, List.map_cons,
        List.erase_cons_tail hkey, ← eraseRef, ih h.2]

omit [DecidableEq ρ] in
/-- A reference names one element of a list. -/
theorem eq_of_ref_eq (hnodup : (l.map Prod.fst).Nodup) {e e' : ε} (h : (r, e) ∈ l)
    (h' : (r, e') ∈ l) : e = e' :=
  (Prod.mk.inj (List.inj_on_of_nodup_map hnodup h h' rfl)).2

end Lists

variable {key} {lists : ι → Option (List (ρ × ε))} {index : κ → Option (ι × ρ)}

theorem exact_empty : Exact key (fun _ : ι ↦ (none : Option (List (ρ × ε)))) fun _ ↦ none where
  index_iff := by simp
  refs_nodup := by simp

/-- A key that is not in the index is not listed. -/
theorem Exact.not_listed (h : Exact key lists index) {k : κ} (hk : index k = none) {o : ι}
    {l : List (ρ × ε)} (hl : lists o = some l) {p : ρ × ε} (hp : p ∈ l) : key p.2 ≠ k := by
  rintro rfl
  have hsome := (h.index_iff (key p.2) o p.1).mpr ⟨l, hl, p.2, hp, rfl⟩
  rw [hk] at hsome
  cases hsome

/-- The index of a key is the reference of the only element with it. -/
theorem Exact.ref_iff (h : Exact key lists index) {k : κ} {o : ι} {r : ρ}
    (hk : index k = some (o, r)) {l : List (ρ × ε)} (hl : lists o = some l) :
    ∀ p ∈ l, p.1 = r ↔ key p.2 = k := by
  obtain ⟨l₀, hl₀, e, hmem, hkey⟩ := (h.index_iff k o r).mp hk
  obtain rfl := Option.some.inj (hl.symm.trans hl₀)
  intro p hp
  constructor
  · rintro rfl
    rw [eq_of_ref_eq (h.refs_nodup o l hl) hp hmem, hkey]
  · intro hpk
    have hindex := (h.index_iff k o p.1).mpr ⟨l, hl, p.2, hp, hpk⟩
    rw [hk] at hindex
    exact (Prod.mk.inj (Option.some.inj hindex)).2.symm

variable [DecidableEq ι]

section OneOwner

variable {o o' : ι} {l : List (ρ × ε)} {k : κ} {r : ρ}

/-- An only owner owns every element. -/
theorem Exact.owner_eq (h : Exact key lists index)
    (hl : lists = Function.update (fun _ ↦ none) o (some l)) (hk : index k = some (o', r)) :
    o' = o := by
  obtain ⟨l', hl', -⟩ := (h.index_iff k o' r).mp hk
  by_contra hne
  rw [hl, Function.update_of_ne hne] at hl'
  cases hl'

/-- The index has the keys of its list. -/
theorem Exact.isSome_iff (h : Exact key lists index)
    (hl : lists = Function.update (fun _ ↦ none) o (some l)) :
    (index k).isSome ↔ k ∈ l.map fun p ↦ key p.2 := by
  rw [Option.isSome_iff_exists, List.mem_map]
  constructor
  · rintro ⟨⟨o', r⟩, hk⟩
    obtain ⟨l', hl', e, hmem, hkey⟩ := (h.index_iff k o' r).mp hk
    rw [h.owner_eq hl hk, hl, Function.update_self] at hl'
    obtain rfl := Option.some.inj hl'
    exact ⟨(r, e), hmem, hkey⟩
  · rintro ⟨⟨r, e⟩, hmem, rfl⟩
    exact ⟨(o, r), (h.index_iff (key e) o r).mpr
      ⟨l, by rw [hl, Function.update_self], e, hmem, rfl⟩⟩

end OneOwner

/-- A new owner with an empty list. -/
theorem Exact.open (h : Exact key lists index) {o : ι} (ho : lists o = none) :
    Exact key (Function.update lists o (some [])) index where
  index_iff := by
    intro k o' r
    rw [h.index_iff]
    by_cases ho' : o' = o
    · subst ho'
      simp [ho]
    · simp [ho']
  refs_nodup := by
    intro o' l hl
    by_cases ho' : o' = o
    · subst ho'
      rw [Function.update_self] at hl
      obtain rfl := Option.some.inj hl
      exact List.nodup_nil
    · rw [Function.update_of_ne ho'] at hl
      exact h.refs_nodup o' l hl

variable [DecidableEq κ]

/-- A new element at the end of a list, under a reference and a key that are new. -/
theorem Exact.add (h : Exact key lists index) {o : ι} {l : List (ρ × ε)} (hl : lists o = some l)
    {r : ρ} (hr : r ∉ l.map Prod.fst) {e : ε} (hk : index (key e) = none) :
    Exact key (Function.update lists o (some (l ++ [(r, e)])))
      (Function.update index (key e) (some (o, r))) where
  index_iff := by
    intro k o' r'
    by_cases hke : k = key e
    · subst hke
      rw [Function.update_self]
      constructor
      · intro heq
        obtain ⟨rfl, rfl⟩ := Prod.mk.inj (Option.some.inj heq)
        exact ⟨l ++ [(r, e)], Function.update_self .., e, by simp, rfl⟩
      · rintro ⟨l', hl', e', hmem, hkey⟩
        by_cases ho' : o' = o
        · subst ho'
          rw [Function.update_self] at hl'
          obtain rfl := Option.some.inj hl'
          rcases List.mem_append.mp hmem with hmem | hmem
          · exact absurd hkey (h.not_listed hk hl hmem)
          · obtain ⟨rfl, -⟩ := Prod.mk.inj (List.mem_singleton.mp hmem)
            rfl
        · rw [Function.update_of_ne ho'] at hl'
          exact absurd hkey (h.not_listed hk hl' hmem)
    · rw [Function.update_of_ne hke, h.index_iff]
      by_cases ho' : o' = o
      · subst ho'
        have hlast : ∀ e', (r', e') ∈ l ++ [(r, e)] ∧ key e' = k ↔ (r', e') ∈ l ∧ key e' = k := by
          intro e'
          rw [List.mem_append, List.mem_singleton, Prod.mk.injEq]
          constructor
          · rintro ⟨hmem | ⟨-, rfl⟩, hkey⟩
            · exact ⟨hmem, hkey⟩
            · exact absurd hkey.symm hke
          · rintro ⟨hmem, hkey⟩
            exact ⟨.inl hmem, hkey⟩
        simp only [Function.update_self, hl, Option.some.injEq, exists_eq_left', hlast]
      · simp [Function.update_of_ne ho']
  refs_nodup := by
    intro o' l' hl'
    by_cases ho' : o' = o
    · subst ho'
      rw [Function.update_self] at hl'
      obtain rfl := Option.some.inj hl'
      rw [List.map_append, List.map_singleton, List.nodup_append]
      refine ⟨h.refs_nodup o' l hl, List.nodup_cons.mpr ⟨List.not_mem_nil, List.nodup_nil⟩, ?_⟩
      intro a ha b hb
      obtain rfl := List.mem_singleton.mp hb
      exact fun hab ↦ hr (hab ▸ ha)
    · rw [Function.update_of_ne ho'] at hl'
      exact h.refs_nodup o' l' hl'

/-- An element is taken out of its list together with its key. -/
theorem Exact.remove [DecidableEq ρ] (h : Exact key lists index) {k : κ} {o : ι} {r : ρ}
    (hk : index k = some (o, r)) {l : List (ρ × ε)} (hl : lists o = some l) :
    Exact key (Function.update lists o (some (eraseRef r l))) (Function.update index k none) where
  index_iff := by
    have hnodup := h.refs_nodup o l hl
    obtain ⟨l₀, hl₀, e, hmem, hkey⟩ := (h.index_iff k o r).mp hk
    obtain rfl := Option.some.inj (hl.symm.trans hl₀)
    intro k' o' r'
    by_cases hkk : k' = k
    · subst hkk
      rw [Function.update_self]
      refine iff_of_false (by simp) ?_
      rintro ⟨l', hl', e', hmem', hkey'⟩
      by_cases ho' : o' = o
      · subst ho'
        rw [Function.update_self] at hl'
        obtain rfl := Option.some.inj hl'
        obtain ⟨hmem', hne⟩ := (mem_eraseRef hnodup).mp hmem'
        have hindex := (h.index_iff k' o' r').mpr ⟨l, hl, e', hmem', hkey'⟩
        rw [hk] at hindex
        exact hne (Prod.mk.inj (Option.some.inj hindex)).2.symm
      · rw [Function.update_of_ne ho'] at hl'
        have hindex := (h.index_iff k' o' r').mpr ⟨l', hl', e', hmem', hkey'⟩
        rw [hk] at hindex
        exact ho' (Prod.mk.inj (Option.some.inj hindex)).1.symm
    · rw [Function.update_of_ne hkk, h.index_iff]
      by_cases ho' : o' = o
      · subst ho'
        have hkeep : ∀ e', (r', e') ∈ eraseRef r l ∧ key e' = k' ↔ (r', e') ∈ l ∧ key e' = k' := by
          intro e'
          rw [mem_eraseRef hnodup]
          constructor
          · rintro ⟨⟨hmem', -⟩, hkey'⟩
            exact ⟨hmem', hkey'⟩
          · rintro ⟨hmem', hkey'⟩
            refine ⟨⟨hmem', ?_⟩, hkey'⟩
            rintro rfl
            rw [eq_of_ref_eq hnodup hmem' hmem] at hkey'
            exact hkk (hkey'.symm.trans hkey)
        simp only [Function.update_self, hl, Option.some.injEq, exists_eq_left', hkeep]
      · simp [Function.update_of_ne ho']
  refs_nodup := by
    intro o' l' hl'
    by_cases ho' : o' = o
    · subst ho'
      rw [Function.update_self] at hl'
      obtain rfl := Option.some.inj hl'
      rw [eraseRef_eq_filter (h.refs_nodup o' l hl)]
      exact (h.refs_nodup o' l hl).sublist (List.filter_sublist.map _)
    · rw [Function.update_of_ne ho'] at hl'
      exact h.refs_nodup o' l' hl'

omit [DecidableEq κ] in
/-- An owner goes with its list and the keys in it. -/
theorem Exact.close (h : Exact key lists index) {o : ι} {l : List (ρ × ε)} (hl : lists o = some l)
    {index' : κ → Option (ι × ρ)} (hgone : ∀ p ∈ l, index' (key p.2) = none)
    (hkeep : ∀ k, (∀ p ∈ l, key p.2 ≠ k) → index' k = index k) :
    Exact key (Function.update lists o none) index' where
  index_iff := by
    intro k o' r
    by_cases hlisted : ∃ p ∈ l, key p.2 = k
    · obtain ⟨p, hp, rfl⟩ := hlisted
      rw [hgone p hp]
      refine iff_of_false (by simp) ?_
      rintro ⟨l', hl', e, hmem, hkey⟩
      have ho' : o' ≠ o := by
        rintro rfl
        simp at hl'
      rw [Function.update_of_ne ho'] at hl'
      have hleft := (h.index_iff (key p.2) o p.1).mpr ⟨l, hl, p.2, hp, rfl⟩
      have hright := (h.index_iff (key p.2) o' r).mpr ⟨l', hl', e, hmem, hkey⟩
      rw [hleft] at hright
      exact ho' (Prod.mk.inj (Option.some.inj hright)).1.symm
    · have hnone : ∀ p ∈ l, key p.2 ≠ k := fun p hp hkey ↦ hlisted ⟨p, hp, hkey⟩
      rw [hkeep k hnone, h.index_iff]
      by_cases ho' : o' = o
      · subst ho'
        rw [Function.update_self]
        refine iff_of_false ?_ (by simp)
        rintro ⟨l', hl', e, hmem, hkey⟩
        obtain rfl := Option.some.inj (hl.symm.trans hl')
        exact hnone (r, e) hmem hkey
      · rw [Function.update_of_ne ho']
  refs_nodup := by
    intro o' l' hl'
    have ho' : o' ≠ o := by
      rintro rfl
      simp at hl'
    rw [Function.update_of_ne ho'] at hl'
    exact h.refs_nodup o' l' hl'

end Registry

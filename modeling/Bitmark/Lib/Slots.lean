import Mathlib.Data.List.Basic
import Mathlib.Logic.Function.Basic

/-!
# Lists whose elements know their places

A list without repetitions, in which each element carries its position, so that an element can be
taken out by swapping it with the last one. `Slots v pos` says that `pos` gives exactly the
positions of the elements of `v`.
-/

/-- `pos` and `v` are inverse to each other. -/
def Slots {κ : Type*} (v : List κ) (pos : κ → Option Int) : Prop :=
  ∀ k q, pos k = some q ↔ ∃ p : ℕ, v[p]? = some k ∧ q = p

namespace Slots

variable {κ : Type*} {v : List κ} {pos : κ → Option Int} {k k' : κ} {p p' : ℕ}

theorem nil : Slots ([] : List κ) fun _ ↦ none := by
  intro k q
  simp

theorem pos_eq (h : Slots v pos) (hk : v[p]? = some k) : pos k = some (p : Int) :=
  (h k p).mpr ⟨p, hk, rfl⟩

theorem eq_of_getElem? (h : Slots v pos) (hk : v[p]? = some k) (hk' : v[p']? = some k) : p = p' := by
  have := Option.some.inj ((h.pos_eq hk).symm.trans (h.pos_eq hk'))
  omega

theorem mem_iff (h : Slots v pos) : k ∈ v ↔ ∃ q, pos k = some q := by
  rw [List.mem_iff_getElem?]
  constructor
  · rintro ⟨p, hp⟩
    exact ⟨p, h.pos_eq hp⟩
  · rintro ⟨q, hq⟩
    obtain ⟨p, hp, -⟩ := (h k q).mp hq
    exact ⟨p, hp⟩

theorem nodup (h : Slots v pos) : v.Nodup := by
  refine List.pairwise_iff_getElem.mpr ?_
  intro i j hi hj hij heq
  exact Nat.ne_of_lt hij (h.eq_of_getElem? (List.getElem?_eq_getElem hi)
    (heq ▸ List.getElem?_eq_getElem hj))

variable [DecidableEq κ]

/-- A new element at the end. -/
theorem push (h : Slots v pos) (hk : pos k = none) :
    Slots (v ++ [k]) (Function.update pos k (some v.length)) := by
  have hnot : k ∉ v := by
    rw [h.mem_iff, hk]
    rintro ⟨q, hq⟩
    cases hq
  intro k' q
  by_cases hkk : k' = k
  · subst hkk
    rw [Function.update_self]
    constructor
    · intro hq
      exact ⟨v.length, by simp, (Option.some.inj hq).symm⟩
    · rintro ⟨p, hp, rfl⟩
      by_cases hlt : p < v.length
      · rw [List.getElem?_append_left hlt] at hp
        exact absurd (List.mem_of_getElem? hp) hnot
      · obtain ⟨hlen, -⟩ := List.getElem?_eq_some_iff.mp hp
        rw [List.length_append, List.length_singleton] at hlen
        obtain rfl : p = v.length := by omega
        rfl
  · rw [Function.update_of_ne hkk, h]
    refine exists_congr fun p ↦ and_congr_left' ?_
    by_cases hlt : p < v.length
    · rw [List.getElem?_append_left hlt]
    · rw [List.getElem?_eq_none (Nat.le_of_not_lt hlt), List.getElem?_append_right (Nat.le_of_not_lt hlt),
        List.getElem?_singleton]
      split
      · exact iff_of_false (by simp) fun heq ↦ hkk (Option.some.inj heq).symm
      · rfl

/-- Two elements change places. -/
theorem swap (h : Slots v pos) (hk : v[p]? = some k) (hk' : v[p']? = some k') (hne : p ≠ p') :
    Slots ((v.set p k').set p' k)
      (Function.update (Function.update pos k (some p')) k' (some p)) := by
  have hp := (List.getElem?_eq_some_iff.mp hk).1
  have hp' := (List.getElem?_eq_some_iff.mp hk').1
  have hkk : k ≠ k' := by
    rintro rfl
    exact hne (h.eq_of_getElem? hk hk')
  have hget : ∀ i, ((v.set p k').set p' k)[i]? =
      if i = p' then some k else if i = p then some k' else v[i]? := by
    intro i
    rw [List.getElem?_set, List.getElem?_set, List.length_set, if_pos hp, if_pos hp']
    simp only [eq_comm (a := i)]
  intro x q
  by_cases hx' : x = k'
  · subst hx'
    rw [Function.update_self]
    constructor
    · intro hq
      refine ⟨p, ?_, (Option.some.inj hq).symm⟩
      rw [hget, if_neg hne, if_pos rfl]
    · rintro ⟨i, hi, rfl⟩
      rw [hget] at hi
      split at hi
      · exact absurd (Option.some.inj hi) hkk
      · split at hi
        · next heq => rw [heq]
        · next hne' _ => exact absurd (h.eq_of_getElem? hi hk') hne'
  · rw [Function.update_of_ne hx']
    by_cases hx : x = k
    · subst hx
      rw [Function.update_self]
      constructor
      · intro hq
        refine ⟨p', ?_, (Option.some.inj hq).symm⟩
        rw [hget, if_pos rfl]
      · rintro ⟨i, hi, rfl⟩
        rw [hget] at hi
        split at hi
        · next heq => rw [heq]
        · split at hi
          · exact absurd (Option.some.inj hi).symm hkk
          · next hne' => exact absurd (h.eq_of_getElem? hi hk) hne'
    · rw [Function.update_of_ne hx, h]
      refine exists_congr fun i ↦ and_congr_left' ?_
      rw [hget]
      split
      · next heq =>
        rw [heq, hk']
        exact iff_of_false (fun hi ↦ hx' (Option.some.inj hi).symm)
          fun hi ↦ hx (Option.some.inj hi).symm
      · split
        · next heq =>
          rw [heq, hk]
          exact iff_of_false (fun hi ↦ hx (Option.some.inj hi).symm)
            fun hi ↦ hx' (Option.some.inj hi).symm
        · rfl

/-- The last element goes. -/
theorem pop (h : Slots v pos) (hk : v[v.length - 1]? = some k) :
    Slots v.dropLast (Function.update pos k none) := by
  have hlen := (List.getElem?_eq_some_iff.mp hk).1
  intro x q
  by_cases hx : x = k
  · subst hx
    rw [Function.update_self]
    refine iff_of_false (by simp) ?_
    rintro ⟨p, hp, -⟩
    rw [List.getElem?_dropLast] at hp
    split at hp
    · have := h.eq_of_getElem? hp hk
      omega
    · cases hp
  · rw [Function.update_of_ne hx, h]
    refine exists_congr fun p ↦ and_congr_left' ?_
    rw [List.getElem?_dropLast]
    split
    · rfl
    · next hge =>
      refine iff_of_false ?_ (by simp)
      intro hp
      have hlt := (List.getElem?_eq_some_iff.mp hp).1
      obtain rfl : p = v.length - 1 := by omega
      exact hx (Option.some.inj (hp.symm.trans hk))

end Slots

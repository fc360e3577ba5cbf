import Mathlib.Data.List.Basic
import Mathlib.Order.Basic

/-!
# Walking a chain to its end

A walk follows a partial successor function until there is none. Where the successors come from a
finite list and something falls with every step, as many steps as the list has elements are enough.
-/

namespace Walk

variable {α : Type*}

/-- The end of the chain from an element, or `none` when the steps are used up. -/
def walk (next : α → Option α) : ℕ → α → Option α
  | 0, a => if (next a).isNone then some a else none
  | fuel + 1, a =>
    match next a with
    | none => some a
    | some b => walk next fuel b

variable {next : α → Option α} {P : α → Prop} {a b : α}

/-- The end has no successor, and keeps what every step keeps. -/
theorem walk_eq_some {fuel : ℕ} (hP : ∀ a b, P a → next a = some b → P b) (ha : P a)
    (h : walk next fuel a = some b) : P b ∧ next b = none := by
  induction fuel generalizing a with
  | zero =>
    rw [walk] at h
    split at h
    case isTrue hnone =>
      obtain rfl := Option.some.inj h
      exact ⟨ha, Option.isNone_iff_eq_none.mp hnone⟩
    case isFalse => cases h
  | succ fuel ih =>
    rw [walk] at h
    split at h
    next hnone =>
      obtain rfl := Option.some.inj h
      exact ⟨ha, hnone⟩
    next c hnext => exact ih (hP a c ha hnext) h

/-- Fewer elements of a list satisfy a narrower condition that leaves one of them out. -/
theorem countP_lt_countP {p q : α → Bool} {l : List α} (hpq : ∀ x ∈ l, p x = true → q x = true)
    (hmem : a ∈ l) (hq : q a = true) (hp : p a = false) : l.countP p < l.countP q := by
  obtain ⟨s, t, rfl⟩ := List.append_of_mem hmem
  rw [List.countP_append, List.countP_append, List.countP_cons_of_pos hq,
    List.countP_cons_of_neg (by rw [hp]; exact Bool.false_ne_true)]
  have hs : s.countP p ≤ s.countP q :=
    List.countP_mono_left fun x hx ↦ hpq x (List.mem_append_left _ hx)
  have ht : t.countP p ≤ t.countP q :=
    List.countP_mono_left fun x hx ↦ hpq x (List.mem_append_right s (List.mem_cons_of_mem a hx))
  omega

/-- A walk comes to its end when the elements it may still come to are not more than the steps. -/
theorem isSome_walk_of_countP {ι : Type*} [Preorder ι] [DecidableLT ι] (rank : α → ι) (l : List α)
    (hP : ∀ a b, P a → next a = some b → P b ∧ b ∈ l ∧ rank b < rank a) {fuel : ℕ} (ha : P a)
    (h : l.countP (fun b ↦ rank b < rank a) ≤ fuel) : (walk next fuel a).isSome := by
  induction fuel generalizing a with
  | zero =>
    rw [walk]
    cases hnext : next a with
    | none => rfl
    | some b =>
      obtain ⟨-, hmem, hlt⟩ := hP a b ha hnext
      have hpos : 0 < l.countP (fun b ↦ rank b < rank a) :=
        List.countP_pos_iff.mpr ⟨b, hmem, decide_eq_true hlt⟩
      omega
  | succ fuel ih =>
    rw [walk]
    cases hnext : next a with
    | none => rfl
    | some b =>
      obtain ⟨hb, hmem, hlt⟩ := hP a b ha hnext
      -- `b` is below `a` and not below itself
      have hfewer : l.countP (fun c ↦ rank c < rank b) < l.countP (fun c ↦ rank c < rank a) := by
        apply countP_lt_countP (a := b) _ hmem (decide_eq_true hlt) (decide_eq_false (lt_irrefl _))
        intro c _ hc
        exact decide_eq_true ((of_decide_eq_true hc).trans hlt)
      exact ih hb (by omega)

theorem isSome_walk {ι : Type*} [Preorder ι] [DecidableLT ι] (rank : α → ι) (l : List α)
    (hP : ∀ a b, P a → next a = some b → P b ∧ b ∈ l ∧ rank b < rank a) (ha : P a) :
    (walk next l.length a).isSome :=
  isSome_walk_of_countP rank l hP ha List.countP_le_length

end Walk

import Mathlib.Algebra.Group.Nat.Defs
import Mathlib.Data.List.Basic

/-!
# Rounds of pairs

A round joins the neighbours of a list in pairs by an operation that can fail. Rounds on a list of
`2 ^ h` elements come down to one element, which is the value of a full binary tree over the list.
-/

namespace Tournament

variable {α : Type*}

/-- One round. A last element without a neighbour fails. -/
def round (join : α → α → Option α) : List α → Option (List α)
  | [] => some []
  | [_] => none
  | a :: b :: l => do
    let c ← join a b
    let cs ← round join l
    some (c :: cs)

/-- The tree of height `h` over a list. Trees of height `i` are joined by `join i`. -/
def tree (join : ℕ → α → α → Option α) : ℕ → List α → Option α
  | 0, l => l.head?
  | h + 1, l => do
    let a ← tree join h (l.take (2 ^ h))
    let b ← tree join h (l.drop (2 ^ h))
    join h a b

theorem length_round {join : α → α → Option α} {l l' : List α} (h : round join l = some l') :
    2 * l'.length = l.length := by
  induction l using round.induct generalizing l' with
  | case1 =>
    obtain rfl := Option.some.inj h
    rfl
  | case2 a => cases h
  | case3 a b l ih =>
    obtain ⟨c, -, h⟩ := Option.bind_eq_some_iff.mp h
    obtain ⟨cs, hcs, h⟩ := Option.bind_eq_some_iff.mp h
    obtain rfl := Option.some.inj h
    have := ih hcs
    rw [List.length_cons, List.length_cons, List.length_cons]
    omega

/-- A round over the two parts of a list. -/
theorem round_append (join : α → α → Option α) {n : ℕ} {l l' : List α} (h : l.length = 2 * n) :
    round join (l ++ l') =
      (round join l).bind fun cs ↦ (round join l').bind fun cs' ↦ some (cs ++ cs') := by
  induction n generalizing l with
  | zero =>
    obtain rfl := List.eq_nil_of_length_eq_zero h
    cases hr : round join l' with
    | none => simp [round, hr]
    | some cs => simp [round, hr]
  | succ n ih =>
    obtain ⟨a, t, rfl⟩ := List.exists_cons_of_length_eq_add_one (n := 2 * n + 1) h
    obtain ⟨b, l, rfl⟩ := List.exists_cons_of_length_eq_add_one (n := 2 * n) (Nat.succ.inj h)
    have hl : l.length = 2 * n := Nat.succ.inj (Nat.succ.inj h)
    rw [List.cons_append, List.cons_append, round, round, ih hl]
    cases join a b with
    | none => rfl
    | some c =>
      cases hl : round join l with
      | none => simp
      | some cs =>
        cases hl' : round join l' with
        | none => simp
        | some cs' => simp

/-- The tree over a list is the tree, one lower, over what a round makes of it. -/
theorem tree_succ (join : ℕ → α → α → Option α) {h : ℕ} {l : List α}
    (hl : l.length = 2 ^ (h + 1)) :
    tree join (h + 1) l = (round (join 0) l).bind (tree (fun i ↦ join (i + 1)) h) := by
  induction h generalizing l with
  | zero =>
    match l, hl with
    | [a, b], _ =>
      have htree : tree join (0 + 1) [a, b] = join 0 a b := rfl
      have hround : round (join 0) [a, b] = (join 0 a b).bind fun c ↦ some [c] := rfl
      rw [htree, hround]
      cases join 0 a b with
      | none => rfl
      | some c => rfl
  | succ h ih =>
    have hpow : 2 ^ (h + 1 + 1) = 2 ^ (h + 1) + 2 ^ (h + 1) := by rw [Nat.pow_succ]; omega
    have hleft : (l.take (2 ^ (h + 1))).length = 2 ^ (h + 1) := by
      rw [List.length_take]
      omega
    have hright : (l.drop (2 ^ (h + 1))).length = 2 ^ (h + 1) := by
      rw [List.length_drop]
      omega
    have hround : round (join 0) l = (round (join 0) (l.take (2 ^ (h + 1)))).bind fun cs ↦
        (round (join 0) (l.drop (2 ^ (h + 1)))).bind fun cs' ↦ some (cs ++ cs') := by
      rw [← round_append (join 0) (n := 2 ^ h) (by rw [hleft, Nat.pow_succ, Nat.mul_comm]),
        List.take_append_drop]
    rw [tree, ih hleft, ih hright, hround]
    cases hcs : round (join 0) (l.take (2 ^ (h + 1))) with
    | none => rfl
    | some cs =>
      have hlength : cs.length = 2 ^ h := by
        have := length_round hcs
        rw [hleft, Nat.pow_succ] at this
        omega
      cases hcs' : round (join 0) (l.drop (2 ^ (h + 1))) with
      | none =>
        simp
      | some cs' =>
        change _ = tree (fun i ↦ join (i + 1)) (h + 1) (cs ++ cs')
        rw [tree, List.take_left' hlength, List.drop_left' hlength]
        rfl

end Tournament

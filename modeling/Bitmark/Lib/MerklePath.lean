import Mathlib.Data.Set.Function

/-!
# Merkle paths

Climbing a merkle path from a leaf: every step names a sibling and the side it stands on, joins
it with the current node into a string, and hashes the string. Two paths to one root determine
their leaves as long as the hash function does not collide on the strings they hash and the
paths have the same shape.
-/

namespace MerklePath

variable {α β : Type*} (join : α → α → β) (hash : β → α)

/-- A step of a path: the sibling, and whether it is the left child. -/
structure Step (α : Type*) where
  siblingLeft : Bool
  sibling : α

/-- The string hashed at a step. -/
def preimage (node : α) (step : Step α) : β :=
  if step.siblingLeft then join step.sibling node else join node step.sibling

/-- The root a path leads to from a leaf. -/
def climb (node : α) : List (Step α) → α
  | [] => node
  | step :: path => climb (hash (preimage join node step)) path

/-- The strings hashed along a path. -/
def inputs (node : α) : List (Step α) → List β
  | [] => []
  | step :: path =>
    preimage join node step :: inputs (hash (preimage join node step)) path

theorem climb_append (node : α) (p q : List (Step α)) :
    climb join hash node (p ++ q) = climb join hash (climb join hash node p) q := by
  induction p generalizing node with
  | nil => rfl
  | cons step p ih => exact ih _

theorem inputs_append (node : α) (p q : List (Step α)) :
    inputs join hash node (p ++ q) =
      inputs join hash node p ++ inputs join hash (climb join hash node p) q := by
  induction p generalizing node with
  | nil => rfl
  | cons step p ih => simp [inputs, climb, ih]

/-- A nonempty path ends in the hash of one of its strings. -/
theorem climb_mem {node : α} {path : List (Step α)} (hne : path ≠ []) :
    ∃ b ∈ inputs join hash node path, (∃ x y, b = join x y) ∧
      climb join hash node path = hash b := by
  induction path generalizing node with
  | nil => exact absurd rfl hne
  | cons step path ih =>
    by_cases hpath : path = []
    · subst hpath
      refine ⟨preimage join node step, by simp [inputs], ?_, rfl⟩
      unfold preimage
      split
      · exact ⟨_, _, rfl⟩
      · exact ⟨_, _, rfl⟩
    · obtain ⟨b, hb, hjoin, hroot⟩ := @ih (hash (preimage join node step)) hpath
      exact ⟨b, by simp [inputs, hb], hjoin, hroot⟩

variable {join hash}

/-- Paths of one shape to one root start at one leaf. -/
theorem climb_inj (hjoin : ∀ a b c d, join a b = join c d → a = c ∧ b = d) {S : Set β}
    (hinj : Set.InjOn hash S) {x y : α} {p q : List (Step α)}
    (hshape : p.map Step.siblingLeft = q.map Step.siblingLeft)
    (hp : ∀ b ∈ inputs join hash x p, b ∈ S) (hq : ∀ b ∈ inputs join hash y q, b ∈ S)
    (hroot : climb join hash x p = climb join hash y q) : x = y := by
  induction p generalizing x y q with
  | nil =>
    obtain rfl : q = [] := by simpa using hshape.symm
    exact hroot
  | cons s p ih =>
    cases q with
    | nil => simp at hshape
    | cons t q =>
      simp only [List.map_cons, List.cons.injEq] at hshape
      simp only [inputs, List.forall_mem_cons] at hp hq
      have hhash := ih hshape.2 hp.2 hq.2 hroot
      have hpre := hinj hp.1 hq.1 hhash
      unfold preimage at hpre
      rw [hshape.1] at hpre
      split at hpre
      · exact (hjoin _ _ _ _ hpre).2
      · exact (hjoin _ _ _ _ hpre).1

/-- When all siblings stand on the right, the leaf of the shorter of two paths to one root is
the hash of a string that the longer one joins. -/
theorem leaf_eq_hash_of_shorter (hjoin : ∀ a b c d, join a b = join c d → a = c ∧ b = d)
    {S : Set β} (hinj : Set.InjOn hash S) {x y : α} {p q : List (Step α)}
    (hright : ∀ s ∈ p, s.siblingLeft = false) (hright' : ∀ s ∈ q, s.siblingLeft = false)
    (hp : ∀ b ∈ inputs join hash x p, b ∈ S) (hq : ∀ b ∈ inputs join hash y q, b ∈ S)
    (hroot : climb join hash x p = climb join hash y q) (hlt : p.length < q.length) :
    ∃ b ∈ inputs join hash y q, (∃ u v, b = join u v) ∧ x = hash b := by
  let front := q.take (q.length - p.length)
  let back := q.drop (q.length - p.length)
  have hsplit : front ++ back = q := List.take_append_drop _ _
  have hback : back.length = p.length := by
    simp only [back, List.length_drop]
    omega
  have hfront : front ≠ [] := by
    intro hnil
    have hlen := congrArg List.length hsplit
    rw [hnil, List.nil_append] at hlen
    omega
  have hallFalse : ∀ l : List (Step α), (∀ s ∈ l, s.siblingLeft = false) →
      l.map Step.siblingLeft = List.replicate l.length false := fun l hl ↦
    List.eq_replicate_iff.mpr ⟨by simp, by simpa using hl⟩
  have hinputs : inputs join hash y q =
      inputs join hash y front ++ inputs join hash (climb join hash y front) back := by
    rw [← inputs_append, hsplit]
  have hx : x = climb join hash y front := by
    refine climb_inj hjoin hinj (p := p) (q := back) ?_ hp ?_ ?_
    · rw [hallFalse p hright, hallFalse back fun s hs ↦ hright' s (List.mem_of_mem_drop hs), hback]
    · intro b hb
      exact hq b (by simp [hinputs, hb])
    · rw [hroot, ← climb_append, hsplit]
  obtain ⟨b, hb, hj, hclimb⟩ : ∃ b ∈ inputs join hash y front, _ := climb_mem join hash hfront
  exact ⟨b, by simp [hinputs, hb], hj, hx.trans hclimb⟩

end MerklePath

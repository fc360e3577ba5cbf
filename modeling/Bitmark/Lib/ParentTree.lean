import Mathlib.Data.Nat.Find

/-!
# Trees by parents

A rooted tree is given by the parent of each node and by heights. The ancestors of a node are found
by their heights, and two nodes have a fork: the highest ancestor they share.
-/

structure ParentTree (α : Type*) where
  parent : α → Option α
  height : α → ℕ
  root : α
  height_root : height root = 0
  eq_root : ∀ {b}, parent b = none → b = root
  height_parent : ∀ {b p}, parent b = some p → height b = height p + 1

namespace ParentTree

variable {α : Type*} (T : ParentTree α) {a b c f : α} {h k n : ℕ}

/-- So many steps towards the root. -/
def up : ℕ → α → α
  | 0, b => b
  | n + 1, b =>
    match T.parent b with
    | some p => up n p
    | none => b

/-- The ancestor of a height. -/
def ancestorAt (b : α) (h : ℕ) : α := T.up (T.height b - h) b

/-- An ancestor of a node, or the node. -/
def IsAncestor (a b : α) : Prop := ∃ n, T.up n b = a

/-- The last node the paths to two nodes share. -/
structure IsFork (f a b : α) : Prop where
  left : T.IsAncestor f a
  right : T.IsAncestor f b
  height_le : ∀ c, T.IsAncestor c a → T.IsAncestor c b → T.height c ≤ T.height f

theorem parent_eq_none_iff : T.parent b = none ↔ T.height b = 0 := by
  constructor
  · intro h
    rw [T.eq_root h, T.height_root]
  · intro h
    cases hp : T.parent b with
    | none => rfl
    | some p => exact absurd (T.height_parent hp) (by omega)

theorem eq_root_of_height (h : T.height b = 0) : b = T.root :=
  T.eq_root (T.parent_eq_none_iff.mpr h)

theorem up_succ_of_parent {p : α} (h : T.parent b = some p) (n : ℕ) :
    T.up (n + 1) b = T.up n p := by
  rw [up, h]

/-- A node without a parent stays where it is. -/
theorem up_of_parent_none (h : T.parent b = none) (n : ℕ) : T.up n b = b := by
  cases n with
  | zero => rfl
  | succ n => rw [up, h]

theorem height_up (n : ℕ) (b : α) : T.height (T.up n b) = T.height b - n := by
  induction n generalizing b with
  | zero => rfl
  | succ n ih =>
    cases hp : T.parent b with
    | none =>
      have hzero := T.parent_eq_none_iff.mp hp
      rw [up_of_parent_none T hp]
      omega
    | some p =>
      have hheight := T.height_parent hp
      rw [up_succ_of_parent T hp, ih]
      omega

theorem up_add (m n : ℕ) (b : α) : T.up (m + n) b = T.up n (T.up m b) := by
  induction m generalizing b with
  | zero => rw [Nat.zero_add, up]
  | succ m ih =>
    cases hp : T.parent b with
    | none =>
      rw [up_of_parent_none T hp, up_of_parent_none T hp, up_of_parent_none T hp]
    | some p => rw [Nat.succ_add, up_succ_of_parent T hp, up_succ_of_parent T hp, ih]

theorem up_of_height_le (h : T.height b ≤ n) : T.up n b = T.root := by
  apply T.eq_root_of_height
  rw [height_up]
  omega

theorem ancestorAt_self (b : α) : T.ancestorAt b (T.height b) = b := by
  rw [ancestorAt, Nat.sub_self, up]

theorem ancestorAt_zero (b : α) : T.ancestorAt b 0 = T.root := T.up_of_height_le le_rfl

theorem height_ancestorAt (h : k ≤ T.height b) : T.height (T.ancestorAt b k) = k := by
  rw [ancestorAt, height_up]
  omega

theorem isAncestor_ancestorAt (b : α) (k : ℕ) : T.IsAncestor (T.ancestorAt b k) b := ⟨_, rfl⟩

theorem isAncestor_root (b : α) : T.IsAncestor T.root b := ⟨T.height b, T.up_of_height_le le_rfl⟩

variable {T}

theorem IsAncestor.refl (b : α) : T.IsAncestor b b := ⟨0, rfl⟩

theorem IsAncestor.trans (hab : T.IsAncestor a b) (hbc : T.IsAncestor b c) : T.IsAncestor a c := by
  obtain ⟨m, rfl⟩ := hab
  obtain ⟨n, rfl⟩ := hbc
  exact ⟨n + m, T.up_add n m c⟩

theorem IsAncestor.height_le (h : T.IsAncestor a b) : T.height a ≤ T.height b := by
  obtain ⟨n, rfl⟩ := h
  rw [height_up]
  exact Nat.sub_le _ _

/-- An ancestor is found by its height. -/
theorem IsAncestor.ancestorAt_eq (h : T.IsAncestor a b) : T.ancestorAt b (T.height a) = a := by
  obtain ⟨n, rfl⟩ := h
  rw [ancestorAt, height_up]
  by_cases hn : n ≤ T.height b
  · rw [Nat.sub_sub_self hn]
  · rw [up_of_height_le T (by omega), up_of_height_le T (by omega)]

/-- Below an ancestor the ancestors are the same. -/
theorem IsAncestor.ancestorAt_below (h : T.IsAncestor a b) (hk : k ≤ T.height a) :
    T.ancestorAt b k = T.ancestorAt a k := by
  have hbelow := ((T.isAncestor_ancestorAt a k).trans h).ancestorAt_eq
  rwa [height_ancestorAt T hk] at hbelow

/-- Two ancestors of a node are ancestors by their heights. -/
theorem IsAncestor.of_height_le (ha : T.IsAncestor a c) (hb : T.IsAncestor b c)
    (h : T.height a ≤ T.height b) : T.IsAncestor a b := by
  rw [← ha.ancestorAt_eq, hb.ancestorAt_below h]
  exact T.isAncestor_ancestorAt b _

theorem isAncestor_parent {p : α} (h : T.parent b = some p) : T.IsAncestor p b :=
  ⟨1, T.up_succ_of_parent h 0⟩

theorem IsAncestor.eq_or_parent (h : T.IsAncestor a b) :
    a = b ∨ ∃ p, T.parent b = some p ∧ T.IsAncestor a p := by
  obtain ⟨n, rfl⟩ := h
  cases n with
  | zero => exact .inl rfl
  | succ n =>
    cases hp : T.parent b with
    | none => exact .inl (T.up_of_parent_none hp _)
    | some p => exact .inr ⟨p, rfl, n, (T.up_succ_of_parent hp n).symm⟩

theorem IsAncestor.eq_of_height (ha : T.IsAncestor a c) (hb : T.IsAncestor b c)
    (h : T.height a = T.height b) : a = b := by
  rw [← ha.ancestorAt_eq, h, hb.ancestorAt_eq]

variable (T) in
theorem exists_isFork (a b : α) : ∃ f, T.IsFork f a b := by
  classical
  have hroot : T.IsAncestor (T.ancestorAt a 0) b := by
    rw [ancestorAt_zero]
    exact T.isAncestor_root b
  let P := fun k ↦ T.IsAncestor (T.ancestorAt a k) b
  refine ⟨T.ancestorAt a (Nat.findGreatest P (T.height a)), ?_, ?_, ?_⟩
  · exact T.isAncestor_ancestorAt a _
  · exact Nat.findGreatest_spec (P := P) (Nat.zero_le _) hroot
  · intro c ha hb
    rw [height_ancestorAt T (Nat.findGreatest_le _)]
    apply Nat.le_findGreatest ha.height_le
    change T.IsAncestor (T.ancestorAt a (T.height c)) b
    rwa [ha.ancestorAt_eq]

/-- The ancestors that are shared are those up to the fork. -/
theorem IsFork.isAncestor_iff (h : T.IsFork f a b) (hc : T.IsAncestor c a) :
    T.IsAncestor c b ↔ T.height c ≤ T.height f := by
  constructor
  · intro hb
    exact h.height_le c hc hb
  · intro hle
    have hbelow := h.left.ancestorAt_below hle
    rw [hc.ancestorAt_eq] at hbelow
    rw [hbelow]
    exact (T.isAncestor_ancestorAt f _).trans h.right

end ParentTree

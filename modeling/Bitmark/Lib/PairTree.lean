import Mathlib.Algebra.Group.Nat.Defs
import Mathlib.Data.List.GetD
import Mathlib.Data.List.Nodup
import Mathlib.Data.Nat.Log
import Mathlib.Data.Set.Function

/-!
# Trees of paired levels

A level is joined pairwise into the next one, the last node of an odd level with itself, until
one node is left. When joining does not collide on the pairs that occur, a root determines a list
of distinct leaves, its length included: the node that is joined with itself cannot pass for two
different ones.
-/

namespace PairTree

variable {α : Type*}

/-- The pairs that are joined at a level. -/
def joins : List α → List (α × α)
  | [] => []
  | [a] => [(a, a)]
  | a :: b :: l => (a, b) :: joins l

/-- The number of nodes `k` levels above `n` leaves. -/
def width (n k : Nat) : Nat := (n + 2 ^ k - 1) / 2 ^ k

variable (pair : α → α → α)

/-- The next level. -/
def up (l : List α) : List α := (joins l).map fun p ↦ pair p.1 p.2

/-- The level `k` steps above the leaves. -/
def level (l : List α) : Nat → List α
  | 0 => l
  | k + 1 => up pair (level l k)

/-- The level with one node. -/
def height (l : List α) : Nat := Nat.clog 2 l.length

/-- The pairs that are joined below the root. -/
def Joined (l : List α) : Set (α × α) := {p | ∃ k < height l, p ∈ joins (level pair l k)}

/-- The root, or a default value without leaves. -/
def root (d : α) (l : List α) : α := (level pair l (height l)).headD d

/-- The node at a position of a level. -/
def nodeAt (d : α) (l : List α) (k pos : Nat) : α := (level pair l k).getD pos d

/-! ### Widths -/

@[simp] theorem width_zero (n : Nat) : width n 0 = n := by
  simp [width]

theorem width_succ (n k : Nat) : width n (k + 1) = (width n k + 1) / 2 := by
  have hpos : 0 < 2 ^ k := Nat.two_pow_pos k
  rcases Nat.eq_zero_or_pos n with rfl | hn
  · have hone : (2 ^ k - 1) / 2 ^ k = 0 := Nat.div_eq_of_lt (by omega)
    have htwo : (2 ^ (k + 1) - 1) / 2 ^ (k + 1) = 0 :=
      Nat.div_eq_of_lt (Nat.sub_lt (Nat.two_pow_pos _) Nat.one_pos)
    simp [width, hone, htwo]
  · have hceil : ∀ j, width n j = (n - 1) / 2 ^ j + 1 := by
      intro j
      have hj : n + 2 ^ j - 1 = n - 1 + 2 ^ j := by
        have := Nat.two_pow_pos j
        omega
      rw [width, hj, Nat.add_div_right _ (Nat.two_pow_pos j)]
    have hdiv : (n - 1) / 2 ^ (k + 1) = (n - 1) / 2 ^ k / 2 := by
      rw [Nat.div_div_eq_div_mul, Nat.pow_succ]
    rw [hceil, hceil, hdiv]
    omega

theorem width_le_one_iff {n k : Nat} : width n k ≤ 1 ↔ n ≤ 2 ^ k := by
  have hpos : 0 < 2 ^ k := Nat.two_pow_pos k
  rw [width, ← Nat.lt_succ_iff, Nat.div_lt_iff_lt_mul hpos]
  omega

theorem width_pos {n : Nat} (h : 0 < n) (k : Nat) : 0 < width n k :=
  Nat.div_pos (by omega) (Nat.two_pow_pos k)

theorem width_clog {n : Nat} (h : 0 < n) : width n (Nat.clog 2 n) = 1 := by
  have hle : width n (Nat.clog 2 n) ≤ 1 := width_le_one_iff.mpr (Nat.le_pow_clog (by decide) n)
  have hpos := width_pos h (Nat.clog 2 n)
  omega

theorem one_lt_width_iff {n k : Nat} : 1 < width n k ↔ k < Nat.clog 2 n := by
  rw [← not_le, width_le_one_iff, not_le, Nat.lt_clog_iff_pow_lt (by decide)]

/-! ### Levels -/

theorem length_joins (l : List α) : (joins l).length = (l.length + 1) / 2 := by
  induction l using joins.induct with
  | case1 => simp [joins]
  | case2 a => simp [joins]
  | case3 a b l ih =>
    simp only [joins, List.length_cons, ih]
    omega

@[simp] theorem length_up (l : List α) : (up pair l).length = (l.length + 1) / 2 := by
  rw [up, List.length_map, length_joins]

theorem length_level (l : List α) (k : Nat) : (level pair l k).length = width l.length k := by
  induction k with
  | zero => exact (width_zero _).symm
  | succ k ih => rw [level, length_up, ih, width_succ]

/-- The root of a nonempty list is the only node of its level. -/
theorem level_height (d : α) {l : List α} (hl : l ≠ []) :
    level pair l (height l) = [root pair d l] := by
  have hlen : (level pair l (height l)).length = 1 := by
    rw [length_level, height, width_clog (List.length_pos_iff.mpr hl)]
  obtain ⟨r, hr⟩ := List.length_eq_one_iff.mp hlen
  rw [root, hr]
  rfl

/-- The levels above the leaves are the levels of the next list. -/
theorem level_up (l : List α) (k : Nat) : level pair (up pair l) k = level pair l (k + 1) := by
  induction k with
  | zero => rfl
  | succ k ih => rw [level, ih, ← level]

/-- A list of several leaves has the root of the level above them. -/
theorem root_up (d : α) {l : List α} (hl : 1 < l.length) :
    root pair d (up pair l) = root pair d l := by
  have hheight : height l = height (up pair l) + 1 := by
    rw [height, height, length_up, Nat.clog_of_two_le (by decide) hl]
    rfl
  rw [root, root, level_up, hheight]

/-- The pair at a position: the last node of an odd level stands in for its missing neighbour. -/
theorem getElem?_joins (l : List α) (i : Nat) :
    (joins l)[i]? = l[2 * i]?.map fun a ↦ (a, (l[2 * i + 1]?).getD a) := by
  induction l using joins.induct generalizing i with
  | case1 => rfl
  | case2 a =>
    cases i with
    | zero => rfl
    | succ i =>
      have hno : [a][2 * (i + 1)]? = none := List.getElem?_eq_none (by simp; omega)
      rw [hno]
      rfl
  | case3 a b l ih =>
    cases i with
    | zero => rfl
    | succ i =>
      have h1 : 2 * (i + 1) = 2 * i + 1 + 1 := by omega
      have h2 : 2 * (i + 1) + 1 = 2 * i + 1 + 1 + 1 := by omega
      rw [h1, joins, List.getElem?_cons_succ, ih, List.getElem?_cons_succ, List.getElem?_cons_succ,
        List.getElem?_cons_succ, List.getElem?_cons_succ]

/-- A node is the join of the two below it; the last of an odd level is both. -/
theorem nodeAt_succ (d : α) (l : List α) {k pos : Nat} (hpos : pos < width l.length (k + 1)) :
    (nodeAt pair d l k (2 * pos),
        nodeAt pair d l k (min (2 * pos + 1) (width l.length k - 1))) ∈ joins (level pair l k) ∧
      nodeAt pair d l (k + 1) pos = pair (nodeAt pair d l k (2 * pos))
        (nodeAt pair d l k (min (2 * pos + 1) (width l.length k - 1))) := by
  rw [width_succ] at hpos
  have hlen := length_level pair l k
  have hleft : 2 * pos < (level pair l k).length := by omega
  have hget : (joins (level pair l k))[pos]? = some (nodeAt pair d l k (2 * pos),
      nodeAt pair d l k (min (2 * pos + 1) (width l.length k - 1))) := by
    rw [getElem?_joins, List.getElem?_eq_getElem hleft, Option.map_some, nodeAt, nodeAt,
      List.getD_eq_getElem _ _ hleft]
    by_cases hright : 2 * pos + 1 < (level pair l k).length
    · rw [List.getElem?_eq_getElem hright, Nat.min_eq_left (by omega),
        List.getD_eq_getElem _ _ hright]
      rfl
    · have hlast : min (2 * pos + 1) (width l.length k - 1) = 2 * pos := by omega
      rw [List.getElem?_eq_none (by omega), hlast, List.getD_eq_getElem _ _ hleft]
      rfl
  refine ⟨List.mem_of_getElem? hget, ?_⟩
  have hup : (up pair (level pair l k))[pos]? = some (pair (nodeAt pair d l k (2 * pos))
      (nodeAt pair d l k (min (2 * pos + 1) (width l.length k - 1)))) := by
    rw [up, List.getElem?_map, hget]
    rfl
  rw [nodeAt, level, List.getD_eq_getElem?_getD, hup]
  rfl

theorem root_eq_nodeAt (d : α) (l : List α) : root pair d l = nodeAt pair d l (height l) 0 := by
  rw [root, nodeAt]
  cases level pair l (height l) with
  | nil => rfl
  | cons a as => rfl

/-! ### Distinct leaves -/

theorem mem_of_mem_joins {l : List α} {p : α × α} (h : p ∈ joins l) : p.1 ∈ l ∧ p.2 ∈ l := by
  induction l using joins.induct with
  | case1 => cases h
  | case2 a =>
    obtain rfl := List.mem_singleton.mp h
    simp
  | case3 a b l ih =>
    rcases List.mem_cons.mp h with rfl | h
    · simp
    · exact ⟨List.mem_cons_of_mem _ (List.mem_cons_of_mem _ (ih h).1),
        List.mem_cons_of_mem _ (List.mem_cons_of_mem _ (ih h).2)⟩

theorem nodup_joins {l : List α} (h : l.Nodup) : (joins l).Nodup := by
  induction l using joins.induct with
  | case1 => exact List.nodup_nil
  | case2 a => exact List.nodup_singleton _
  | case3 a b l ih =>
    rw [List.nodup_cons, List.nodup_cons] at h
    obtain ⟨ha, -, hl⟩ := h
    refine List.nodup_cons.mpr ⟨fun hmem ↦ ha ?_, ih hl⟩
    exact List.mem_cons_of_mem _ (mem_of_mem_joins hmem).1

/-- Distinct nodes are determined by their pairs: a pair of one node with itself tells an odd
level from an even one. -/
theorem joins_inj {l l' : List α} (h : l.Nodup) (h' : l'.Nodup) (heq : joins l = joins l') :
    l = l' := by
  induction l using joins.induct generalizing l' with
  | case1 =>
    match l', heq with
    | [], _ => rfl
    | [a'], heq => cases heq
    | a' :: b' :: l', heq => cases heq
  | case2 a =>
    match l', h', heq with
    | [a'], _, heq =>
      simp only [joins, List.cons.injEq, Prod.mk.injEq, and_true, and_self] at heq
      rw [heq]
    | a' :: b' :: l', h', heq =>
      simp only [joins, List.cons.injEq, Prod.mk.injEq] at heq
      obtain ⟨⟨rfl, rfl⟩, -⟩ := heq
      simp at h'
  | case3 a b l ih =>
    match l', h', heq with
    | [a'], _, heq =>
      simp only [joins, List.cons.injEq, Prod.mk.injEq] at heq
      obtain ⟨⟨rfl, rfl⟩, -⟩ := heq
      simp at h
    | a' :: b' :: l', h', heq =>
      simp only [joins, List.cons.injEq, Prod.mk.injEq] at heq
      obtain ⟨⟨rfl, rfl⟩, heq⟩ := heq
      rw [ih (List.nodup_cons.mp (List.nodup_cons.mp h).2).2
        (List.nodup_cons.mp (List.nodup_cons.mp h').2).2 heq]

section Binding

variable {pair} {S : Set (α × α)}

theorem up_inj (hinj : Set.InjOn (fun p : α × α ↦ pair p.1 p.2) S) {l l' : List α}
    (hl : ∀ p ∈ joins l, p ∈ S) (hl' : ∀ p ∈ joins l', p ∈ S) (h : l.Nodup) (h' : l'.Nodup)
    (heq : up pair l = up pair l') : l = l' := by
  apply joins_inj h h'
  have hlen : (joins l).length = (joins l').length := by
    simpa [up] using congrArg List.length heq
  refine List.ext_getElem hlen ?_
  intro i hi hi'
  apply hinj (hl _ (List.getElem_mem hi)) (hl' _ (List.getElem_mem hi'))
  have hget : (up pair l)[i]? = (up pair l')[i]? := by rw [heq]
  simpa [up, hi, hi'] using hget

theorem nodup_up (hinj : Set.InjOn (fun p : α × α ↦ pair p.1 p.2) S) {l : List α}
    (hl : ∀ p ∈ joins l, p ∈ S) (h : l.Nodup) : (up pair l).Nodup :=
  (nodup_joins h).map_on fun p hp q hq heq ↦ hinj (hl p hp) (hl q hq) heq

/-- Above distinct leaves all levels up to the root are distinct. -/
theorem nodup_level (hinj : Set.InjOn (fun p : α × α ↦ pair p.1 p.2) S) {l : List α}
    (hl : Joined pair l ⊆ S) (h : l.Nodup) {k : Nat} (hk : k ≤ height l) :
    (level pair l k).Nodup := by
  induction k with
  | zero => exact h
  | succ k ih => exact nodup_up hinj (fun p hp ↦ hl ⟨k, hk, hp⟩) (ih (by omega))

/-- The first node of a level is the join of the first nodes below it. -/
theorem head?_level_succ (l : List α) (k : Nat) :
    (level pair l (k + 1)).head? = (joins (level pair l k)).head?.map fun p ↦ pair p.1 p.2 := by
  rw [level, up, List.head?_map]

theorem head?_joins (l : List α) : (joins l).head?.map Prod.fst = l.head? := by
  match l with
  | [] => rfl
  | [a] => rfl
  | a :: b :: l => rfl

/-- Two trees of one height with one root have the same leaves. -/
private theorem eq_of_level_eq (hinj : Set.InjOn (fun p : α × α ↦ pair p.1 p.2) S) {l l' : List α}
    (hl : Joined pair l ⊆ S) (hl' : Joined pair l' ⊆ S) (h : l.Nodup) (h' : l'.Nodup) {k : Nat}
    (hk : k ≤ height l) (hk' : k ≤ height l') (heq : level pair l k = level pair l' k) :
    l = l' := by
  induction k with
  | zero => exact heq
  | succ k ih =>
    apply ih (by omega) (by omega)
    exact up_inj hinj (fun p hp ↦ hl ⟨k, hk, hp⟩) (fun p hp ↦ hl' ⟨k, hk', hp⟩)
      (nodup_level hinj hl h (by omega)) (nodup_level hinj hl' h' (by omega)) heq

/-- Along the left edges of two trees with one root the nodes agree, counted from the root. -/
private theorem head?_level_eq (hinj : Set.InjOn (fun p : α × α ↦ pair p.1 p.2) S) {l l' : List α}
    (hl : Joined pair l ⊆ S) (hl' : Joined pair l' ⊆ S) {d : Nat} (hd : d ≤ height l)
    (hd' : d ≤ height l')
    (heq : (level pair l (height l)).head? = (level pair l' (height l')).head?) :
    (level pair l (height l - d)).head? = (level pair l' (height l' - d)).head? := by
  induction d with
  | zero => exact heq
  | succ d ih =>
    have hup := ih (by omega) (by omega)
    obtain ⟨k, hk⟩ : ∃ k, height l = k + (d + 1) := ⟨height l - (d + 1), by omega⟩
    obtain ⟨k', hk'⟩ : ∃ k, height l' = k + (d + 1) := ⟨height l' - (d + 1), by omega⟩
    have e₁ : height l - d = k + 1 := by omega
    have e₂ : height l' - d = k' + 1 := by omega
    have e₃ : height l - (d + 1) = k := by omega
    have e₄ : height l' - (d + 1) = k' := by omega
    rw [e₁, e₂, head?_level_succ, head?_level_succ] at hup
    rw [e₃, e₄, ← head?_joins, ← head?_joins (level pair l' k')]
    cases hp : (joins (level pair l k)).head? with
    | none =>
      rw [hp, Option.map_none] at hup
      rw [Option.map_eq_none_iff.mp hup.symm]
    | some p =>
      rw [hp, Option.map_some] at hup
      obtain ⟨q, hq, hpq⟩ := Option.map_eq_some_iff.mp hup.symm
      have hpS : p ∈ S := hl ⟨k, by omega, List.mem_of_head? hp⟩
      have hqS : q ∈ S := hl' ⟨k', by omega, List.mem_of_head? hq⟩
      rw [hq, hinj hqS hpS hpq]

/-- A list of distinct leaves is determined by its root, when joining does not collide and no
leaf is a join. -/
theorem root_binds (hinj : Set.InjOn (fun p : α × α ↦ pair p.1 p.2) S) {l l' : List α} (d : α)
    (hl : Joined pair l ⊆ S) (hl' : Joined pair l' ⊆ S) (h : l.Nodup) (h' : l'.Nodup)
    (hne : l ≠ []) (hne' : l' ≠ [])
    (hleaf : ∀ a ∈ l, ∀ p ∈ S, a ≠ pair p.1 p.2) (hleaf' : ∀ a ∈ l', ∀ p ∈ S, a ≠ pair p.1 p.2)
    (heq : root pair d l = root pair d l') : l = l' := by
  have htop : level pair l (height l) = level pair l' (height l') := by
    rw [level_height pair d hne, level_height pair d hne', heq]
  -- the first leaf of the lower tree would be a node inside the higher one
  have hlower : ∀ {a b : List α}, Joined pair a ⊆ S → Joined pair b ⊆ S → a ≠ [] →
      (∀ x ∈ a, ∀ p ∈ S, x ≠ pair p.1 p.2) →
      level pair a (height a) = level pair b (height b) → ¬ height a < height b := by
    intro a b ha hb hane hx hab hlt
    have hhead := head?_level_eq hinj ha hb le_rfl hlt.le (by rw [hab])
    rw [Nat.sub_self] at hhead
    obtain ⟨k, hk⟩ : ∃ k, height b - height a = k + 1 := ⟨height b - height a - 1, by omega⟩
    obtain ⟨x, xs, rfl⟩ := List.exists_cons_of_ne_nil hane
    rw [hk, head?_level_succ] at hhead
    obtain ⟨p, hp, hpx⟩ := Option.map_eq_some_iff.mp hhead.symm
    exact hx x List.mem_cons_self p (hb ⟨k, by omega, List.mem_of_head? hp⟩) hpx.symm
  have h₁ := hlower hl hl' hne hleaf htop
  have h₂ := hlower hl' hl hne' hleaf' htop.symm
  have hheight : height l = height l' := by omega
  rw [← hheight] at htop
  exact eq_of_level_eq hinj hl hl' h h' le_rfl hheight.le htop

end Binding

end PairTree

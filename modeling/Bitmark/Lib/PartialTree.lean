import Mathlib.Data.List.Sort
import Mathlib.Tactic.Ring
import Bitmark.Lib.PairTree

/-!
# Partial trees

A partial tree spells out the part of a tree of paired levels above some marked leaves: at every
other node it stores the hash only. Written down in depth-first order it is a list of bits, one
for each node, and a list of hashes, one for each node that is not opened. A partial tree with
the root of a list of distinct leaves lists nodes of that list's own tree, wherever its width puts
them.
-/

/-- A partial tree: a stored hash with its mark, an opened node, or an opened node at the edge,
whose right child is its left one again. -/
inductive PartialTree (α : Type*) where
  | stored (marked : Bool) (hash : α)
  | node (left right : PartialTree α)
  | twin (left : PartialTree α)
deriving DecidableEq, Repr

namespace PartialTree

open PairTree

variable {α : Type*} (pair : α → α → α)

/-- The hash of a partial tree. -/
def hash : PartialTree α → α
  | stored _ a => a
  | node l r => pair (hash l) (hash r)
  | twin l => pair (hash l) (hash l)

/-- The bits, one for each node. -/
def bits : PartialTree α → List Bool
  | stored b _ => [b]
  | node l r => true :: (bits l ++ bits r)
  | twin l => true :: bits l

/-- The hashes that are stored. -/
def hashes : PartialTree α → List α
  | stored _ a => [a]
  | node l r => hashes l ++ hashes r
  | twin l => hashes l

/-- The marked hashes. -/
def marked : PartialTree α → List α
  | stored b a => if b then [a] else []
  | node l r => marked l ++ marked r
  | twin l => marked l

/-- The positions of the marked leaves, counted from the first leaf below the tree. -/
def marks : Nat → PartialTree α → List Nat
  | _, stored b _ => if b then [0] else []
  | h, node l r => marks (h - 1) l ++ (marks (h - 1) r).map (2 ^ (h - 1) + ·)
  | h, twin l => marks (h - 1) l

/-- The pairs that are joined for the hash. -/
def joined : PartialTree α → List (α × α)
  | stored _ _ => []
  | node l r => (hash pair l, hash pair r) :: (joined l ++ joined r)
  | twin l => (hash pair l, hash pair l) :: joined l

/-- The partial trees over `n` leaves at a height and position: only leaves are marked, and a node
is opened as the width of the level below says. -/
def Shape (n : Nat) : Nat → Nat → PartialTree α → Prop
  | 0, _, stored _ _ => True
  | _ + 1, _, stored b _ => b = false
  | h + 1, pos, node l r =>
    2 * pos + 1 < width n h ∧ Shape n h (2 * pos) l ∧ Shape n h (2 * pos + 1) r
  | h + 1, pos, twin l => ¬ 2 * pos + 1 < width n h ∧ Shape n h (2 * pos) l
  | 0, _, _ => False

/-- Read a partial tree over `n` leaves from its bits and hashes; what is not used is left. -/
def read (n : Nat) : Nat → Nat → List Bool → List α → Option (PartialTree α × List Bool × List α)
  | 0, _, b :: bits, a :: hashes => some (stored b a, bits, hashes)
  | _ + 1, _, false :: bits, a :: hashes => some (stored false a, bits, hashes)
  | h + 1, pos, true :: bits, hashes => do
    let (l, bits, hashes) ← read n h (2 * pos) bits hashes
    if 2 * pos + 1 < width n h then do
      let (r, bits, hashes) ← read n h (2 * pos + 1) bits hashes
      some (node l r, bits, hashes)
    else some (twin l, bits, hashes)
  | _, _, _, _ => none

/-! ### Reading and writing -/

/-- A partial tree of the right shape is read back from its bits and hashes. -/
theorem read_flatten {n h pos : Nat} {t : PartialTree α} (ht : Shape n h pos t)
    (bs : List Bool) (as : List α) :
    read n h pos (bits t ++ bs) (hashes t ++ as) = some (t, bs, as) := by
  induction t generalizing h pos bs as with
  | stored b a =>
    cases h with
    | zero => rfl
    | succ h =>
      obtain rfl : b = false := ht
      rfl
  | node l r ihl ihr =>
    cases h with
    | zero => cases ht
    | succ h =>
      obtain ⟨hwidth, hl, hr⟩ := ht
      simp only [bits, hashes, List.cons_append, List.append_assoc, read, ihl hl, ihr hr,
        Option.bind_eq_bind, Option.bind_some, if_pos hwidth]
  | twin l ihl =>
    cases h with
    | zero => cases ht
    | succ h =>
      obtain ⟨hwidth, hl⟩ := ht
      simp only [bits, hashes, List.cons_append, read, ihl hl, Option.bind_eq_bind,
        Option.bind_some, if_neg hwidth]

/-- What is read has the right shape, and its bits and hashes were taken off the front. -/
theorem read_eq_some {n h pos : Nat} {bs bs' : List Bool} {as as' : List α} {t : PartialTree α}
    (heq : read n h pos bs as = some (t, bs', as')) :
    Shape n h pos t ∧ bs = bits t ++ bs' ∧ as = hashes t ++ as' := by
  induction h generalizing pos bs as t bs' as' with
  | zero =>
    match bs, as with
    | [], as => cases heq
    | _ :: _, [] => cases heq
    | b :: bs, a :: as =>
      cases heq
      exact ⟨trivial, rfl, rfl⟩
  | succ h ih =>
    match bs, as with
    | [], as => cases heq
    | false :: _, [] => cases heq
    | false :: bs, a :: as =>
      cases heq
      exact ⟨rfl, rfl, rfl⟩
    | true :: bs, as =>
      simp only [read, Option.bind_eq_bind, Option.bind_eq_some_iff, Prod.exists] at heq
      obtain ⟨l, bs₁, as₁, hl, heq⟩ := heq
      obtain ⟨hshape, rfl, rfl⟩ := ih hl
      split at heq
      · next hwidth =>
        simp only [Option.bind_eq_some_iff, Prod.exists] at heq
        obtain ⟨r, bs₂, as₂, hr, heq⟩ := heq
        obtain ⟨hshape', rfl, rfl⟩ := ih hr
        cases heq
        exact ⟨⟨hwidth, hshape, hshape'⟩, by simp [bits], by simp [hashes]⟩
      · next hwidth =>
        cases heq
        exact ⟨⟨hwidth, hshape⟩, rfl, rfl⟩

/-- There is at least one bit for every hash. -/
theorem length_hashes_le (t : PartialTree α) : (hashes t).length ≤ (bits t).length := by
  induction t with
  | stored b a => rfl
  | node l r ihl ihr =>
    simp only [hashes, bits, List.length_append, List.length_cons]
    omega
  | twin l ihl =>
    simp only [hashes, bits, List.length_cons]
    omega

/-- A partial tree has no more nodes than a full one. -/
theorem length_bits_lt {n h pos : Nat} {t : PartialTree α} (ht : Shape n h pos t) :
    (bits t).length < 2 ^ (h + 1) := by
  induction t generalizing h pos with
  | stored b a =>
    have := Nat.two_pow_pos h
    rw [bits, List.length_singleton, Nat.pow_succ]
    omega
  | node l r ihl ihr =>
    cases h with
    | zero => cases ht
    | succ h =>
      have hl := ihl ht.2.1
      have hr := ihr ht.2.2
      rw [bits, List.length_cons, List.length_append, Nat.pow_succ]
      omega
  | twin l ihl =>
    cases h with
    | zero => cases ht
    | succ h =>
      have hl := ihl ht.2
      rw [bits, List.length_cons, Nat.pow_succ]
      omega

/-! ### Segments -/

/-- The leaves below a node of the full tree. -/
def segment {β : Type*} (l : List β) (h pos : Nat) : List β := (l.drop (pos * 2 ^ h)).take (2 ^ h)

theorem segment_succ {β : Type*} (l : List β) (h pos : Nat) :
    segment l (h + 1) pos = segment l h (2 * pos) ++ segment l h (2 * pos + 1) := by
  have hleft : pos * 2 ^ (h + 1) = 2 * pos * 2 ^ h := by
    rw [Nat.pow_succ]
    ring
  have hright : (2 * pos + 1) * 2 ^ h = 2 * pos * 2 ^ h + 2 ^ h := by ring
  have hsize : 2 ^ (h + 1) = 2 ^ h + 2 ^ h := by omega
  rw [segment, segment, segment, hleft, hright, hsize, List.take_add, List.drop_drop]

/-- There are no leaves below a node beyond the width of its level. -/
theorem segment_eq_nil {β : Type*} {l : List β} {h pos : Nat} (hpos : ¬ pos < width l.length h) :
    segment l h pos = [] := by
  have hpow := Nat.two_pow_pos h
  have hle : l.length ≤ pos * 2 ^ h := by
    refine Nat.le_of_not_lt fun hlt ↦ hpos ?_
    rw [width, ← Nat.succ_le_iff, Nat.le_div_iff_mul_le hpow, Nat.succ_mul]
    omega
  rw [segment, List.drop_eq_nil_of_le hle, List.take_nil]

/-- The only leaves are those below the root. -/
theorem segment_root {β : Type*} {l : List β} {h : Nat} (hl : l.length ≤ 2 ^ h) :
    segment l h 0 = l := by
  rw [segment, Nat.zero_mul, List.drop_zero, List.take_of_length_le hl]

theorem segment_zero {β : Type*} {l : List β} {pos : Nat} (hpos : pos < l.length) :
    segment l 0 pos = [l[pos]] := by
  rw [segment, pow_zero, Nat.mul_one]
  rw [List.drop_eq_getElem_cons hpos]
  rfl

/-! ### Building -/

/-- The elements that are selected. -/
def selected (l : List α) (ms : List Bool) : List α :=
  (l.zip ms).filterMap fun p ↦ if p.2 then some p.1 else none

/-- The partial tree above the marked leaves. -/
def build (d : α) (l : List α) (ms : List Bool) : Nat → Nat → PartialTree α
  | 0, pos => stored ((segment ms 0 pos).any id) (nodeAt pair d l 0 pos)
  | h + 1, pos =>
    if (segment ms (h + 1) pos).any id then
      if 2 * pos + 1 < width l.length h then
        node (build d l ms h (2 * pos)) (build d l ms h (2 * pos + 1))
      else twin (build d l ms h (2 * pos))
    else stored false (nodeAt pair d l (h + 1) pos)

theorem selected_append {l l' : List α} {ms ms' : List Bool} (h : l.length = ms.length) :
    selected (l ++ l') (ms ++ ms') = selected l ms ++ selected l' ms' := by
  rw [selected, List.zip_append h, List.filterMap_append]
  rfl

theorem selected_eq_nil {l : List α} {ms : List Bool} (h : ms.any id = false) :
    selected l ms = [] := by
  rw [selected, List.filterMap_eq_nil_iff]
  rintro ⟨a, m⟩ hmem
  obtain rfl : m = false := by
    simpa using List.any_eq_false.mp h m (List.of_mem_zip hmem).2
  rfl

variable (d : α) {l : List α} {ms : List Bool}

theorem length_segment (hms : ms.length = l.length) (h pos : Nat) :
    (segment l h pos).length = (segment ms h pos).length := by
  simp [segment, hms]

theorem shape_build (l : List α) (ms : List Bool) (h pos : Nat) :
    Shape l.length h pos (build pair d l ms h pos) := by
  induction h generalizing pos with
  | zero => trivial
  | succ h ih =>
    rw [build]
    split
    · split
      · next hwidth => exact ⟨hwidth, ih _, ih _⟩
      · next hwidth => exact ⟨hwidth, ih _⟩
    · rfl

/-- A partial tree that is built has the hash of its node. -/
theorem hash_build {h pos : Nat} (hpos : pos < width l.length h) :
    hash pair (build pair d l ms h pos) = nodeAt pair d l h pos := by
  induction h generalizing pos with
  | zero => rfl
  | succ h ih =>
    rw [build]
    have hsplit := (nodeAt_succ pair d l hpos).2
    rw [width_succ] at hpos
    split
    · split
      · next hwidth =>
        rw [hash, ih (by omega), ih hwidth, hsplit, Nat.min_eq_left (by omega)]
      · next hwidth =>
        have hlast : min (2 * pos + 1) (width l.length h - 1) = 2 * pos := by omega
        rw [hash, ih (by omega), hsplit, hlast]
    · rfl

/-- It marks the selected leaves below its node, in order. -/
theorem marked_build (hms : ms.length = l.length) {h pos : Nat} (hpos : pos < width l.length h) :
    marked (build pair d l ms h pos) = selected (segment l h pos) (segment ms h pos) := by
  induction h generalizing pos with
  | zero =>
    rw [width_zero] at hpos
    have hmark : pos < ms.length := by omega
    rw [build, segment_zero hpos, segment_zero hmark, marked, nodeAt, level,
      List.getD_eq_getElem _ _ hpos]
    cases ms[pos] with
    | false => rfl
    | true => rfl
  | succ h ih =>
    have hparent := hpos
    rw [width_succ] at hpos
    rw [build]
    split
    · rw [segment_succ l, segment_succ ms, selected_append (length_segment hms h _)]
      split
      · next hwidth => rw [marked, ih (by omega), ih hwidth]
      · next hwidth =>
        rw [segment_eq_nil hwidth, marked, ih (by omega)]
        exact (List.append_nil _).symm
    · next hnone =>
      rw [selected_eq_nil (by simpa using hnone)]
      rfl

/-- A partial tree that is built has no more hashes than there are leaves below its node. -/
theorem length_hashes_build {h pos : Nat} (hpos : pos < width l.length h) :
    (hashes (build pair d l ms h pos)).length ≤ (segment l h pos).length := by
  induction h generalizing pos with
  | zero =>
    rw [width_zero] at hpos
    rw [segment_zero hpos]
    exact le_rfl
  | succ h ih =>
    have hone : 1 ≤ (segment l (h + 1) pos).length := by
      have hpow := Nat.two_pow_pos (h + 1)
      rw [width, ← Nat.succ_le_iff, Nat.le_div_iff_mul_le hpow, Nat.succ_mul] at hpos
      simp only [segment, List.length_take, List.length_drop]
      omega
    rw [width_succ] at hpos
    rw [build]
    split
    · rw [segment_succ, List.length_append]
      split
      · next hwidth =>
        have hleft := ih (show 2 * pos < _ by omega)
        have hright := ih hwidth
        rw [hashes, List.length_append]
        omega
      · have hleft := ih (show 2 * pos < _ by omega)
        rw [hashes]
        omega
    · exact hone

/-! ### Marked nodes -/

theorem marks_lt {n h pos : Nat} {t : PartialTree α} (ht : Shape n h pos t) :
    ∀ o ∈ marks h t, o < 2 ^ h := by
  induction t generalizing h pos with
  | stored b a =>
    intro o ho
    rw [marks] at ho
    split at ho
    · rw [List.mem_singleton.mp ho]
      exact Nat.two_pow_pos h
    · cases ho
  | node l r ihl ihr =>
    cases h with
    | zero => cases ht
    | succ h =>
      obtain ⟨-, hl, hr⟩ := ht
      have hsize : 2 ^ (h + 1) = 2 ^ h + 2 ^ h := by omega
      intro o ho
      rw [marks, List.mem_append, List.mem_map, Nat.add_sub_cancel] at ho
      rcases ho with ho | ⟨o', ho', rfl⟩
      · have := ihl hl o ho
        omega
      · have := ihr hr o' ho'
        omega
  | twin l ihl =>
    cases h with
    | zero => cases ht
    | succ h =>
      intro o ho
      have := ihl ht.2 o ho
      rw [Nat.pow_succ]
      omega

/-- The marked leaves come in order. -/
theorem pairwise_marks {n h pos : Nat} {t : PartialTree α} (ht : Shape n h pos t) :
    (marks h t).Pairwise (· < ·) := by
  induction t generalizing h pos with
  | stored b a =>
    rw [marks]
    split
    · exact List.pairwise_singleton _ _
    · exact List.Pairwise.nil
  | node l r ihl ihr =>
    cases h with
    | zero => cases ht
    | succ h =>
      obtain ⟨-, hl, hr⟩ := ht
      rw [marks, Nat.add_sub_cancel, List.pairwise_append, List.pairwise_map]
      refine ⟨ihl hl, (ihr hr).imp fun hlt ↦ Nat.add_lt_add_left hlt _, fun o ho o' ho' ↦ ?_⟩
      obtain ⟨x, -, rfl⟩ := List.mem_map.mp ho'
      have := marks_lt hl o ho
      omega
  | twin l ihl =>
    cases h with
    | zero => cases ht
    | succ h => exact ihl ht.2

/-- The node of a tree over `n` leaves that a leaf of a partial tree stands for: `h` levels below
the node at position `q`, in level `j`, where the last node of a level is also its own right
neighbour. -/
def source (n j : Nat) : Nat → Nat → Nat → Nat
  | 0, q, _ => q
  | h + 1, q, o => source n j h (min (2 * q + o / 2 ^ h) (width n (h + j) - 1)) (o % 2 ^ h)

theorem source_left {n j h q o : Nat} (hq : q < width n (h + j + 1)) (ho : o < 2 ^ h) :
    source n j (h + 1) q o = source n j h (2 * q) o := by
  rw [width_succ] at hq
  have hpos : min (2 * q + 0) (width n (h + j) - 1) = 2 * q := by omega
  rw [source, Nat.div_eq_of_lt ho, Nat.mod_eq_of_lt ho, hpos]

theorem source_right {n j h q o : Nat} (ho : o < 2 ^ h) :
    source n j (h + 1) q (2 ^ h + o) =
      source n j h (min (2 * q + 1) (width n (h + j) - 1)) o := by
  have hdiv : (2 ^ h + o) / 2 ^ h = 1 := by
    rw [Nat.add_div_left _ (Nat.two_pow_pos h), Nat.div_eq_of_lt ho]
  rw [source, hdiv, Nat.add_mod_left, Nat.mod_eq_of_lt ho]

theorem source_lt {n j h q o : Nat} (hn : 0 < n) (hq : q < width n (h + j)) :
    source n j h q o < width n j := by
  induction h generalizing q o with
  | zero => rwa [Nat.zero_add] at hq
  | succ h ih =>
    apply ih
    have := width_pos hn (h + j)
    omega

/-- In a partial tree over as many leaves, every leaf stands for itself. -/
theorem source_self {n h pos : Nat} {t : PartialTree α} (ht : Shape n h pos t)
    (hpos : pos < width n h) : ∀ o ∈ marks h t, source n 0 h pos o = pos * 2 ^ h + o := by
  induction t generalizing h pos with
  | stored b a =>
    intro o ho
    rw [marks] at ho
    split at ho
    · next hb =>
      cases h with
      | zero =>
        rw [List.mem_singleton.mp ho]
        simp [source]
      | succ h =>
        rw [show b = false from ht] at hb
        cases hb
    · cases ho
  | node l r ihl ihr =>
    cases h with
    | zero => cases ht
    | succ h =>
      obtain ⟨hwidth, hl, hr⟩ := ht
      have hchild := hpos
      rw [width_succ] at hchild
      have hscale : pos * 2 ^ (h + 1) = 2 * pos * 2 ^ h := by
        rw [Nat.pow_succ]
        ring
      intro o ho
      rw [marks, List.mem_append, List.mem_map, Nat.add_sub_cancel] at ho
      rcases ho with ho | ⟨o', ho', rfl⟩
      · rw [source_left (by simpa using hpos) (marks_lt hl o ho), ihl hl (by omega) o ho, hscale]
      · have hright : min (2 * pos + 1) (width n (h + 0) - 1) = 2 * pos + 1 := by
          change min (2 * pos + 1) (width n h - 1) = 2 * pos + 1
          omega
        rw [source_right (marks_lt hr o' ho'), hright, ihr hr hwidth o' ho', hscale]
        ring
  | twin l ihl =>
    cases h with
    | zero => cases ht
    | succ h =>
      have hchild := hpos
      rw [width_succ] at hchild
      have hscale : pos * 2 ^ (h + 1) = 2 * pos * 2 ^ h := by
        rw [Nat.pow_succ]
        ring
      intro o ho
      have ho' : o ∈ marks h l := ho
      rw [source_left (by simpa using hpos) (marks_lt ht.2 o ho'), ihl ht.2 (by omega) o ho', hscale]

/-! ### Soundness -/

section Sound

variable {pair d} {S : Set (α × α)}

/-- A partial tree with the hash of a node of the tree over `l` marks the nodes its leaves stand
for. -/
theorem marked_eq (hinj : Set.InjOn (fun p : α × α ↦ pair p.1 p.2) S) (hl : Joined pair l ⊆ S)
    {m h j pos q : Nat} {t : PartialTree α} (ht : Shape m h pos t) (hS : ∀ p ∈ joined pair t, p ∈ S)
    (hheight : h + j ≤ height l) (hq : q < width l.length (h + j))
    (hhash : hash pair t = nodeAt pair d l (h + j) q) :
    marked t = (marks h t).map fun o ↦ nodeAt pair d l j (source l.length j h q o) := by
  induction t generalizing h pos q with
  | stored b a =>
    cases h with
    | zero =>
      rw [Nat.zero_add] at hhash
      cases b with
      | false => rfl
      | true =>
        rw [marks, if_pos rfl, marked, if_pos rfl, List.map_singleton, source, ← hhash]
        rfl
    | succ h =>
      obtain rfl : b = false := ht
      rfl
  | node t₁ t₂ ih₁ ih₂ =>
    cases h with
    | zero => cases ht
    | succ h =>
      obtain ⟨-, ht₁, ht₂⟩ := ht
      have hsucc : h + 1 + j = h + j + 1 := by omega
      rw [hsucc] at hheight hq hhash
      obtain ⟨hmem, hnode⟩ := nodeAt_succ pair d l hq
      simp only [joined, List.forall_mem_cons, List.forall_mem_append] at hS
      obtain ⟨htop, hS₁, hS₂⟩ := hS
      rw [hnode] at hhash
      obtain ⟨hleft, hright⟩ := Prod.mk.inj (hinj htop (hl ⟨h + j, hheight, hmem⟩) hhash)
      have hwidth := hq
      rw [width_succ] at hwidth
      rw [marked, ih₁ ht₁ hS₁ (by omega) (by omega) hleft,
        ih₂ ht₂ hS₂ (by omega) (by omega) hright, marks, Nat.add_sub_cancel, List.map_append,
        List.map_map]
      congr 1
      · refine List.map_congr_left fun o ho ↦ ?_
        rw [source_left hq (marks_lt ht₁ o ho)]
      · refine List.map_congr_left fun o ho ↦ ?_
        rw [Function.comp_apply, source_right (marks_lt ht₂ o ho)]
  | twin t₁ ih₁ =>
    cases h with
    | zero => cases ht
    | succ h =>
      have hsucc : h + 1 + j = h + j + 1 := by omega
      rw [hsucc] at hheight hq hhash
      obtain ⟨hmem, hnode⟩ := nodeAt_succ pair d l hq
      obtain ⟨htop, hS₁⟩ := List.forall_mem_cons.mp hS
      rw [hnode] at hhash
      obtain ⟨hleft, -⟩ := Prod.mk.inj (hinj htop (hl ⟨h + j, hheight, hmem⟩) hhash)
      have hwidth := hq
      rw [width_succ] at hwidth
      rw [marked, ih₁ ht.2 hS₁ (by omega) (by omega) hleft]
      refine List.map_congr_left fun o ho ↦ ?_
      rw [source_left hq (marks_lt ht.2 o ho)]

/-- A partial tree that is higher than the node whose hash it has marks nothing: a leaf would be
opened. -/
theorem marks_eq_nil (hinj : Set.InjOn (fun p : α × α ↦ pair p.1 p.2) S) (hl : Joined pair l ⊆ S)
    (hleaf : ∀ a ∈ l, ∀ p ∈ S, a ≠ pair p.1 p.2) {m h k pos q : Nat} {t : PartialTree α}
    (ht : Shape m h pos t) (hS : ∀ p ∈ joined pair t, p ∈ S) (hkh : k < h) (hheight : k ≤ height l)
    (hq : q < width l.length k) (hhash : hash pair t = nodeAt pair d l k q) :
    marked t = [] ∧ marks h t = [] := by
  induction t generalizing h k pos q with
  | stored b a =>
    cases h with
    | zero => omega
    | succ h =>
      obtain rfl : b = false := ht
      exact ⟨rfl, rfl⟩
  | node t₁ t₂ ih₁ ih₂ =>
    cases h with
    | zero => cases ht
    | succ h =>
      obtain ⟨-, ht₁, ht₂⟩ := ht
      simp only [joined, List.forall_mem_cons, List.forall_mem_append] at hS
      obtain ⟨htop, hS₁, hS₂⟩ := hS
      cases k with
      | zero =>
        rw [width_zero] at hq
        rw [nodeAt, level, List.getD_eq_getElem _ _ hq] at hhash
        exact absurd hhash.symm (hleaf _ (List.getElem_mem hq) _ htop)
      | succ k =>
        obtain ⟨hmem, hnode⟩ := nodeAt_succ pair d l hq
        rw [hnode] at hhash
        obtain ⟨hleft, hright⟩ := Prod.mk.inj (hinj htop (hl ⟨k, hheight, hmem⟩) hhash)
        rw [width_succ] at hq
        obtain ⟨hmarked₁, hmarks₁⟩ := ih₁ ht₁ hS₁ (by omega) (by omega) (by omega) hleft
        obtain ⟨hmarked₂, hmarks₂⟩ := ih₂ ht₂ hS₂ (by omega) (by omega) (by omega) hright
        rw [marked, marks, Nat.add_sub_cancel, hmarked₁, hmarked₂, hmarks₁, hmarks₂]
        exact ⟨rfl, rfl⟩
  | twin t₁ ih₁ =>
    cases h with
    | zero => cases ht
    | succ h =>
      obtain ⟨htop, hS₁⟩ := List.forall_mem_cons.mp hS
      cases k with
      | zero =>
        rw [width_zero] at hq
        rw [nodeAt, level, List.getD_eq_getElem _ _ hq] at hhash
        exact absurd hhash.symm (hleaf _ (List.getElem_mem hq) _ htop)
      | succ k =>
        obtain ⟨hmem, hnode⟩ := nodeAt_succ pair d l hq
        rw [hnode] at hhash
        obtain ⟨hleft, -⟩ := Prod.mk.inj (hinj htop (hl ⟨k, hheight, hmem⟩) hhash)
        rw [width_succ] at hq
        exact ih₁ ht.2 hS₁ (by omega) (by omega) (by omega) hleft

/-- Over as many leaves, the marked hashes are leaves in order. -/
theorem marked_sublist (hinj : Set.InjOn (fun p : α × α ↦ pair p.1 p.2) S)
    (hl : Joined pair l ⊆ S) (hne : l ≠ []) {t : PartialTree α}
    (ht : Shape l.length (height l) 0 t) (hS : ∀ p ∈ joined pair t, p ∈ S)
    (hroot : hash pair t = root pair d l) : (marked t).Sublist l := by
  have hpos := List.length_pos_iff.mpr hne
  rw [root_eq_nodeAt] at hroot
  rw [marked_eq (j := 0) hinj hl ht hS le_rfl (width_pos hpos _) hroot]
  have hself : ∀ o ∈ marks (height l) t, source l.length 0 (height l) 0 o = o := by
    intro o ho
    rw [source_self ht (width_pos hpos _) o ho, Nat.zero_mul, Nat.zero_add]
  have hrange : (marks (height l) t).Sublist (List.range l.length) := by
    refine List.sublist_of_subperm_of_pairwise (List.subperm_of_subset ?_ ?_)
      (pairwise_marks ht) List.pairwise_lt_range
    · exact (pairwise_marks ht).imp fun hlt ↦ hlt.ne
    · intro o ho
      have hlt := source_lt (j := 0) (o := o) hpos (width_pos hpos (height l + 0))
      rw [hself o ho, width_zero] at hlt
      exact List.mem_range.mpr hlt
  have hall : (List.range l.length).map (nodeAt pair d l 0) = l := by
    refine List.ext_getElem (by simp) fun i hi hi' ↦ ?_
    rw [List.getElem_map, List.getElem_range, nodeAt, level, List.getD_eq_getElem _ _ hi']
  rw [List.map_congr_left fun o ho ↦ by rw [hself o ho]]
  have hmap := hrange.map (nodeAt pair d l 0)
  rwa [hall] at hmap

/-- No hash is marked twice exactly when no two marked leaves stand for one node. -/
theorem nodup_marked_iff (hinj : Set.InjOn (fun p : α × α ↦ pair p.1 p.2) S)
    (hl : Joined pair l ⊆ S) (hleaf : ∀ a ∈ l, ∀ p ∈ S, a ≠ pair p.1 p.2) (hnodup : l.Nodup)
    (hne : l ≠ []) {m h : Nat} {t : PartialTree α} (ht : Shape m h 0 t)
    (hS : ∀ p ∈ joined pair t, p ∈ S) (hroot : hash pair t = root pair d l) :
    (marked t).Nodup ↔ ∀ o ∈ marks h t, ∀ o' ∈ marks h t,
      source l.length (height l - h) h 0 o = source l.length (height l - h) h 0 o' → o = o' := by
  have hpos := List.length_pos_iff.mpr hne
  rw [root_eq_nodeAt] at hroot
  rcases Nat.lt_or_ge (height l) h with hlt | hle
  · obtain ⟨hmarked, hmarks⟩ :=
      marks_eq_nil hinj hl hleaf ht hS hlt le_rfl (width_pos hpos _) hroot
    rw [hmarked, hmarks]
    simp
  · have hsum : h + (height l - h) = height l := by omega
    rw [← hsum] at hroot
    rw [marked_eq hinj hl ht hS hsum.le (width_pos hpos _) hroot,
      List.nodup_map_iff_inj_on ((pairwise_marks ht).imp fun hlt ↦ hlt.ne)]
    -- the nodes of a level are distinct, so only their positions count
    have hlevel := nodup_level hinj hl hnodup (k := height l - h) (by omega)
    have hlength : ∀ o, source l.length (height l - h) h 0 o <
        (level pair l (height l - h)).length := by
      intro o
      rw [length_level]
      exact source_lt hpos (width_pos hpos _)
    have hnode : ∀ o o', nodeAt pair d l (height l - h) (source l.length (height l - h) h 0 o) =
        nodeAt pair d l (height l - h) (source l.length (height l - h) h 0 o') ↔
          source l.length (height l - h) h 0 o = source l.length (height l - h) h 0 o' := by
      intro o o'
      rw [nodeAt, nodeAt, List.getD_eq_getElem _ _ (hlength o), List.getD_eq_getElem _ _ (hlength o')]
      exact hlevel.getElem_inj_iff
    simp only [hnode]

end Sound

end PartialTree

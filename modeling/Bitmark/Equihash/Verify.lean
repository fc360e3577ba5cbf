import Bitmark.Equihash.Expand
import Bitmark.Lib.Tournament

/-!
# The Equihash verifier

`Equihash<N,K>::IsValidSolution` (`src/equihash.cpp:701–744`) joins rows of hash bytes and index
bytes in pairs, level by level. It is compared with the definition of a solution over the tree of
its indices.
-/

namespace Bitmark

open Pieces

/-- The parameters of `Equihash<N,K>`. -/
structure Equihash where
  N : ℕ
  K : ℕ
deriving DecidableEq

namespace Equihash

/-- The parameters that the code instantiates, `src/equihash.cpp:746–785`. -/
def instantiated : List Equihash := [⟨96, 3⟩, ⟨200, 9⟩, ⟨96, 5⟩, ⟨48, 5⟩]

variable (p : Equihash)

/-! ### Constants of `src/equihash.h:172–181` -/

def indicesPerHashOutput : ℕ := 512 / p.N
def hashOutput : ℕ := p.indicesPerHashOutput * p.N / 8
def collisionBitLength : ℕ := p.N / (p.K + 1)
def collisionByteLength : ℕ := (p.collisionBitLength + 7) / 8
def hashLength : ℕ := (p.K + 1) * p.collisionByteLength
def finalFullWidth : ℕ := 2 * p.collisionByteLength + 4 * 2 ^ p.K
def solutionWidth : ℕ := 2 ^ p.K * (p.collisionBitLength + 1) / 8

/-- `eh_HashState` after the header: the digest that `GenerateHash` makes for each index of a
digest. -/
structure HashState where
  generateHash : ℕ → Bytes
  length_generateHash : ∀ g, (generateHash g).length = p.hashOutput

/-! ### Rows -/

variable {p} in
/-- The part of a digest that belongs to an index. -/
def HashState.hashOf (base : p.HashState) (i : ℕ) : Bytes :=
  ((base.generateHash (i / p.indicesPerHashOutput)).drop
    (i % p.indicesPerHashOutput * p.N / 8)).take (p.N / 8)

/-- The constructor of `FullStepRow` from a hash and its index. -/
def leafRow (base : p.HashState) (i : ℕ) : Bytes :=
  expandArray (base.hashOf i) p.collisionBitLength 0 ++ beBytes 4 i

/-- `HasCollision`. -/
def hasCollision (a b : Bytes) (l : ℕ) : Bool := a.take l = b.take l

/-- `FullStepRow::IndicesBefore`, by `memcmp`. -/
def indicesBefore (a b : Bytes) (len lenIndices : ℕ) : Bool :=
  decide ((a.drop len).take lenIndices < (b.drop len).take lenIndices)

/-- `DistinctIndices`. -/
def distinctIndices (a b : Bytes) (len lenIndices : ℕ) : Bool :=
  (List.range ((lenIndices + 3) / 4)).all fun i ↦ (List.range ((lenIndices + 3) / 4)).all fun j ↦
    (a.drop (len + 4 * i)).take 4 ≠ (b.drop (len + 4 * j)).take 4

/-- The constructor of `FullStepRow` from two rows: the exclusive or of their hashes behind the
trimmed bytes, and their indices in order. Rows have here the bytes that are used of their width
`FinalFullWidth`; that these fit, which the constructors assert, is `Fits.row_le`. -/
def mergeRows (a b : Bytes) (len lenIndices trim : ℕ) : Bytes :=
  let indicesA := (a.drop len).take lenIndices
  let indicesB := (b.drop len).take lenIndices
  List.zipWith (· ^^^ ·) ((a.take len).drop trim) ((b.take len).drop trim) ++
    if indicesBefore a b len lenIndices then indicesA ++ indicesB else indicesB ++ indicesA

/-- `StepRow::IsZero`. -/
def isZero (a : Bytes) (len : ℕ) : Bool := (a.take len).all (· = 0)

/-! ### `IsValidSolution` -/

/-- The checks of a pair of rows, and the row they become. -/
def joinRows (hashLen lenIndices : ℕ) (a b : Bytes) : Option Bytes :=
  if !hasCollision a b p.collisionByteLength then none
  else if indicesBefore b a hashLen lenIndices then none
  else if !distinctIndices a b hashLen lenIndices then none
  else some (mergeRows a b hashLen lenIndices p.collisionByteLength)

/-- The loop over the levels: the last row and the length of its hash. -/
def solutionLoop (X : List Bytes) (hashLen lenIndices : ℕ) : Option (Bytes × ℕ) :=
  if hsize : 1 < X.length then
    match h : Tournament.round (p.joinRows hashLen lenIndices) X with
    | none => none
    | some Xc => solutionLoop Xc (hashLen - p.collisionByteLength) (lenIndices * 2)
  else X.head?.map fun row ↦ (row, hashLen)
termination_by X.length
decreasing_by
  have := Tournament.length_round h
  omega

variable {p} in
/-- `IsValidSolution`. -/
def HashState.isValidSolution (base : p.HashState) (soln : Bytes) : Bool :=
  if soln.length ≠ p.solutionWidth then false
  else
    let X := (getIndicesFromMinimal soln p.collisionBitLength).map (p.leafRow base)
    match p.solutionLoop X p.hashLength 4 with
    | none => false
    | some (row, hashLen) => isZero row hashLen

/-! ### The definition -/

/-- The `j`th collision segment of a number of `N` bits. -/
def segment (j x : ℕ) : ℕ :=
  x / 2 ^ (p.collisionBitLength * (p.K + 1 - j - 1)) % 2 ^ p.collisionBitLength

namespace HashState

variable {p} (base : p.HashState)

/-- The hash of an index as a number. -/
def hashValue (i : ℕ) : ℕ := beNat (base.hashOf i)

/-- The exclusive or of the hashes of some indices. -/
def xorHash (is : List ℕ) : ℕ := is.foldr (fun i x ↦ base.hashValue i ^^^ x) 0

/-- At every inner node of the tree over `2 ^ r` indices the left ones come before the right ones by
the first index, and at height `r` the first `r` collision segments of the exclusive or of the
hashes are zero. -/
def TreeValid : ℕ → List ℕ → Prop
  | 0, _ => True
  | r + 1, is =>
    TreeValid r (is.take (2 ^ r)) ∧ TreeValid r (is.drop (2 ^ r)) ∧
      (is.take (2 ^ r)).headD 0 < (is.drop (2 ^ r)).headD 0 ∧
      ∀ j < r + 1, p.segment j (base.xorHash is) = 0

/-- The definition of a solution. -/
structure IsSolution (is : List ℕ) : Prop where
  distinct : is.Nodup
  tree : base.TreeValid p.K is
  zero : base.xorHash is = 0

end HashState

/-! ### The instantiated parameters -/

/-- What the proofs need of the parameters: nothing is lost where lengths are divided. -/
structure Fits : Prop where
  bits : p.N = p.collisionBitLength * (p.K + 1)
  bytes : 8 * (p.N / 8) = p.N
  low : 8 ≤ p.collisionBitLength
  high : p.collisionBitLength + 1 ≤ 25
  solution : 8 * p.solutionWidth = (p.collisionBitLength + 1) * 2 ^ p.K
  digest : 0 < p.indicesPerHashOutput ∧ ∀ r < p.indicesPerHashOutput,
    r * p.N / 8 + p.N / 8 ≤ p.hashOutput

theorem fits_of_instantiated {p : Equihash} (h : p ∈ instantiated) : p.Fits := by
  simp only [instantiated, List.mem_cons, List.not_mem_nil, or_false] at h
  rcases h with rfl | rfl | rfl | rfl
  all_goals exact ⟨by decide, by decide, by decide, by decide, by decide, by decide⟩

variable {p} {base : p.HashState}

theorem Fits.length_hashOf (h : p.Fits) (base : p.HashState) (i : ℕ) :
    (base.hashOf i).length = p.N / 8 := by
  have hslice := h.digest.2 (i % p.indicesPerHashOutput) (Nat.mod_lt i h.digest.1)
  rw [HashState.hashOf, List.length_take, List.length_drop, base.length_generateHash]
  omega

theorem Fits.hashValue_lt (h : p.Fits) (base : p.HashState) (i : ℕ) :
    base.hashValue i < 2 ^ (p.collisionBitLength * (p.K + 1)) := by
  have hlt := beNat_lt (base.hashOf i)
  rw [h.length_hashOf, h.bytes] at hlt
  exact hlt.trans_eq (congrArg (2 ^ ·) h.bits)

/-- A row of a level fits into its width, and so does the one that it becomes a part of. -/
theorem Fits.row_le (h : p.Fits) {r : ℕ} (hr : r ≤ p.K) :
    p.hashLength - r * p.collisionByteLength + 4 * 2 ^ r ≤ p.finalFullWidth := by
  obtain ⟨d, hd⟩ := Nat.exists_eq_add_of_le hr
  have hbytes : p.collisionByteLength ≤ 4 := by
    have hhigh := h.high
    unfold collisionByteLength
    omega
  have hhash : p.hashLength - r * p.collisionByteLength = (d + 1) * p.collisionByteLength := by
    rw [hashLength, ← Nat.sub_mul, hd, Nat.add_assoc, Nat.add_sub_cancel_left]
  have hgrows : 2 ^ r + d ≤ 2 ^ p.K := by
    calc 2 ^ r + d ≤ 2 ^ r + 2 ^ r * d :=
          Nat.add_le_add_left (Nat.le_mul_of_pos_left d (Nat.two_pow_pos r)) _
      _ = 2 ^ r * (d + 1) := by ring
      _ ≤ 2 ^ r * 2 ^ d := Nat.mul_le_mul_left _ Nat.lt_two_pow_self
      _ = 2 ^ p.K := by rw [hd, Nat.pow_add]
  have hlevels : d * p.collisionByteLength ≤ d * 4 := Nat.mul_le_mul_left d hbytes
  rw [hhash, finalFullWidth, Nat.succ_mul]
  omega

/-! ### Segments of an exclusive or -/

namespace HashState

theorem xorHash_append (base : p.HashState) (is js : List ℕ) :
    base.xorHash (is ++ js) = base.xorHash is ^^^ base.xorHash js := by
  induction is with
  | nil => exact (Nat.zero_xor _).symm
  | cons i is ih =>
    change base.hashValue i ^^^ base.xorHash (is ++ js) = _
    rw [ih, ← Nat.xor_assoc]
    rfl

theorem xorHash_singleton (base : p.HashState) (i : ℕ) : base.xorHash [i] = base.hashValue i :=
  Nat.xor_zero _

end HashState

theorem Fits.xorHash_lt (h : p.Fits) (base : p.HashState) (is : List ℕ) :
    base.xorHash is < 2 ^ (p.collisionBitLength * (p.K + 1)) := by
  induction is with
  | nil => exact Nat.two_pow_pos _
  | cons i is ih => exact Nat.xor_lt_two_pow (h.hashValue_lt base i) ih

variable (p) in
theorem segment_xor (j x y : ℕ) : p.segment j (x ^^^ y) = p.segment j x ^^^ p.segment j y := by
  rw [segment, Nat.xor_div_two_pow, Nat.xor_mod_two_pow]
  rfl

variable (p) in
theorem segment_lt (j x : ℕ) : p.segment j x < 2 ^ p.collisionBitLength :=
  Nat.mod_lt _ (Nat.two_pow_pos _)

/-- A segment fits into its bytes. -/
theorem segment_lt_bytes (j x : ℕ) : p.segment j x < 2 ^ (8 * p.collisionByteLength) := by
  refine (p.segment_lt j x).trans_le (Nat.pow_le_pow_right (by omega) ?_)
  rw [collisionByteLength]
  omega

/-- A number is zero when its segments are. -/
theorem segments_eq_zero_iff {x : ℕ} (h : x < 2 ^ (p.collisionBitLength * (p.K + 1))) :
    (∀ j < p.K + 1, p.segment j x = 0) ↔ x = 0 := by
  rw [← pieces_eq_zero_iff h, pieces_eq_map, List.forall_mem_map]
  simp only [List.mem_range]
  rfl

/-! ### What a row holds -/

variable (p) in
/-- The hash bytes of a row whose first `r` segments are trimmed. -/
def rowHash (r x : ℕ) : Bytes :=
  (List.range' r (p.K + 1 - r)).flatMap fun j ↦ beBytes p.collisionByteLength (p.segment j x)

/-- The row of `2 ^ r` indices. -/
def HashState.row (base : p.HashState) (r : ℕ) (is : List ℕ) : Bytes :=
  p.rowHash r (base.xorHash is) ++ is.flatMap (beBytes 4)

theorem rowHash_eq_append {r : ℕ} (h : r < p.K + 1) (x : ℕ) :
    p.rowHash r x = beBytes p.collisionByteLength (p.segment r x) ++ p.rowHash (r + 1) x := by
  have hcount : p.K + 1 - r = p.K + 1 - (r + 1) + 1 := by omega
  rw [rowHash, hcount, List.range'_succ, List.flatMap_cons]
  rfl

theorem length_rowHash (r x : ℕ) :
    (p.rowHash r x).length = p.collisionByteLength * (p.K + 1 - r) := by
  rw [rowHash, length_flatMap_of_const fun j ↦ length_beBytes _ _, List.length_range']

theorem rowHash_xor (r x y : ℕ) :
    p.rowHash r (x ^^^ y) = List.zipWith (· ^^^ ·) (p.rowHash r x) (p.rowHash r y) := by
  unfold rowHash
  induction List.range' r (p.K + 1 - r) with
  | nil => rfl
  | cons j js ih =>
    rw [List.flatMap_cons, List.flatMap_cons, List.flatMap_cons,
      List.zipWith_append (by rw [length_beBytes, length_beBytes]), ← ih, segment_xor, beBytes_xor]

/-- The row of one index. -/
theorem Fits.leafRow_eq (h : p.Fits) (base : p.HashState) (i : ℕ) :
    p.leafRow base i = base.row 0 [i] := by
  have hbits : 8 * (base.hashOf i).length = p.collisionBitLength * (p.K + 1) := by
    rw [h.length_hashOf, h.bytes]
    exact h.bits
  rw [leafRow, expandArray_eq h.low (by have := h.high; omega) hbits, pieces_eq_map,
    HashState.row, base.xorHash_singleton, rowHash, List.flatMap_map, Nat.sub_zero,
    List.range_eq_range', List.flatMap_singleton]
  rfl

/-! ### The checks on rows -/

section Rows

variable {r : ℕ} {is js : List ℕ}

theorem take_row (base : p.HashState) (r : ℕ) (is : List ℕ) :
    (base.row r is).take (p.collisionByteLength * (p.K + 1 - r)) = p.rowHash r (base.xorHash is) :=
  List.take_left' (length_rowHash _ _)

theorem drop_row (base : p.HashState) (r : ℕ) (is : List ℕ) :
    (base.row r is).drop (p.collisionByteLength * (p.K + 1 - r)) = is.flatMap (beBytes 4) :=
  List.drop_left' (length_rowHash _ _)

theorem indices_row (base : p.HashState) (r : ℕ) {n : ℕ} (hlength : is.length = n) :
    ((base.row r is).drop (p.collisionByteLength * (p.K + 1 - r))).take (4 * n) =
      is.flatMap (beBytes 4) := by
  rw [drop_row, List.take_of_length_le]
  rw [length_flatMap_of_const fun i ↦ length_beBytes 4 i, hlength]

theorem hasCollision_row (base : p.HashState) (is js : List ℕ) (hr : r < p.K + 1) :
    hasCollision (base.row r is) (base.row r js) p.collisionByteLength = true ↔
      p.segment r (base.xorHash is) = p.segment r (base.xorHash js) := by
  have htake : ∀ ks, (base.row r ks).take p.collisionByteLength =
      beBytes p.collisionByteLength (p.segment r (base.xorHash ks)) := by
    intro ks
    rw [HashState.row, rowHash_eq_append hr, List.append_assoc,
      List.take_left' (length_beBytes _ _)]
  rw [hasCollision, decide_eq_true_eq, htake, htake,
    beBytes_inj (segment_lt_bytes r _) (segment_lt_bytes r _)]

/-- Index lists with different first elements are ordered by them. -/
theorem indices_lt_iff {i j : ℕ} (hi : i < 2 ^ 32) (hj : j < 2 ^ 32) (hne : i ≠ j)
    (is js : List ℕ) :
    (i :: is).flatMap (beBytes 4) < (j :: js).flatMap (beBytes 4) ↔ i < j := by
  rw [List.flatMap_cons, List.flatMap_cons]
  exact beBytes_append_lt hi hj hne _ _

theorem indicesBefore_row {n : ℕ} (his : is.length = n) (hjs : js.length = n) :
    indicesBefore (base.row r is) (base.row r js) (p.collisionByteLength * (p.K + 1 - r)) (4 * n) =
      decide (is.flatMap (beBytes 4) < js.flatMap (beBytes 4)) := by
  rw [indicesBefore, indices_row base r his, indices_row base r hjs]

theorem distinctIndices_row (base : p.HashState) (r : ℕ) {n : ℕ} (his : is.length = n)
    (hjs : js.length = n) (hislt : ∀ i ∈ is, i < 2 ^ 32) (hjslt : ∀ j ∈ js, j < 2 ^ 32) :
    distinctIndices (base.row r is) (base.row r js) (p.collisionByteLength * (p.K + 1 - r))
      (4 * n) = true ↔ is.Disjoint js := by
  have hindex : ∀ ks : List ℕ, ∀ i (hi : i < ks.length),
      ((base.row r ks).drop (p.collisionByteLength * (p.K + 1 - r) + 4 * i)).take 4 =
        beBytes 4 ks[i] := by
    intro ks i hi
    rw [← List.drop_drop, drop_row, take_drop_flatMap (length_beBytes 4) hi]
  have hcount : (4 * n + 3) / 4 = n := by omega
  rw [distinctIndices, hcount]
  simp only [List.all_eq_true, List.mem_range, decide_eq_true_eq]
  constructor
  · intro h k hkis hkjs
    obtain ⟨i, hi, rfl⟩ := List.mem_iff_getElem.mp hkis
    obtain ⟨j, hj, heq⟩ := List.mem_iff_getElem.mp hkjs
    apply h i (his ▸ hi) j (hjs ▸ hj)
    rw [hindex is i hi, hindex js j hj, heq]
  · intro h i hi j hj heq
    subst his
    rw [← hjs] at hj
    rw [hindex is i hi, hindex js j hj,
      beBytes_inj (hislt _ (List.getElem_mem hi)) (hjslt _ (List.getElem_mem hj))] at heq
    exact h (List.getElem_mem hi) (heq ▸ List.getElem_mem hj)

theorem mergeRows_row (hr : r < p.K + 1) {n : ℕ} (his : is.length = n) (hjs : js.length = n)
    (hlt : is.flatMap (beBytes 4) < js.flatMap (beBytes 4)) :
    mergeRows (base.row r is) (base.row r js) (p.collisionByteLength * (p.K + 1 - r)) (4 * n)
      p.collisionByteLength = base.row (r + 1) (is ++ js) := by
  have htrim : ∀ x, (p.rowHash r x).drop p.collisionByteLength = p.rowHash (r + 1) x := by
    intro x
    rw [rowHash_eq_append hr, List.drop_left' (length_beBytes _ _)]
  rw [mergeRows, take_row, take_row, htrim, htrim, ← rowHash_xor, ← base.xorHash_append,
    indicesBefore_row his hjs, decide_eq_true hlt, if_pos rfl, indices_row base r his,
    indices_row base r hjs, ← List.flatMap_append]
  rfl

/-- A pair of rows is joined when the next segments agree, the first indices are in order and no
index is on both sides. -/
theorem joinRows_row (hr : r < p.K + 1) {n : ℕ} (hn : 0 < n) (his : is.length = n)
    (hjs : js.length = n) (hislt : ∀ i ∈ is, i < 2 ^ 32) (hjslt : ∀ j ∈ js, j < 2 ^ 32)
    {row : Bytes} :
    p.joinRows (p.collisionByteLength * (p.K + 1 - r)) (4 * n) (base.row r is) (base.row r js) =
      some row ↔
    (p.segment r (base.xorHash is) = p.segment r (base.xorHash js) ∧
      is.headD 0 < js.headD 0 ∧ is.Disjoint js) ∧ row = base.row (r + 1) (is ++ js) := by
  obtain ⟨m, rfl⟩ := Nat.exists_eq_succ_of_ne_zero hn.ne'
  obtain ⟨i, is, rfl⟩ := List.exists_cons_of_length_eq_add_one his
  obtain ⟨j, js, rfl⟩ := List.exists_cons_of_length_eq_add_one hjs
  have hi := hislt i List.mem_cons_self
  have hj := hjslt j List.mem_cons_self
  have hne : (i :: is).Disjoint (j :: js) → i ≠ j := by
    rintro h rfl
    exact h List.mem_cons_self List.mem_cons_self
  have hcollision := hasCollision_row base (i :: is) (j :: js) hr
  have hdistinct := distinctIndices_row base r his hjs hislt hjslt
  rw [joinRows, indicesBefore_row hjs his]
  split
  case isTrue hno =>
    refine iff_of_false (fun h ↦ by cases h) fun h ↦ ?_
    rw [hcollision.mpr h.1.1] at hno
    cases hno
  case isFalse hyes =>
    rw [Bool.not_eq_true', Bool.not_eq_false, hcollision] at hyes
    split
    case isTrue hbefore =>
      refine iff_of_false (fun h ↦ by cases h) fun h ↦ ?_
      rw [decide_eq_true_eq, indices_lt_iff hj hi (hne h.1.2.2).symm] at hbefore
      exact absurd h.1.2.1 (Nat.not_lt_of_lt hbefore)
    case isFalse hnotBefore =>
      rw [decide_eq_true_eq] at hnotBefore
      split
      case isTrue hshared =>
        refine iff_of_false (fun h ↦ by cases h) fun h ↦ ?_
        rw [hdistinct.mpr h.1.2.2] at hshared
        cases hshared
      case isFalse hdisjoint =>
        rw [Bool.not_eq_true', Bool.not_eq_false, hdistinct] at hdisjoint
        have horder : i < j := by
          rw [indices_lt_iff hj hi (hne hdisjoint).symm] at hnotBefore
          exact lt_of_le_of_ne (Nat.not_lt.mp hnotBefore) (hne hdisjoint)
        rw [mergeRows_row hr his hjs ((indices_lt_iff hi hj (hne hdisjoint) is js).mpr horder),
          Option.some.injEq, eq_comm]
        exact (and_iff_right ⟨hyes, horder, hdisjoint⟩).symm

end Rows

/-! ### All levels -/

namespace HashState

/-- The first segments of a valid tree are zero. -/
theorem TreeValid.segments {r : ℕ} {is : List ℕ} (h : base.TreeValid r is) :
    ∀ j < r, p.segment j (base.xorHash is) = 0 := by
  cases r with
  | zero => exact fun j hj ↦ absurd hj (Nat.not_lt_zero j)
  | succ r => exact h.2.2.2

/-- What joining two valid trees adds. -/
theorem treeValid_append {r : ℕ} {is js : List ℕ} (his : is.length = 2 ^ r) :
    base.TreeValid (r + 1) (is ++ js) ↔ base.TreeValid r is ∧ base.TreeValid r js ∧
      is.headD 0 < js.headD 0 ∧
      p.segment r (base.xorHash is) = p.segment r (base.xorHash js) := by
  rw [TreeValid, List.take_left' his, List.drop_left' his]
  constructor
  · rintro ⟨hleft, hright, horder, hzero⟩
    refine ⟨hleft, hright, horder, ?_⟩
    have hlast := hzero r (Nat.lt_succ_self r)
    rw [base.xorHash_append, segment_xor, Nat.xor_eq_zero_iff] at hlast
    exact hlast
  · rintro ⟨hleft, hright, horder, hequal⟩
    refine ⟨hleft, hright, horder, ?_⟩
    intro j hj
    rw [base.xorHash_append, segment_xor, Nat.xor_eq_zero_iff]
    rcases Nat.lt_succ_iff_lt_or_eq.mp hj with hj | rfl
    · rw [hleft.segments j hj, hright.segments j hj]
    · exact hequal

end HashState

variable (p) in
/-- The checks at height `r`. -/
def joinAt (r : ℕ) : Bytes → Bytes → Option Bytes :=
  p.joinRows (p.collisionByteLength * (p.K + 1 - r)) (4 * 2 ^ r)

/-- The rows over a tree of indices come down to one row when the indices are distinct and the tree
is valid. -/
theorem Fits.tree_eq_some (h : p.Fits) {r : ℕ} (hr : r ≤ p.K) {is : List ℕ}
    (hlength : is.length = 2 ^ r) (hlt : ∀ i ∈ is, i < 2 ^ 32) {row : Bytes} :
    Tournament.tree p.joinAt r (is.map (p.leafRow base)) = some row ↔
      (is.Nodup ∧ base.TreeValid r is) ∧ row = base.row r is := by
  induction r generalizing is row with
  | zero =>
    obtain ⟨i, rfl⟩ := List.length_eq_one_iff.mp hlength
    rw [Tournament.tree, List.map_singleton, h.leafRow_eq, List.head?_cons, Option.some.injEq,
      eq_comm]
    exact (and_iff_right ⟨List.nodup_singleton i, trivial⟩).symm
  | succ r ih =>
    have hpow : 2 ^ (r + 1) = 2 ^ r + 2 ^ r := by
      rw [Nat.pow_succ]
      omega
    obtain ⟨is, js, rfl, his, hjs⟩ :
        ∃ is₁ is₂, is = is₁ ++ is₂ ∧ is₁.length = 2 ^ r ∧ is₂.length = 2 ^ r := by
      refine ⟨is.take (2 ^ r), is.drop (2 ^ r), (List.take_append_drop _ _).symm, ?_, ?_⟩
      · rw [List.length_take]
        omega
      · rw [List.length_drop]
        omega
    rw [List.forall_mem_append] at hlt
    have hmap : (is.map (p.leafRow base)).length = 2 ^ r := by rw [List.length_map, his]
    rw [Tournament.tree, List.map_append, List.take_left' hmap, List.drop_left' hmap,
      List.nodup_append', HashState.treeValid_append his]
    constructor
    · intro hrow
      obtain ⟨a, ha, hrow⟩ := Option.bind_eq_some_iff.mp hrow
      obtain ⟨b, hb, hrow⟩ := Option.bind_eq_some_iff.mp hrow
      obtain ⟨⟨hisNodup, hisValid⟩, rfl⟩ := (ih (by omega) his hlt.1).mp ha
      obtain ⟨⟨hjsNodup, hjsValid⟩, rfl⟩ := (ih (by omega) hjs hlt.2).mp hb
      obtain ⟨⟨hsegment, horder, hdisjoint⟩, hrow⟩ :=
        (joinRows_row (by omega) (Nat.two_pow_pos r) his hjs hlt.1 hlt.2).mp hrow
      exact ⟨⟨⟨hisNodup, hjsNodup, hdisjoint⟩, hisValid, hjsValid, horder, hsegment⟩, hrow⟩
    · rintro ⟨⟨⟨hisNodup, hjsNodup, hdisjoint⟩, hisValid, hjsValid, horder, hsegment⟩, hrow⟩
      refine Option.bind_eq_some_iff.mpr
        ⟨_, (ih (by omega) his hlt.1).mpr ⟨⟨hisNodup, hisValid⟩, rfl⟩, ?_⟩
      refine Option.bind_eq_some_iff.mpr
        ⟨_, (ih (by omega) hjs hlt.2).mpr ⟨⟨hjsNodup, hjsValid⟩, rfl⟩, ?_⟩
      exact (joinRows_row (by omega) (Nat.two_pow_pos r) his hjs hlt.1 hlt.2).mpr
        ⟨⟨hsegment, horder, hdisjoint⟩, hrow⟩

/-- The loop over the levels is the tree over the rows. -/
theorem solutionLoop_eq {r h : ℕ} {X : List Bytes} (hX : X.length = 2 ^ h) :
    p.solutionLoop X (p.collisionByteLength * (p.K + 1 - r)) (4 * 2 ^ r) =
      (Tournament.tree (fun i ↦ p.joinAt (r + i)) h X).map fun row ↦
        (row, p.collisionByteLength * (p.K + 1 - (r + h))) := by
  induction h generalizing r X with
  | zero =>
    obtain ⟨a, rfl⟩ := List.length_eq_one_iff.mp hX
    rw [solutionLoop, dif_neg (by rw [List.length_singleton]; omega)]
    rfl
  | succ h ih =>
    have hmany : 1 < X.length := by
      have := Nat.two_pow_pos h
      rw [hX, Nat.pow_succ]
      omega
    rw [solutionLoop, dif_pos hmany, Tournament.tree_succ _ hX]
    change _ = ((Tournament.round (p.joinRows (p.collisionByteLength * (p.K + 1 - r)) (4 * 2 ^ r))
      X).bind _).map _
    split
    next hnone =>
      rw [hnone]
      rfl
    next Xc hXc =>
      have hlength : Xc.length = 2 ^ h := by
        have := Tournament.length_round hXc
        rw [hX, Nat.pow_succ] at this
        omega
      have hlen : p.collisionByteLength * (p.K + 1 - r) - p.collisionByteLength =
          p.collisionByteLength * (p.K + 1 - (r + 1)) := by
        rw [← Nat.sub_sub, Nat.mul_sub_one]
      have hindices : 4 * 2 ^ r * 2 = 4 * 2 ^ (r + 1) := by rw [Nat.pow_succ, Nat.mul_assoc]
      rw [hXc, hlen, hindices, ih hlength]
      have hlevel : (fun i ↦ p.joinAt (r + (i + 1))) = fun i ↦ p.joinAt (r + 1 + i) := by
        funext i
        rw [Nat.add_right_comm, Nat.add_assoc]
      have htop : r + (h + 1) = r + 1 + h := by omega
      rw [hlevel, htop]
      rfl

/-- The last row has one segment of hash left. -/
theorem isZero_row (base : p.HashState) (is : List ℕ) :
    isZero (base.row p.K is) (p.collisionByteLength * (p.K + 1 - p.K)) = true ↔
      p.segment p.K (base.xorHash is) = 0 := by
  have hrest : p.rowHash (p.K + 1) (base.xorHash is) = [] := by
    rw [rowHash, Nat.sub_self]
    rfl
  have hzeros : beBytes p.collisionByteLength 0 = List.replicate p.collisionByteLength 0 := by
    have h := beBytes_add (n := 0) p.collisionByteLength (x := 0) (Nat.two_pow_pos _)
    rw [Nat.add_zero] at h
    rw [h]
    exact List.append_nil _
  rw [isZero, take_row, rowHash_eq_append (Nat.lt_succ_self _), hrest, List.append_nil,
    ← beBytes_inj (segment_lt_bytes _ _) (Nat.two_pow_pos _), hzeros, List.eq_replicate_iff,
    and_iff_right (length_beBytes _ _)]
  simp only [List.all_eq_true, decide_eq_true_eq]

/-- The checks of all levels amount to the definition. -/
theorem Fits.isSolution_iff (h : p.Fits) (base : p.HashState) (is : List ℕ) :
    base.IsSolution is ↔
      (is.Nodup ∧ base.TreeValid p.K is) ∧ p.segment p.K (base.xorHash is) = 0 := by
  have hzero := segments_eq_zero_iff (h.xorHash_lt base is)
  constructor
  · rintro ⟨hdistinct, htree, hxor⟩
    exact ⟨⟨hdistinct, htree⟩, hzero.mpr hxor p.K (Nat.lt_succ_self _)⟩
  · rintro ⟨⟨hdistinct, htree⟩, hlast⟩
    refine ⟨hdistinct, htree, hzero.mp fun j hj ↦ ?_⟩
    rcases Nat.lt_succ_iff_lt_or_eq.mp hj with hj | rfl
    · exact htree.segments j hj
    · exact hlast

/-- The indices of a solution of the right size. -/
theorem Fits.indices_eq (h : p.Fits) {soln : Bytes} (hsoln : soln.length = p.solutionWidth) :
    getIndicesFromMinimal soln p.collisionBitLength =
      pieces (p.collisionBitLength + 1) (2 ^ p.K) (beNat soln) := by
  have hlow := h.low
  apply getIndicesFromMinimal_eq (by omega) h.high
  rw [hsoln, h.solution]

/-- For all instantiated parameters, every header and every solution `IsValidSolution` accepts what
the definition does; and every list of `2 ^ K` indices is packed in exactly one solution. -/
theorem isValidSolution_iff {p : Equihash} (h : p ∈ instantiated) (base : p.HashState) :
    (∀ soln, base.isValidSolution soln = true ↔ soln.length = p.solutionWidth ∧
      base.IsSolution (getIndicesFromMinimal soln p.collisionBitLength)) ∧
    ∀ is : List ℕ, is.length = 2 ^ p.K → (∀ i ∈ is, i < 2 ^ (p.collisionBitLength + 1)) →
      ∃! soln : Bytes, soln.length = p.solutionWidth ∧
        getIndicesFromMinimal soln p.collisionBitLength = is := by
  have hfits := fits_of_instantiated h
  constructor
  · intro soln
    unfold HashState.isValidSolution
    split
    case isTrue hsize => exact iff_of_false Bool.false_ne_true fun h ↦ hsize h.1
    case isFalse hsize =>
      have hsoln := not_not.mp hsize
      have his := hfits.indices_eq hsoln
      generalize hX : getIndicesFromMinimal soln p.collisionBitLength = is at his
      have hlength : is.length = 2 ^ p.K := by rw [his, length_pieces]
      have hlt : ∀ i ∈ is, i < 2 ^ 32 := by
        intro i hi
        rw [his] at hi
        exact (lt_of_mem_pieces hi).trans_le
          (Nat.pow_le_pow_right (by omega) (by have := hfits.high; omega))
      have hmap : (is.map (p.leafRow base)).length = 2 ^ p.K := by rw [List.length_map, hlength]
      have hloop := solutionLoop_eq (p := p) (r := 0) hmap
      rw [Nat.sub_zero, Nat.mul_comm, Nat.pow_zero, Nat.mul_one] at hloop
      simp only [Nat.zero_add] at hloop
      rw [and_iff_right hsoln, hfits.isSolution_iff, hashLength]
      dsimp only
      rw [hloop]
      cases hrow : Tournament.tree p.joinAt p.K (is.map (p.leafRow base)) with
      | none =>
        refine iff_of_false Bool.false_ne_true fun h ↦ ?_
        rw [(hfits.tree_eq_some le_rfl hlength hlt).mpr ⟨h.1, rfl⟩] at hrow
        cases hrow
      | some row =>
        obtain ⟨hvalid, rfl⟩ := (hfits.tree_eq_some le_rfl hlength hlt).mp hrow
        rw [and_iff_right hvalid]
        exact isZero_row base is
  · intro is hlength hlt
    have hpacked : join (p.collisionBitLength + 1) is < 2 ^ (8 * p.solutionWidth) := by
      rw [hfits.solution, ← hlength]
      exact join_lt hlt
    refine ⟨beBytes p.solutionWidth (join (p.collisionBitLength + 1) is), ⟨?_, ?_⟩, ?_⟩
    · exact length_beBytes _ _
    · rw [hfits.indices_eq (length_beBytes _ _), beNat_beBytes hpacked, ← hlength, pieces_join hlt]
    · rintro soln ⟨hsoln, hindices⟩
      have hnumber : join (p.collisionBitLength + 1) is = beNat soln := by
        rw [← hindices, hfits.indices_eq hsoln, join_pieces, Nat.mod_eq_of_lt]
        rw [← hfits.solution, ← hsoln]
        exact beNat_lt soln
      rw [hnumber, ← hsoln, beBytes_beNat]

/-- Digests without a bit set, under which the hashes of all indices agree. -/
def zeroDigests : HashState ⟨48, 5⟩ where
  generateHash _ := List.replicate 60 0
  length_generateHash _ := List.length_replicate

theorem xorHash_zeroDigests (is : List ℕ) : zeroDigests.xorHash is = 0 := by
  induction is with
  | nil => rfl
  | cons i is ih =>
    change zeroDigests.hashValue i ^^^ zeroDigests.xorHash is = 0
    rw [ih, Nat.xor_zero, HashState.hashValue, HashState.hashOf, zeroDigests, List.drop_replicate,
      List.take_replicate]
    exact beNat_replicate_zero _

theorem treeValid_zeroDigests (r a : ℕ) :
    zeroDigests.TreeValid r (List.range' a (2 ^ r)) := by
  induction r generalizing a with
  | zero => trivial
  | succ r ih =>
    have hpos := Nat.two_pow_pos r
    have hsplit : List.range' a (2 ^ (r + 1)) =
        List.range' a (2 ^ r) ++ List.range' (a + 2 ^ r) (2 ^ r) := by
      rw [Nat.pow_succ, Nat.mul_two, List.range'_append_1]
    rw [HashState.TreeValid, hsplit, List.take_left' (List.length_range' ..),
      List.drop_left' (List.length_range' ..)]
    refine ⟨ih a, ih (a + 2 ^ r), ?_, fun j _ ↦ ?_⟩
    · obtain ⟨m, hm⟩ := Nat.exists_eq_succ_of_ne_zero hpos.ne'
      rw [hm, List.range'_succ, List.range'_succ]
      exact Nat.lt_add_of_pos_right (Nat.succ_pos m)
    · rw [xorHash_zeroDigests, segment, Nat.zero_div, Nat.zero_mod]

/-- Under these digests the first 32 indices are a solution, and the verifier accepts the bytes they
are packed in. -/
theorem isValidSolution_zeroDigests : ∃ soln,
    getIndicesFromMinimal soln 8 = List.range' 0 32 ∧
      zeroDigests.isValidSolution soln = true := by
  have hiff := isValidSolution_iff (by decide : (⟨48, 5⟩ : Equihash) ∈ instantiated) zeroDigests
  obtain ⟨soln, ⟨hlength, hindices⟩, -⟩ := hiff.2 (List.range' 0 32) (List.length_range' ..)
    fun i hi ↦ by
      have hlt := (List.mem_range'_1.mp hi).2
      exact Nat.lt_of_lt_of_le hlt (by decide)
  refine ⟨soln, hindices, (hiff.1 soln).mpr ⟨hlength, ?_⟩⟩
  rw [hindices]
  exact ⟨List.nodup_range', treeValid_zeroDigests 5 0, xorHash_zeroDigests _⟩

end Equihash

end Bitmark

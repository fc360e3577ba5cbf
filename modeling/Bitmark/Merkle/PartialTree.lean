import Bitmark.Base.Codec
import Bitmark.Consensus.CheckBlock
import Bitmark.Lib.PartialTree
import Bitmark.Merkle.Root

/-!
# Partial merkle trees

`CPartialMerkleTree` of `src/main.h:411` and `src/main.cpp:3162–3274`: the builder, the extractor
and the wire format, which pads the bits to whole bytes. A tree is used only with at most
`MAX_BLOCK_SIZE / 60` transactions, so that its unsigned widths do not overflow.
-/

namespace Bitmark

open Codec

/-- `CPartialMerkleTree`. -/
structure CPartialMerkleTree where
  nTransactions : BitVec 32 := 0
  vBits : List Bool := []
  vHash : List Uint256 := []
  fBad : Bool := false
deriving DecidableEq, Repr

/-- `CalcTreeWidth`, `src/main.h:427`. -/
def calcTreeWidth (nTransactions height : Nat) : Nat :=
  (nTransactions + 1 <<< height - 1) >>> height

/-- The loop `while (CalcTreeWidth(nHeight) > 1) nHeight++`; a width of `n` is halved at most `n`
times. -/
def treeHeightLoop (nTransactions : Nat) : Nat → Nat → Nat
  | 0, nHeight => nHeight
  | fuel + 1, nHeight =>
    if 1 < calcTreeWidth nTransactions nHeight then treeHeightLoop nTransactions fuel (nHeight + 1)
    else nHeight

/-- The height of the tree. -/
def treeHeight (nTransactions : Nat) : Nat := treeHeightLoop nTransactions nTransactions 0

variable (H : Hashes)

/-! ### Building -/

/-- `CalcHash`, `src/main.cpp:3162`. -/
def calcHash (vTxid : List Uint256) : Nat → Nat → Uint256
  | 0, pos => vTxid.getD pos 0
  | height + 1, pos =>
    let left := calcHash vTxid height (pos * 2)
    let right :=
      if pos * 2 + 1 < calcTreeWidth vTxid.length height then calcHash vTxid height (pos * 2 + 1)
      else left
    hashPair H left right

/-- The loop that finds a match below a node. -/
def parentOfMatch (vMatch : List Bool) (nTransactions height pos : Nat) : Bool :=
  (List.range' (pos <<< height) ((pos + 1) <<< height - pos <<< height)).any fun p ↦
    decide (p < nTransactions) && vMatch.getD p false

/-- `TraverseAndBuild`, `src/main.cpp:3179`. -/
def traverseAndBuild (vTxid : List Uint256) (vMatch : List Bool) :
    Nat → Nat → CPartialMerkleTree → CPartialMerkleTree
  | 0, pos, s =>
    { s with
      vBits := s.vBits ++ [parentOfMatch vMatch vTxid.length 0 pos]
      vHash := s.vHash ++ [calcHash H vTxid 0 pos] }
  | height + 1, pos, s =>
    let fParentOfMatch := parentOfMatch vMatch vTxid.length (height + 1) pos
    let s := { s with vBits := s.vBits ++ [fParentOfMatch] }
    if !fParentOfMatch then { s with vHash := s.vHash ++ [calcHash H vTxid (height + 1) pos] }
    else
      let s := traverseAndBuild vTxid vMatch height (pos * 2) s
      if pos * 2 + 1 < calcTreeWidth vTxid.length height then
        traverseAndBuild vTxid vMatch height (pos * 2 + 1) s
      else s

/-- The constructor from transaction ids and their marks, `src/main.cpp:3226`. -/
def CPartialMerkleTree.ofMatches (vTxid : List Uint256) (vMatch : List Bool) :
    CPartialMerkleTree :=
  traverseAndBuild H vTxid vMatch (treeHeight vTxid.length) 0
    { nTransactions := BitVec.ofNat 32 vTxid.length }

/-! ### Extracting -/

/-- The cursors and results of `TraverseAndExtract`. -/
structure Extraction where
  nBitsUsed : Nat := 0
  nHashUsed : Nat := 0
  vMatch : List Uint256 := []
  fBad : Bool := false
deriving DecidableEq, Repr

/-- `TraverseAndExtract`, `src/main.cpp:3197`. -/
def CPartialMerkleTree.traverseAndExtract (pmt : CPartialMerkleTree) :
    Nat → Nat → Extraction → Uint256 × Extraction
  | height, pos, s =>
    match pmt.vBits[s.nBitsUsed]? with
    | none => (0, { s with fBad := true })
    | some fParentOfMatch =>
      let s := { s with nBitsUsed := s.nBitsUsed + 1 }
      match height, fParentOfMatch with
      | 0, _ | _ + 1, false =>
        match pmt.vHash[s.nHashUsed]? with
        | none => (0, { s with fBad := true })
        | some hash =>
          let s := { s with nHashUsed := s.nHashUsed + 1 }
          (hash, if height = 0 ∧ fParentOfMatch then { s with vMatch := s.vMatch ++ [hash] } else s)
      | height + 1, true =>
        let (left, s) := pmt.traverseAndExtract height (pos * 2) s
        if pos * 2 + 1 < calcTreeWidth pmt.nTransactions.toNat height then
          let (right, s) := pmt.traverseAndExtract height (pos * 2 + 1) s
          (hashPair H left right, s)
        else (hashPair H left left, s)

/-- `ExtractMatches`, `src/main.cpp:3242`: the matches and the root, zero in case of failure. -/
def CPartialMerkleTree.extractMatches (pmt : CPartialMerkleTree) : List Uint256 × Uint256 :=
  let nTransactions := pmt.nTransactions.toNat
  if nTransactions = 0 then ([], 0)
  else if maxBlockSize / 60 < nTransactions then ([], 0)
  else if nTransactions < pmt.vHash.length then ([], 0)
  else if pmt.vBits.length < pmt.vHash.length then ([], 0)
  else
    let (hashMerkleRoot, s) :=
      pmt.traverseAndExtract H (treeHeight nTransactions) 0 { fBad := pmt.fBad }
    if s.fBad then (s.vMatch, 0)
    else if (s.nBitsUsed + 7) / 8 ≠ (pmt.vBits.length + 7) / 8 then (s.vMatch, 0)
    else if s.nHashUsed ≠ pmt.vHash.length then (s.vMatch, 0)
    else (s.vMatch, hashMerkleRoot)

/-! ### Wire format -/

/-- `vBytes[p / 8] |= vBits[p] << (p % 8)` for the up to eight bits of one byte. -/
def packByte (bits : List Bool) : UInt8 :=
  UInt8.ofNat ((bits.zipIdx.map fun p ↦ p.1.toNat <<< p.2).foldl (· ||| ·) 0)

/-- `vBytes` of the writer. -/
def packBits : Nat → List Bool → Bytes
  | 0, _ => []
  | n + 1, bits => packByte (bits.take 8) :: packBits n (bits.drop 8)

/-- `vBits` of the reader. -/
def unpackBits (vBytes : Bytes) : List Bool :=
  vBytes.flatMap fun b ↦ (List.range 8).map fun i ↦ b.toNat &&& 1 <<< i ≠ 0

/-- `IMPLEMENT_SERIALIZE` of `CPartialMerkleTree`, writing. -/
def CPartialMerkleTree.serialize (pmt : CPartialMerkleTree) : Bytes :=
  bytes32 pmt.nTransactions ++ writeVector bytes256 pmt.vHash ++
    writeBytes (packBits ((pmt.vBits.length + 7) / 8) pmt.vBits)

/-- `IMPLEMENT_SERIALIZE` of `CPartialMerkleTree`, reading. -/
def CPartialMerkleTree.unserialize : Stream CPartialMerkleTree := do
  let nTransactions ← readWord32
  let vHash ← readVector readUint256
  let vBytes ← readByteVector
  pure ⟨nTransactions, unpackBits vBytes, vHash, false⟩

/-! ### The tree behind the functions -/

theorem calcTreeWidth_eq (n k : Nat) : calcTreeWidth n k = PairTree.width n k := by
  rw [calcTreeWidth, PairTree.width, Nat.shiftRight_eq_div_pow, Nat.shiftLeft_eq, Nat.one_mul]

theorem treeHeight_eq (n : Nat) : treeHeight n = Nat.clog 2 n := by
  -- the loop stops at the first height with one node, before its fuel is used up
  have hloop : ∀ fuel h, h ≤ Nat.clog 2 n → Nat.clog 2 n ≤ h + fuel →
      treeHeightLoop n fuel h = Nat.clog 2 n := by
    intro fuel
    induction fuel with
    | zero =>
      intro h hle hge
      rw [treeHeightLoop]
      omega
    | succ fuel ih =>
      intro h hle hge
      rw [treeHeightLoop, calcTreeWidth_eq]
      split
      · next hwidth => exact ih (h + 1) (PairTree.one_lt_width_iff.mp hwidth) (by omega)
      · next hwidth =>
        rw [PairTree.one_lt_width_iff] at hwidth
        omega
  have hle : Nat.clog 2 n ≤ n := by
    apply Nat.clog_le_of_le_pow
    exact n.lt_two_pow_self.le
  exact hloop n 0 (Nat.zero_le _) (by omega)

section Build

variable {vTxid : List Uint256} {vMatch : List Bool}

theorem calcHash_eq {h pos : Nat} (hpos : pos < PairTree.width vTxid.length h) :
    calcHash H vTxid h pos = PairTree.nodeAt (hashPair H) 0 vTxid h pos := by
  induction h generalizing pos with
  | zero => rfl
  | succ h ih =>
    have hsplit := (PairTree.nodeAt_succ (hashPair H) 0 vTxid hpos).2
    rw [PairTree.width_succ] at hpos
    rw [hsplit, calcHash, calcTreeWidth_eq, Nat.mul_comm pos 2]
    rw [ih (by omega)]
    split
    · next hwidth => rw [ih hwidth, Nat.min_eq_left (by omega)]
    · next hwidth =>
      have hlast : min (2 * pos + 1) (PairTree.width vTxid.length h - 1) = 2 * pos := by omega
      rw [hlast]

theorem parentOfMatch_eq (hmatch : vMatch.length = vTxid.length) (h pos : Nat) :
    parentOfMatch vMatch vTxid.length h pos = (PartialTree.segment vMatch h pos).any id := by
  rw [Bool.eq_iff_iff, parentOfMatch, List.any_eq_true, List.any_eq_true]
  have hlen : (pos + 1) <<< h - pos <<< h = 2 ^ h := by
    rw [Nat.shiftLeft_eq, Nat.shiftLeft_eq, Nat.succ_mul, Nat.add_sub_cancel_left]
  rw [hlen, Nat.shiftLeft_eq]
  simp only [List.mem_range'_1, Bool.and_eq_true, decide_eq_true_eq, id_eq, PartialTree.segment]
  constructor
  · rintro ⟨p, ⟨hge, hlt⟩, hp, hset⟩
    have hp' : p < vMatch.length := by omega
    rw [List.getD_eq_getElem _ _ hp'] at hset
    refine ⟨true, ?_, rfl⟩
    rw [List.mem_take_iff_getElem]
    refine ⟨p - pos * 2 ^ h, by simp; omega, ?_⟩
    rw [List.getElem_drop, ← hset]
    congr 1
    omega
  · rintro ⟨b, hb, rfl⟩
    rw [List.mem_take_iff_getElem] at hb
    obtain ⟨i, hi, hget⟩ := hb
    simp only [List.length_drop, Nat.lt_min] at hi
    rw [List.getElem_drop] at hget
    refine ⟨pos * 2 ^ h + i, by omega, by omega, ?_⟩
    rw [List.getD_eq_getElem _ _ (by omega), hget]

/-- `TraverseAndBuild` writes down the partial tree above the matches. -/
theorem traverseAndBuild_eq (hmatch : vMatch.length = vTxid.length) {h pos : Nat}
    (hpos : pos < PairTree.width vTxid.length h) (s : CPartialMerkleTree) :
    traverseAndBuild H vTxid vMatch h pos s =
      let t := PartialTree.build (hashPair H) 0 vTxid vMatch h pos
      { s with vBits := s.vBits ++ t.bits, vHash := s.vHash ++ t.hashes } := by
  induction h generalizing pos s with
  | zero =>
    rw [traverseAndBuild, parentOfMatch_eq hmatch, calcHash_eq H hpos]
    rfl
  | succ h ih =>
    have hparent := hpos
    rw [PairTree.width_succ] at hpos
    simp only [traverseAndBuild, parentOfMatch_eq hmatch, calcHash_eq H hparent, calcTreeWidth_eq,
      Nat.mul_comm pos 2, PartialTree.build]
    by_cases hany : (PartialTree.segment vMatch (h + 1) pos).any id = true
    · by_cases hwidth : 2 * pos + 1 < PairTree.width vTxid.length h
      · simp only [hany, Bool.not_true, Bool.false_eq_true, if_false, if_pos hwidth, if_true,
          ih hwidth, ih (show 2 * pos < _ by omega), PartialTree.bits, PartialTree.hashes,
          List.append_assoc, List.cons_append, List.nil_append]
      · simp only [hany, Bool.not_true, Bool.false_eq_true, if_false, if_neg hwidth, if_true,
          ih (show 2 * pos < _ by omega), PartialTree.bits, PartialTree.hashes, List.append_assoc,
          List.cons_append, List.nil_append]
    · simp only [hany, Bool.not_false, if_true, Bool.false_eq_true, if_false, PartialTree.bits,
        PartialTree.hashes]

end Build

section Extract

variable {pmt : CPartialMerkleTree}

/-- Reading an element at a cursor takes the first of what is left. -/
private theorem drop_cursor {α : Type} {l : List α} {i : Nat} {a : α} {rest : List α}
    (h : l.drop i = a :: rest) : l[i]? = some a ∧ l.drop (i + 1) = rest := by
  constructor
  · rw [← List.head?_drop, h]
    rfl
  · rw [← List.drop_drop, h]
    rfl

private theorem drop_cursor_nil {α : Type} {l : List α} {i : Nat} (h : l.drop i = []) :
    l[i]? = none := by
  rw [← List.head?_drop, h]
  rfl

/-- The flag is never cleared. -/
theorem fBad_traverseAndExtract {h pos : Nat} {s : Extraction} (hbad : s.fBad = true) :
    (pmt.traverseAndExtract H h pos s).2.fBad = true := by
  induction h generalizing pos s with
  | zero =>
    unfold CPartialMerkleTree.traverseAndExtract
    split
    · rfl
    · dsimp only
      split
      · rfl
      · dsimp only
        split
        · exact hbad
        · exact hbad
  | succ h ih =>
    unfold CPartialMerkleTree.traverseAndExtract
    split
    · rfl
    · next b _ =>
      cases b with
      | false =>
        dsimp only
        split
        · rfl
        · dsimp only
          split
          · exact hbad
          · exact hbad
      | true =>
        dsimp only
        split
        · exact ih (ih hbad)
        · exact ih hbad

/-- A set bit above the leaves opens the node. -/
private theorem traverseAndExtract_open {h pos : Nat} {s : Extraction}
    (hbit : pmt.vBits[s.nBitsUsed]? = some true) :
    pmt.traverseAndExtract H (h + 1) pos s =
      let left := pmt.traverseAndExtract H h (2 * pos) { s with nBitsUsed := s.nBitsUsed + 1 }
      if 2 * pos + 1 < PairTree.width pmt.nTransactions.toNat h then
        let right := pmt.traverseAndExtract H h (2 * pos + 1) left.2
        (hashPair H left.1 right.1, right.2)
      else (hashPair H left.1 left.1, left.2) := by
  simp only [← calcTreeWidth_eq, Nat.mul_comm 2 pos]
  rw [CPartialMerkleTree.traverseAndExtract, hbit]

/-- `TraverseAndExtract` reads a partial tree at its cursors, or sets the flag. -/
theorem traverseAndExtract_spec (pmt : CPartialMerkleTree) (h pos : Nat) (s : Extraction) :
    match PartialTree.read pmt.nTransactions.toNat h pos (pmt.vBits.drop s.nBitsUsed)
      (pmt.vHash.drop s.nHashUsed) with
    | some (t, bits, hashes) =>
      ∃ s', pmt.traverseAndExtract H h pos s = (t.hash (hashPair H), s') ∧
        pmt.vBits.drop s'.nBitsUsed = bits ∧ pmt.vHash.drop s'.nHashUsed = hashes ∧
        s'.nBitsUsed = s.nBitsUsed + t.bits.length ∧
        s'.nHashUsed = s.nHashUsed + t.hashes.length ∧
        s'.vMatch = s.vMatch ++ t.marked ∧ s'.fBad = s.fBad
    | none => (pmt.traverseAndExtract H h pos s).2.fBad = true := by
  induction h generalizing pos s with
  | zero =>
    cases hbits : pmt.vBits.drop s.nBitsUsed with
    | nil => simp [PartialTree.read, CPartialMerkleTree.traverseAndExtract, drop_cursor_nil hbits]
    | cons b bits =>
      obtain ⟨hbit, hbits'⟩ := drop_cursor hbits
      cases hhashes : pmt.vHash.drop s.nHashUsed with
      | nil =>
        simp [PartialTree.read, CPartialMerkleTree.traverseAndExtract, hbit,
          drop_cursor_nil hhashes]
      | cons a hashes =>
        obtain ⟨hhash, hhashes'⟩ := drop_cursor hhashes
        cases b with
        | false =>
          simp [PartialTree.read, CPartialMerkleTree.traverseAndExtract, hbit, hhash, hbits',
            hhashes', PartialTree.hash, PartialTree.bits, PartialTree.hashes, PartialTree.marked]
        | true =>
          simp [PartialTree.read, CPartialMerkleTree.traverseAndExtract, hbit, hhash, hbits',
            hhashes', PartialTree.hash, PartialTree.bits, PartialTree.hashes, PartialTree.marked]
  | succ h ih =>
    cases hbits : pmt.vBits.drop s.nBitsUsed with
    | nil => simp [PartialTree.read, CPartialMerkleTree.traverseAndExtract, drop_cursor_nil hbits]
    | cons b bits =>
      obtain ⟨hbit, hbits'⟩ := drop_cursor hbits
      cases b with
      | false =>
        cases hhashes : pmt.vHash.drop s.nHashUsed with
        | nil =>
          simp [PartialTree.read, CPartialMerkleTree.traverseAndExtract, hbit,
            drop_cursor_nil hhashes]
        | cons a hashes =>
          obtain ⟨hhash, hhashes'⟩ := drop_cursor hhashes
          simp [PartialTree.read, CPartialMerkleTree.traverseAndExtract, hbit, hhash, hbits',
            hhashes', PartialTree.hash, PartialTree.bits, PartialTree.hashes, PartialTree.marked]
      | true =>
        have hleft := ih (2 * pos) { s with nBitsUsed := s.nBitsUsed + 1 }
        simp only [hbits'] at hleft
        rw [traverseAndExtract_open H hbit]
        simp only [PartialTree.read]
        cases hl : PartialTree.read pmt.nTransactions.toNat h (2 * pos) bits
            (pmt.vHash.drop s.nHashUsed) with
        | none =>
          rw [hl] at hleft
          simp only [Option.bind_eq_bind, Option.bind_none]
          split
          · exact fBad_traverseAndExtract H hleft
          · exact hleft
        | some p =>
          obtain ⟨l, bits₁, hashes₁⟩ := p
          simp only [hl] at hleft
          obtain ⟨s₁, hs₁, hb₁, hh₁, hnb₁, hnh₁, hm₁, hbad₁⟩ := hleft
          simp only [Option.bind_eq_bind, Option.bind_some, hs₁]
          by_cases hwidth : 2 * pos + 1 < PairTree.width pmt.nTransactions.toNat h
          · have hright := ih (2 * pos + 1) s₁
            rw [hb₁, hh₁] at hright
            simp only [if_pos hwidth]
            cases hr : PartialTree.read pmt.nTransactions.toNat h (2 * pos + 1) bits₁ hashes₁ with
            | none =>
              rw [hr] at hright
              exact hright
            | some p =>
              obtain ⟨r, bits₂, hashes₂⟩ := p
              simp only [hr] at hright
              obtain ⟨s₂, hs₂, hb₂, hh₂, hnb₂, hnh₂, hm₂, hbad₂⟩ := hright
              rw [hs₂]
              dsimp only [Option.bind_some]
              refine ⟨s₂, rfl, hb₂, hh₂, ?_, ?_, ?_, hbad₂.trans hbad₁⟩
              · rw [hnb₂, hnb₁, PartialTree.bits, List.length_cons, List.length_append]
                omega
              · rw [hnh₂, hnh₁, PartialTree.hashes, List.length_append, Nat.add_assoc]
              · rw [hm₂, hm₁, PartialTree.marked, List.append_assoc]
          · simp only [if_neg hwidth]
            refine ⟨s₁, rfl, hb₁, hh₁, ?_, hnh₁, hm₁, hbad₁⟩
            rw [hnb₁, PartialTree.bits, List.length_cons]
            omega

/-- The partial tree a message spells out, with what it leaves unused. -/
def CPartialMerkleTree.read (pmt : CPartialMerkleTree) :
    Option (PartialTree Uint256 × List Bool × List Uint256) :=
  PartialTree.read pmt.nTransactions.toNat (treeHeight pmt.nTransactions.toNat) 0 pmt.vBits pmt.vHash

/-- What `ExtractMatches` makes of a message that spells out a tree and nothing else. -/
theorem extractMatches_of_read {t : PartialTree Uint256} {bits : List Bool}
    (hread : pmt.read = some (t, bits, [])) (hgood : pmt.fBad = false)
    (hpos : 0 < pmt.nTransactions.toNat) (hmax : pmt.nTransactions.toNat ≤ maxBlockSize / 60)
    (hfew : pmt.vHash.length ≤ pmt.nTransactions.toNat)
    (hpad : (t.bits.length + 7) / 8 = (pmt.vBits.length + 7) / 8) :
    pmt.extractMatches H = (t.marked, t.hash (hashPair H)) := by
  obtain ⟨-, hbits, hhashes⟩ := PartialTree.read_eq_some hread
  have hle := PartialTree.length_hashes_le t
  have hbitsLen := congrArg List.length hbits
  have hhashLen := congrArg List.length hhashes
  rw [List.length_append] at hbitsLen hhashLen
  rw [List.length_nil] at hhashLen
  have hspec := traverseAndExtract_spec H pmt (treeHeight pmt.nTransactions.toNat) 0
    { fBad := pmt.fBad }
  rw [List.drop_zero, List.drop_zero, ← CPartialMerkleTree.read, hread] at hspec
  obtain ⟨s, hrun, -, -, hbitsUsed, hhashUsed, hmarked, hbad⟩ := hspec
  have hbad' : s.fBad = false := hbad.trans hgood
  simp only [Nat.zero_add, List.nil_append] at hbitsUsed hhashUsed hmarked
  rw [CPartialMerkleTree.extractMatches]
  simp only [hrun]
  rw [if_neg (by omega), if_neg (by omega), if_neg (by omega), if_neg (by omega), hbad',
    if_neg Bool.false_ne_true, hbitsUsed, hpad, if_neg (fun h ↦ h rfl), if_neg (by omega), hmarked]

/-- A root other than zero is that of a tree the message spells out. -/
theorem read_of_extractMatches (hok : (pmt.extractMatches H).2 ≠ 0) :
    ∃ t bits hashes, pmt.read = some (t, bits, hashes) ∧
      pmt.extractMatches H = (t.marked, t.hash (hashPair H)) := by
  have hspec := traverseAndExtract_spec H pmt (treeHeight pmt.nTransactions.toNat) 0
    { fBad := pmt.fBad }
  rw [List.drop_zero, List.drop_zero, ← CPartialMerkleTree.read] at hspec
  cases hrun : pmt.traverseAndExtract H (treeHeight pmt.nTransactions.toNat) 0 { fBad := pmt.fBad }
    with
  | mk root s =>
    unfold CPartialMerkleTree.extractMatches at hok ⊢
    simp only [hrun, apply_ite Prod.snd, ne_eq, ite_eq_left_iff, not_forall] at hok ⊢
    obtain ⟨h₁, h₂, h₃, h₄, h₅, h₆, h₇, -⟩ := hok
    rw [if_neg h₁, if_neg h₂, if_neg h₃, if_neg h₄, if_neg h₅, if_neg h₆, if_neg h₇]
    rw [hrun] at hspec
    cases hread : pmt.read with
    | none =>
      rw [hread] at hspec
      exact absurd hspec h₅
    | some p =>
      obtain ⟨t, bits, hashes⟩ := p
      rw [hread] at hspec
      obtain ⟨s', heq, -, -, -, -, hmarked, -⟩ := hspec
      obtain ⟨rfl, rfl⟩ := Prod.mk.inj heq
      exact ⟨t, bits, hashes, rfl, by rw [hmarked]; rfl⟩

end Extract

/-! ### Completeness -/

/-- The bits of one byte, padded with zeros. -/
private theorem unpack_packByte (bits : List Bool) (h : bits.length ≤ 8) :
    (List.range 8).map (fun i ↦ decide ((packByte bits).toNat &&& 1 <<< i ≠ 0)) =
      bits ++ List.replicate (8 - bits.length) false := by
  match bits, h with
  | [], _ => decide
  | [a], _ => revert a; decide +kernel
  | [a, b], _ => revert a b; decide +kernel
  | [a, b, c], _ => revert a b c; decide +kernel
  | [a, b, c, d], _ => revert a b c d; decide +kernel
  | [a, b, c, d, e], _ => revert a b c d e; decide +kernel
  | [a, b, c, d, e, f], _ => revert a b c d e f; decide +kernel
  | [a, b, c, d, e, f, g], _ => revert a b c d e f g; decide +kernel
  | [a, b, c, d, e, f, g, i], _ => revert a b c d e f g i; decide +kernel
  | _ :: _ :: _ :: _ :: _ :: _ :: _ :: _ :: _ :: _, h =>
    simp only [List.length_cons] at h
    omega

/-- Bits come back from their bytes with the padding of the last one. -/
theorem unpackBits_packBits (n : Nat) (bits : List Bool) (h : bits.length ≤ 8 * n)
    (h' : 8 * n < bits.length + 8) :
    unpackBits (packBits n bits) = bits ++ List.replicate (8 * n - bits.length) false := by
  induction n generalizing bits with
  | zero =>
    obtain rfl := List.length_eq_zero_iff.mp (show bits.length = 0 by omega)
    rfl
  | succ n ih =>
    have hbyte := unpack_packByte (bits.take 8) (by simp)
    rw [packBits, unpackBits, List.flatMap_cons, ← unpackBits, hbyte]
    rcases Nat.eq_zero_or_pos n with rfl | hn
    · rw [List.take_of_length_le (by omega), packBits, unpackBits, List.flatMap_nil,
        List.append_nil]
    · have hfull : (bits.take 8).length = 8 := by simp; omega
      have hdrop : (bits.drop 8).length = bits.length - 8 := List.length_drop
      rw [ih _ (by omega) (by omega), hfull, hdrop, List.replicate_zero, List.append_nil,
        ← List.append_assoc, List.take_append_drop]
      congr 2
      omega

/-- What a reader makes of the message: the bits are padded to whole bytes. -/
theorem reads_partialMerkleTree (pmt : CPartialMerkleTree) (hgood : pmt.fBad = false)
    (hhash : pmt.vHash.length ≤ maxSize) (hbits : (pmt.vBits.length + 7) / 8 ≤ maxSize) :
    ∃ pad, Reads CPartialMerkleTree.unserialize
      { pmt with vBits := pmt.vBits ++ List.replicate pad false } pmt.serialize ∧
      (pmt.vBits.length + pad + 7) / 8 = (pmt.vBits.length + 7) / 8 := by
  have hpacked : ∀ n bits, (packBits n bits).length = n := by
    intro n
    induction n with
    | zero => exact fun _ ↦ rfl
    | succ n ih => exact fun bits ↦ congrArg (· + 1) (ih _)
  have hunpack := unpackBits_packBits ((pmt.vBits.length + 7) / 8) pmt.vBits (by omega) (by omega)
  refine ⟨8 * ((pmt.vBits.length + 7) / 8) - pmt.vBits.length, ?_, by omega⟩
  rw [CPartialMerkleTree.serialize, List.append_assoc]
  refine (reads_word32 _).bind ((reads_vector hhash fun x _ ↦ reads_uint256 x).bind
    ((reads_byteVector (by rwa [hpacked])).bind_pure ?_))
  rw [hunpack, ← hgood]
  exact Reads.pure _

section Complete

variable {vTxid : List Uint256} {vMatch : List Bool}

/-- The constructor writes down the partial tree from the root on. -/
theorem ofMatches_eq (hne : vTxid ≠ []) (hmatch : vMatch.length = vTxid.length) :
    CPartialMerkleTree.ofMatches H vTxid vMatch =
      let t := PartialTree.build (hashPair H) 0 vTxid vMatch (PairTree.height vTxid) 0
      { nTransactions := BitVec.ofNat 32 vTxid.length, vBits := t.bits, vHash := t.hashes } := by
  have hpos := PairTree.width_pos (List.length_pos_iff.mpr hne) (PairTree.height vTxid)
  rw [CPartialMerkleTree.ofMatches, treeHeight_eq]
  exact traverseAndBuild_eq H hmatch hpos _

/-- A tree for few transactions is read back up to its padding. -/
theorem reads_ofMatches (hne : vTxid ≠ []) (hmatch : vMatch.length = vTxid.length)
    (hcount : vTxid.length ≤ 2 ^ 15) :
    let t := PartialTree.build (hashPair H) 0 vTxid vMatch (PairTree.height vTxid) 0
    ∃ pad, Reads CPartialMerkleTree.unserialize
      ⟨BitVec.ofNat 32 vTxid.length, t.bits ++ List.replicate pad false, t.hashes, false⟩
      (CPartialMerkleTree.ofMatches H vTxid vMatch).serialize ∧
      (t.bits.length + pad + 7) / 8 = (t.bits.length + 7) / 8 := by
  intro t
  have hpos := PairTree.width_pos (List.length_pos_iff.mpr hne) (PairTree.height vTxid)
  have hheight : PairTree.height vTxid ≤ 15 := Nat.clog_le_of_le_pow hcount
  have hbits : t.bits.length < 2 ^ (PairTree.height vTxid + 1) :=
    PartialTree.length_bits_lt (PartialTree.shape_build _ 0 vTxid vMatch _ 0)
  have hpow : 2 ^ (PairTree.height vTxid + 1) ≤ 2 ^ 16 :=
    Nat.pow_le_pow_right (by decide) (by omega)
  have hhashes := PartialTree.length_hashes_le t
  have hmax : maxSize = 0x02000000 := rfl
  have heq := ofMatches_eq H hne hmatch
  obtain ⟨pad, hreads, hpad⟩ := reads_partialMerkleTree
    ⟨BitVec.ofNat 32 vTxid.length, t.bits, t.hashes, false⟩ rfl
    (show t.hashes.length ≤ maxSize by omega) (show (t.bits.length + 7) / 8 ≤ maxSize by omega)
  rw [heq]
  exact ⟨pad, hreads, hpad⟩

/-- For every nonempty list of at most `MAX_BLOCK_SIZE / 60` transaction ids and every match
vector of its length: the partial tree comes back from its bytes, and the extractor finds the
merkle root and the matched ids in order. -/
theorem extractMatches_ofMatches (hne : vTxid ≠ []) (hmatch : vMatch.length = vTxid.length)
    (hcount : vTxid.length ≤ maxBlockSize / 60) :
    ∃ pmt : CPartialMerkleTree,
      CPartialMerkleTree.unserialize (CPartialMerkleTree.ofMatches H vTxid vMatch).serialize =
        some (pmt, []) ∧
      pmt.extractMatches H = (PartialTree.selected vTxid vMatch, merkleRoot H vTxid) := by
  have hlimit : maxBlockSize / 60 = 16666 := rfl
  have hlen := List.length_pos_iff.mpr hne
  have hpos := PairTree.width_pos hlen (PairTree.height vTxid)
  obtain ⟨pad, hreads, hpad⟩ := reads_ofMatches H hne hmatch (by omega)
  have hread := hreads []
  rw [List.append_nil] at hread
  refine ⟨_, hread, ?_⟩
  generalize ht : PartialTree.build (hashPair H) 0 vTxid vMatch (PairTree.height vTxid) 0 = t
    at hpad
  have hn : (BitVec.ofNat 32 vTxid.length).toNat = vTxid.length := by
    rw [BitVec.toNat_ofNat]
    exact Nat.mod_eq_of_lt (by omega)
  have hleaves : vTxid.length ≤ 2 ^ PairTree.height vTxid := Nat.le_pow_clog (by decide) _
  have hfew : t.hashes.length ≤ vTxid.length := by
    have hbuild : (PartialTree.build (hashPair H) 0 vTxid vMatch _ 0).hashes.length ≤ _ :=
      PartialTree.length_hashes_build (hashPair H) 0 hpos
    rwa [PartialTree.segment_root hleaves, ht] at hbuild
  have hroot : t.hash (hashPair H) = merkleRoot H vTxid := by
    rw [merkleRoot_eq H hne, PairTree.root_eq_nodeAt, ← ht]
    exact PartialTree.hash_build (hashPair H) 0 hpos
  have hselected : t.marked = PartialTree.selected vTxid vMatch := by
    have hall := PartialTree.marked_build (hashPair H) 0 hmatch hpos
    rwa [PartialTree.segment_root hleaves, PartialTree.segment_root (by omega), ht] at hall
  have hspelled : CPartialMerkleTree.read
      ⟨BitVec.ofNat 32 vTxid.length, t.bits ++ List.replicate pad false, t.hashes, false⟩ =
        some (t, List.replicate pad false, []) := by
    have hshape : PartialTree.Shape vTxid.length (PairTree.height vTxid) 0 t := by
      rw [← ht]
      exact PartialTree.shape_build _ 0 vTxid vMatch _ 0
    have hflat := PartialTree.read_flatten hshape (List.replicate pad false) []
    rw [List.append_nil] at hflat
    rw [CPartialMerkleTree.read, hn, treeHeight_eq]
    exact hflat
  rw [extractMatches_of_read H hspelled rfl (by rwa [hn]) (by rwa [hn]) (by rwa [hn])
    (by simpa using hpad.symm), hselected, hroot]

/-- A tree for more transactions is refused, whatever it marks. -/
theorem extractMatches_eq_nil {pmt : CPartialMerkleTree}
    (hcount : maxBlockSize / 60 < pmt.nTransactions.toNat) : pmt.extractMatches H = ([], 0) := by
  rw [CPartialMerkleTree.extractMatches, if_neg (by omega), if_pos hcount]

end Complete

/-- `extractMatches_ofMatches` at three transactions. -/
theorem extractMatches_ofMatches_three :
    ∃ pmt : CPartialMerkleTree,
      CPartialMerkleTree.unserialize
          (CPartialMerkleTree.ofMatches toyHashes [1, 2, 3] [false, true, true]).serialize =
        some (pmt, []) ∧
      pmt.extractMatches toyHashes =
        (PartialTree.selected [1, 2, 3] [false, true, true], merkleRoot toyHashes [1, 2, 3]) :=
  extractMatches_ofMatches toyHashes (by decide) rfl (by decide)

/-- With more transactions than that and all of them matched nothing is extracted. -/
theorem extractMatches_many {n : Nat} (hmany : maxBlockSize / 60 < n) (hcount : n ≤ 2 ^ 15) :
    ¬ ∃ pmt : CPartialMerkleTree,
      CPartialMerkleTree.unserialize (CPartialMerkleTree.ofMatches H
          (List.replicate n 1) (List.replicate n true)).serialize = some (pmt, []) ∧
      pmt.extractMatches H = (PartialTree.selected (List.replicate n 1) (List.replicate n true),
          merkleRoot H (List.replicate n 1)) := by
  rintro ⟨pmt, hread, hextract⟩
  have hlen : (List.replicate n (1 : Uint256)).length = n := List.length_replicate
  have hne : List.replicate n (1 : Uint256) ≠ [] := by
    intro hnil
    rw [hnil, List.length_nil] at hlen
    omega
  obtain ⟨pad, hreads, -⟩ := reads_ofMatches H hne (List.length_replicate.trans hlen.symm)
    (hlen.le.trans hcount)
  have hpadded := hreads []
  rw [List.append_nil, hread] at hpadded
  obtain ⟨rfl, -⟩ := Prod.mk.inj (Option.some.inj hpadded)
  have hword : (BitVec.ofNat 32 (List.replicate n (1 : Uint256)).length).toNat = n := by
    rw [hlen, BitVec.toNat_ofNat]
    exact Nat.mod_eq_of_lt (by omega)
  rw [extractMatches_eq_nil H (by rwa [hword])] at hextract
  obtain ⟨k, rfl⟩ : ∃ k, n = k + 1 := ⟨n - 1, by omega⟩
  cases (Prod.mk.inj hextract).1

/-- The first count that is refused. -/
theorem extractMatches_tooMany :
    ¬ ∃ pmt : CPartialMerkleTree,
      CPartialMerkleTree.unserialize (CPartialMerkleTree.ofMatches toyHashes
          (List.replicate 16667 1) (List.replicate 16667 true)).serialize = some (pmt, []) ∧
      pmt.extractMatches toyHashes =
        (PartialTree.selected (List.replicate 16667 1) (List.replicate 16667 true),
          merkleRoot toyHashes (List.replicate 16667 1)) :=
  extractMatches_many toyHashes (by decide) (by decide)

end Bitmark

import Bitmark.Script.ScriptNum
import Bitmark.Script.SignatureHash

/-!
# Building and parsing scripts

`operator<<` appends instructions to a `CScript` (`src/script.h:444–530`) and `GetOp2`
(`src/script.h:572`) reads them with an iterator. Here the iterator is a position, every access goes
through `Access`, and the loops of `src/script.cpp:2103–2146` are over positions.
-/

namespace Bitmark

/-! ### Reading with an iterator -/

/-- The size of the length field behind an opcode. -/
def operandWidth (opcode : UInt8) : Nat :=
  if opcode < opPushdata1 then 0
  else if opcode = opPushdata1 then 1
  else if opcode = opPushdata2 then 2
  else 4

/-- `CScript::GetOp2`: the instruction at `pc`, if there is one, and where the iterator stands then.
The bytes left are counted in an `unsigned int`. -/
def getOp2 (script : Bytes) (pc : Nat) : Access (Option ScriptOp × Nat) :=
  if script.length ≤ pc then .ok (none, pc)
  else do
    let opcode ← vectorAt script pc
    let pc := pc + 1
    if opcode ≤ opPushdata4 then
      let width := operandWidth opcode
      if script.length - pc < width then .ok (none, pc)
      else do
        let size ← bytesAt script pc width
        let nSize := if width = 0 then opcode.toNat else leNat size
        let pc := pc + width
        if (script.length - pc) % 2 ^ 32 < nSize then .ok (none, pc)
        else do
          let data ← bytesAt script pc nSize
          .ok (some ⟨opcode, data⟩, pc + nSize)
    else .ok (some ⟨opcode, []⟩, pc)

/-- A loop over `GetOp` that returns false where an instruction does not parse or is not accepted. It
has no result when the fuel does not suffice. -/
def everyOp (accept : ScriptOp → Bool) (script : Bytes) : Nat → Nat → Access (Option Bool)
  | 0, _ => .ok none
  | fuel + 1, pc =>
    if script.length ≤ pc then .ok (some true)
    else do
      let (op, pc) ← getOp2 script pc
      match op with
      | none => .ok (some false)
      | some op => if accept op then everyOp accept script fuel pc else .ok (some false)

/-- The loop of `CScript::IsPushOnly`, `src/script.cpp:2103`. -/
def isPushOnlyLoop (script : Bytes) : Access (Option Bool) :=
  everyOp (fun op ↦ op.opcode ≤ op16) script (script.length + 1) 0

/-- What `CScript::HasCanonicalPushes` asks of an instruction. -/
def isCanonicalPush (op : ScriptOp) : Bool :=
  if op16 < op.opcode then true
  else if op.opcode < opPushdata1 ∧ 0 < op.opcode ∧ op.data.length = 1 ∧
    op.data.head?.any (· ≤ 16) then false
  else if op.opcode = opPushdata1 ∧ op.data.length < opPushdata1.toNat then false
  else if op.opcode = opPushdata2 ∧ op.data.length ≤ 0xff then false
  else if op.opcode = opPushdata4 ∧ op.data.length ≤ 0xffff then false
  else true

/-- The loop of `CScript::HasCanonicalPushes`, `src/script.cpp:2123`. -/
def hasCanonicalPushes (script : Bytes) : Access (Option Bool) :=
  everyOp isCanonicalPush script (script.length + 1) 0

/-- `GetOp` called over and over: the instructions from one position to another. -/
inductive Parses (script : Bytes) : Nat → List ScriptOp → Nat → Prop
  | nil (pc : Nat) : Parses script pc [] pc
  | cons {pc pc' last : Nat} {op : ScriptOp} {ops : List ScriptOp}
      (hop : getOp2 script pc = .ok (some op, pc')) (hrest : Parses script pc' ops last) :
      Parses script pc (op :: ops) last

/-! ### The iterator stays in the script -/

section Iterator

variable {script : Bytes} {pc pc' last : Nat} {op : ScriptOp} {ops : List ScriptOp}

/-- Whatever the bytes are, no access is out of range, the iterator does not leave the script, and
an instruction takes at least one byte. -/
theorem getOp2_spec (hpc : pc ≤ script.length) :
    ∃ r pc', getOp2 script pc = .ok (r, pc') ∧ pc ≤ pc' ∧ pc' ≤ script.length ∧
      (r.isSome = true → pc < pc') := by
  unfold getOp2
  split
  · exact ⟨none, pc, rfl, Nat.le_refl _, hpc, nofun⟩
  next hend =>
  rw [vectorAt_of_lt (Nat.lt_of_not_le hend), Access.ok_bind]
  dsimp only
  split
  case isFalse => exact ⟨_, _, rfl, by omega, by omega, fun _ ↦ by omega⟩
  split
  case isTrue => exact ⟨none, _, rfl, by omega, by omega, nofun⟩
  next hwidth =>
  rw [bytesAt_of_le (by omega), Access.ok_bind]
  generalize (if operandWidth script[pc] = 0 then _ else _) = nSize
  split
  case isTrue => exact ⟨none, _, rfl, by omega, by omega, nofun⟩
  next hsize =>
  have hle := Nat.mod_le (script.length - (pc + 1 + operandWidth script[pc])) (2 ^ 32)
  rw [bytesAt_of_le (by omega), Access.ok_bind]
  exact ⟨_, _, rfl, by omega, by omega, fun _ ↦ by omega⟩

theorem operandSize_eq (opcode : UInt8) (bs : Bytes) :
    operandSize opcode bs = if bs.length < operandWidth opcode then none
      else if operandWidth opcode = 0 then some (opcode.toNat, bs)
      else some (leNat (bs.take (operandWidth opcode)), bs.drop (operandWidth opcode)) := rfl

/-- In a script whose length fits its counters the iterator reads what is parsed from the rest. -/
theorem getOp2_of_getOp {rest : Bytes} (hlength : script.length < 2 ^ 32) (hpc : pc ≤ script.length)
    (hop : getOp (script.drop pc) = some (op, rest)) :
    getOp2 script pc = .ok (some op, script.length - rest.length) := by
  have hend : pc < script.length := by
    have hlt := getOp_length_lt hop
    rw [List.length_drop] at hlt
    omega
  rw [List.drop_eq_getElem_cons hend, getOp] at hop
  rw [getOp2, if_neg (Nat.not_le_of_lt hend), vectorAt_of_lt hend, Access.ok_bind]
  dsimp only
  split at hop
  case isFalse hplain =>
    obtain ⟨rfl, rfl⟩ := Prod.mk.inj (Option.some.inj hop)
    rw [if_neg hplain, List.length_drop, Nat.sub_sub_self hend]
  case isTrue hpush =>
    obtain ⟨⟨nSize, tail⟩, hoperand, hdata⟩ := Option.bind_eq_some_iff.mp hop
    dsimp only at hdata
    rw [operandSize_eq, List.length_drop] at hoperand
    split at hoperand
    · cases hoperand
    next hwidth =>
    have hsize : (if operandWidth script[pc] = 0 then script[pc].toNat
        else leNat ((script.drop (pc + 1)).take (operandWidth script[pc]))) = nSize ∧
        script.drop (pc + 1 + operandWidth script[pc]) = tail := by
      split at hoperand
      · next hzero =>
        obtain ⟨hn, ht⟩ := Prod.mk.inj (Option.some.inj hoperand)
        rw [if_pos hzero, hzero]
        exact ⟨hn, ht⟩
      · next hzero =>
        obtain ⟨hn, ht⟩ := Prod.mk.inj (Option.some.inj hoperand)
        rw [if_neg hzero]
        refine ⟨hn, ?_⟩
        rw [← List.drop_drop]
        exact ht
    obtain ⟨hnSize, rfl⟩ := hsize
    rw [List.length_drop] at hdata
    split at hdata
    · cases hdata
    next hfits =>
    obtain ⟨rfl, rfl⟩ := Prod.mk.inj (Option.some.inj hdata)
    rw [if_pos hpush, if_neg hwidth, bytesAt_of_le (by omega), Access.ok_bind, hnSize,
      Nat.mod_eq_of_lt (by omega), if_neg hfits, bytesAt_of_le (by omega), Access.ok_bind,
      List.length_drop, List.length_drop]
    congr 2
    omega

theorem getOp2_of_getOp_eq_none (hlength : script.length < 2 ^ 32)
    (hop : getOp (script.drop pc) = none) : ∃ pc', getOp2 script pc = .ok (none, pc') := by
  rw [getOp2]
  split
  · exact ⟨pc, rfl⟩
  next hend =>
  have hlt := Nat.lt_of_not_le hend
  rw [List.drop_eq_getElem_cons hlt, getOp] at hop
  rw [vectorAt_of_lt hlt, Access.ok_bind]
  dsimp only
  split at hop
  case isFalse => cases hop
  case isTrue hpush =>
    rw [operandSize_eq, List.length_drop] at hop
    rw [if_pos hpush]
    by_cases hwidth : script.length - (pc + 1) < operandWidth script[pc]
    · exact ⟨_, if_pos hwidth⟩
    rw [if_neg hwidth] at hop ⊢
    rw [bytesAt_of_le (by omega), Access.ok_bind, Nat.mod_eq_of_lt (by omega)]
    have htail : script.drop (pc + 1 + operandWidth script[pc]) =
        (script.drop (pc + 1)).drop (operandWidth script[pc]) := List.drop_drop.symm
    have hleft : script.length - (pc + 1 + operandWidth script[pc]) =
        ((script.drop (pc + 1)).drop (operandWidth script[pc])).length := by
      rw [← htail, List.length_drop]
    rw [hleft]
    split at hop
    · next hzero =>
      rw [if_pos hzero]
      rw [Option.bind_eq_bind, Option.bind_some] at hop
      dsimp only at hop
      split at hop
      · next hshort =>
        rw [hzero, List.drop_zero, if_pos hshort]
        exact ⟨_, rfl⟩
      · cases hop
    · next hzero =>
      rw [if_neg hzero]
      rw [Option.bind_eq_bind, Option.bind_some] at hop
      dsimp only at hop
      split at hop
      · next hshort => exact ⟨_, if_pos hshort⟩
      · cases hop

/-- A length field has at most four bytes. -/
theorem getOp2_data_lt (hop : getOp2 script pc = .ok (some op, pc')) : op.data.length < 2 ^ 32 := by
  unfold getOp2 at hop
  split at hop
  · cases hop
  next hend =>
  rw [vectorAt_of_lt (Nat.lt_of_not_le hend), Access.ok_bind] at hop
  dsimp only at hop
  split at hop
  case isFalse =>
    cases hop
    exact Nat.two_pow_pos 32
  split at hop
  case isTrue => cases hop
  next hwidth =>
  rw [bytesAt_of_le (by omega), Access.ok_bind] at hop
  have hsize : (if operandWidth script[pc] = 0 then script[pc].toNat
      else leNat ((script.drop (pc + 1)).take (operandWidth script[pc]))) < 2 ^ 32 := by
    have hfield := leNat_lt_pow ((script.drop (pc + 1)).take (operandWidth script[pc]))
    have hfour : operandWidth script[pc] ≤ 4 := by
      unfold operandWidth
      split_ifs <;> decide
    have hcode := script[pc].toNat_lt
    split
    · omega
    · refine hfield.trans_le (Nat.pow_le_pow_right (by decide) ?_)
      rw [List.length_take]
      omega
  generalize (if operandWidth script[pc] = 0 then _ else _) = nSize at hop hsize
  split at hop
  case isTrue => cases hop
  next hfits =>
  have hle := Nat.mod_le (script.length - (pc + 1 + operandWidth script[pc])) (2 ^ 32)
  rw [bytesAt_of_le (by omega), Access.ok_bind] at hop
  cases hop
  exact (List.length_take_le _ _).trans_lt hsize

/-- A run of `GetOp` takes a byte for each instruction. -/
theorem Parses.le (h : Parses script pc ops last) (hpc : pc ≤ script.length) :
    pc + ops.length ≤ last ∧ last ≤ script.length := by
  induction h with
  | nil pc => exact ⟨Nat.le_refl _, hpc⟩
  | cons hop _ ih =>
    obtain ⟨r, pc', heq, -, hle, hlt⟩ := getOp2_spec hpc
    rw [hop] at heq
    obtain ⟨rfl, rfl⟩ := Prod.mk.inj (Except.ok.inj heq)
    have hstep := hlt rfl
    obtain ⟨hrest, hlast⟩ := ih hle
    exact ⟨by rw [List.length_cons]; omega, hlast⟩

/-- A loop over a script ends, with fuel for one more round than there are bytes left. -/
theorem everyOp_returns (accept : ScriptOp → Bool) {fuel : Nat} (hpc : pc ≤ script.length)
    (hfuel : script.length - pc < fuel) : ∃ b, everyOp accept script fuel pc = .ok (some b) := by
  induction fuel generalizing pc with
  | zero => exact absurd hfuel (Nat.not_lt_zero _)
  | succ fuel ih =>
    rw [everyOp]
    split
    · exact ⟨true, rfl⟩
    next hend =>
    obtain ⟨r, pc', heq, -, hle, hlt⟩ := getOp2_spec hpc
    rw [heq, Access.ok_bind]
    cases r with
    | none => exact ⟨false, rfl⟩
    | some op =>
      have hstep := hlt rfl
      dsimp only
      split
      · exact ih hle (by omega)
      · exact ⟨false, rfl⟩

/-- The loop is the one over the instructions of the script. -/
theorem everyOp_eq_getOps (accept : ScriptOp → Bool) (hlength : script.length < 2 ^ 32) {fuel : Nat}
    (hpc : pc ≤ script.length) (hfuel : script.length - pc < fuel) :
    everyOp accept script fuel pc =
      .ok (some ((getOps (script.drop pc)).2 && (getOps (script.drop pc)).1.all accept)) := by
  induction fuel generalizing pc with
  | zero => exact absurd hfuel (Nat.not_lt_zero _)
  | succ fuel ih =>
    rw [everyOp]
    split
    · next hend =>
      rw [List.drop_eq_nil_of_le hend]
      rfl
    next hend =>
    cases hop : getOp (script.drop pc) with
    | none =>
      obtain ⟨pc', heq⟩ := getOp2_of_getOp_eq_none hlength hop
      have hparse : (getOps (script.drop pc)).2 = false := by
        cases hcomplete : (getOps (script.drop pc)).2 with
        | false => rfl
        | true =>
          rcases eq_nil_or_getOp hcomplete with hnil | ⟨op, rest, hsome⟩
          · exact absurd (List.drop_eq_nil_iff.mp hnil) hend
          · cases hop.symm.trans hsome
      rw [heq, Access.ok_bind, hparse, Bool.false_and]
    | some p =>
      obtain ⟨op, rest⟩ := p
      have hlt := getOp_length_lt hop
      obtain ⟨used, hused⟩ := getOp_eq_some hop
      have hrest : script.drop (script.length - rest.length) = rest := by
        have hsuffix : rest <:+ script.drop pc := by
          rw [hused]
          exact ⟨op.opcode :: used, by simp⟩
        exact (List.suffix_iff_eq_drop.mp (hsuffix.trans (List.drop_suffix pc script))).symm
      rw [List.length_drop] at hlt
      rw [getOp2_of_getOp hlength hpc hop, Access.ok_bind, getOps_cons hop, List.all_cons]
      dsimp only
      split
      · next haccept => rw [ih (by omega) (by omega), hrest, haccept, Bool.true_and]
      · next hreject =>
        rw [Bool.eq_false_of_not_eq_true hreject, Bool.false_and, Bool.and_false]

theorem isPushOnlyLoop_eq (hlength : script.length < 2 ^ 32) :
    isPushOnlyLoop script = .ok (some (isPushOnly script)) :=
  everyOp_eq_getOps _ hlength (Nat.zero_le _) (Nat.lt_succ_self _)

theorem hasCanonicalPushes_eq (hlength : script.length < 2 ^ 32) :
    hasCanonicalPushes script =
      .ok (some ((getOps script).2 && (getOps script).1.all isCanonicalPush)) :=
  everyOp_eq_getOps _ hlength (Nat.zero_le _) (Nat.lt_succ_self _)

end Iterator

/-! ### Writing -/

/-- What is appended by one call of `operator<<`. -/
inductive ScriptItem where
  | opcode (opcode : UInt8)
  | int64 (n : BitVec 64)
  | scriptNum (n : BitVec 64)
  | uint160 (b : BitVec 160)
  | uint256 (b : Uint256)
  /-- A `CPubKey`, whose size is asserted. -/
  | pubKey (key : {b : Bytes // b.length < opPushdata1.toNat})
  | data (b : Bytes)

namespace ScriptItem

/-- The bytes that `operator<<` appends, `src/script.h:444–530`. -/
def bytes : ScriptItem → Bytes
  | opcode o => [o]
  | int64 n => pushInt64 n.toInt
  | scriptNum n => pushBytes (scriptNumSerialize n.toInt)
  | uint160 b => 20 :: leBytes 20 b.toNat
  | uint256 b => 32 :: bytes256 b
  | pubKey key => UInt8.ofNat key.1.length :: key.1
  | data b => pushBytes b

/-- What an item is about: an opcode, or data to push. Small integers are opcodes. -/
def content : ScriptItem → UInt8 ⊕ Bytes
  | opcode o => .inl o
  | int64 n => if n.toInt = -1 ∨ (1 ≤ n.toInt ∧ n.toInt ≤ 16) then
      .inl (UInt8.ofNat (n.toInt + 0x50).toNat) else .inr (scriptNumSerialize n.toInt)
  | scriptNum n => .inr (scriptNumSerialize n.toInt)
  | uint160 b => .inr (leBytes 20 b.toNat)
  | uint256 b => .inr (bytes256 b)
  | pubKey key => .inr key.1
  | data b => .inr b

/-- The opcode of a push of so many bytes. -/
def pushOpcode (n : Nat) : UInt8 :=
  if n < opPushdata1.toNat then UInt8.ofNat n
  else if n ≤ 0xff then opPushdata1
  else if n ≤ 0xffff then opPushdata2
  else opPushdata4

/-- The instruction that an item should be read as. -/
def op (item : ScriptItem) : ScriptOp :=
  match item.content with
  | .inl o => ⟨o, []⟩
  | .inr b => ⟨pushOpcode b.length, b⟩

/-- An appended opcode has no operand of its own: it is not one of the pushes of a given size. -/
def isPlain : ScriptItem → Bool
  | opcode o => o = 0 ∨ opPushdata4 < o
  | _ => true

/-- The item puts something on the stack and does nothing else. -/
def pushes (item : ScriptItem) : Bool :=
  match item.content with
  | .inl o => o ≤ op16
  | .inr _ => true

/-- The item is not a single byte that `OP_0` to `OP_16` could have stood for. -/
def canonical (item : ScriptItem) : Bool :=
  match item.content with
  | .inl _ => true
  | .inr b => !(b.length = 1 ∧ b.head?.any (· ≤ 16))

/-- The script that a sequence of calls builds. -/
def build (items : List ScriptItem) : Bytes := items.flatMap bytes

theorem bytes_eq (item : ScriptItem) :
    item.bytes = item.content.elim (fun o ↦ [o]) pushBytes := by
  cases item with
  | int64 n =>
    rw [bytes, content, pushInt64]
    split <;> rfl
  | uint160 b =>
    have hlength := length_leBytes 20 b.toNat
    rw [bytes, content, Sum.elim_inr, pushBytes, hlength]
    rfl
  | uint256 b =>
    have hlength : (bytes256 b).length = 32 := length_leBytes 32 b.toNat
    rw [bytes, content, Sum.elim_inr, pushBytes, hlength]
    rfl
  | pubKey key => rw [bytes, content, Sum.elim_inr, pushBytes, if_pos key.2]
  | opcode o => rfl
  | scriptNum n => rfl
  | data b => rfl

/-! ### Reading what was written -/

private theorem getOp_sized {o : UInt8} {b : Bytes} (hpush : o ≤ opPushdata4)
    (hwidth : operandWidth o ≠ 0) (hlength : b.length < 256 ^ operandWidth o) (rest : Bytes) :
    getOp (o :: (leBytes (operandWidth o) b.length ++ b) ++ rest) = some (⟨o, b⟩, rest) := by
  have hfield := length_leBytes (operandWidth o) b.length
  have hsize : operandSize o (leBytes (operandWidth o) b.length ++ (b ++ rest)) =
      some (b.length, b ++ rest) := by
    rw [operandSize_eq, if_neg, if_neg hwidth, List.take_left' hfield, List.drop_left' hfield,
      leNat_leBytes, Nat.mod_eq_of_lt hlength]
    rw [List.length_append, hfield]
    omega
  rw [List.cons_append, List.append_assoc, getOp, if_pos hpush, hsize]
  simp

/-- A push is read with the opcode of its size and its data. -/
theorem getOp_pushBytes_append {b : Bytes} (h : b.length < 2 ^ 32) (rest : Bytes) :
    getOp (pushBytes b ++ rest) = some (⟨pushOpcode b.length, b⟩, rest) := by
  rw [pushBytes, pushOpcode]
  split
  · next hshort =>
    have hlt : b.length < 76 := hshort
    have hcode : (UInt8.ofNat b.length).toNat = b.length := Nat.mod_eq_of_lt (by omega)
    have hdirect : UInt8.ofNat b.length < opPushdata1 := by
      rw [UInt8.lt_iff_toNat_lt, hcode]
      exact hlt
    have hpush : UInt8.ofNat b.length ≤ opPushdata4 := by
      rw [UInt8.le_iff_toNat_le, hcode]
      exact hlt.le.trans (by decide)
    rw [List.cons_append, getOp, if_pos hpush, operandSize_eq, operandWidth, if_pos hdirect,
      if_neg (Nat.not_lt_zero _), if_pos rfl, hcode]
    simp
  split
  · next hbyte =>
    have hfield : leBytes 1 b.length = [UInt8.ofNat b.length] := by
      rw [leBytes, leBytes, Nat.mod_eq_of_lt (by omega)]
    have hsized := getOp_sized (o := opPushdata1) (b := b) (by decide) (by decide)
      (Nat.lt_succ_of_le hbyte) rest
    rwa [show operandWidth opPushdata1 = 1 from rfl, hfield] at hsized
  split
  · next hshort => exact getOp_sized (by decide) (by decide) (Nat.lt_succ_of_le hshort) rest
  · exact getOp_sized (by decide) (by decide) h rest

/-- The opcodes among the items have no operand. -/
theorem plain_of_content {item : ScriptItem} (hplain : item.isPlain = true) {o : UInt8}
    (hcontent : item.content = .inl o) : o = 0 ∨ opPushdata4 < o := by
  cases item with
  | opcode o' =>
    obtain rfl := Sum.inl.inj hcontent
    exact of_decide_eq_true hplain
  | int64 n =>
    rw [content] at hcontent
    split at hcontent
    · next hsmall =>
      have hcode : ∀ k ≤ 17, k ≠ 1 → opPushdata4 < UInt8.ofNat (k + 0x4f) := by decide
      right
      obtain rfl := Sum.inl.inj hcontent
      have h := hcode (n.toInt + 1).toNat (by omega)
      rw [show (n.toInt + 1).toNat + 0x4f = (n.toInt + 0x50).toNat by omega] at h
      exact h (by omega)
    · cases hcontent
  | scriptNum n => cases hcontent
  | uint160 b => cases hcontent
  | uint256 b => cases hcontent
  | pubKey key => cases hcontent
  | data b => cases hcontent

theorem length_le_pushBytes (b : Bytes) : b.length ≤ (pushBytes b).length := by
  unfold pushBytes
  split_ifs <;> simp only [List.length_cons, List.length_append] <;> omega

theorem getOp_bytes {item : ScriptItem} (hplain : item.isPlain = true)
    (hlength : item.bytes.length < 2 ^ 32) (rest : Bytes) :
    getOp (item.bytes ++ rest) = some (item.op, rest) := by
  rw [bytes_eq] at hlength ⊢
  rw [op]
  cases hcontent : item.content with
  | inl o =>
    rcases plain_of_content hplain hcontent with rfl | hlarge
    · rfl
    · rw [Sum.elim_inl, List.singleton_append, getOp, if_neg (UInt8.not_le.mpr hlarge)]
  | inr b =>
    rw [hcontent, Sum.elim_inr] at hlength
    exact getOp_pushBytes_append ((length_le_pushBytes b).trans_lt hlength) rest

theorem parses_append {items : List ScriptItem} (hplain : ∀ item ∈ items, item.isPlain = true)
    (front : Bytes) (hlength : (front ++ build items).length < 2 ^ 32) :
    Parses (front ++ build items) front.length (items.map op) (front ++ build items).length := by
  induction items generalizing front with
  | nil =>
    rw [build, List.flatMap_nil, List.append_nil]
    exact .nil _
  | cons item items ih =>
    obtain ⟨hitem, hitems⟩ := List.forall_mem_cons.mp hplain
    have hbuild : build (item :: items) = item.bytes ++ build items := List.flatMap_cons
    rw [hbuild] at hlength ⊢
    have hbytes : item.bytes.length < 2 ^ 32 := by
      rw [List.length_append, List.length_append] at hlength
      omega
    have hop : getOp ((front ++ (item.bytes ++ build items)).drop front.length) =
        some (item.op, build items) := by
      rw [List.drop_left]
      exact getOp_bytes hitem hbytes _
    have hfront : front.length ≤ (front ++ (item.bytes ++ build items)).length := by
      rw [List.length_append]
      exact Nat.le_add_right _ _
    have hnext : (front ++ (item.bytes ++ build items)).length - (build items).length =
        (front ++ item.bytes).length := by
      simp only [List.length_append]
      omega
    refine .cons (getOp2_of_getOp hlength hfront hop) ?_
    rw [hnext, ← List.append_assoc]
    exact ih hitems _ (by rwa [List.append_assoc])

/-! ### The loops over what was written -/

theorem getOps_build {items : List ScriptItem} (hplain : ∀ item ∈ items, item.isPlain = true)
    (hlength : (build items).length < 2 ^ 32) : getOps (build items) = (items.map op, true) := by
  induction items with
  | nil => rfl
  | cons item items ih =>
    obtain ⟨hitem, hitems⟩ := List.forall_mem_cons.mp hplain
    have hbuild : build (item :: items) = item.bytes ++ build items := List.flatMap_cons
    rw [hbuild, List.length_append] at hlength
    rw [hbuild, getOps_cons (getOp_bytes hitem (by omega) _), ih hitems (by omega), List.map_cons]

theorem pushOpcode_le (n : Nat) : pushOpcode n ≤ opPushdata4 := by
  unfold pushOpcode
  split
  · next hshort =>
    have hlt : n < 76 := hshort
    rw [UInt8.le_iff_toNat_le, UInt8.toNat_ofNat', Nat.mod_eq_of_lt (by omega)]
    exact hlt.le.trans (by decide)
  · split_ifs <;> decide

theorem opcode_le_op16 (item : ScriptItem) : decide (item.op.opcode ≤ op16) = item.pushes := by
  rw [op, pushes]
  cases item.content with
  | inl o => rfl
  | inr b => exact decide_eq_true (UInt8.le_trans (pushOpcode_le b.length) (by decide))

theorem isCanonicalPush_op {item : ScriptItem} (hplain : item.isPlain = true) :
    isCanonicalPush item.op = item.canonical := by
  rw [op, canonical]
  cases hcontent : item.content with
  | inl o =>
    rcases plain_of_content hplain hcontent with rfl | hlarge
    · rfl
    · have hbyte := UInt8.lt_iff_toNat_lt.mp hlarge
      have hdirect : ¬ o < opPushdata1 := fun h ↦
        absurd (UInt8.lt_iff_toNat_lt.mp h) (Nat.not_lt_of_lt (hbyte.trans' (by decide)))
      have hsized : ∀ c ≤ opPushdata4, o ≠ c := by
        rintro c hc rfl
        exact absurd (UInt8.le_iff_toNat_le.mp hc) (Nat.not_le_of_lt hbyte)
      simp [isCanonicalPush, hdirect, hsized opPushdata1 (by decide), hsized opPushdata2 (by decide),
        hsized opPushdata4 (by decide)]
  | inr b =>
    have hpush : ¬ op16 < pushOpcode b.length :=
      UInt8.not_lt.mpr (UInt8.le_trans (pushOpcode_le b.length) (by decide))
    dsimp only
    rw [isCanonicalPush, if_neg hpush]
    by_cases hshort : b.length < opPushdata1.toNat
    · have hlt : b.length < 76 := hshort
      have hcode : (UInt8.ofNat b.length).toNat = b.length := Nat.mod_eq_of_lt (by omega)
      have hdirect : UInt8.ofNat b.length < opPushdata1 := by
        rw [UInt8.lt_iff_toNat_lt, hcode]
        exact hlt
      have hsized : ∀ c, opPushdata1 ≤ c → UInt8.ofNat b.length ≠ c := by
        rintro c hc rfl
        exact UInt8.not_le.mpr hdirect hc
      rw [pushOpcode, if_pos hshort]
      dsimp only
      by_cases hone : b.length = 1 ∧ b.head?.any (· ≤ 16)
      · have hpos : 0 < UInt8.ofNat b.length := by
          rw [hone.1]
          decide
        rw [if_pos ⟨hdirect, hpos, hone⟩, decide_eq_true hone]
        rfl
      · rw [if_neg (fun h ↦ hone h.2.2), decide_eq_false hone,
          if_neg (fun h ↦ hsized _ (by decide) h.1), if_neg (fun h ↦ hsized _ (by decide) h.1),
          if_neg (fun h ↦ hsized _ (by decide) h.1)]
        rfl
    · have hlong : 76 ≤ b.length := Nat.not_lt.mp hshort
      have hnot : ¬ (b.length = 1 ∧ b.head?.any (· ≤ 16)) := fun h ↦ by omega
      rw [if_neg (fun h ↦ hnot h.2.2), decide_eq_false hnot, pushOpcode, if_neg hshort]
      dsimp only
      rw [if_neg (fun h ↦ hshort h.2)]
      by_cases hbyte : b.length ≤ 0xff
      · rw [if_pos hbyte, if_neg (fun h ↦ absurd h.1 (by decide)),
          if_neg (fun h ↦ absurd h.1 (by decide))]
        rfl
      rw [if_neg hbyte, if_neg (fun h ↦ hbyte h.2)]
      by_cases hword : b.length ≤ 0xffff
      · rw [if_pos hword, if_neg (fun h ↦ absurd h.1 (by decide))]
        rfl
      · rw [if_neg hword, if_neg (fun h ↦ hword h.2)]
        rfl

/-! ### Both ways -/

/-- An opcode that announces data takes it from what is appended next, and the length field of a
push ends at four bytes. -/
theorem build_not_parsed :
    (¬ ∀ items : List ScriptItem, (build items).length < 2 ^ 32 →
      Parses (build items) 0 (items.map op) (build items).length) ∧
    ¬ ∀ items : List ScriptItem, (∀ item ∈ items, item.isPlain = true) →
      Parses (build items) 0 (items.map op) (build items).length := by
  have hfirst : ∀ {script : Bytes} {o : ScriptOp} {ops : List ScriptOp} {last : Nat},
      Parses script 0 (o :: ops) last → ∃ pc, getOp2 script 0 = .ok (some o, pc) := by
    rintro script o ops last (_ | ⟨hop, -⟩)
    exact ⟨_, hop⟩
  constructor
  · intro h
    obtain ⟨pc, hop⟩ := hfirst (h [.opcode opPushdata1, .data [7]] (by decide))
    have hread : getOp2 [opPushdata1, 1, 7] 0 = .ok (some ⟨opPushdata1, [7]⟩, 3) := by decide
    cases hread.symm.trans hop
  · intro h
    obtain ⟨b, hb⟩ : ∃ b : Bytes, b.length = 2 ^ 32 :=
      ⟨List.replicate (2 ^ 32) 0, List.length_replicate⟩
    obtain ⟨pc, hop⟩ := hfirst (h [.data b] fun item hitem ↦ by rw [List.mem_singleton.mp hitem]; rfl)
    have hlt : b.length < 2 ^ 32 := getOp2_data_lt hop
    exact absurd hlt (by rw [hb]; exact Nat.lt_irrefl _)

/-- Over what was built from data and opcodes without operands, within the width of the length
fields, `GetOp` returns the sequence and comes to the end of the script, and the two loops find what
the sequence contains. Over any bytes at all it stays within the script and takes at least one byte
for an instruction, so every loop ends. -/
theorem script_roundTrip :
    (∀ items : List ScriptItem, (∀ item ∈ items, item.isPlain = true) →
      (build items).length < 2 ^ 32 →
      Parses (build items) 0 (items.map op) (build items).length ∧
        isPushOnlyLoop (build items) = .ok (some (items.all pushes)) ∧
        hasCanonicalPushes (build items) = .ok (some (items.all canonical))) ∧
    (∀ script pc, pc ≤ script.length →
      ∃ r pc', getOp2 script pc = .ok (r, pc') ∧ pc' ≤ script.length ∧
        (r.isSome = true → pc < pc')) ∧
    (∀ script pc ops last, pc ≤ script.length → Parses script pc ops last →
      pc + ops.length ≤ last ∧ last ≤ script.length) ∧
    (∀ accept script, ∃ b, everyOp accept script (script.length + 1) 0 = .ok (some b)) := by
  refine ⟨fun items hplain hlength ↦ ?_, fun script pc hpc ↦ ?_,
    fun script pc ops last hpc h ↦ h.le hpc,
    fun accept script ↦ everyOp_returns accept (Nat.zero_le _) (Nat.lt_succ_self _)⟩
  · refine ⟨parses_append hplain [] hlength, ?_, ?_⟩
    · rw [isPushOnlyLoop_eq hlength, isPushOnly, getOps_build hplain hlength]
      dsimp only
      rw [Bool.true_and, List.all_map]
      congr 3
      funext item
      exact opcode_le_op16 item
    · rw [hasCanonicalPushes_eq hlength, getOps_build hplain hlength, Bool.true_and, List.all_map]
      congr 2
      rw [Bool.eq_iff_iff, List.all_eq_true, List.all_eq_true]
      refine forall₂_congr fun item hitem ↦ ?_
      rw [Function.comp_apply, isCanonicalPush_op (hplain item hitem)]
  · obtain ⟨r, pc', heq, -, hle, hlt⟩ := getOp2_spec hpc
    exact ⟨r, pc', heq, hle, hlt⟩

theorem script_roundTrip_sample :
    Parses (build [.opcode opDup, .int64 5, .data [7, 8]]) 0
        [⟨opDup, []⟩, ⟨0x55, []⟩, ⟨2, [7, 8]⟩] 5 ∧
      hasCanonicalPushes (build [.opcode opDup, .int64 5, .data [7, 8]]) = .ok (some true) := by
  have h := script_roundTrip.1 [.opcode opDup, .int64 5, .data [7, 8]] (by decide) (by decide)
  exact ⟨h.1, h.2.2⟩

end ScriptItem

end Bitmark

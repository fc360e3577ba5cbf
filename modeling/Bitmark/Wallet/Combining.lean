import Mathlib.Data.List.Lex
import Mathlib.Data.List.Sort
import Bitmark.Lib.Quorum
import Bitmark.Wallet.Spendable

/-!
# Merging signatures

`CombineSignatures` (`src/script.cpp:2031`) makes one `scriptSig` of two. For a multisignature
script it looks for the key of each signature and writes the signatures in the order of the keys.
-/

namespace Bitmark

/-- What `Solver` leaves in `typeRet` and `vSolutionsRet`, also where it returns false: the first
template that fits, before the checks of `TX_MULTISIG`. -/
def solverOut (scriptPubKey : Bytes) : TxnOutType × List Bytes :=
  if isPayToScriptHash scriptPubKey then (.scripthash, [(scriptPubKey.drop 2).take 20])
  else
    let (ops, complete) := getOps scriptPubKey
    (mTemplates.findSome? fun tplate ↦
      (matchTemplate complete tplate.2 ops).map fun vSolutions ↦ (tplate.1, vSolutions)).getD
        (.nonstandard, [])

/-- `PushAll`, `src/script.cpp:1920`, of a stack with its top first. -/
def pushAll (values : List Bytes) : Bytes := values.reverse.flatMap pushBytes

/-- `operator<` of `valtype`, with equality. -/
def valtypeLe (v v' : Bytes) : Prop := v.map UInt8.toNat ≤ v'.map UInt8.toNat

instance : DecidableRel valtypeLe := fun v v' ↦
  inferInstanceAs (Decidable (v.map UInt8.toNat ≤ v'.map UInt8.toNat))

/-- `allsigs`: what is not empty on either stack, in the order of the set. -/
def allSigs (sigs1 sigs2 : List Bytes) : List Bytes :=
  ((sigs1 ++ sigs2).filter (· ≠ [])).dedup.insertionSort valtypeLe

namespace ScriptEnv

/-- The search for the key of a signature: the first key without one under which it is valid. -/
def matchSig (env : ScriptEnv) (scriptPubKey : Bytes) (pubkeys : List Bytes)
    (sigs : List (Bytes × Bytes)) (sig : Bytes) : List (Bytes × Bytes) :=
  match pubkeys.find? fun pubkey ↦
      (sigs.lookup pubkey).isNone && env.checkSig sig pubkey scriptPubKey with
  | some pubkey => (pubkey, sig) :: sigs
  | none => sigs

/-- `CombineMultisig`, `src/script.cpp:1928`, where `vSolutions` has a number at both ends. -/
def combineMultisig (env : ScriptEnv) (scriptPubKey : Bytes)
    (vSolutions sigs1 sigs2 : List Bytes) : Bytes :=
  let nSigsRequired := ((vSolutions.headD []).headD 0).toNat
  let pubkeys := vSolutions.tail.dropLast
  let sigs := (allSigs sigs1 sigs2).foldl (env.matchSig scriptPubKey pubkeys) []
  let result := (pubkeys.filterMap fun pubkey ↦ sigs.lookup pubkey).take nSigsRequired
  pushBytes [] ++ result.flatMap pushBytes ++
    (List.replicate (nSigsRequired - result.length) []).flatMap pushBytes

/-- `CombineSignatures` of two stacks, `src/script.cpp:1986`. A redeem script is taken off both. -/
def combineStacks (env : ScriptEnv) (scriptPubKey : Bytes) (txType : TxnOutType)
    (vSolutions : List Bytes) : List Bytes → List Bytes → Bytes
  | sigs1, sigs2 =>
    match txType with
    | .nonstandard | .nullData =>
      if sigs2.length ≤ sigs1.length then pushAll sigs1 else pushAll sigs2
    | .pubkey | .pubkeyhash =>
      if sigs1.getLast?.getD [] = [] then pushAll sigs2 else pushAll sigs1
    | .scripthash =>
      match sigs1, sigs2 with
      | [], sigs2 => pushAll sigs2
      | spk :: sigs1, sigs2 =>
        if spk = [] then pushAll sigs2
        else
          match sigs2 with
          | [] => pushAll (spk :: sigs1)
          | top :: sigs2 =>
            if top = [] then pushAll (spk :: sigs1)
            else
              let (txType2, vSolutions2) := solverOut spk
              env.combineStacks spk txType2 vSolutions2 sigs1 sigs2 ++ pushBytes spk
    | .multisig => env.combineMultisig scriptPubKey vSolutions sigs1 sigs2

end ScriptEnv

/-- `CombineSignatures`, `src/script.cpp:2031`; `none` where the evaluation of a `scriptSig` stops,
since what it leaves on its stack then is not followed. -/
def combineSignatures (crypto : ScriptCrypto) (scriptPubKey : Bytes) (txTo : CTransaction)
    (nIn : Nat) (scriptSig1 scriptSig2 : Bytes) : Option Bytes :=
  let (txType, vSolutions) := solverOut scriptPubKey
  let stackOf := ScriptEnv.evalScript ⟨crypto, {}, 0, 0⟩ scriptVerifyStrictenc []
  match stackOf scriptSig1, stackOf scriptSig2 with
  | .ok stack1, .ok stack2 =>
    some (ScriptEnv.combineStacks ⟨crypto, txTo, nIn, 0⟩ scriptPubKey txType vSolutions stack1 stack2)
  | _, _ => none

/-! ### The solver -/

theorem findSome?_of_scanTemplates {ops : List ScriptOp} {complete : Bool}
    {templates : List (TxnOutType × List UInt8)} {r : TxnOutType × List Bytes}
    (h : scanTemplates ops complete templates = some r) :
    (templates.findSome? fun tplate ↦
      (matchTemplate complete tplate.2 ops).map fun vSolutions ↦ (tplate.1, vSolutions)) =
        some r := by
  induction templates with
  | nil => cases h
  | cons entry templates ih =>
    rw [scanTemplates] at h
    rw [List.findSome?_cons]
    cases hmatch : matchTemplate complete entry.2 ops with
    | none =>
      rw [hmatch] at h
      exact ih h
    | some vSolutions =>
      rw [hmatch] at h
      dsimp only at h
      split at h
      · cases h
      · exact h

theorem solverOut_eq {scriptPubKey : Bytes} {r : TxnOutType × List Bytes}
    (h : solver scriptPubKey = some r) : solverOut scriptPubKey = r := by
  rw [solver] at h
  rw [solverOut]
  split
  case isTrue hp2sh =>
    rw [if_pos hp2sh] at h
    exact Option.some.inj h
  case isFalse hp2sh =>
    rw [if_neg hp2sh] at h
    have hscan : scanTemplates (getOps scriptPubKey).1 (getOps scriptPubKey).2 mTemplates =
      some r := h
    dsimp only
    rw [findSome?_of_scanTemplates hscan]
    rfl

/-! ### Scripts of each type -/

section Stacks

variable {crypto : ScriptCrypto} {scriptPubKey scriptSig1 scriptSig2 redeemScript : Bytes}
  {txTo : CTransaction} {nIn : Nat} {stack1 stack2 vSolutions : List Bytes} {txType : TxnOutType}

theorem combineSignatures_eq (hsolver : solver scriptPubKey = some (txType, vSolutions))
    (heval1 : ScriptEnv.evalScript ⟨crypto, {}, 0, 0⟩ scriptVerifyStrictenc [] scriptSig1 =
      .ok stack1)
    (heval2 : ScriptEnv.evalScript ⟨crypto, {}, 0, 0⟩ scriptVerifyStrictenc [] scriptSig2 =
      .ok stack2) :
    combineSignatures crypto scriptPubKey txTo nIn scriptSig1 scriptSig2 =
      some (ScriptEnv.combineStacks ⟨crypto, txTo, nIn, 0⟩ scriptPubKey txType vSolutions stack1
        stack2) := by
  rw [combineSignatures, solverOut_eq hsolver]
  dsimp only
  rw [heval1, heval2]

variable {env : ScriptEnv}

/-- For a script hash an empty argument is passed over. -/
theorem combineStacks_nil_left :
    env.combineStacks scriptPubKey .scripthash vSolutions [] stack2 = pushAll stack2 := by
  rw [ScriptEnv.combineStacks]

theorem combineStacks_nil_right (hne : redeemScript ≠ []) :
    env.combineStacks scriptPubKey .scripthash vSolutions (redeemScript :: stack1) [] =
      pushAll (redeemScript :: stack1) := by
  rw [ScriptEnv.combineStacks, if_neg hne]

/-- What is below a redeem script is merged as the redeem script wants. -/
theorem combineStacks_redeem (hne : redeemScript ≠ [])
    (hsolver : solver redeemScript = some (txType, vSolutions)) (vHash : List Bytes) :
    env.combineStacks scriptPubKey .scripthash vHash (redeemScript :: stack1)
        (redeemScript :: stack2) =
      env.combineStacks redeemScript txType vSolutions stack1 stack2 ++ pushBytes redeemScript := by
  rw [ScriptEnv.combineStacks]
  dsimp only
  rw [if_neg hne, if_neg hne, solverOut_eq hsolver]

theorem combineStacks_multisig :
    env.combineStacks scriptPubKey .multisig vSolutions stack1 stack2 =
      env.combineMultisig scriptPubKey vSolutions stack1 stack2 := by
  rw [ScriptEnv.combineStacks]

end Stacks

/-! ### The signatures of both stacks -/

section AllSigs

variable {sigs1 sigs2 : List Bytes} {sig : Bytes}

theorem mem_allSigs : sig ∈ allSigs sigs1 sigs2 ↔ (sig ∈ sigs1 ∨ sig ∈ sigs2) ∧ sig ≠ [] := by
  rw [allSigs, List.mem_insertionSort, List.mem_dedup, List.mem_filter, List.mem_append,
    decide_eq_true_eq]

/-- The stacks may be exchanged. -/
theorem allSigs_comm (sigs1 sigs2 : List Bytes) : allSigs sigs1 sigs2 = allSigs sigs2 sigs1 := by
  have : Std.Total valtypeLe := ⟨fun v v' ↦ le_total (v.map UInt8.toNat) (v'.map UInt8.toNat)⟩
  have : IsTrans Bytes valtypeLe :=
    ⟨fun v v' v'' h h' ↦ (h : v.map UInt8.toNat ≤ v'.map UInt8.toNat).trans h'⟩
  have hperm : ((sigs1 ++ sigs2).filter (· ≠ [])).dedup.Perm
      ((sigs2 ++ sigs1).filter (· ≠ [])).dedup :=
    (List.perm_append_comm.filter _).dedup
  have hsorted : (allSigs sigs1 sigs2).Perm (allSigs sigs2 sigs1) :=
    (List.perm_insertionSort _ _).trans (hperm.trans (List.perm_insertionSort _ _).symm)
  have hantisymm : ∀ v v', valtypeLe v v' → valtypeLe v' v → v = v' := by
    intro v v' (h : v.map UInt8.toNat ≤ v'.map UInt8.toNat) h'
    exact List.map_injective_iff.mpr (fun _ _ ↦ UInt8.toNat_inj.mp) (h.antisymm h')
  exact hsorted.eq_of_pairwise (fun v v' _ _ ↦ hantisymm v v')
    (List.pairwise_insertionSort _ _) (List.pairwise_insertionSort _ _)

end AllSigs

/-! ### The keys of the signatures -/

section Match

variable {env : ScriptEnv} {scriptPubKey pubkey : Bytes} {pubkeys : List Bytes}

/-- No signature is valid under two of the keys. -/
def ScriptEnv.OneKey (env : ScriptEnv) (scriptPubKey : Bytes) (pubkeys : List Bytes) : Prop :=
  ∀ sig, ∀ pubkey ∈ pubkeys, ∀ pubkey' ∈ pubkeys, env.checkSig sig pubkey scriptPubKey = true →
    env.checkSig sig pubkey' scriptPubKey = true → pubkey = pubkey'

/-- One signature changes the entry of its key, if that has none. -/
theorem lookup_matchSig (hone : env.OneKey scriptPubKey pubkeys) (hpubkey : pubkey ∈ pubkeys)
    (sigs : List (Bytes × Bytes)) (sig : Bytes) :
    (env.matchSig scriptPubKey pubkeys sigs sig).lookup pubkey =
      (sigs.lookup pubkey).or (if env.checkSig sig pubkey scriptPubKey then some sig else none) := by
  rw [ScriptEnv.matchSig]
  cases hfind : pubkeys.find? fun pubkey ↦
      (sigs.lookup pubkey).isNone && env.checkSig sig pubkey scriptPubKey with
  | none =>
    have hnot := List.find?_eq_none.mp hfind pubkey hpubkey
    dsimp only
    cases hlookup : sigs.lookup pubkey with
    | some sig' => rfl
    | none =>
      rw [hlookup, Option.isNone_none, Bool.true_and] at hnot
      rw [if_neg hnot]
      rfl
  | some key =>
    have hkey := List.find?_some hfind
    rw [Bool.and_eq_true, Option.isNone_iff_eq_none] at hkey
    dsimp only
    by_cases heq : pubkey = key
    · subst heq
      rw [List.lookup_cons, beq_self_eq_true, hkey.1, hkey.2]
      rfl
    · have hother : ¬ env.checkSig sig pubkey scriptPubKey = true := fun hsig ↦
        heq (hone sig pubkey hpubkey key (List.mem_of_find?_eq_some hfind) hsig hkey.2)
      rw [List.lookup_cons, beq_eq_false_iff_ne.mpr heq, if_neg hother, Option.or_none]

/-- Every key gets the first signature that is valid under it. -/
theorem lookup_foldl_matchSig (hone : env.OneKey scriptPubKey pubkeys) (hpubkey : pubkey ∈ pubkeys)
    (allsigs : List Bytes) (sigs : List (Bytes × Bytes)) :
    (allsigs.foldl (env.matchSig scriptPubKey pubkeys) sigs).lookup pubkey =
      (sigs.lookup pubkey).or
        (allsigs.find? fun sig ↦ env.checkSig sig pubkey scriptPubKey) := by
  induction allsigs generalizing sigs with
  | nil => rw [List.foldl_nil, List.find?_nil, Option.or_none]
  | cons sig allsigs ih =>
    rw [List.foldl_cons, ih, lookup_matchSig hone hpubkey, Option.or_assoc, List.find?_cons]
    cases env.checkSig sig pubkey scriptPubKey <;> rfl

/-- The signatures that `CombineMultisig` writes: of the keys in their order the first ones that
have a signature on a stack. -/
def ScriptEnv.mergedSigs (env : ScriptEnv) (scriptPubKey : Bytes) (nSigsRequired : Nat)
    (pubkeys sigs1 sigs2 : List Bytes) : List Bytes :=
  (pubkeys.filterMap fun pubkey ↦
    (allSigs sigs1 sigs2).find? fun sig ↦ env.checkSig sig pubkey scriptPubKey).take nSigsRequired

theorem length_mergedSigs_le (env : ScriptEnv) (scriptPubKey : Bytes) (nSigsRequired : Nat)
    (pubkeys sigs1 sigs2 : List Bytes) :
    (env.mergedSigs scriptPubKey nSigsRequired pubkeys sigs1 sigs2).length ≤ nSigsRequired := by
  rw [ScriptEnv.mergedSigs, List.length_take]
  exact Nat.min_le_left _ _

theorem combineMultisig_eq (hone : env.OneKey scriptPubKey pubkeys) (m : UInt8) (n : Bytes)
    (sigs1 sigs2 : List Bytes) :
    let sigs := env.mergedSigs scriptPubKey m.toNat pubkeys sigs1 sigs2
    env.combineMultisig scriptPubKey ([m] :: (pubkeys ++ [n])) sigs1 sigs2 =
      ([] :: (sigs ++ List.replicate (m.toNat - sigs.length) [])).flatMap pushBytes := by
  have hlookup : (pubkeys.filterMap fun pubkey ↦
      ((allSigs sigs1 sigs2).foldl (env.matchSig scriptPubKey pubkeys) []).lookup pubkey) =
      pubkeys.filterMap fun pubkey ↦
        (allSigs sigs1 sigs2).find? fun sig ↦ env.checkSig sig pubkey scriptPubKey := by
    apply List.filterMap_congr
    intro pubkey hpubkey
    rw [lookup_foldl_matchSig hone hpubkey, List.lookup_nil, Option.none_or]
  rw [ScriptEnv.combineMultisig]
  dsimp only
  rw [List.headD_cons, List.headD_cons, List.tail_cons, List.dropLast_concat, hlookup,
    ← ScriptEnv.mergedSigs, List.flatMap_cons, List.flatMap_append, List.append_assoc]

theorem combineMultisig_comm (env : ScriptEnv) (scriptPubKey : Bytes)
    (vSolutions sigs1 sigs2 : List Bytes) :
    env.combineMultisig scriptPubKey vSolutions sigs1 sigs2 =
      env.combineMultisig scriptPubKey vSolutions sigs2 sigs1 := by
  rw [ScriptEnv.combineMultisig, allSigs_comm, ← ScriptEnv.combineMultisig]

/-- Where some keys, on each stack, are those that its signatures are valid under, the merged
signatures are valid under the first of all these keys. -/
theorem forall₂_mergedSigs (hone : env.OneKey scriptPubKey pubkeys) {R : Bytes → Bytes → Prop}
    (hR : ∀ sig pubkey, R sig pubkey → env.checkSig sig pubkey scriptPubKey = true)
    {sigs1 sigs2 : List Bytes} {S1 S2 : Finset Bytes}
    (hkeys : S1 ∪ S2 ⊆ pubkeys.toFinset)
    (hsigs1 : ∀ sig ∈ sigs1, sig ≠ [] → ∃ pubkey ∈ S1, R sig pubkey)
    (hsigs2 : ∀ sig ∈ sigs2, sig ≠ [] → ∃ pubkey ∈ S2, R sig pubkey)
    (hall1 : ∀ pubkey ∈ S1, ∃ sig ∈ sigs1, sig ≠ [] ∧ R sig pubkey)
    (hall2 : ∀ pubkey ∈ S2, ∃ sig ∈ sigs2, sig ≠ [] ∧ R sig pubkey) (nSigsRequired : Nat) :
    List.Forall₂ (fun sig pubkey ↦ R sig pubkey ∧ (sig ∈ sigs1 ∨ sig ∈ sigs2))
      (env.mergedSigs scriptPubKey nSigsRequired pubkeys sigs1 sigs2)
      (quorum nSigsRequired (S1 ∪ S2) pubkeys) := by
  have hsigs : ∀ sig ∈ allSigs sigs1 sigs2, ∃ pubkey ∈ S1 ∪ S2, R sig pubkey := by
    intro sig hsig
    obtain ⟨hmem, hne⟩ := mem_allSigs.mp hsig
    rcases hmem with hmem | hmem
    · obtain ⟨pubkey, hpubkey, hvalid⟩ := hsigs1 sig hmem hne
      exact ⟨pubkey, Finset.mem_union_left _ hpubkey, hvalid⟩
    · obtain ⟨pubkey, hpubkey, hvalid⟩ := hsigs2 sig hmem hne
      exact ⟨pubkey, Finset.mem_union_right _ hpubkey, hvalid⟩
  have hall : ∀ pubkey ∈ S1 ∪ S2, ∃ sig ∈ allSigs sigs1 sigs2, R sig pubkey := by
    intro pubkey hpubkey
    rcases Finset.mem_union.mp hpubkey with hmem | hmem
    · obtain ⟨sig, hsig, hne, hvalid⟩ := hall1 pubkey hmem
      exact ⟨sig, mem_allSigs.mpr ⟨.inl hsig, hne⟩, hvalid⟩
    · obtain ⟨sig, hsig, hne, hvalid⟩ := hall2 pubkey hmem
      exact ⟨sig, mem_allSigs.mpr ⟨.inr hsig, hne⟩, hvalid⟩
  -- a signature that is valid under a key was made for it
  have hfind : ∀ pubkey ∈ pubkeys, ∀ sig,
      ((allSigs sigs1 sigs2).find? fun sig ↦ env.checkSig sig pubkey scriptPubKey) = some sig →
        pubkey ∈ S1 ∪ S2 ∧ R sig pubkey ∧ (sig ∈ sigs1 ∨ sig ∈ sigs2) := by
    intro pubkey hpubkey sig hsig
    have hmem := List.mem_of_find?_eq_some hsig
    obtain ⟨pubkey', hpubkey', hvalid⟩ := hsigs sig hmem
    have hvalid' := List.find?_some (p := fun sig ↦ env.checkSig sig pubkey scriptPubKey) hsig
    obtain rfl := hone sig pubkey hpubkey pubkey' (List.mem_toFinset.mp (hkeys hpubkey'))
      hvalid' (hR sig pubkey' hvalid)
    exact ⟨hpubkey', hvalid, (mem_allSigs.mp hmem).1⟩
  have hfilter : (pubkeys.filter fun pubkey ↦
      ((allSigs sigs1 sigs2).find? fun sig ↦ env.checkSig sig pubkey scriptPubKey).isSome) =
      pubkeys.filter (· ∈ S1 ∪ S2) := by
    apply List.filter_congr
    intro pubkey hpubkey
    rw [Bool.eq_iff_iff, decide_eq_true_eq]
    constructor
    · intro hsome
      obtain ⟨sig, hsig⟩ := Option.isSome_iff_exists.mp hsome
      exact (hfind pubkey hpubkey sig hsig).1
    · intro hmem
      obtain ⟨sig, hsig, hvalid⟩ := hall pubkey hmem
      exact List.find?_isSome.mpr ⟨sig, hsig, hR sig pubkey hvalid⟩
  rw [ScriptEnv.mergedSigs, quorum, ← hfilter]
  exact List.forall₂_take _ (forall₂_filterMap fun pubkey hpubkey sig hsig ↦
    (hfind pubkey hpubkey sig hsig).2)

end Match

end Bitmark

import Bitmark.Consensus.AcceptBlock
import Bitmark.Consensus.MinedChain
import Bitmark.Consensus.ScriptChecks
import Bitmark.Script.Limits

/-!
# Lock times

`OP_CHECKLOCKTIMEVERIFY` (`src/script.cpp:535`) compares its operand with the lock time of the
spending transaction, `IsFinalTx` (`src/main.cpp:584`) the lock time with the height and the time of
the block. Together they keep an output locked until its script says.
-/

namespace Bitmark

/-- `VerifyScript` as the interpreter runs it. -/
def interpretScripts (crypto : ScriptCrypto) (scriptSig scriptPubKey : Bytes) (txTo : CTransaction)
    (nIn : Nat) (flags : BitVec 32) : Bool :=
  (ScriptEnv.verifyScript ⟨crypto, txTo, nIn, 0⟩ flags scriptSig scriptPubKey).isOk

/-- A lock time that a block of this height and time has passed. -/
def LockReached (nLockTime : Int) (nHeight nTime : Nat) : Prop :=
  if nLockTime < locktimeThreshold then nLockTime < nHeight else nLockTime < nTime

/-! ### The operation -/

section Operation

variable {env : ScriptEnv} {flags : BitVec 32} {pc rest : Bytes} {op : ScriptOp} {s t : ScriptState}
  {scriptSig scriptPubKey : Bytes}

theorem bind_check_eq_ok {α : Type} {ok : Bool} {f : Unit → Eval α} {a : α} :
    (Eval.check ok >>= f) = .ok a ↔ ok = true ∧ f () = .ok a := by
  cases ok <;> simp [Eval.check, bind, Except.bind]

/-- What the operation finds out about its operand. -/
theorem checkLockTime_eq_ok {stack : List Bytes} (h : env.checkLockTime stack = .ok ()) :
    ∃ top nLockTime, stack.head? = some top ∧ scriptNum top 5 = .ok nLockTime ∧ 0 ≤ nLockTime ∧
      nLockTime ≤ env.txTo.nLockTime.toNat ∧
      (env.txTo.nLockTime.toNat < locktimeThreshold ↔ nLockTime < locktimeThreshold) ∧
      ∃ txin, env.txTo.vin[env.nIn]? = some txin ∧ txin.isFinal = false := by
  unfold ScriptEnv.checkLockTime at h
  obtain ⟨top, htop, h⟩ := Eval.bind_eq_ok.mp h
  obtain ⟨nLockTime, hnum, h⟩ := Eval.bind_eq_ok.mp h
  obtain ⟨hnonneg, h⟩ := bind_check_eq_ok.mp h
  obtain ⟨hside, h⟩ := bind_check_eq_ok.mp h
  obtain ⟨hle, h⟩ := bind_check_eq_ok.mp h
  obtain ⟨txin, htxin, h⟩ := Eval.bind_eq_ok.mp h
  have hhead : stack.head? = some top := by
    cases hget : stack.head? with
    | none =>
      rw [hget] at htop
      cases htop
    | some x =>
      rw [hget] at htop
      exact congrArg some (Except.ok.inj htop)
  have hvin : env.txTo.vin[env.nIn]? = some txin := by
    cases hget : env.txTo.vin[env.nIn]? with
    | none =>
      rw [vectorAt, hget] at htxin
      cases htxin
    | some x =>
      rw [vectorAt, hget] at htxin
      exact congrArg some (Except.ok.inj htxin)
  refine ⟨top, nLockTime, hhead, hnum, of_decide_eq_true hnonneg, of_decide_eq_true hle, ?_, txin, hvin,
    by simpa using h⟩
  have hthreshold : locktimeThreshold = 500000000 := rfl
  simp only [Bool.or_eq_true, Bool.and_eq_true, decide_eq_true_eq] at hside
  omega

/-- A final transaction that passes the operation has a lock time that is reached. -/
theorem lockReached_of_isFinalTx {nHeight nTime : Nat} (hheight : 0 < nHeight)
    {stack : List Bytes} (h : env.checkLockTime stack = .ok ())
    (hfinal : isFinalTx env.txTo nHeight nTime = true) :
    ∃ top nLockTime, stack.head? = some top ∧ scriptNum top 5 = .ok nLockTime ∧
      LockReached nLockTime nHeight nTime := by
  obtain ⟨top, nLockTime, htop, hnum, hnonneg, hle, hside, txin, htxin, hopen⟩ := checkLockTime_eq_ok h
  refine ⟨top, nLockTime, htop, hnum, ?_⟩
  have hall : env.txTo.vin.all CTxIn.isFinal = false := by
    rw [List.all_eq_false]
    exact ⟨txin, List.mem_of_getElem? htxin, by simp [hopen]⟩
  have hthreshold : locktimeThreshold = 500000000 := rfl
  rw [isFinalTx, hall, Bool.or_false, Bool.or_eq_true, decide_eq_true_eq, decide_eq_true_eq] at hfinal
  rw [LockReached]
  split
  case isTrue hlow =>
    rw [if_pos (hside.mpr hlow)] at hfinal
    omega
  case isFalse hhigh =>
    rw [if_neg (mt hside.mp hhigh)] at hfinal
    omega

/-- Where `VerifyScript` succeeds, every instruction that it comes to is executed. -/
theorem execInstr_ok_of_reaches (h : env.verifyScript flags scriptSig scriptPubKey = .ok ())
    (hreaches : env.Reaches flags scriptSig scriptPubKey pc s) (hop : getOp pc = some (op, rest)) :
    ∃ t, env.execInstr flags op rest s = .ok t := by
  have hloop : ∀ {stack stack' : List Bytes} {script : Bytes},
      env.evalScript flags stack script = .ok stack' →
      ∃ t, env.evalLoop flags script.length script { stack, codeHash := script } = .ok t := by
    intro stack stack' script heval
    obtain ⟨-, heval⟩ := bind_check_eq_ok.mp heval
    obtain ⟨t, ht, -⟩ := Eval.bind_eq_ok.mp heval
    exact ⟨t, ht⟩
  obtain ⟨stackCopy, hsig, h⟩ := Eval.bind_eq_ok.mp h
  obtain ⟨stack, hpubKey, h⟩ := Eval.bind_eq_ok.mp h
  obtain ⟨_, -, h⟩ := Eval.bind_eq_ok.mp h
  cases hreaches with
  | scriptSig _ hvisits =>
    obtain ⟨t, ht⟩ := hloop hsig
    exact hvisits.execInstr_ok ht hop
  | scriptPubKey heval _ hvisits =>
    obtain rfl := Except.ok.inj (hsig.symm.trans heval)
    obtain ⟨t, ht⟩ := hloop hpubKey
    exact hvisits.execInstr_ok ht hop
  | redeemScript heval _ _ hflag hscript hpush _ hvisits =>
    obtain rfl := Except.ok.inj (hsig.symm.trans heval)
    rw [if_neg (fun hno ↦ hno.elim hflag (by simp [hscript]))] at h
    obtain ⟨-, h⟩ := bind_check_eq_ok.mp h
    obtain ⟨stack', hredeem, -⟩ := Eval.bind_eq_ok.mp h
    obtain ⟨t, ht⟩ := hloop hredeem
    exact hvisits.execInstr_ok ht hop

/-- The operation has passed where it was executed. -/
theorem checkLockTime_of_reaches (hflag : flags &&& scriptVerifyChecklocktimeverify ≠ 0)
    (h : env.verifyScript flags scriptSig scriptPubKey = .ok ())
    (hreaches : env.Reaches flags scriptSig scriptPubKey (opChecklocktimeverify :: rest) s)
    (hexec : s.vfExec = []) : env.checkLockTime s.stack = .ok () := by
  have hop : getOp (opChecklocktimeverify :: rest) = some (⟨opChecklocktimeverify, []⟩, rest) := by
    rw [getOp, if_neg (by decide)]
  obtain ⟨t, ht⟩ := execInstr_ok_of_reaches h hreaches hop
  have hdispatch := dispatch_of_execInstr ht
  have hcase : opCase opChecklocktimeverify = .checkLockTimeVerify := rfl
  rw [ScriptEnv.dispatch, vfExec_count, hexec] at hdispatch
  simp only [List.all_nil, Bool.true_and, Bool.true_or, if_true] at hdispatch
  rw [if_neg (by decide), hcase, ScriptEnv.execOp, if_neg hflag, stack_count] at hdispatch
  obtain ⟨_, hcheck, -⟩ := Eval.bind_eq_ok.mp hdispatch
  exact hcheck

/-! ### Scripts that start with a lock -/

/-- `<nLockTime> OP_CHECKLOCKTIMEVERIFY …`. -/
def lockScript (nLockTime : Int) (rest : Bytes) : Bytes :=
  pushInt64 nLockTime ++ opChecklocktimeverify :: rest

/-- The first instruction of a lock pushes its number. -/
theorem getOp_pushInt64 (n : Int) (rest : Bytes) :
    ∃ op, getOp (pushInt64 n ++ rest) = some (op, rest) ∧ op.opcode ≤ op16 ∧
      op.pushed = scriptNumSerialize n := by
  rw [pushInt64]
  split
  case isTrue hsmall =>
    have hcode : (UInt8.ofNat (n + 0x50).toNat).toNat = (n + 0x50).toNat :=
      UInt8.toNat_ofNat_of_lt' (by
        change (n + 0x50).toNat < 256
        omega)
    have hdata : ¬ UInt8.ofNat (n + 0x50).toNat ≤ opPushdata4 := by
      rw [UInt8.le_iff_toNat_le, hcode]
      change ¬ (n + 0x50).toNat ≤ 78
      omega
    refine ⟨⟨UInt8.ofNat (n + 0x50).toNat, []⟩, ?_, ?_, ?_⟩
    · rw [List.singleton_append, getOp, if_neg hdata]
    · rw [UInt8.le_iff_toNat_le, hcode]
      change (n + 0x50).toNat ≤ 96
      omega
    · rw [ScriptOp.pushed, if_neg hdata, hcode]
      exact congrArg scriptNumSerialize (by omega)
  case isFalse =>
    have hlength := length_scriptNumSerialize_lt n
    have hcode : (UInt8.ofNat (scriptNumSerialize n).length).toNat = (scriptNumSerialize n).length :=
      UInt8.toNat_ofNat_of_lt' (hlength.trans (by decide))
    have hdata : UInt8.ofNat (scriptNumSerialize n).length ≤ opPushdata4 := by
      rw [UInt8.le_iff_toNat_le, hcode]
      exact hlength.le.trans (by decide)
    refine ⟨_, getOp_pushBytes (hlength.trans (by decide)) rest, ?_, ?_⟩
    · exact UInt8.le_trans hdata (by decide)
    · rw [ScriptOp.pushed, if_pos hdata]

/-- The number that a lock pushes is the operand, if it can be one. -/
theorem scriptNum_five_serialize {n nLockTime : Int} (hsize : n.natAbs < 2 ^ 64)
    (h : scriptNum (scriptNumSerialize n) 5 = .ok nLockTime) : nLockTime = n := by
  rw [scriptNum_five] at h
  split at h
  · cases h
  split at h
  · cases h
  obtain rfl := Except.ok.inj h
  rcases eq_or_ne n 0 with rfl | hne
  · rfl
  · exact (encodes_scriptNumSerialize hne hsize).signMagnitude_eq

/-- The evaluation of a lock comes to the operation, with the number on top. -/
theorem visits_lockScript {n : Int} {stack stack' : List Bytes}
    (h : env.evalScript flags stack (lockScript n rest) = .ok stack') :
    ∃ s, env.Visits flags (lockScript n rest) { stack, codeHash := lockScript n rest }
        (opChecklocktimeverify :: rest) s ∧
      s.stack.head? = some (scriptNumSerialize n) ∧ s.vfExec = [] := by
  obtain ⟨-, h⟩ := bind_check_eq_ok.mp h
  obtain ⟨t, hloop, -⟩ := Eval.bind_eq_ok.mp h
  obtain ⟨op, hop, hle, hpushed⟩ := getOp_pushInt64 n (opChecklocktimeverify :: rest)
  obtain ⟨s, hexec⟩ := (ScriptEnv.Visits.here _ _).execInstr_ok hloop hop
  obtain ⟨hstack, hvfExec⟩ := execInstr_pushOnly rfl hle hexec
  refine ⟨s, .next hop hexec (.here _ _), ?_, hvfExec⟩
  rw [hstack, hpushed, List.head?_cons]

/-- A script that only pushes leaves what it pushes. -/
theorem evalScript_isPushOnly {stack : List Bytes} (hpush : isPushOnly scriptSig = true)
    (h : env.evalScript flags [] scriptSig = .ok stack) :
    stack = ((getOps scriptSig).1.map ScriptOp.pushed).reverse := by
  obtain ⟨-, h⟩ := bind_check_eq_ok.mp h
  obtain ⟨s, hloop, h⟩ := Eval.bind_eq_ok.mp h
  obtain ⟨-, h⟩ := bind_check_eq_ok.mp h
  obtain rfl := Except.ok.inj h
  rw [isPushOnly, Bool.and_eq_true, List.all_eq_true] at hpush
  rw [evalLoop_pushOnly rfl (fun op hop ↦ of_decide_eq_true (hpush.2 op hop)) hloop]
  exact List.append_nil _

end Operation

/-- The output starts with a lock, or the script that the input reveals for its hash does. -/
def LockedBy (n : Int) (scriptSig scriptPubKey : Bytes) : Prop :=
  ∃ rest, scriptPubKey = lockScript n rest ∨
    isPayToScriptHash scriptPubKey = true ∧
      (getOps scriptSig).1.getLast?.map ScriptOp.pushed = some (lockScript n rest)

section Locked

variable {env : ScriptEnv} {flags : BitVec 32} {scriptSig scriptPubKey : Bytes} {n : Int}

/-- The evaluation of an output that is locked comes to the operation. -/
theorem LockedBy.reaches (hlocked : LockedBy n scriptSig scriptPubKey)
    (hflag : flags &&& scriptVerifyP2SH ≠ 0)
    (h : env.verifyScript flags scriptSig scriptPubKey = .ok ()) :
    ∃ rest s, env.Reaches flags scriptSig scriptPubKey (opChecklocktimeverify :: rest) s ∧
      s.stack.head? = some (scriptNumSerialize n) ∧ s.vfExec = [] := by
  obtain ⟨stackCopy, hsig, h⟩ := Eval.bind_eq_ok.mp h
  obtain ⟨stack, hpubKey, h⟩ := Eval.bind_eq_ok.mp h
  obtain ⟨_, htrue, h⟩ := Eval.bind_eq_ok.mp h
  have hsize : ∀ {stack stack' : List Bytes} {script : Bytes},
      env.evalScript flags stack script = .ok stack' → script.length ≤ 10000 := by
    intro stack stack' script heval
    exact of_decide_eq_true (bind_check_eq_ok.mp heval).1
  obtain ⟨rest, rfl | ⟨hscript, hlast⟩⟩ := hlocked
  · obtain ⟨s, hvisits, htop, hexec⟩ := visits_lockScript hpubKey
    exact ⟨rest, s, .scriptPubKey hsig (hsize hpubKey) hvisits, htop, hexec⟩
  · rw [if_neg (fun hno ↦ hno.elim hflag (by simp [hscript]))] at h
    obtain ⟨hpush, h⟩ := bind_check_eq_ok.mp h
    have hstack := evalScript_isPushOnly hpush hsig
    rw [← List.getLast?_map, ← List.head?_reverse, ← hstack] at hlast
    cases stackCopy with
    | nil => cases hlast
    | cons pubKeySerialized stackCopy =>
      obtain rfl := Option.some.inj hlast
      obtain ⟨stack', hredeem, -⟩ := Eval.bind_eq_ok.mp h
      obtain ⟨s, hvisits, htop, hexec⟩ := visits_lockScript hredeem
      exact ⟨rest, s, .redeemScript hsig hpubKey htrue hflag hscript hpush (hsize hredeem) hvisits,
        htop, hexec⟩

/-- A final transaction that spends an output which is locked comes after its lock time. -/
theorem LockedBy.lockReached (hlocked : LockedBy n scriptSig scriptPubKey)
    (hsize : n.natAbs < 2 ^ 64) (hflag : flags &&& scriptVerifyP2SH ≠ 0)
    (hverify : flags &&& scriptVerifyChecklocktimeverify ≠ 0)
    (h : env.verifyScript flags scriptSig scriptPubKey = .ok ()) {nHeight nTime : Nat}
    (hheight : 0 < nHeight) (hfinal : isFinalTx env.txTo nHeight nTime = true) :
    LockReached n nHeight nTime := by
  obtain ⟨rest, s, hreaches, htop, hexec⟩ := hlocked.reaches hflag h
  obtain ⟨top, nLockTime, htop', hnum, hreached⟩ :=
    lockReached_of_isFinalTx hheight (checkLockTime_of_reaches hverify h hreaches hexec) hfinal
  obtain rfl := Option.some.inj (htop.symm.trans htop')
  obtain rfl := scriptNum_five_serialize hsize hnum
  exact hreached

end Locked

/-! ### The blocks -/

theorem scriptFlags_p2sh (nVersion : Version) (pindex : ChainIndex) :
    scriptFlags nVersion pindex &&& scriptVerifyP2SH ≠ 0 := by
  unfold scriptFlags
  split <;> split <;> decide

theorem scriptFlags_lockTime {nVersion : Version} {pindex : ChainIndex} (h : 3 ≤ nVersion.toInt)
    (hmajority : isSuperMajority 3 pindex.tail 750 1000 = true) :
    scriptFlags nVersion pindex &&& scriptVerifyChecklocktimeverify ≠ 0 := by
  have hif : 3 ≤ nVersion.toInt ∧ isSuperMajority 3 pindex.tail 750 1000 = true := ⟨h, hmajority⟩
  simp only [scriptFlags, if_pos hif]
  split <;> decide

/-- Once 750 of the last 1000 blocks have version three, a block of that version spends no output
before its lock time: not by its own script, nor by one that is revealed for its hash. -/
theorem lockReached_of_connectBlock {node : Node} {crypto : ScriptCrypto} {block : CBlock}
    {stateA stateC : CValidationState} {pindexPrev : ChainIndex} {pcheckpoint : Option Nat}
    {view : CCoinsViewCache} {fJustCheck : Bool} {r : Connected} {pre post : List CTransaction}
    {tx : CTransaction} (hscripts : node.verifyScript = interpretScripts crypto)
    (hestimate : node.totalBlocksEstimate ≤ pindexPrev.length) (hversion : 3 ≤ block.nVersion.toInt)
    (hmajority : isSuperMajority 3 pindexPrev 750 1000 = true)
    (haccept : node.contextCheck block stateA pindexPrev pcheckpoint = .accept ())
    (hnew : block.getHash node.hashes ≠ node.params.hashGenesisBlock)
    (hconnect : node.connectBlock block stateC (block.indexEntry node.hashes :: pindexPrev) view
      fJustCheck = .accept r)
    (hvtx : block.vtx = pre ++ tx :: post) (hcb : tx.isCoinBase = false) :
    ∃ q, node.runTxs block stateC (block.indexEntry node.hashes :: pindexPrev) view pre =
        .accept q ∧
      ∀ (i : Nat) (txin : CTxIn), tx.vin[i]? = some txin → ∃ coins,
        q.view.getCoins txin.prevout.hash = some coins ∧ ∀ n : Int, n.natAbs < 2 ^ 64 →
          LockedBy n txin.scriptSig (coins.outAt txin.prevout.n.toNat).scriptPubKey →
            LockReached n pindexPrev.length block.nTime.toNat := by
  obtain ⟨q, hq, hpass⟩ := node.verifyScript_of_connectBlock hconnect hnew hestimate hvtx hcb
  refine ⟨q, hq, fun i txin htxin ↦ ?_⟩
  obtain ⟨coins, hcoins, hverify⟩ := hpass i txin htxin
  refine ⟨coins, hcoins, fun n hsize hlocked ↦ ?_⟩
  have hheight : 0 < pindexPrev.length := by
    cases pindexPrev with
    | nil => cases hmajority
    | cons => exact Nat.succ_pos _
  have hfinal : isFinalTx tx pindexPrev.length block.nTime.toNat = true := by
    simp only [Node.contextCheck, Verdict.bind_eq_accept, Verdict.check_eq_accept] at haccept
    obtain ⟨_, -, _, -, _, hall, -⟩ := haccept
    exact List.all_eq_true.mp hall tx (by simp [hvtx])
  rw [hscripts, interpretScripts] at hverify
  have hok : ScriptEnv.verifyScript ⟨crypto, tx, i, 0⟩ (scriptFlags block.nVersion
      (block.indexEntry node.hashes :: pindexPrev)) txin.scriptSig
      (coins.outAt txin.prevout.n.toNat).scriptPubKey = .ok () := by
    revert hverify
    cases ScriptEnv.verifyScript _ _ _ _ with
    | error e => intro hverify; cases hverify
    | ok => intro _; rfl
  have hflag : scriptFlags block.nVersion (block.indexEntry node.hashes :: pindexPrev) &&&
      scriptVerifyChecklocktimeverify ≠ 0 := scriptFlags_lockTime hversion hmajority
  exact hlocked.lockReached hsize (scriptFlags_p2sh _ _) hflag hok hheight hfinal

/-- A chain of blocks of version three. -/
def versionThree : ChainIndex := .replicate 800 ⟨7, 3, 50000, 0x1d00ffff, 0, 0⟩

/-- It spends an output that is locked up to height 600. -/
def spendLocked : CTransaction := { vin := [⟨⟨1, 0⟩, [], 0⟩], vout := [⟨5, []⟩], nLockTime := 700 }

/-- The block at height 800, with this transaction. -/
def unlockingBlock : CBlock :=
  { nVersion := 3
    hashPrevBlock := 7
    hashMerkleRoot := CBlock.buildMerkleTree minerHashes { vtx := [minedCoinbase 800 0, spendLocked] }
    nTime := 60000
    nBits := 0x1d00ffff
    nNonce := 801
    vtx := [minedCoinbase 800 0, spendLocked] }

/-- The coins with the output. -/
def lockedView : CCoinsViewCache :=
  .setCoins ⟨∅, 7⟩ 1 { vout := [⟨5, lockScript 600 []⟩], nHeight := 1 }

/-- A node that interprets the scripts. -/
def lockingNode : Node :=
  { minerNode mainParams ⟨3, 60000, 0⟩ with verifyScript := interpretScripts trustingEnv.crypto }

/-- The block is accepted, and spends what is locked by then. -/
theorem lockReached_of_connectBlock_sample :
    ∃ r, lockingNode.connectBlock unlockingBlock {}
        (unlockingBlock.indexEntry minerHashes :: versionThree) lockedView false = .accept r ∧
      ∃ q, lockingNode.runTxs unlockingBlock {}
          (unlockingBlock.indexEntry minerHashes :: versionThree) lockedView [minedCoinbase 800 0] =
          .accept q ∧
        ∀ (i : Nat) (txin : CTxIn), spendLocked.vin[i]? = some txin → ∃ coins,
          q.view.getCoins txin.prevout.hash = some coins ∧ ∀ n : Int, n.natAbs < 2 ^ 64 →
            LockedBy n txin.scriptSig (coins.outAt txin.prevout.n.toNat).scriptPubKey →
              LockReached n 800 60000 := by
  have hsome : (lockingNode.connectBlock unlockingBlock {}
      (unlockingBlock.indexEntry minerHashes :: versionThree) lockedView false).result.isSome =
      true := by decide +kernel
  obtain ⟨r, hresult⟩ := Option.isSome_iff_exists.mp hsome
  have hconnect := Verdict.result_eq_some.mp hresult
  have haccept : lockingNode.contextCheck unlockingBlock {} versionThree none = .accept () := by
    decide +kernel
  have hmajority : isSuperMajority 3 versionThree 750 1000 = true := by decide +kernel
  have hlength : versionThree.length = 800 := List.length_replicate
  have hvtx : unlockingBlock.vtx = [minedCoinbase 800 0] ++ spendLocked :: [] := rfl
  have hreached := lockReached_of_connectBlock rfl (Nat.zero_le _) (by decide) hmajority haccept
    (by decide) hconnect hvtx rfl
  rw [hlength] at hreached
  exact ⟨r, hconnect, hreached⟩

end Bitmark

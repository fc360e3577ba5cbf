import Mathlib.Algebra.BigOperators.Group.List.Lemmas
import Mathlib.Algebra.Order.BigOperators.Group.List
import Mathlib.Data.List.DropRight
import Mathlib.Data.List.GetD
import Bitmark.Primitives.Transaction
import Bitmark.Script.Script

/-!
# Unspent outputs of a transaction

`CCoins` of `src/coins.h:68`: the outputs of one transaction with the spent ones nulled, cut
after the last unspent one, and the metadata an undo record has to keep once the last of them
is spent. What a coins entry means is the partial function from positions to unspent outputs,
`CCoins.unspent`, with that metadata.
-/

namespace Bitmark

/-- `CCoins::Cleanup`, `src/coins.h:93`. -/
def cleanup (vout : List CTxOut) : List CTxOut := vout.rdropWhile CTxOut.isNull

/-- `CCoins::ClearUnspendable`, `src/coins.h:100`. -/
def clearUnspendable (vout : List CTxOut) : List CTxOut :=
  cleanup (vout.map fun txout ↦ if isUnspendable txout.scriptPubKey then .null else txout)

/-- `CCoins`; the defaults are those of its empty constructor. -/
structure CCoins where
  fCoinBase : Bool := false
  vout : List CTxOut := []
  nHeight : Int := 0
  nVersion : BitVec 32 := 0
deriving DecidableEq, Repr

/-- `CTxInUndo`, `src/core.h:660`. Its `unsigned` height is written from and read back into an
`int`, which leaves the value alone. -/
structure CTxInUndo where
  txout : CTxOut
  fCoinBase : Bool := false
  nHeight : Int := 0
  nVersion : BitVec 32 := 0
deriving DecidableEq, Repr

namespace CCoins

/-- `CCoins(const CTransaction&, int)`, `src/coins.h:85`. -/
def ofTransaction (tx : CTransaction) (nHeightIn : Int) : CCoins :=
  ⟨tx.isCoinBase, clearUnspendable tx.vout, nHeightIn, tx.nVersion⟩

/-- `CCoins::IsPruned`. -/
def isPruned (coins : CCoins) : Bool := coins.vout.all CTxOut.isNull

/-- The output at a position, null outside the vector. -/
def outAt (coins : CCoins) (i : Nat) : CTxOut := coins.vout.getD i .null

/-- `CCoins::IsAvailable`. -/
def isAvailable (coins : CCoins) (nPos : Nat) : Bool :=
  nPos < coins.vout.length && !(coins.outAt nPos).isNull

/-- `operator==`: pruned coins are equal whatever else they hold. -/
def beq (a b : CCoins) : Bool :=
  (a.isPruned && b.isPruned) ||
    (a.fCoinBase == b.fCoinBase && a.nHeight == b.nHeight && a.nVersion == b.nVersion &&
      a.vout == b.vout)

/-- `CCoins::Spend(const COutPoint&, CTxInUndo&)`, `src/coins.cpp:31`. The undo record carries
the metadata only when nothing is left. -/
def spend (coins : CCoins) (n : Nat) : Option (CCoins × CTxInUndo) :=
  if coins.vout.length ≤ n then none
  else if (coins.outAt n).isNull then none
  else
    let vout := cleanup (coins.vout.set n .null)
    let undo : CTxInUndo :=
      if vout.length = 0 then
        { txout := coins.outAt n
          fCoinBase := coins.fCoinBase
          nHeight := coins.nHeight
          nVersion := coins.nVersion }
      else { txout := coins.outAt n }
    some ({ coins with vout }, undo)

end CCoins

/-! ### Outputs that count -/

/-- An output unless it is null. -/
def unspentOf (txout : CTxOut) : Option CTxOut := if txout.isNull then none else some txout

/-- The value an output adds to a total. -/
def unspentValue (txout : CTxOut) : Int := if txout.isNull then 0 else txout.nValue

@[simp] theorem unspentOf_null : unspentOf .null = none := rfl

@[simp] theorem unspentValue_null : unspentValue .null = 0 := rfl

theorem unspentOf_eq_none {txout : CTxOut} : unspentOf txout = none ↔ txout.isNull = true := by
  unfold unspentOf
  split <;> simp_all

theorem unspentOf_eq_some {txout o : CTxOut} :
    unspentOf txout = some o ↔ txout.isNull = false ∧ txout = o := by
  unfold unspentOf
  split <;> simp_all

private theorem cleanup_append (vout : List CTxOut) :
    ∃ nulls, vout = cleanup vout ++ nulls ∧ ∀ o ∈ nulls, o.isNull = true :=
  ⟨vout.rtakeWhile CTxOut.isNull, List.rdropWhile_append_rtakeWhile.symm,
    fun _ ho ↦ List.mem_rtakeWhile_imp ho⟩

/-- Trimming changes no unspent output. -/
theorem unspentOf_getD_cleanup (vout : List CTxOut) (i : Nat) :
    unspentOf ((cleanup vout).getD i .null) = unspentOf (vout.getD i .null) := by
  obtain ⟨nulls, heq, hnulls⟩ := cleanup_append vout
  conv_rhs => rw [heq]
  by_cases hi : i < (cleanup vout).length
  · rw [List.getD_append _ _ _ _ hi]
  · rw [List.getD_append_right _ _ _ _ (by omega), List.getD_eq_default _ _ (by omega),
      unspentOf_null, eq_comm, unspentOf_eq_none]
    by_cases hn : i - (cleanup vout).length < nulls.length
    · rw [List.getD_eq_getElem _ _ hn]
      exact hnulls _ (List.getElem_mem hn)
    · rw [List.getD_eq_default _ _ (by omega)]
      rfl

/-- Trimming does not change the value. -/
theorem sum_cleanup (vout : List CTxOut) :
    ((cleanup vout).map unspentValue).sum = (vout.map unspentValue).sum := by
  obtain ⟨nulls, heq, hnulls⟩ := cleanup_append vout
  conv_rhs => rw [heq]
  have hzero : (nulls.map unspentValue).sum = 0 := by
    apply List.sum_eq_zero
    simp only [List.mem_map]
    rintro x ⟨o, ho, rfl⟩
    simp [unspentValue, hnulls o ho]
  rw [List.map_append, List.sum_append, hzero, add_zero]

private theorem length_cleanup_of_all {vout : List CTxOut}
    (h : (cleanup vout).all CTxOut.isNull = true) : (cleanup vout).length = 0 := by
  rw [List.length_eq_zero_iff]
  by_contra hne
  exact List.rdropWhile_last_not CTxOut.isNull _ hne (List.all_eq_true.mp h _ (List.getLast_mem hne))

namespace CCoins

/-- The unspent output at a position. -/
def unspent (coins : CCoins) (i : Nat) : Option CTxOut := unspentOf (coins.outAt i)

/-- The value of the unspent outputs. -/
def total (coins : CCoins) : Int := (coins.vout.map unspentValue).sum

theorem isAvailable_eq_isSome (coins : CCoins) (n : Nat) :
    coins.isAvailable n = (coins.unspent n).isSome := by
  unfold isAvailable unspent unspentOf outAt
  by_cases hn : n < coins.vout.length
  · cases hnull : (coins.vout.getD n .null).isNull <;> simp [hn]
  · rw [List.getD_eq_default _ _ (by omega)]
    simp [hn]

/-- An entry is pruned when no position holds an unspent output. -/
theorem isPruned_iff {coins : CCoins} : coins.isPruned = true ↔ ∀ i, coins.unspent i = none := by
  simp only [isPruned, List.all_eq_true, unspent, unspentOf_eq_none, outAt]
  constructor
  · intro h i
    by_cases hi : i < coins.vout.length
    · rw [List.getD_eq_getElem _ _ hi]
      exact h _ (List.getElem_mem hi)
    · rw [List.getD_eq_default _ _ (by omega)]
      rfl
  · intro h o ho
    obtain ⟨i, hi, rfl⟩ := List.getElem_of_mem ho
    have := h i
    rwa [List.getD_eq_getElem _ _ hi] at this

@[simp] theorem unspent_empty (i : Nat) : ({} : CCoins).unspent i = none := rfl

@[simp] theorem isPruned_empty : ({} : CCoins).isPruned = true := rfl

/-- A pruned entry holds no value. -/
theorem total_of_isPruned {coins : CCoins} (h : coins.isPruned = true) : coins.total = 0 := by
  apply List.sum_eq_zero
  simp only [List.mem_map]
  rintro x ⟨o, ho, rfl⟩
  have hnull := List.all_eq_true.mp h o ho
  simp [unspentValue, hnull]

/-- Without negative outputs an entry has no negative value. -/
theorem total_nonneg {coins : CCoins} (h : ∀ i o, coins.unspent i = some o → 0 ≤ o.nValue) :
    0 ≤ coins.total := by
  refine List.sum_nonneg fun x hx ↦ ?_
  obtain ⟨o, ho, rfl⟩ := List.mem_map.mp hx
  obtain ⟨i, hi, rfl⟩ := List.getElem_of_mem ho
  cases hnull : coins.vout[i].isNull
  · have hunspent : coins.unspent i = some coins.vout[i] := by
      rw [unspent, outAt, List.getD_eq_getElem _ _ hi, unspentOf_eq_some]
      exact ⟨hnull, rfl⟩
    simpa [unspentValue, hnull] using h i _ hunspent
  · simp [unspentValue, hnull]

/-- What spending does to an entry: it needs an unspent output, removes that one, leaves the
metadata, and records the metadata when the entry is pruned by it. -/
theorem spend_eq_some {coins coins' : CCoins} {undo : CTxInUndo} {n : Nat}
    (h : coins.spend n = some (coins', undo)) :
    coins.unspent n = some undo.txout ∧
      (∀ i, coins'.unspent i = if i = n then none else coins.unspent i) ∧
      coins'.total = coins.total - undo.txout.nValue ∧
      coins'.fCoinBase = coins.fCoinBase ∧ coins'.nHeight = coins.nHeight ∧
      coins'.nVersion = coins.nVersion ∧
      (coins'.isPruned = true → undo.fCoinBase = coins.fCoinBase ∧ undo.nHeight = coins.nHeight ∧
        undo.nVersion = coins.nVersion) ∧
      (coins'.isPruned = false → undo.nHeight = 0) := by
  unfold spend at h
  split at h
  · cases h
  next hlen =>
  split at h
  · cases h
  next hnull =>
  obtain ⟨rfl, rfl⟩ := Prod.mk.inj (Option.some.inj h)
  have hn : n < coins.vout.length := by omega
  have hnull' : (coins.outAt n).isNull = false := by simpa using hnull
  have hget : coins.outAt n = coins.vout[n] := List.getD_eq_getElem _ _ hn
  have htxout : ∀ (p : Prop) [Decidable p] (a b : CTxInUndo), a.txout = coins.outAt n →
      b.txout = coins.outAt n → (if p then a else b).txout = coins.outAt n := by
    intro p _ a b ha hb
    split
    · exact ha
    · exact hb
  refine ⟨?_, fun i ↦ ?_, ?_, rfl, rfl, rfl, ?_, ?_⟩
  · rw [unspent, unspentOf_eq_some]
    exact ⟨hnull', (htxout _ _ _ rfl rfl).symm⟩
  · simp only [unspent, outAt, unspentOf_getD_cleanup]
    by_cases hi : i = n
    · subst hi
      simp [List.getD, hn]
    · simp [List.getD, List.getElem?_set_ne (Ne.symm hi), hi]
  · rw [htxout _ _ _ rfl rfl]
    simp only [total, sum_cleanup, List.map_set, List.sum_set', List.length_map, hn, dif_pos,
      List.getElem_map, unspentValue_null, hget]
    rw [hget] at hnull'
    simp only [unspentValue, hnull', Bool.false_eq_true, if_false]
    ring
  · intro hpruned
    have hnil : (cleanup (coins.vout.set n .null)).length = 0 := length_cleanup_of_all hpruned
    rw [if_pos hnil]
    exact ⟨rfl, rfl, rfl⟩
  · intro hpruned
    rw [if_neg]
    intro hnil
    rw [isPruned, List.length_eq_zero_iff.mp hnil] at hpruned
    cases hpruned

/-- Spending succeeds on every unspent output. -/
theorem spend_of_unspent {coins : CCoins} {n : Nat} {o : CTxOut} (h : coins.unspent n = some o) :
    ∃ coins' undo, coins.spend n = some (coins', undo) := by
  have havail : coins.isAvailable n = true := by
    rw [isAvailable_eq_isSome, h]
    rfl
  simp only [isAvailable, Bool.and_eq_true, decide_eq_true_eq, Bool.not_eq_true'] at havail
  unfold spend
  rw [if_neg (by omega), if_neg (by simp [havail.2])]
  exact ⟨_, _, rfl⟩

/-- The unspent outputs of a fresh entry are the spendable outputs of the transaction. -/
theorem unspent_ofTransaction (tx : CTransaction) (nHeight : Int) (i : Nat) :
    (ofTransaction tx nHeight).unspent i =
      (tx.vout[i]?).bind fun o ↦ if isUnspendable o.scriptPubKey then none else unspentOf o := by
  simp only [unspent, outAt, ofTransaction, clearUnspendable, unspentOf_getD_cleanup]
  cases h : tx.vout[i]? with
  | none => simp [List.getD, h]
  | some o =>
    simp only [List.getD_eq_getElem?_getD, List.getElem?_map, h, Option.map_some,
      Option.getD_some, Option.bind_some]
    split <;> rfl

/-- A fresh entry holds at most the value of the transaction's outputs. -/
theorem total_ofTransaction_le (tx : CTransaction) (nHeight : Int)
    (h : ∀ o ∈ tx.vout, 0 ≤ o.nValue) :
    0 ≤ (ofTransaction tx nHeight).total ∧ (ofTransaction tx nHeight).total ≤ sumValues tx.vout := by
  simp only [total, ofTransaction, clearUnspendable, sum_cleanup, List.map_map, sumValues]
  generalize tx.vout = vout at h ⊢
  induction vout with
  | nil => simp
  | cons o vout ih =>
    simp only [List.forall_mem_cons] at h
    have hrest := ih h.2
    simp only [List.map_cons, List.sum_cons, Function.comp]
    have hone : 0 ≤ unspentValue (if isUnspendable o.scriptPubKey then .null else o) ∧
        unspentValue (if isUnspendable o.scriptPubKey then .null else o) ≤ o.nValue := by
      split
      · simpa using h.1
      · unfold unspentValue
        split <;> omega
    constructor <;> linarith [hrest.1, hrest.2, hone.1, hone.2]

end CCoins

/-! ### Vectors with exact nulls -/

/-- Every null output is the one `SetNull` writes. -/
def ExactNulls (vout : List CTxOut) : Prop := ∀ o ∈ vout, o.isNull = true → o = .null

theorem ExactNulls.sublist {vout vout' : List CTxOut} (h : ExactNulls vout)
    (hsub : vout'.Sublist vout) : ExactNulls vout' :=
  fun o ho ↦ h o (hsub.subset ho)

theorem cleanup_sublist (vout : List CTxOut) : (cleanup vout).Sublist vout :=
  (List.rdropWhile_prefix CTxOut.isNull vout).sublist

private theorem ExactNulls.getD {vout : List CTxOut} (h : ExactNulls vout) {i : Nat}
    (hnull : (vout.getD i .null).isNull = true) : vout.getD i .null = .null := by
  by_cases hi : i < vout.length
  · rw [List.getD_eq_getElem _ _ hi] at hnull ⊢
    exact h _ (List.getElem_mem hi) hnull
  · exact List.getD_eq_default _ _ (by omega)

private theorem length_cleanup_le {a b : List CTxOut}
    (h : ∀ i, (cleanup a).getD i .null = (cleanup b).getD i .null) :
    (cleanup b).length ≤ (cleanup a).length := by
  by_contra hlt
  have hne : cleanup b ≠ [] := fun hnil ↦ by simp [hnil] at hlt
  have hlast := List.rdropWhile_last_not CTxOut.isNull b hne
  have hat := h ((cleanup b).length - 1)
  rw [List.getD_eq_default _ _ (by omega), List.getD_eq_getElem _ _ (by omega)] at hat
  change ¬ ((cleanup b).getLast hne).isNull = true at hlast
  rw [List.getLast_eq_getElem, ← hat] at hlast
  exact hlast rfl

/-- Vectors with exact nulls and the same unspent outputs are trimmed to the same vector. -/
theorem cleanup_eq_of_unspent {a b : List CTxOut} (ha : ExactNulls a) (hb : ExactNulls b)
    (h : ∀ i, unspentOf (a.getD i .null) = unspentOf (b.getD i .null)) : cleanup a = cleanup b := by
  have hat : ∀ i, (cleanup a).getD i .null = (cleanup b).getD i .null := by
    intro i
    have hi := h i
    rw [← unspentOf_getD_cleanup a, ← unspentOf_getD_cleanup b] at hi
    cases hnull : unspentOf ((cleanup b).getD i .null) with
    | none =>
      rw [hnull] at hi
      rw [(ha.sublist (cleanup_sublist a)).getD (unspentOf_eq_none.mp hi),
        (hb.sublist (cleanup_sublist b)).getD (unspentOf_eq_none.mp hnull)]
    | some o =>
      rw [hnull] at hi
      rw [(unspentOf_eq_some.mp hi).2, (unspentOf_eq_some.mp hnull).2]
  have hlen : (cleanup a).length = (cleanup b).length :=
    le_antisymm (length_cleanup_le fun i ↦ (hat i).symm) (length_cleanup_le hat)
  refine List.ext_getElem hlen fun i hi hi' ↦ ?_
  have := hat i
  rwa [List.getD_eq_getElem _ _ hi, List.getD_eq_getElem _ _ hi'] at this

/-- Without negative outputs a fresh entry has exact nulls. -/
theorem CCoins.exactNulls_ofTransaction {tx : CTransaction} (h : ∀ o ∈ tx.vout, 0 ≤ o.nValue)
    (nHeight : Int) : ExactNulls (CCoins.ofTransaction tx nHeight).vout := by
  refine ExactNulls.sublist (fun o ho hnull ↦ ?_) (cleanup_sublist _)
  obtain ⟨o', ho', rfl⟩ := List.mem_map.mp ho
  by_cases hs : isUnspendable o'.scriptPubKey = true
  · rw [if_pos hs]
  · rw [if_neg hs] at hnull
    have hneg : o'.nValue = -1 := by simpa [CTxOut.isNull] using hnull
    have := h o' ho'
    omega

/-- Spending keeps nulls exact. -/
theorem CCoins.exactNulls_spend {coins coins' : CCoins} {undo : CTxInUndo} {n : Nat}
    (hcoins : ExactNulls coins.vout) (h : coins.spend n = some (coins', undo)) :
    ExactNulls coins'.vout := by
  unfold CCoins.spend at h
  split at h
  · cases h
  split at h
  · cases h
  obtain ⟨rfl, -⟩ := Prod.mk.inj (Option.some.inj h)
  refine ExactNulls.sublist (fun o ho hnull ↦ ?_) (cleanup_sublist _)
  rcases List.mem_or_eq_of_mem_set ho with ho | rfl
  · exact hcoins o ho hnull
  · rfl

/-- Clearing the unspendable outputs of an entry that shares its unspent outputs with a fresh one
gives the fresh vector. -/
theorem CCoins.clearUnspendable_eq {coins : CCoins} {tx : CTransaction} {nHeight : Int}
    (hexact : ExactNulls coins.vout) (htx : ∀ o ∈ tx.vout, 0 ≤ o.nValue)
    (h : ∀ i, coins.unspent i = (CCoins.ofTransaction tx nHeight).unspent i) :
    clearUnspendable coins.vout = (CCoins.ofTransaction tx nHeight).vout := by
  have hspendable : ∀ o ∈ coins.vout, isUnspendable o.scriptPubKey = false := by
    intro o ho
    cases hnull : o.isNull
    · obtain ⟨i, hi, rfl⟩ := List.getElem_of_mem ho
      have hi' := h i
      rw [CCoins.unspent_ofTransaction, CCoins.unspent, CCoins.outAt,
        List.getD_eq_getElem _ _ hi, unspentOf_eq_some.mpr ⟨hnull, rfl⟩] at hi'
      obtain ⟨o', -, ho'⟩ := Option.bind_eq_some_iff.mp hi'.symm
      split at ho'
      · cases ho'
      · next hs =>
        rw [← (unspentOf_eq_some.mp ho').2]
        simpa using hs
    · rw [hexact o ho hnull]
      rfl
  have hid : (coins.vout.map fun o ↦ if isUnspendable o.scriptPubKey then .null else o) =
      coins.vout := by
    refine (List.map_congr_left fun o ho ↦ ?_).trans (List.map_id _)
    simp [hspendable o ho]
  rw [clearUnspendable, hid]
  have hfresh : cleanup (CCoins.ofTransaction tx nHeight).vout =
      (CCoins.ofTransaction tx nHeight).vout := List.rdropWhile_idempotent CTxOut.isNull _
  rw [← hfresh]
  exact cleanup_eq_of_unspent hexact (CCoins.exactNulls_ofTransaction htx nHeight) h

end Bitmark

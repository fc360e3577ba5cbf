import Bitmark.Coins.View

/-!
# What a view means

A coins entry with an unspent output is known by that output function and its metadata; an
entry without one is the same as no entry. `CCoinsViewCache.meaning` is this abstraction of the
view, and spending is described on it.
-/

namespace Bitmark

/-- The part of a coins entry that is not pruned away. -/
structure UnspentCoins where
  fCoinBase : Bool
  nHeight : Int
  nVersion : BitVec 32
  outputs : Nat → Option CTxOut

/-- What an entry means: nothing once it is pruned. -/
def CCoins.meaning (coins : CCoins) : Option UnspentCoins :=
  if coins.isPruned then none
  else some ⟨coins.fCoinBase, coins.nHeight, coins.nVersion, coins.unspent⟩

/-- What a view means. -/
def CCoinsViewCache.meaning (view : CCoinsViewCache) (txid : Uint256) : Option UnspentCoins :=
  (view.getCoins txid).bind CCoins.meaning

namespace CCoins

@[simp] theorem meaning_eq_none {coins : CCoins} :
    coins.meaning = none ↔ coins.isPruned = true := by
  unfold meaning
  split <;> simp_all

theorem meaning_of_not_pruned {coins : CCoins} (h : ¬ coins.isPruned = true) :
    coins.meaning =
      some ⟨coins.fCoinBase, coins.nHeight, coins.nVersion, coins.unspent⟩ := if_neg h

@[simp] theorem meaning_empty : ({} : CCoins).meaning = none := rfl

/-- Entries with the same meaning have the same unspent outputs. -/
theorem unspent_of_meaning {coins coins' : CCoins} (h : coins.meaning = coins'.meaning) :
    coins.unspent = coins'.unspent := by
  funext i
  by_cases hp : coins.isPruned = true
  · have hp' : coins'.isPruned = true := by rwa [← meaning_eq_none, ← h, meaning_eq_none]
    rw [isPruned_iff.mp hp, isPruned_iff.mp hp']
  · have hp' : ¬ coins'.isPruned = true := by rwa [← meaning_eq_none, ← h, meaning_eq_none]
    rw [meaning, meaning, if_neg hp, if_neg hp'] at h
    exact congrFun (congrArg UnspentCoins.outputs (Option.some.inj h)) i

theorem isPruned_of_meaning {coins coins' : CCoins} (h : coins.meaning = coins'.meaning) :
    coins.isPruned = coins'.isPruned := by
  rw [Bool.eq_iff_iff, ← meaning_eq_none, ← meaning_eq_none, h]

/-- Unpruned entries with the same meaning have the same metadata. -/
theorem metadata_of_meaning {coins coins' : CCoins} (h : coins.meaning = coins'.meaning)
    (hp : coins.isPruned = false) : coins.fCoinBase = coins'.fCoinBase ∧
      coins.nHeight = coins'.nHeight ∧ coins.nVersion = coins'.nVersion := by
  have hp' := isPruned_of_meaning h
  rw [hp] at hp'
  rw [meaning, meaning, if_neg (by simp [hp]), if_neg (by simp [← hp'])] at h
  have heq := Option.some.inj h
  exact ⟨congrArg UnspentCoins.fCoinBase heq, congrArg UnspentCoins.nHeight heq,
    congrArg UnspentCoins.nVersion heq⟩

/-- Entries with the same metadata and the same unspent outputs mean the same. -/
theorem meaning_congr {coins coins' : CCoins} (hcb : coins.fCoinBase = coins'.fCoinBase)
    (hheight : coins.nHeight = coins'.nHeight) (hversion : coins.nVersion = coins'.nVersion)
    (hunspent : ∀ i, coins.unspent i = coins'.unspent i) : coins.meaning = coins'.meaning := by
  have hfun : coins.unspent = coins'.unspent := funext hunspent
  have hp : coins.isPruned = coins'.isPruned := by
    rw [Bool.eq_iff_iff, isPruned_iff, isPruned_iff, hfun]
  rw [meaning, meaning, hp, hcb, hheight, hversion, hfun]

end CCoins

namespace CCoinsViewCache

/-- The entry of a transaction, or an empty one. -/
def coinsAt (view : CCoinsViewCache) (txid : Uint256) : CCoins := (view.getCoins txid).getD {}

@[simp] theorem meaning_coinsAt (view : CCoinsViewCache) (txid : Uint256) :
    (view.coinsAt txid).meaning = view.meaning txid := by
  unfold coinsAt meaning
  cases view.getCoins txid <;> rfl

/-- Replacing an entry replaces its meaning. -/
theorem meaning_setCoins (view : CCoinsViewCache) (txid : Uint256) (coins : CCoins) :
    (view.setCoins txid coins).meaning = Function.update view.meaning txid coins.meaning := by
  funext txid'
  by_cases h : txid' = txid
  · subst h
    simp [meaning]
  · rw [Function.update_of_ne h, meaning, getCoins_setCoins_of_ne _ h, meaning]

@[simp] theorem meaning_setBestBlock (view : CCoinsViewCache) (hash : Uint256) :
    (view.setBestBlock hash).meaning = view.meaning := rfl

/-- An entry means nothing when it holds no unspent output. -/
theorem meaning_eq_none {view : CCoinsViewCache} {txid : Uint256} :
    view.meaning txid = none ↔ view.PrunedAt txid := by
  unfold meaning PrunedAt
  cases view.getCoins txid <;> simp

/-- Views that mean the same have the same unspent outputs. -/
theorem unspent_of_meaning {view view' : CCoinsViewCache} {txid : Uint256}
    (h : view.meaning txid = view'.meaning txid) : view.unspent txid = view'.unspent txid := by
  have hat : ∀ v : CCoinsViewCache, v.unspent txid = (v.coinsAt txid).unspent := by
    intro v
    funext i
    unfold unspent coinsAt
    cases v.getCoins txid <;> rfl
  rw [hat, hat]
  exact CCoins.unspent_of_meaning (by simpa using h)

/-- What an undo record can bring back: entries with unspent outputs have a height other than
zero, which marks records without metadata, and positions that fit in 32 bits with one to spare. -/
structure Restorable (view : CCoinsViewCache) : Prop where
  height : ∀ txid coins, view.meaning txid = some coins → coins.nHeight ≠ 0
  position : ∀ txid i o, view.unspent txid i = some o → i + 1 < 2 ^ 32

/-- A successful spend on the meaning of the view. -/
theorem spendInput_meaning {view view' : CCoinsViewCache} {txin : CTxIn} {undo : CTxInUndo}
    (h : view.spendInput txin = some (view', undo)) :
    ∃ coins coins', view.getCoins txin.prevout.hash = some coins ∧
      coins.spend txin.prevout.n.toNat = some (coins', undo) ∧
      view'.meaning = Function.update view.meaning txin.prevout.hash coins'.meaning := by
  simp only [spendInput, Option.bind_eq_bind, Option.bind_eq_some_iff, Prod.exists,
    Option.some.injEq, Prod.mk.injEq] at h
  obtain ⟨coins, hcoins, coins', undo', hspend, rfl, rfl⟩ := h
  exact ⟨coins, coins', hcoins, hspend, meaning_setCoins _ _ _⟩

/-- Spending leaves a view restorable. -/
theorem Restorable.spendInput {view view' : CCoinsViewCache} {txin : CTxIn} {undo : CTxInUndo}
    (hview : view.Restorable) (h : view.spendInput txin = some (view', undo)) :
    view'.Restorable := by
  obtain ⟨-, hunspent, -⟩ := spendInput_eq_some h
  obtain ⟨coins, coins', hcoins, hspend, hmeaning⟩ := spendInput_meaning h
  obtain ⟨hfound, hothers, -, hcb, hheight, hversion, -⟩ := CCoins.spend_eq_some hspend
  refine ⟨fun txid e he ↦ ?_, fun txid i o ho ↦ ?_⟩
  · rw [hmeaning] at he
    by_cases htxid : txid = txin.prevout.hash
    · subst htxid
      rw [Function.update_self] at he
      have hmeans : view.meaning txin.prevout.hash = coins.meaning := by
        rw [meaning, hcoins, Option.bind_some]
      have hp : ¬ coins.isPruned = true := fun hp ↦ by
        rw [CCoins.isPruned_iff.mp hp] at hfound
        cases hfound
      unfold CCoins.meaning at he
      split at he
      · cases he
      · rw [← Option.some.inj he]
        change coins'.nHeight ≠ 0
        rw [hheight]
        exact hview.height _ _ (hmeans.trans (CCoins.meaning_of_not_pruned hp))
    · rw [Function.update_of_ne htxid] at he
      exact hview.height _ _ he
  · rw [hunspent] at ho
    split at ho
    · cases ho
    · exact hview.position _ _ _ ho

theorem Restorable.spendInputs {view view' : CCoinsViewCache} {vin : List CTxIn} {txundo : CTxUndo}
    (hview : view.Restorable) (h : view.spendInputs vin = some (view', txundo)) :
    view'.Restorable := by
  induction vin generalizing view txundo with
  | nil =>
    obtain ⟨rfl, -⟩ := Prod.mk.inj (Option.some.inj h)
    exact hview
  | cons txin vin ih =>
    simp only [CCoinsViewCache.spendInputs, Option.bind_eq_bind, Option.bind_eq_some_iff,
      Prod.exists, Option.some.injEq, Prod.mk.injEq] at h
    obtain ⟨view₁, undo, hone, view₂, vprevout, hrest, rfl, rfl⟩ := h
    exact ih (hview.spendInput hone) hrest

/-- A new entry leaves a view restorable if it has a height and its positions fit. -/
theorem Restorable.setCoins {view : CCoinsViewCache} {coins : CCoins} (hview : view.Restorable)
    (hheight : coins.nHeight ≠ 0) (hlen : ∀ i o, coins.unspent i = some o → i + 1 < 2 ^ 32)
    (txid : Uint256) : (view.setCoins txid coins).Restorable := by
  refine ⟨fun txid' e he ↦ ?_, fun txid' i o ho ↦ ?_⟩
  · rw [meaning_setCoins] at he
    by_cases htxid : txid' = txid
    · subst htxid
      rw [Function.update_self] at he
      unfold CCoins.meaning at he
      split at he
      · cases he
      · rw [← Option.some.inj he]
        exact hheight
    · rw [Function.update_of_ne htxid] at he
      exact hview.height _ _ he
  · unfold unspent at ho
    by_cases htxid : txid' = txid
    · subst htxid
      rw [getCoins_setCoins_self, Option.bind_some] at ho
      exact hlen i o ho
    · rw [getCoins_setCoins_of_ne _ htxid] at ho
      exact hview.position _ _ _ ho

/-- Applying a transaction at a height other than zero leaves a view restorable. -/
theorem Restorable.updateCoins {view view' : CCoinsViewCache} {tx : CTransaction} {nHeight : Int}
    {txid : Uint256} {txundo : CTxUndo} (hview : view.Restorable) (hheight : nHeight ≠ 0)
    (hlen : tx.vout.length < 2 ^ 32) (h : view.updateCoins tx nHeight txid = some (view', txundo)) :
    view'.Restorable := by
  simp only [CCoinsViewCache.updateCoins, Option.bind_eq_bind, Option.bind_eq_some_iff, Prod.exists,
    Option.some.injEq, Prod.mk.injEq] at h
  obtain ⟨view₁, vprevout, hspend, rfl, rfl⟩ := h
  refine (hview.spendInputs hspend).setCoins hheight (fun i o ho ↦ ?_) txid
  rw [CCoins.unspent_ofTransaction] at ho
  obtain ⟨o', ho', -⟩ := Option.bind_eq_some_iff.mp ho
  have hi := (List.getElem?_eq_some_iff.mp ho').1
  omega

/-- The entry of this transaction has exact nulls. -/
def ExactAt (view : CCoinsViewCache) (txid : Uint256) : Prop := ExactNulls (view.coinsAt txid).vout

theorem exactAt_setCoins {view : CCoinsViewCache} {txid txid' : Uint256} {coins : CCoins}
    (hcoins : txid' = txid → ExactNulls coins.vout) (h : txid' ≠ txid → view.ExactAt txid') :
    (view.setCoins txid coins).ExactAt txid' := by
  unfold ExactAt coinsAt
  by_cases htxid : txid' = txid
  · subst htxid
    rw [getCoins_setCoins_self]
    exact hcoins rfl
  · rw [getCoins_setCoins_of_ne _ htxid]
    exact h htxid

theorem ExactAt.spendInputs {view view' : CCoinsViewCache} {vin : List CTxIn} {txundo : CTxUndo}
    {txid : Uint256} (hview : view.ExactAt txid)
    (h : view.spendInputs vin = some (view', txundo)) : view'.ExactAt txid := by
  induction vin generalizing view txundo with
  | nil =>
    obtain ⟨rfl, -⟩ := Prod.mk.inj (Option.some.inj h)
    exact hview
  | cons txin vin ih =>
    simp only [CCoinsViewCache.spendInputs, spendInput, Option.bind_eq_bind,
      Option.bind_eq_some_iff, Prod.exists, Option.some.injEq, Prod.mk.injEq] at h
    obtain ⟨view₁, undo, ⟨coins, hcoins, coins', _, hspend, rfl, rfl⟩, view₂, vprevout, hrest, rfl,
      rfl⟩ := h
    refine ih (exactAt_setCoins (fun htxid ↦ ?_) fun _ ↦ hview) hrest
    subst htxid
    refine CCoins.exactNulls_spend ?_ hspend
    rwa [ExactAt, coinsAt, hcoins] at hview

/-- Applying a transaction keeps nulls exact, and starts its own entry with exact nulls. -/
theorem exactAt_updateCoins {view view' : CCoinsViewCache} {tx : CTransaction} {nHeight : Int}
    {txid txid' : Uint256} {txundo : CTxUndo} (htx : ∀ o ∈ tx.vout, 0 ≤ o.nValue)
    (hview : txid' ≠ txid → view.ExactAt txid')
    (h : view.updateCoins tx nHeight txid = some (view', txundo)) : view'.ExactAt txid' := by
  simp only [CCoinsViewCache.updateCoins, Option.bind_eq_bind, Option.bind_eq_some_iff, Prod.exists,
    Option.some.injEq, Prod.mk.injEq] at h
  obtain ⟨view₁, vprevout, hspend, rfl, rfl⟩ := h
  exact exactAt_setCoins (fun _ ↦ CCoins.exactNulls_ofTransaction htx nHeight)
    fun hne ↦ (hview hne).spendInputs hspend

end CCoinsViewCache

end Bitmark

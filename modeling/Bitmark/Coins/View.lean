import Bitmark.Coins.Coins
import Bitmark.Lib.FinmapSum

/-!
# The view of unspent outputs

`CCoinsViewCache` of `src/coins.h:322` as one flat map from transaction ids to coins, with the
queries of `src/coins.cpp` and `UpdateCoins` (`src/main.cpp:1882`). A failed assertion or an
access to a missing entry is `none`.
-/

namespace Bitmark

/-- `CCoinsViewCache`: what the layers below a cache hold, read through it. -/
structure CCoinsViewCache where
  cacheCoins : Finmap fun _ : Uint256 ↦ CCoins
  hashBlock : Uint256

/-- `CTxUndo`. -/
abbrev CTxUndo := List CTxInUndo

/-- The inputs `UpdateCoins` marks spent: none of a coinbase. -/
def CTransaction.spends (tx : CTransaction) : List CTxIn := if tx.isCoinBase then [] else tx.vin

namespace CCoinsViewCache

/-- `GetCoins(txid)`, with `none` for the failed assertion. -/
def getCoins (view : CCoinsViewCache) (txid : Uint256) : Option CCoins :=
  view.cacheCoins.lookup txid

/-- `HaveCoins`. -/
def haveCoins (view : CCoinsViewCache) (txid : Uint256) : Bool := (view.getCoins txid).isSome

/-- `SetCoins`, and writes through the reference `GetCoins` returns. -/
def setCoins (view : CCoinsViewCache) (txid : Uint256) (coins : CCoins) : CCoinsViewCache :=
  { view with cacheCoins := view.cacheCoins.insert txid coins }

/-- `SetBestBlock`. -/
def setBestBlock (view : CCoinsViewCache) (hashBlock : Uint256) : CCoinsViewCache :=
  { view with hashBlock }

/-- `GetOutputFor`, `src/coins.cpp:122`. -/
def getOutputFor (view : CCoinsViewCache) (txin : CTxIn) : Option CTxOut := do
  let coins ← view.getCoins txin.prevout.hash
  if coins.isAvailable txin.prevout.n.toNat then some (coins.outAt txin.prevout.n.toNat) else none

/-- `GetValueIn`, `src/coins.cpp:129`: a plain `int64_t` sum. -/
def getValueIn (view : CCoinsViewCache) (tx : CTransaction) : Option Int :=
  if tx.isCoinBase then some 0
  else
    tx.vin.foldlM (fun nResult txin ↦ do
      let txout ← view.getOutputFor txin
      some (toInt64 (nResult + txout.nValue))) 0

/-- `HaveInputs`, `src/coins.cpp:141`. -/
def haveInputs (view : CCoinsViewCache) (tx : CTransaction) : Bool :=
  tx.isCoinBase || tx.vin.all fun txin ↦ (view.getOutputFor txin).isSome

/-- Mark one input spent, as `UpdateCoins` does through the reference. -/
def spendInput (view : CCoinsViewCache) (txin : CTxIn) : Option (CCoinsViewCache × CTxInUndo) := do
  let coins ← view.getCoins txin.prevout.hash
  let (coins, undo) ← coins.spend txin.prevout.n.toNat
  some (view.setCoins txin.prevout.hash coins, undo)

/-- The loop of `UpdateCoins` over the inputs. -/
def spendInputs (view : CCoinsViewCache) : List CTxIn → Option (CCoinsViewCache × CTxUndo)
  | [] => some (view, [])
  | txin :: vin => do
    let (view, undo) ← view.spendInput txin
    let (view, vprevout) ← view.spendInputs vin
    some (view, undo :: vprevout)

/-- `UpdateCoins`, `src/main.cpp:1882`. -/
def updateCoins (view : CCoinsViewCache) (tx : CTransaction) (nHeight : Int) (txhash : Uint256) :
    Option (CCoinsViewCache × CTxUndo) := do
  let (view, txundo) ← view.spendInputs tx.spends
  some (view.setCoins txhash (.ofTransaction tx nHeight), txundo)

/-! ### What a view means -/

@[simp] theorem getCoins_setCoins_self (view : CCoinsViewCache) (txid : Uint256)
    (coins : CCoins) : (view.setCoins txid coins).getCoins txid = some coins :=
  Finmap.lookup_insert _

theorem getCoins_setCoins_of_ne (view : CCoinsViewCache) {txid txid' : Uint256}
    (h : txid' ≠ txid) (coins : CCoins) :
    (view.setCoins txid coins).getCoins txid' = view.getCoins txid' :=
  Finmap.lookup_insert_of_ne _ h

@[simp] theorem hashBlock_setCoins (view : CCoinsViewCache) (txid : Uint256) (coins : CCoins) :
    (view.setCoins txid coins).hashBlock = view.hashBlock := rfl

@[simp] theorem getCoins_setBestBlock (view : CCoinsViewCache) (h txid : Uint256) :
    (view.setBestBlock h).getCoins txid = view.getCoins txid := rfl

/-- The unspent output at an outpoint. -/
def unspent (view : CCoinsViewCache) (txid : Uint256) (i : Nat) : Option CTxOut :=
  (view.getCoins txid).bind fun coins ↦ coins.unspent i

/-- The total value of the unspent outputs. -/
def total (view : CCoinsViewCache) : Int := view.cacheCoins.sumValues CCoins.total

/-- The value of the unspent outputs of one transaction. -/
def totalAt (view : CCoinsViewCache) (txid : Uint256) : Int :=
  view.cacheCoins.weightAt CCoins.total txid

theorem total_setCoins (view : CCoinsViewCache) (txid : Uint256) (coins : CCoins) :
    (view.setCoins txid coins).total = view.total - view.totalAt txid + coins.total :=
  Finmap.sumValues_insert _ _ _ _

@[simp] theorem total_setBestBlock (view : CCoinsViewCache) (h : Uint256) :
    (view.setBestBlock h).total = view.total := rfl

theorem totalAt_of_getCoins {view : CCoinsViewCache} {txid : Uint256} {coins : CCoins}
    (h : view.getCoins txid = some coins) : view.totalAt txid = coins.total :=
  Finmap.weightAt_of_lookup h

theorem totalAt_congr {view view' : CCoinsViewCache} {txid : Uint256}
    (h : view'.getCoins txid = view.getCoins txid) : view'.totalAt txid = view.totalAt txid := by
  unfold totalAt Finmap.weightAt
  rw [show view'.cacheCoins.lookup txid = view.cacheCoins.lookup txid from h]

/-- No unspent output of the view has a negative value. -/
def Nonneg (view : CCoinsViewCache) : Prop :=
  ∀ txid i o, view.unspent txid i = some o → 0 ≤ o.nValue

private theorem Nonneg.coins_nonneg {view : CCoinsViewCache} (h : view.Nonneg) (txid : Uint256)
    (coins : CCoins) (hcoins : view.cacheCoins.lookup txid = some coins) : 0 ≤ coins.total := by
  refine CCoins.total_nonneg fun i o ho ↦ h txid i o ?_
  simpa [CCoinsViewCache.unspent, getCoins, hcoins] using ho

theorem Nonneg.total_nonneg {view : CCoinsViewCache} (h : view.Nonneg) : 0 ≤ view.total :=
  Finmap.sumValues_nonneg h.coins_nonneg

/-- Without negative outputs one transaction holds at most the total. -/
theorem Nonneg.totalAt_le {view : CCoinsViewCache} (h : view.Nonneg) (txid : Uint256) :
    view.totalAt txid ≤ view.total :=
  Finmap.weightAt_le_sumValues h.coins_nonneg txid

/-- No unspent output of this transaction is in the view: `!HaveCoins || IsPruned`. -/
def PrunedAt (view : CCoinsViewCache) (txid : Uint256) : Prop :=
  ∀ coins, view.getCoins txid = some coins → coins.isPruned = true

theorem PrunedAt.unspent {view : CCoinsViewCache} {txid : Uint256} (h : view.PrunedAt txid)
    (i : Nat) : view.unspent txid i = none := by
  unfold CCoinsViewCache.unspent
  cases hc : view.getCoins txid with
  | none => rfl
  | some coins => exact CCoins.isPruned_iff.mp (h coins hc) i

theorem prunedAt_iff {view : CCoinsViewCache} {txid : Uint256} :
    view.PrunedAt txid ↔ ∀ i, view.unspent txid i = none := by
  refine ⟨PrunedAt.unspent, fun h coins hcoins ↦ CCoins.isPruned_iff.mpr fun i ↦ ?_⟩
  simpa [CCoinsViewCache.unspent, hcoins] using h i

theorem PrunedAt.totalAt {view : CCoinsViewCache} {txid : Uint256} (h : view.PrunedAt txid) :
    view.totalAt txid = 0 := by
  cases hc : view.getCoins txid with
  | none => exact Finmap.weightAt_of_none hc
  | some coins => rw [totalAt_of_getCoins hc, CCoins.total_of_isPruned (h coins hc)]

/-- `GetOutputFor` finds exactly the unspent outputs. -/
theorem getOutputFor_eq (view : CCoinsViewCache) (txin : CTxIn) :
    view.getOutputFor txin = view.unspent txin.prevout.hash txin.prevout.n.toNat := by
  unfold getOutputFor unspent
  cases view.getCoins txin.prevout.hash with
  | none => rfl
  | some coins =>
    change (if coins.isAvailable txin.prevout.n.toNat then
      some (coins.outAt txin.prevout.n.toNat) else none) = coins.unspent txin.prevout.n.toNat
    rw [CCoins.isAvailable_eq_isSome]
    cases h : coins.unspent txin.prevout.n.toNat with
    | none => rfl
    | some o =>
      rw [CCoins.unspent, unspentOf_eq_some] at h
      simp [h.2]

/-- `HaveInputs` of a transaction that is not a coinbase. -/
theorem haveInputs_iff {view : CCoinsViewCache} {tx : CTransaction} (h : tx.isCoinBase = false) :
    view.haveInputs tx = true ↔
      ∀ txin ∈ tx.vin, ∃ o, view.unspent txin.prevout.hash txin.prevout.n.toNat = some o := by
  simp only [haveInputs, h, Bool.false_or, List.all_eq_true, getOutputFor_eq,
    Option.isSome_iff_exists]

/-! ### Values of inputs -/

/-- The value an input refers to, zero without an unspent output. -/
def valueAt (view : CCoinsViewCache) (txin : CTxIn) : Int :=
  ((view.getOutputFor txin).map (·.nValue)).getD 0

/-- The value of a list of inputs. -/
def inputValue (view : CCoinsViewCache) (vin : List CTxIn) : Int :=
  (vin.map view.valueAt).sum

@[simp] theorem inputValue_nil (view : CCoinsViewCache) :
    view.inputValue [] = 0 := rfl

@[simp] theorem inputValue_cons (view : CCoinsViewCache) (txin : CTxIn)
    (vin : List CTxIn) :
    view.inputValue (txin :: vin) = view.valueAt txin + view.inputValue vin := by
  simp [inputValue]

/-- An input that can be spent has the value its coins entry gives it. -/
theorem valueAt_eq {view : CCoinsViewCache} {txin : CTxIn} {coins : CCoins}
    (hsome : (view.getOutputFor txin).isSome) (hcoins : view.getCoins txin.prevout.hash = some coins) :
    view.valueAt txin = (coins.outAt txin.prevout.n.toNat).nValue := by
  unfold valueAt getOutputFor at *
  simp only [hcoins, Option.bind_eq_bind, Option.bind_some] at hsome ⊢
  split at hsome
  · rw [if_pos (by assumption)]
    rfl
  · cases hsome

/-- `GetValueIn` adds the values up in `int64_t`. -/
theorem getValueIn_eq {view : CCoinsViewCache} {tx : CTransaction} {v : Int}
    (hcb : tx.isCoinBase = false) (h : view.getValueIn tx = some v) :
    v = toInt64 (view.inputValue tx.vin) := by
  have hfold : ∀ (vin : List CTxIn) (acc : Int),
      vin.foldlM (fun nResult txin ↦ do
        let txout ← view.getOutputFor txin
        some (toInt64 (nResult + txout.nValue))) (toInt64 acc) = some v →
      v = toInt64 (acc + view.inputValue vin) := by
    intro vin
    induction vin with
    | nil =>
      intro acc h
      simpa using (Option.some.inj h).symm
    | cons txin vin ih =>
      intro acc h
      simp only [List.foldlM_cons, Option.bind_eq_bind, Option.bind_eq_some_iff,
        Option.some.injEq] at h
      obtain ⟨_, ⟨o, ho, rfl⟩, h⟩ := h
      rw [toInt64_add_toInt64] at h
      rw [ih _ h, inputValue_cons, valueAt, ho, add_assoc]
      rfl
  rw [getValueIn, if_neg (by simp [hcb])] at h
  simpa using hfold tx.vin 0 h

/-! ### Spending -/

/-- What spending one input does: the output was unspent, nothing else changes, and the total
drops by its value. -/
theorem spendInput_eq_some {view view' : CCoinsViewCache} {txin : CTxIn} {undo : CTxInUndo}
    (h : view.spendInput txin = some (view', undo)) :
    view.unspent txin.prevout.hash txin.prevout.n.toNat = some undo.txout ∧
      (∀ txid i, view'.unspent txid i =
        if txid = txin.prevout.hash ∧ i = txin.prevout.n.toNat then none
        else view.unspent txid i) ∧
      view'.total = view.total - undo.txout.nValue ∧
      (∀ txid, txid ≠ txin.prevout.hash → view'.getCoins txid = view.getCoins txid) ∧
      view'.hashBlock = view.hashBlock := by
  unfold spendInput at h
  simp only [Option.bind_eq_bind, Option.bind_eq_some_iff, Prod.exists, Option.some.injEq,
    Prod.mk.injEq] at h
  obtain ⟨coins, hcoins, coins', undo', hspend, rfl, rfl⟩ := h
  obtain ⟨hunspent, hothers, htotal, -⟩ := CCoins.spend_eq_some hspend
  refine ⟨by simpa [unspent, hcoins] using hunspent, fun txid i ↦ ?_, ?_, fun txid hne ↦ ?_, rfl⟩
  · by_cases htxid : txid = txin.prevout.hash
    · subst htxid
      simp [unspent, hcoins, hothers]
    · simp [unspent, getCoins_setCoins_of_ne _ htxid, htxid]
  · rw [total_setCoins, totalAt_of_getCoins hcoins, htotal]
    ring
  · exact getCoins_setCoins_of_ne _ hne _

/-- A list of inputs refers to an outpoint. -/
def Refers (vin : List CTxIn) (txid : Uint256) (i : Nat) : Prop :=
  ∃ txin ∈ vin, txid = txin.prevout.hash ∧ i = txin.prevout.n.toNat

instance (vin : List CTxIn) (txid : Uint256) (i : Nat) : Decidable (Refers vin txid i) := by
  unfold Refers
  infer_instance

/-- The values recorded in a list of undo records. -/
def undoneValue (txundo : CTxUndo) : Int := (txundo.map (·.txout.nValue)).sum

/-- What spending a list of inputs does: each output was unspent before and is referred to
once, exactly these outputs go, and the total drops by their values. -/
theorem spendInputs_eq_some {view view' : CCoinsViewCache} {vin : List CTxIn} {txundo : CTxUndo}
    (h : view.spendInputs vin = some (view', txundo)) :
    vin.map view.getOutputFor = txundo.map (fun undo ↦ some undo.txout) ∧
      (vin.map CTxIn.prevout).Nodup ∧
      (∀ txid i, view'.unspent txid i =
        if Refers vin txid i then none else view.unspent txid i) ∧
      view'.total = view.total - undoneValue txundo ∧
      (∀ txid, (∀ txin ∈ vin, txid ≠ txin.prevout.hash) →
        view'.getCoins txid = view.getCoins txid) ∧
      view'.hashBlock = view.hashBlock := by
  induction vin generalizing view txundo with
  | nil =>
    obtain ⟨rfl, rfl⟩ := Prod.mk.inj (Option.some.inj h)
    simp [Refers, undoneValue]
  | cons txin vin ih =>
    simp only [spendInputs, Option.bind_eq_bind, Option.bind_eq_some_iff, Prod.exists,
      Option.some.injEq, Prod.mk.injEq] at h
    obtain ⟨view₁, undo, hone, view₂, vprevout, hrest, rfl, rfl⟩ := h
    obtain ⟨hhead, hothers, htotal, hframe, hbest⟩ := spendInput_eq_some hone
    obtain ⟨hall, hnodup, hunspent, hsum, hframe', hbest'⟩ := ih hrest
    -- later inputs find their outputs already before this one is spent
    have hlater : ∀ txin' ∈ vin, ¬ (txin'.prevout.hash = txin.prevout.hash ∧
        txin'.prevout.n.toNat = txin.prevout.n.toNat) ∧
        view₁.getOutputFor txin' = view.getOutputFor txin' := by
      intro txin' hmem
      have hsome : view₁.getOutputFor txin' ∈ vprevout.map (fun undo ↦ some undo.txout) :=
        hall ▸ List.mem_map_of_mem hmem
      obtain ⟨undo', -, hsome⟩ := List.mem_map.mp hsome
      rw [getOutputFor_eq, hothers] at hsome
      split at hsome
      · cases hsome
      · next hne => exact ⟨hne, by rw [getOutputFor_eq, getOutputFor_eq, hothers, if_neg hne]⟩
    refine ⟨?_, ?_, fun txid i ↦ ?_, ?_, fun txid hne ↦ ?_, hbest'.trans hbest⟩
    · rw [List.map_cons, List.map_cons, getOutputFor_eq, hhead, ← hall]
      exact congrArg _ (List.map_congr_left fun txin' hmem ↦ (hlater txin' hmem).2.symm)
    · rw [List.map_cons, List.nodup_cons]
      refine ⟨fun hmem ↦ ?_, hnodup⟩
      obtain ⟨txin', hmem', heq⟩ := List.mem_map.mp hmem
      exact (hlater txin' hmem').1 ⟨by rw [heq], by rw [heq]⟩
    · rw [hunspent, hothers]
      have hcons : Refers (txin :: vin) txid i ↔
          (txid = txin.prevout.hash ∧ i = txin.prevout.n.toNat) ∨ Refers vin txid i := by
        simp [Refers]
      by_cases hr : Refers vin txid i
      · rw [if_pos hr, if_pos (hcons.mpr (.inr hr))]
      · rw [if_neg hr]
        by_cases hh : txid = txin.prevout.hash ∧ i = txin.prevout.n.toNat
        · rw [if_pos hh, if_pos (hcons.mpr (.inl hh))]
        · rw [if_neg hh, if_neg fun hc ↦ (hcons.mp hc).elim hh hr]
    · rw [hsum, htotal, undoneValue, undoneValue, List.map_cons, List.sum_cons]
      ring
    · rw [hframe' txid fun txin' hmem ↦ hne txin' (List.mem_cons_of_mem _ hmem),
        hframe txid (hne txin List.mem_cons_self)]

/-! ### Applying a transaction -/

/-- The value of a list of inputs is what their undo records hold. -/
theorem inputValue_eq_undoneValue {view : CCoinsViewCache} {vin : List CTxIn} {txundo : CTxUndo}
    (h : vin.map view.getOutputFor = txundo.map fun undo ↦ some undo.txout) :
    view.inputValue vin = undoneValue txundo := by
  have hmap := congrArg (List.map fun o : Option CTxOut ↦ (o.map (·.nValue)).getD 0) h
  rw [List.map_map, List.map_map] at hmap
  exact congrArg List.sum hmap

/-- What `UpdateCoins` does to a view that holds no unspent output of the transaction. -/
structure Applied (view view' : CCoinsViewCache) (tx : CTransaction) (nHeight : Int)
    (txid : Uint256) (txundo : CTxUndo) : Prop where
  found : tx.spends.map view.getOutputFor = txundo.map fun undo ↦ some undo.txout
  nodup : (tx.spends.map CTxIn.prevout).Nodup
  unspent : ∀ txid' i, view'.unspent txid' i =
    if txid' = txid then (CCoins.ofTransaction tx nHeight).unspent i
    else if Refers tx.spends txid' i then none
    else view.unspent txid' i
  total : view'.total =
    view.total - view.inputValue tx.spends + (CCoins.ofTransaction tx nHeight).total
  entry : view'.getCoins txid = some (CCoins.ofTransaction tx nHeight)
  frame : ∀ txid', txid' ≠ txid → (∀ txin ∈ tx.spends, txid' ≠ txin.prevout.hash) →
    view'.getCoins txid' = view.getCoins txid'
  hashBlock : view'.hashBlock = view.hashBlock

theorem updateCoins_eq_some {view view' : CCoinsViewCache} {tx : CTransaction} {nHeight : Int}
    {txid : Uint256} {txundo : CTxUndo} (hpruned : view.PrunedAt txid)
    (h : view.updateCoins tx nHeight txid = some (view', txundo)) :
    Applied view view' tx nHeight txid txundo := by
  simp only [updateCoins, Option.bind_eq_bind, Option.bind_eq_some_iff, Prod.exists,
    Option.some.injEq, Prod.mk.injEq] at h
  obtain ⟨view₁, _, hspend, rfl, rfl⟩ := h
  obtain ⟨hfound, hnodup, hunspent, htotal, hframe, hbest⟩ := spendInputs_eq_some hspend
  have hpruned₁ : view₁.PrunedAt txid := prunedAt_iff.mpr fun i ↦ by
    rw [hunspent, hpruned.unspent]
    exact ite_self _
  refine ⟨hfound, hnodup, fun txid' i ↦ ?_, ?_, getCoins_setCoins_self _ _ _,
    fun txid' hne hvin ↦ ?_, hbest⟩
  · by_cases htxid : txid' = txid
    · rw [if_pos htxid, htxid, CCoinsViewCache.unspent, getCoins_setCoins_self]
      rfl
    · rw [if_neg htxid, ← hunspent]
      simp only [CCoinsViewCache.unspent, getCoins_setCoins_of_ne _ htxid]
  · rw [total_setCoins, hpruned₁.totalAt, htotal, inputValue_eq_undoneValue hfound, sub_zero]
  · rw [getCoins_setCoins_of_ne _ hne, hframe txid' hvin]

end CCoinsViewCache

end Bitmark

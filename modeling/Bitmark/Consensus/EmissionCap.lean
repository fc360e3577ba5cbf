import Mathlib.Algebra.BigOperators.Intervals
import Mathlib.Algebra.BigOperators.Ring.Finset
import Mathlib.Algebra.Order.BigOperators.Group.Finset
import Mathlib.Tactic.Linarith
import Bitmark.Consensus.SubsidyBounds

/-!
# The emission cap

Before the fork the subsidy follows the height, and the coins issued form a sum over heights.
After it every algorithm counts its own supply, starting from an eighth of the supply at the fork
(`src/main.cpp:4989`), and stops at an eighth of the emission cap. The invariant is that the
supplies of the eight algorithms add up to the coins issued, up to the remainder of that division.
-/

namespace Bitmark

open Finset

instance : Fintype Algo where
  elems := {.scrypt, .sha256d, .yescrypt, .argon2, .x17, .lyra2rev2, .equihash, .cryptonight}
  complete algo := by cases algo <;> decide

/-! ### Before the fork -/

/-- The subsidies of the first `n` heights. -/
def preForkTotal (params : CChainParams) (n : Nat) : Int := ∑ h ∈ range n, preForkSubsidy params h

/-- A reward that is halved every `interval` blocks adds up to less than twice its first
interval. -/
theorem sum_halvings_le (reward : Nat) {interval : Nat} (hpos : 0 < interval) (n : Nat) :
    ∑ h ∈ range n, reward >>> (h / interval) +
        (2 * interval - n % interval) * (reward >>> (n / interval)) ≤ 2 * interval * reward := by
  induction n with
  | zero => simp
  | succ n ih =>
    have hmod := Nat.mod_lt n hpos
    have hn := Nat.div_add_mod n interval
    rw [sum_range_succ]
    rcases Nat.lt_or_ge (n % interval + 1) interval with hlt | hge
    · -- the same reward again
      have hdiv : (n + 1) / interval = n / interval := by
        refine Nat.div_eq_of_lt_le ?_ ?_
        · rw [Nat.mul_comm]
          omega
        · rw [Nat.succ_mul, Nat.mul_comm]
          omega
      have hrest : 2 * interval - n % interval = 2 * interval - (n + 1) % interval + 1 := by
        have hn' := Nat.div_add_mod (n + 1) interval
        rw [hdiv] at hn'
        omega
      rw [hrest, Nat.add_mul, Nat.one_mul] at ih
      rw [hdiv]
      linarith
    · -- the last block of an interval
      have hdiv : (n + 1) / interval = n / interval + 1 := by
        refine Nat.div_eq_of_lt_le ?_ ?_
        · rw [Nat.succ_mul, Nat.mul_comm]
          omega
        · rw [Nat.succ_mul, Nat.succ_mul, Nat.mul_comm]
          omega
      have hzero : (n + 1) % interval = 0 := by
        have hn' := Nat.div_add_mod (n + 1) interval
        rw [hdiv, Nat.mul_add, Nat.mul_one] at hn'
        omega
      have hhalf : 2 * (reward >>> (n / interval + 1)) ≤ reward >>> (n / interval) := by
        rw [Nat.shiftRight_succ]
        exact Nat.mul_div_le _ 2
      have hscaled := Nat.mul_le_mul_left interval hhalf
      have hrest : 2 * interval - n % interval = interval + 1 := by omega
      rw [hrest] at ih
      rw [hdiv, hzero, Nat.sub_zero]
      linarith

/-- The reward that is halved half an interval earlier. -/
private theorem sum_early_halvings_le (reward : Nat) {interval early : Nat} (hpos : 0 < interval)
    (hearly : early < interval) (n : Nat) :
    ∑ h ∈ range n, reward >>> ((h + early) / interval) + early * reward ≤
      2 * interval * reward := by
  have hall := sum_halvings_le reward hpos (early + n)
  have hfirst : ∑ h ∈ range early, reward >>> (h / interval) = early * reward := by
    rw [sum_congr rfl fun h hh ↦ by
      rw [Nat.div_eq_of_lt ((mem_range.mp hh).trans hearly), Nat.shiftRight_zero]]
    simp
  rw [sum_range_add, hfirst] at hall
  simp only [Nat.add_comm early] at hall
  omega

/-- With the schedule of the public networks the subsidies before the fork stay below
27 580 000 coins, for a fork at any height. -/
theorem preForkTotal_le {params : CChainParams} (h : params.nSubsidyHalvingInterval = 788000)
    (n : Nat) : preForkTotal params n ≤ 2758000000000000 := by
  have hinterim : params.subsidyInterimInterval = 394000 := by
    rw [CChainParams.subsidyInterimInterval, h]
  have hlate := sum_halvings_le 1000000000 (show 0 < 788000 by decide) n
  have hearly := sum_early_halvings_le 1000000000 (show 0 < 788000 by decide)
    (show 394000 < 788000 by decide) n
  have hterm : ∀ i, preForkSubsidy params i ≤
      ((1000000000 >>> (i / 788000) + 1000000000 >>> ((i + 394000) / 788000) : Nat) : Int) := by
    intro i
    unfold preForkSubsidy
    simp only [h, hinterim]
    split
    · positivity
    · exact le_rfl
  have hsum : preForkTotal params n ≤ ∑ i ∈ range n,
      ((1000000000 >>> (i / 788000) + 1000000000 >>> ((i + 394000) / 788000) : Nat) : Int) :=
    sum_le_sum fun i _ ↦ hterm i
  rw [← Nat.cast_sum, sum_add_distrib] at hsum
  omega

/-! ### The supplies of the algorithms -/

/-- The recorded supply of an algorithm: that of its latest block, or its share of the supply
before the fork. -/
def algoSupply (p : ChainIndex) (algo : Algo) : Int :=
  match prevOfAlgo algo p with
  | b :: _ => b.nMoneySupply
  | [] => mpowMsCorrectionFrom p

/-- What the blocks of an algorithm issued on the fork, their claims less their fees, and before
them its share of what all blocks issued before the fork. -/
def algoIssued (algo : Algo) : ChainIndex → List Int → Int
  | b :: pprev, net :: issued =>
    if onFork (b :: pprev) then
      if getAlgo b.nVersion = algo then algoIssued algo pprev issued + net
      else algoIssued algo pprev issued
    else (net :: issued).sum / 8
  | _, _ => 0

/-- No block on the fork leaves more fees unclaimed than its algorithm has issued before it. -/
def FeesCovered : ChainIndex → List Int → Prop
  | b :: pprev, net :: issued =>
    (onFork (b :: pprev) = true → -net ≤ algoIssued (getAlgo b.nVersion) pprev issued) ∧
      FeesCovered pprev issued
  | _, _ => True

section Supply

variable {b : CBlockIndex} {p : ChainIndex}

theorem prevMoneySupply_of_onFork (h : onFork (b :: p) = true) :
    prevMoneySupply (b :: p) = algoSupply p (getAlgo b.nVersion) := by
  rw [prevMoneySupply, getPprevAlgo, if_pos h]
  rfl

theorem algoSupply_of_onFork (h : onFork (b :: p) = true) (algo : Algo) :
    algoSupply (b :: p) algo =
      if algo = getAlgo b.nVersion then b.nMoneySupply else algoSupply p algo := by
  simp only [algoSupply, prevOfAlgo, h, if_true, mpowMsCorrectionFrom]
  by_cases halgo : getAlgo b.nVersion = algo
  · rw [if_pos halgo, if_pos halgo.symm]
  · rw [if_neg halgo, if_neg (Ne.symm halgo)]

theorem algoSupply_of_not_onFork (h : onFork (b :: p) = false) (algo : Algo) :
    algoSupply (b :: p) algo =
      if p.length = 0 then 250000000 else b.nMoneySupply.tdiv 8 := by
  simp only [algoSupply, prevOfAlgo, h, Bool.false_eq_true, if_false, mpowMsCorrectionFrom]
  rfl

/-- A block on the fork changes the supply of its own algorithm only. -/
theorem sum_algoSupply_of_onFork (h : onFork (b :: p) = true) :
    ∑ algo, algoSupply (b :: p) algo =
      ∑ algo, algoSupply p algo - algoSupply p (getAlgo b.nVersion) + b.nMoneySupply := by
  have hmem := mem_univ (getAlgo b.nVersion)
  have hupdate : algoSupply (b :: p) =
      Function.update (algoSupply p) (getAlgo b.nVersion) b.nMoneySupply := by
    funext algo
    rw [algoSupply_of_onFork h, Function.update_apply]
  rw [hupdate, sum_update_of_mem hmem, ← add_sum_erase _ (algoSupply p) hmem, sdiff_singleton_eq_erase]
  ring

/-- Before the fork the supplies are equal shares. -/
theorem sum_algoSupply_of_not_onFork (h : onFork (b :: p) = false) (hb : 0 ≤ b.nMoneySupply)
    (hgenesis : p = [] → b.nMoneySupply = 2000000000) :
    ∑ algo, algoSupply (b :: p) algo = b.nMoneySupply - b.nMoneySupply % 8 ∧
      ∀ algo, algoSupply (b :: p) algo = b.nMoneySupply / 8 := by
  have hshare : ∀ algo, algoSupply (b :: p) algo = b.nMoneySupply / 8 := by
    intro algo
    rw [algoSupply_of_not_onFork h]
    split
    · next hlength =>
      rw [hgenesis (List.eq_nil_of_length_eq_zero hlength)]
      rfl
    · exact Int.tdiv_eq_ediv_of_nonneg hb
  refine ⟨?_, hshare⟩
  have hcard : (univ : Finset Algo).card = 8 := rfl
  rw [sum_congr rfl fun algo _ ↦ hshare algo, sum_const, hcard, nsmul_eq_mul]
  push_cast
  omega

end Supply

/-! ### What a block may add -/

/-- An eighth of the emission cap and one more reward of 20 coins. -/
def algoCap : Int := 344750120570750

theorem scaledSubsidy_le (base : Int) (factor : Nat) : scaledSubsidy base factor ≤ base := by
  unfold scaledSubsidy
  split <;> omega

theorem subsidy_le_baseSubsidy (params : CChainParams) {p : ChainIndex} (h : onFork p = true) :
    subsidy params p false ≤ baseSubsidy params p := by
  rw [subsidy, if_pos h]
  exact scaledSubsidy_le _ _

theorem stageSubsidy_of_le {stages : List (Nat × Int)} {n : Nat} (h : ∀ s ∈ stages, s.1 ≤ n) :
    stageSubsidy stages n = 0 := by
  induction stages with
  | nil => rfl
  | cons s stages ih =>
    rw [List.forall_mem_cons] at h
    rw [stageSubsidy, if_neg (by omega)]
    exact ih h.2

/-- The base reward never lifts the supply of an algorithm over its cap; a negative supply earns
no reward at all. -/
theorem prevMoneySupply_add_baseSubsidy_le {params : CChainParams} {p : ChainIndex}
    (hnetwork : params.networkID ≠ .regtest) (hlo : -7 * algoCap ≤ prevMoneySupply p)
    (hhi : prevMoneySupply p ≤ algoCap) : prevMoneySupply p + baseSubsidy params p ≤ algoCap := by
  rw [algoCap] at *
  have hlimits : ∀ s ∈ emissionStages, s.1 ≤ 2757984964566000 := by decide
  have hbase := baseSubsidy_range params p
  have hzero : 2757984964566000 ≤ emitted p → baseSubsidy params p = 0 := by
    intro hemitted
    rw [baseSubsidy, if_neg hnetwork]
    exact stageSubsidy_of_le fun s hs ↦ (hlimits s hs).trans hemitted
  rw [emitted] at hzero
  rcases lt_or_ge (prevMoneySupply p) 0 with hneg | hpos
  · have hwrap := toUint64_of_neg (x := 8 * prevMoneySupply p) (by omega) (by omega)
    have := hzero (by omega)
    omega
  · have hvalue := toUint64_of_nonneg (x := 8 * prevMoneySupply p) (by omega) (by omega)
    rcases Nat.lt_or_ge (toUint64 (8 * prevMoneySupply p)) 2757984964566000 with hlt | hge
    · omega
    · have := hzero hge
      omega

/-! ### The invariant -/

/-- What holds of the supplies and the coins of an accepted chain that never leaves the fork. -/
structure Ledger (params : CChainParams) (p : ChainIndex) (view : CCoinsViewCache)
    (issued : List Int) : Prop where
  nonneg : view.Nonneg
  backed : view.total + 2000000000 ≤ issued.sum
  split : ∃ remainder, 0 ≤ remainder ∧ remainder < 8 ∧
    ∑ algo, algoSupply p algo + remainder = issued.sum
  stage : ∀ algo, algoSupply p algo ≤ algoCap
  supply : ∀ algo, algoSupply p algo = algoIssued algo p issued
  preFork : ∀ b rest, p = b :: rest → onFork p = false →
    b.nMoneySupply = issued.sum ∧ issued.sum ≤ preForkTotal params p.length

namespace Ledger

variable {H : Hashes} {params : CChainParams} {p : ChainIndex} {view : CCoinsViewCache}
  {issued : List Int}

/-- The supplies of eight algorithms stay below the money range. -/
theorem issued_le (h : Ledger params p view issued) : issued.sum ≤ maxMoney := by
  obtain ⟨remainder, -, hlt, hsum⟩ := h.split
  have hle : ∑ algo, algoSupply p algo ≤ ∑ _algo : Algo, algoCap :=
    sum_le_sum fun algo _ ↦ h.stage algo
  have hcard : ∑ _algo : Algo, algoCap = 8 * algoCap := by
    rw [sum_const, nsmul_eq_mul]
    rfl
  have hcap : algoCap = 344750120570750 := rfl
  have hmax : maxMoney = 2800000000000000 := rfl
  omega

/-- No supply is far below zero, since all together cover the coins of the view. -/
theorem algoSupply_ge (h : Ledger params p view issued) (algo : Algo) :
    -7 * algoCap ≤ algoSupply p algo := by
  obtain ⟨remainder, -, hlt, hsum⟩ := h.split
  have hrest : ∑ a ∈ univ.erase algo, algoSupply p a ≤ ∑ _a ∈ univ.erase algo, algoCap :=
    sum_le_sum fun a _ ↦ h.stage a
  have hcard : ∑ _a ∈ univ.erase algo, algoCap = 7 * algoCap := by
    rw [sum_const, card_erase_of_mem (mem_univ algo), nsmul_eq_mul]
    rfl
  have hadd := add_sum_erase univ (algoSupply p) (mem_univ algo)
  have hview := h.nonneg.total_nonneg
  have hbacked := h.backed
  omega

/-- Genesis starts the invariant. -/
theorem genesis (hinterval : params.nSubsidyHalvingInterval = 788000) {b : CBlockIndex}
    (hview : view.cacheCoins = ∅) (hb : b.nMoneySupply = 2000000000) :
    Ledger params [b] view [2000000000] := by
  have hunspent : ∀ txid i, view.unspent txid i = none := by
    intro txid i
    rw [CCoinsViewCache.unspent, CCoinsViewCache.getCoins, hview]
    rfl
  have htotal : view.total = 0 := by
    rw [CCoinsViewCache.total, hview]
    rfl
  obtain ⟨hsum, hshare⟩ := sum_algoSupply_of_not_onFork (b := b) (p := []) rfl (by omega)
    fun _ ↦ hb
  rw [hb] at hsum hshare
  refine ⟨fun txid i o ho ↦ ?_, by rw [htotal]; decide, ⟨0, le_rfl, by decide, ?_⟩, fun algo ↦ ?_,
    fun algo ↦ ?_, fun c rest hc _ ↦ ?_⟩
  · rw [hunspent] at ho
    cases ho
  · rw [hsum]
    rfl
  · rw [hshare]
    decide
  · rw [hshare]
    rfl
  · obtain ⟨rfl, rfl⟩ := List.cons.inj hc
    refine ⟨hb, ?_⟩
    have hinterim : params.subsidyInterimInterval = 394000 := by
      rw [CChainParams.subsidyInterimInterval, hinterval]
    rw [preForkTotal, List.length_singleton, range_one, sum_singleton, preForkSubsidy]
    simp only [hinterval, hinterim]
    decide

/-- What an accepted block adds, when the ledger of the chain before it is in order. -/
theorem net_le {b : CBlockIndex} {view₀ : CCoinsViewCache} {issued₀ : List Int} {net : Int}
    (h : Ledger params p view₀ issued₀) (hext : Extends H params p view₀ b view net) :
    view.Nonneg ∧ view.total + 2000000000 ≤ issued₀.sum + net ∧
      net ≤ subsidy params (b :: p) false ∧ ∃ nValueOut nFees, net = nValueOut - nFees ∧
        (0 ≤ nValueOut ∧ nValueOut ≤ maxMoney) ∧ (0 ≤ nFees ∧ nFees ≤ maxMoney) ∧
        b.nMoneySupply = moneySupply (b :: p) nValueOut nFees := by
  obtain ⟨nValueOut, nFees, hnet, hrange, hle, hsupply, ⟨fees, hnonneg, hfees, htotal⟩, hkeep,
    hfeerange⟩ := hext.value
  have hview := hkeep h.nonneg
  have hmax : maxMoney = 2800000000000000 := rfl
  have hissued := h.issued_le
  have hbacked := h.backed
  have hfeerange := moneyRange_iff.mp (hfeerange h.nonneg (by omega))
  rw [moneyRange_iff] at hrange
  have hpos := hview.total_nonneg
  have hwrap : nFees = fees := by
    rw [hfees]
    exact toInt64_of_range (by omega) (by omega)
  have hvalue : getBlockValue params (b :: p) nFees ≤ nFees + subsidy params (b :: p) false :=
    getBlockValue_le params hfeerange.1
  exact ⟨hview, by omega, by omega, nValueOut, nFees, hnet, hrange, hfeerange, hsupply⟩

/-- A block before the fork keeps the invariant. -/
theorem extend_of_not_onFork {b c : CBlockIndex} {rest : ChainIndex} {view₀ : CCoinsViewCache}
    {issued₀ : List Int} {net : Int} (hinterval : params.nSubsidyHalvingInterval = 788000)
    (h : Ledger params (b :: rest) view₀ issued₀)
    (hext : Extends H params (b :: rest) view₀ c view net)
    (hparent : onFork (b :: rest) = false) (hfork : onFork (c :: b :: rest) = false) :
    Ledger params (c :: b :: rest) view (net :: issued₀) := by
  obtain ⟨hview, hbacked, hnet, nValueOut, nFees, rfl, hvalue, hfees, hsupply⟩ := h.net_le hext
  obtain ⟨hb, hpre⟩ := h.preFork b rest rfl hparent
  have hmax : maxMoney = 2800000000000000 := rfl
  have hissued := h.issued_le
  have hpos := hview.total_nonneg
  have hword : c.nMoneySupply = issued₀.sum + (nValueOut - nFees) := by
    rw [hsupply, moneySupply, if_neg (by simp [hfork])]
    simp only [List.tail_cons, hb]
    rw [toInt64_of_range] <;> omega
  have hnext : issued₀.sum + (nValueOut - nFees) ≤ preForkTotal params (c :: b :: rest).length := by
    rw [subsidy, if_neg (by simp [hfork])] at hnet
    rw [List.length_cons, preForkTotal, sum_range_succ]
    rw [preForkTotal] at hpre
    simp only [List.length_cons, Nat.add_sub_cancel] at hnet hpre ⊢
    omega
  have htotal := preForkTotal_le hinterval (c :: b :: rest).length
  obtain ⟨hsum, hshare⟩ := sum_algoSupply_of_not_onFork hfork (by omega) fun hnil ↦ by simp at hnil
  rw [hword] at hsum hshare
  refine ⟨hview, by rw [List.sum_cons]; omega,
    ⟨(issued₀.sum + (nValueOut - nFees)) % 8, by omega, by omega, ?_⟩, fun algo ↦ ?_,
    fun algo ↦ ?_, fun e rest' he _ ↦ ?_⟩
  · rw [hsum, List.sum_cons]
    omega
  · rw [hshare, algoCap]
    omega
  · rw [hshare, algoIssued, if_neg (by simp [hfork]), List.sum_cons, add_comm]
  · obtain ⟨rfl, rfl⟩ := List.cons.inj he
    rw [List.sum_cons, hword]
    exact ⟨by omega, by omega⟩

/-- A block on the fork keeps the invariant, and its supply is that of its algorithm and what it
adds. -/
theorem extend_of_onFork {c : CBlockIndex} {view₀ : CCoinsViewCache} {issued₀ : List Int}
    {net : Int} (hnetwork : params.networkID ≠ .regtest) (h : Ledger params p view₀ issued₀)
    (hext : Extends H params p view₀ c view net) (hfork : onFork (c :: p) = true) :
    Ledger params (c :: p) view (net :: issued₀) ∧
      c.nMoneySupply = prevMoneySupply (c :: p) + net := by
  obtain ⟨hview, hbacked, hnet, nValueOut, nFees, rfl, hvalue, hfees, hsupply⟩ := h.net_le hext
  have hprev := prevMoneySupply_of_onFork hfork
  have hlo := h.algoSupply_ge (getAlgo c.nVersion)
  have hhi := h.stage (getAlgo c.nVersion)
  have hbase := subsidy_le_baseSubsidy params hfork
  have hroom := prevMoneySupply_add_baseSubsidy_le (p := c :: p) hnetwork (by omega) (by omega)
  have hmax : maxMoney = 2800000000000000 := rfl
  have hcap : algoCap = 344750120570750 := rfl
  have hword : c.nMoneySupply = prevMoneySupply (c :: p) + (nValueOut - nFees) := by
    rw [hsupply, moneySupply, if_pos hfork, toInt64_of_range] <;> omega
  refine ⟨⟨hview, by rw [List.sum_cons]; omega, ?_, fun algo ↦ ?_, fun algo ↦ ?_,
    fun e rest _ hno ↦ ?_⟩, hword⟩
  · obtain ⟨remainder, hge, hlt, hsum⟩ := h.split
    refine ⟨remainder, hge, hlt, ?_⟩
    rw [sum_algoSupply_of_onFork hfork, List.sum_cons, hword, hprev]
    omega
  · rw [algoSupply_of_onFork hfork]
    split
    · omega
    · exact h.stage algo
  · rw [algoSupply_of_onFork hfork, algoIssued, if_pos hfork, ← h.supply]
    by_cases halgo : algo = getAlgo c.nVersion
    · rw [if_pos halgo, if_pos halgo.symm, hword, hprev, halgo]
    · rw [if_neg halgo, if_neg (Ne.symm halgo)]
  · rw [hfork] at hno
    cases hno

end Ledger

section

variable {H : Hashes} {params : CChainParams} {p : ChainIndex} {view : CCoinsViewCache}
  {issued : List Int}

/-- The invariant holds of every accepted chain whose blocks never leave the fork. -/
theorem AcceptedChain.ledger (hnetwork : params.networkID ≠ .regtest)
    (hinterval : params.nSubsidyHalvingInterval = 788000)
    (h : AcceptedChain H params p view issued)
    (hslip : ∀ b rest, b :: rest <:+ p → onFork (b :: rest) = true →
      slipsThrough b.nVersion = false) :
    Ledger params p view issued := by
  induction p generalizing view issued with
  | nil => exact absurd rfl h.ne_nil
  | cons c pprev ih =>
    rcases h.cases_cons with ⟨rfl, hview, rfl, hsupply, -⟩ |
      ⟨view₀, issued₀, net, hprev, rfl, hext⟩
    · exact Ledger.genesis hinterval hview hsupply
    · have hledger := ih hprev fun b rest hsuf ↦ hslip b rest (hsuf.trans (List.suffix_cons c pprev))
      cases hfork : onFork (c :: pprev) with
      | true => exact (hledger.extend_of_onFork hnetwork hext hfork).1
      | false =>
        obtain ⟨b, rest, rfl⟩ := List.exists_cons_of_ne_nil hprev.ne_nil
        refine hledger.extend_of_not_onFork hinterval hext ?_ hfork
        by_contra hparent
        have hstay := h.passesForkRule.staysOnFork hslip (by simpa using hparent)
          (List.suffix_cons c _) List.suffix_rfl
        rw [hfork] at hstay
        cases hstay

/-- The recorded supplies are those that the blocks issued, so none is negative if and only if the
fees are covered. -/
theorem AcceptedChain.supplies_nonneg_iff (hnetwork : params.networkID ≠ .regtest)
    (hinterval : params.nSubsidyHalvingInterval = 788000)
    (h : AcceptedChain H params p view issued)
    (hslip : ∀ b rest, b :: rest <:+ p → onFork (b :: rest) = true →
      slipsThrough b.nVersion = false) :
    (∀ b ∈ p, 0 ≤ b.nMoneySupply) ↔ FeesCovered p issued := by
  induction p generalizing view issued with
  | nil => exact absurd rfl h.ne_nil
  | cons c pprev ih =>
    have hsub : ∀ b rest, b :: rest <:+ pprev → onFork (b :: rest) = true →
        slipsThrough b.nVersion = false :=
      fun b rest hsuf ↦ hslip b rest (hsuf.trans (List.suffix_cons c pprev))
    rw [List.forall_mem_cons]
    rcases h.cases_cons with ⟨rfl, -, rfl, hsupply, -⟩ | ⟨view₀, issued₀, net, hprev, rfl, hext⟩
    · refine iff_of_true ⟨by rw [hsupply]; decide, fun _ hb ↦ absurd hb List.not_mem_nil⟩
        ⟨fun hfork ↦ ?_, trivial⟩
      simp [onFork, nForkHeight] at hfork
    · rw [ih hprev hsub, FeesCovered]
      refine and_congr_left fun _ ↦ ?_
      cases hfork : onFork (c :: pprev) with
      | true =>
        have hledger := hprev.ledger hnetwork hinterval hsub
        have hword := (hledger.extend_of_onFork hnetwork hext hfork).2
        rw [prevMoneySupply_of_onFork hfork, hledger.supply] at hword
        rw [hword, forall_prop_of_true rfl]
        omega
      | false =>
        -- before the fork the supply is what was issued, and that covers the coins of the view
        have hledger := h.ledger hnetwork hinterval hslip
        have hpos := hledger.nonneg.total_nonneg
        have hbacked := hledger.backed
        have hissued := (hledger.preFork c pprev rfl hfork).1
        exact iff_of_true (by omega) (fun hon ↦ absurd hon Bool.false_ne_true)

/-- The emission cap of the public networks. In every accepted chain whose blocks on the fork
have no version word that slips through and leave no more fees unclaimed than their algorithm
has issued, the coins created stay within `maxMoney`, the supplies of the algorithms add up to
them but for the remainder of the split at the fork, and no supply is negative. -/
theorem AcceptedChain.emission_capped (hnetwork : params.networkID ≠ .regtest)
    (hinterval : params.nSubsidyHalvingInterval = 788000)
    (h : AcceptedChain H params p view issued)
    (hslip : ∀ b rest, b :: rest <:+ p → onFork (b :: rest) = true →
      slipsThrough b.nVersion = false)
    (hfees : FeesCovered p issued) :
    issued.sum ≤ maxMoney ∧
      (∃ remainder, 0 ≤ remainder ∧ remainder < 8 ∧
        ∑ algo, algoSupply p algo + remainder = issued.sum) ∧
      ∀ b ∈ p, 0 ≤ b.nMoneySupply := by
  have hledger := h.ledger hnetwork hinterval hslip
  exact ⟨hledger.issued_le, hledger.split,
    (h.supplies_nonneg_iff hnetwork hinterval hslip).mpr hfees⟩

end

/-! ### The first block of an algorithm -/

/-- The parameters of the main network, with a mined genesis block. -/
def minerMainParams : CChainParams := { mainParams with hashGenesisBlock := 1 }

/-- Blocks of version 3 and, from height 646 on, of version 4, so that height 721 is the first on
the fork. The block at height 1 claims 20 coins, the others nothing. -/
def lateFork (h : Nat) : Mined where
  nVersion := if h < 646 then 3 else 4
  nTime := BitVec.ofNat 32 (120 * h + 1 + if 719 ≤ h then 120 else 0)
  nValue := if h = 1 then 2000000000 else 0

private theorem planned_suffix (nBits : BitVec 32) (m : Nat → Mined) {i j : Nat} (h : i ≤ j) :
    planned nBits m i <:+ planned nBits m j := by
  induction j with
  | zero =>
    obtain rfl : i = 0 := by omega
    exact List.suffix_rfl
  | succ j ih =>
    rcases Nat.lt_or_ge i (j + 1) with hlt | hge
    · exact (ih (by omega)).trans (List.suffix_cons _ _)
    · obtain rfl : i = j + 1 := by omega
      exact List.suffix_rfl

/-- Blocks of base version 4 or more. -/
def countsForFork (b : CBlockIndex) : Bool := 4 ≤ getBlockVersion b.nVersion

/-- Behind fewer than 75 blocks of version 4 nothing is on the fork. -/
theorem not_onFork_of_countP {p r : ChainIndex} (h : p.countP countsForFork < 75) (hr : r <:+ p)
    (c : CBlockIndex) : onFork (c :: r) = false := by
  by_contra hfork
  have hcount := ((onFork_cons_iff c r).mp (by simpa using hfork)).2
  have htake := (List.take_sublist 100 r).countP_le (p := countsForFork)
  have hall := hr.sublist.countP_le (p := countsForFork)
  change 75 ≤ (r.take 100).countP countsForFork at hcount
  omega

/-- What the chain evaluates to: its blocks of version 4, the target of each block, and the target
of a block of another algorithm on it. -/
private theorem lateFork_values :
    (planned 0x1d00ffff lateFork 720).countP countsForFork = 74 ∧
      (∀ h < 721, preForkWork minerMainParams (planned 0x1d00ffff lateFork h) = 0x1d00ffff) ∧
      getNextWorkRequired minerMainParams (planned 0x1d00ffff lateFork 721) .x17 = 0x1d3e7fc1 := by
  decide +kernel

private theorem countP_lateFork :
    (planned 0x1d00ffff lateFork 720).countP countsForFork = 74 := lateFork_values.1

theorem plannedClaims_lateFork (n : Nat) : plannedClaims lateFork (n + 1) = 2000000000 := by
  induction n with
  | zero => decide
  | succ n ih =>
    have hvalue : (lateFork (n + 1 + 1)).nValue = 0 := by simp [lateFork]
    rw [plannedClaims, ih, hvalue, add_zero]

theorem lateFork_plan : Plan minerMainParams 0x1d00ffff lateFork 720 := by
  have hfork : ∀ h < 721, onFork (planned 0x1d00ffff lateFork (h + 1)) = false := fun h hh ↦
    not_onFork_of_countP (by rw [countP_lateFork]; decide) (planned_suffix _ _ (by omega)) _
  have hwork := lateFork_values.2.1
  have hversion : ∀ h, isAuxpow (lateFork h).nVersion = false ∧
      getAlgo (lateFork h).nVersion = .scrypt ∧ updateSsf (lateFork h).nVersion = false ∧
      3 ≤ (lateFork h).nVersion.toInt := by
    intro h
    unfold lateFork
    dsimp only
    split <;> decide
  have hallowed : ∀ h, 0 ≤ (lateFork h).nValue ∧
      (lateFork h).nValue ≤ preForkSubsidy minerMainParams h := by
    intro h
    unfold lateFork
    dsimp only
    split
    · subst h
      decide
    · exact ⟨le_rfl, (preForkSubsidy_range _ h).1⟩
  refine ⟨fun h _ ↦ ⟨(hversion h).1, .inl (hversion h).2.1, (hversion h).2.2⟩, fun h hh ↦ ?_,
    fun h hh ↦ ?_, by decide, fun h hh ↦ ?_, ?_⟩
  · simp only [lateFork, BitVec.toNat_ofNat]
    rw [Nat.mod_eq_of_lt (by split_ifs <;> omega), Nat.mod_eq_of_lt (by split_ifs <;> omega)]
    split_ifs <;> omega
  · have hno := hfork h hh
    rw [planned, onFork, Bool.and_eq_false_iff, decide_eq_false_iff_not] at hno
    rw [getNextWorkRequired, if_neg (by decide), if_pos, hwork h hh]
    rcases hno with hlength | hmajority
    · exact .inl (by omega)
    · exact .inr (by rw [hmajority]; rfl)
  · rw [hfork h hh, if_neg Bool.false_ne_true]
    exact ⟨(hversion h).2.1, hallowed h⟩
  · rw [plannedClaims_lateFork 719]
    decide

/-- The outpoint of the coinbase of block 1. -/
def firstInput : CTxIn := ⟨⟨1, 0⟩, [], -1⟩

/-- A transaction that spends the coinbase of block 1 and leaves `20 coins - nValue` as fees. -/
def spendFirst (nValue : Int) : CTransaction :=
  { vin := [firstInput], vout := [⟨nValue, []⟩], nLockTime := 1000000 }

/-- The first X17 block of that chain, with this transaction and an empty claim. -/
def spendingBlock (nValue : Int) : CBlock :=
  { nVersion := 0x0804
    hashPrevBlock := 721
    hashMerkleRoot := CBlock.buildMerkleTree minerHashes
      { vtx := [minedCoinbase 721 0, spendFirst nValue] }
    nTime := 100000
    nBits := 0x1d3e7fc1
    nNonce := 722
    vtx := [minedCoinbase 721 0, spendFirst nValue] }

/-- The node that connects it. -/
def spendingNode : Node := minerNode minerMainParams ⟨0x0804, 100000, 0⟩

section Spending

variable {p : ChainIndex} {view : CCoinsViewCache} {issued : List Int} {nValue : Int}

/-- The first block's coinbase is in the view, unspent. -/
def HasFirst (view : CCoinsViewCache) : Prop :=
  ∃ coins, view.getCoins firstInput.prevout.hash = some coins ∧ coins.fCoinBase = true ∧
    coins.nHeight = 1 ∧ coins.unspent firstInput.prevout.n.toNat = some ⟨2000000000, []⟩

theorem HasFirst.of_getCoins
    (h : view.getCoins 1 = some (.ofTransaction (minedCoinbase 1 2000000000) 1)) : HasFirst view :=
  ⟨_, h, rfl, rfl, by decide⟩

theorem HasFirst.getOutputFor (h : HasFirst view) :
    view.getOutputFor firstInput = some ⟨2000000000, []⟩ := by
  obtain ⟨coins, hcoins, -, -, hunspent⟩ := h
  rw [CCoinsViewCache.getOutputFor_eq, CCoinsViewCache.unspent, hcoins, Option.bind_some, hunspent]

theorem HasFirst.haveInputs (h : HasFirst view) : view.haveInputs (spendFirst nValue) = true := by
  have hvin : (spendFirst nValue).vin = [firstInput] := rfl
  simp [CCoinsViewCache.haveInputs, hvin, h.getOutputFor]

theorem HasFirst.getValueIn (h : HasFirst view) :
    view.getValueIn (spendFirst nValue) = some 2000000000 := by
  have hcb : (spendFirst nValue).isCoinBase = false := rfl
  have hvin : (spendFirst nValue).vin = [firstInput] := rfl
  simp only [CCoinsViewCache.getValueIn, hcb, hvin, List.foldlM_cons, List.foldlM_nil,
    h.getOutputFor]
  rfl

theorem getValueOut_spendFirst (hrange : 0 ≤ nValue ∧ nValue ≤ 2000000000) :
    (spendFirst nValue).getValueOut = some nValue := by
  have hwrap : toInt64 (0 + nValue) = nValue := by
    rw [zero_add]
    exact toInt64_of_range (by omega) (by omega)
  have hmoney : moneyRange nValue = true := by
    rw [moneyRange_iff, show maxMoney = 2800000000000000 from rfl]
    omega
  simp only [CTransaction.getValueOut, spendFirst, getValueOutFrom, hwrap, hmoney]
  rfl

/-- The inputs pass `CheckInputs` from height 721 on. -/
theorem HasFirst.checkInputs (h : HasFirst view) (hrange : 0 ≤ nValue ∧ nValue ≤ 2000000000)
    (hlength : p.length = 721) (state : CValidationState) (flags : BitVec 32) :
    spendingNode.checkInputs (spendFirst nValue) state view p true flags false = .accept [] := by
  have hcb : (spendFirst nValue).isCoinBase = false := rfl
  have hvin : (spendFirst nValue).vin = [firstInput] := rfl
  obtain ⟨coins, hcoins, hcoinbase, hheight, hunspent⟩ := id h
  have hat : coins.outAt firstInput.prevout.n.toNat = ⟨2000000000, []⟩ :=
    (unspentOf_eq_some.mp hunspent).2
  have hprev : p.isEmpty = false := by
    cases p with
    | nil => cases hlength
    | cons _ _ => rfl
  have hmature : checkInputValues view state p.length 0 (spendFirst nValue).vin =
      .accept 2000000000 := by
    rw [hlength, hvin]
    simp only [checkInputValues, hcoins, hcoinbase, hheight, hat, Verdict.bind_eq_accept,
      Verdict.require_eq_accept, Verdict.check_eq_accept, Option.some.injEq, exists_eq_left',
      Unique.exists_iff, Verdict.accept.injEq]
    decide
  have hscripts : ∃ checks, scriptChecks view (spendFirst nValue) flags 0
      (spendFirst nValue).vin = some checks ∧ spendingNode.runChecks state checks = .accept () := by
    rw [hvin]
    simp only [scriptChecks, hcoins]
    exact ⟨_, rfl, rfl⟩
  obtain ⟨checks, hscripts, hrun⟩ := hscripts
  have hle : decide (nValue ≤ 2000000000) = true := decide_eq_true hrange.2
  have hfee : toInt64 (2000000000 - nValue) = 2000000000 - nValue :=
    toInt64_of_range (by omega) (by omega)
  have hfeepos : decide (0 ≤ 2000000000 - nValue) = true := by
    rw [decide_eq_true_eq]
    omega
  have hfeerange : moneyRange (2000000000 - nValue) = true := by
    rw [moneyRange_iff, show maxMoney = 2800000000000000 from rfl]
    omega
  simp only [Node.checkInputs, hcb, h.haveInputs, hprev, hmature, getValueOut_spendFirst hrange, hle,
    hfee, hfeepos, hfeerange, hscripts, hrun, Verdict.check, Verdict.require, Verdict.accept_bind,
    Bool.false_eq_true, if_false, if_true]

/-- A transaction of the block that spends a mature coinbase pays its fee. -/
theorem connectTx_spendFirst {q : Progress} (hrange : 0 ≤ nValue ∧ nValue ≤ 2000000000)
    (hlength : p.length = 721) (hfees : q.nFees = 0) (hsigops : q.nSigOps ≤ 1000)
    (hfirst : HasFirst q.view) (state : CValidationState) (flags : BitVec 32) :
    ∃ q', spendingNode.connectTx state p true flags q (spendFirst nValue) = .accept q' ∧
      q'.nFees = 2000000000 - nValue ∧ q'.vChecks = q.vChecks := by
  have hcb : (spendFirst nValue).isCoinBase = false := rfl
  have hvin : (spendFirst nValue).vin = [firstInput] := rfl
  have hspends : (spendFirst nValue).spends = [firstInput] := rfl
  have hlegacy : getLegacySigOpCount (spendFirst nValue) = 0 := rfl
  have hp2sh : getP2SHSigOpCount q.view (spendFirst nValue).vin = some 0 := by
    simp [getP2SHSigOpCount, hvin, hfirst.getOutputFor, isPayToScriptHash]
  have hfee : toInt64 (2000000000 - nValue) = 2000000000 - nValue :=
    toInt64_of_range (by omega) (by omega)
  have hthreads : spendingNode.scriptCheckThreads = false := rfl
  have hupdate : ∃ view' txundo, q.view.updateCoins (spendFirst nValue) p.length
      ((spendFirst nValue).getHash spendingNode.hashes) = some (view', txundo) := by
    obtain ⟨coins, hcoins, -, -, hunspent⟩ := hfirst
    obtain ⟨coins', undo, hspend⟩ := CCoins.spend_of_unspent hunspent
    simp only [CCoinsViewCache.updateCoins, hspends, CCoinsViewCache.spendInputs,
      CCoinsViewCache.spendInput, hcoins, Option.bind_eq_bind, Option.bind_some, hspend]
    exact ⟨_, _, rfl⟩
  obtain ⟨view', txundo, hupdate⟩ := hupdate
  have hmax : maxBlockSigops = 20000 := rfl
  have hok : decide (q.nSigOps ≤ maxBlockSigops) = true := by
    rw [decide_eq_true_eq]
    omega
  refine ⟨⟨view', 2000000000 - nValue, q.nSigOps, q.vChecks ++ [], q.vtxundo ++ [txundo]⟩, ?_, rfl,
    List.append_nil _⟩
  simp only [Node.connectTx, hcb, hlegacy, Nat.add_zero, hok, hfirst.haveInputs, hp2sh,
    hfirst.getValueIn, getValueOut_spendFirst hrange, hthreads,
    hfirst.checkInputs hrange hlength state flags, hupdate, hfees, hfee, zero_add,
    Bool.false_eq_true, if_false, Verdict.check, if_true, Verdict.require, Verdict.accept_bind]

/-- The chain and the coins before the spending block. -/
abbrev LateFork (p : ChainIndex) (view : CCoinsViewCache) (issued : List Int) : Prop :=
  Planned minerMainParams 0x1d00ffff lateFork 720 p view issued

theorem LateFork.not_onFork (hp : LateFork p view issued) {c : CBlockIndex} {r : ChainIndex}
    (hr : c :: r <:+ p) : onFork (c :: r) = false := by
  obtain ⟨head, tail, rfl⟩ := List.exists_cons_of_length_eq_add_one hp.length
  have hcount : tail.countP countsForFork = 74 := by
    have hmap : (headerOnly.apply tail).countP countsForFork = tail.countP countsForFork :=
      List.countP_map
    have htail := congrArg List.tail hp.headers
    rw [← hmap, ← countP_lateFork]
    exact congrArg _ htail
  refine not_onFork_of_countP (by rw [hcount]; decide) ?_ c
  rcases List.suffix_cons_iff.mp hr with heq | hr
  · rw [(List.cons.inj heq).2]
  · exact (List.suffix_cons c r).trans hr

theorem LateFork.onFork (hp : LateFork p view issued) (c : CBlockIndex) : onFork (c :: p) = true := by
  have hheaders : headerOnly.apply (c :: p) = headerOnly.toFun c :: planned 0x1d00ffff lateFork 721 := by
    rw [HeaderMap.apply_cons, hp.headers]
  rw [← headerOnly.onFork_apply, hheaders, Bitmark.onFork, Bool.and_eq_true]
  decide +kernel

/-- The supply of an algorithm before its first block is at most five coins. -/
theorem LateFork.prevMoneySupply (hp : LateFork p view issued) (c : CBlockIndex) :
    0 ≤ prevMoneySupply (c :: p) ∧ prevMoneySupply (c :: p) ≤ 500000000 := by
  obtain ⟨head, tail, rfl⟩ := List.exists_cons_of_length_eq_add_one hp.length
  have hoff := hp.not_onFork (c := head) (r := tail) List.suffix_rfl
  have hsupply := hp.supply head List.mem_cons_self
  have hclaims : plannedClaims lateFork 720 = 2000000000 := plannedClaims_lateFork 719
  rw [prevMoneySupply_of_onFork (hp.onFork c), algoSupply_of_not_onFork hoff]
  rw [hclaims] at hsupply
  split
  · decide
  · rw [Int.tdiv_eq_ediv_of_nonneg hsupply.1]
    omega

/-- The transaction loop of the spending block. -/
theorem LateFork.runTxs_spendingBlock (hp : LateFork p view issued)
    (hrange : 0 ≤ nValue ∧ nValue ≤ 2000000000) (b : CBlockIndex) : ∃ q,
    spendingNode.runTxs (spendingBlock nValue) {} (b :: p) view (spendingBlock nValue).vtx =
        .accept q ∧
      q.nFees = 2000000000 - nValue ∧ q.vChecks = [] := by
  have hsigops := getLegacySigOpCount_minedCoinbase_le 721 0
  have hmax : maxBlockSigops = 20000 := rfl
  have hcheck : decide (getLegacySigOpCount (minedCoinbase 721 0) ≤ maxBlockSigops) = true := by
    rw [decide_eq_true_eq]
    omega
  have hhash : (minedCoinbase 721 0).getHash spendingNode.hashes = 721 :=
    getHash_minedCoinbase (by decide) 0
  have hfirst : spendingNode.connectTx {} p true (scriptFlags (spendingBlock nValue).nVersion (b :: p))
      { view } (minedCoinbase 721 0) =
      .accept
        { view := view.setCoins 721 (.ofTransaction (minedCoinbase 721 0) p.length)
          nSigOps := getLegacySigOpCount (minedCoinbase 721 0) } := by
    have hcb : (minedCoinbase 721 0).isCoinBase = true := rfl
    have hspends : (minedCoinbase 721 0).spends = [] := rfl
    simp only [Node.connectTx, Nat.zero_add, hcheck, hcb, if_true, CCoinsViewCache.updateCoins,
      hspends, CCoinsViewCache.spendInputs, hhash]
    rfl
  have hcoins : HasFirst (view.setCoins 721 (.ofTransaction (minedCoinbase 721 0) p.length)) := by
    refine .of_getCoins ?_
    rw [CCoinsViewCache.getCoins_setCoins_of_ne _ (by decide)]
    exact hp.coinbases 1 le_rfl (by decide)
  obtain ⟨q, hq, hfees, hchecks⟩ := connectTx_spendFirst (p := p)
    (q := { view := view.setCoins 721 (.ofTransaction (minedCoinbase 721 0) p.length)
            nSigOps := getLegacySigOpCount (minedCoinbase 721 0) })
    hrange hp.length rfl (by simp only; omega) hcoins {}
    (scriptFlags (spendingBlock nValue).nVersion (b :: p))
  have hscripts : decide (spendingNode.totalBlocksEstimate ≤ p.length) = true :=
    decide_eq_true (Nat.zero_le _)
  have hvtx : (spendingBlock nValue).vtx = [minedCoinbase 721 0, spendFirst nValue] := rfl
  refine ⟨q, ?_, hfees, hchecks⟩
  change spendingNode.connectTxs {} p (decide (spendingNode.totalBlocksEstimate ≤ p.length)) _ _ _ = _
  rw [hscripts, hvtx]
  simp only [Node.connectTxs, hfirst, hq, Verdict.accept_bind]

/-- The spending block passes the rules of its context. -/
theorem LateFork.contextCheck (hp : LateFork p view issued) :
    spendingNode.contextCheck (spendingBlock nValue) {} p none = .accept () := by
  have hbits : getNextWorkRequired minerMainParams p .x17 = 0x1d3e7fc1 := by
    rw [← headerOnly.getNextWorkRequired_apply, hp.headers]
    exact lateFork_values.2.2
  have htime : ∀ e ∈ p, e.nTime.toNat < 100000 := by
    intro e he
    have hlast : (lateFork 720).nTime.toNat < 100000 := by decide
    exact (hp.time e he).trans_lt hlast
  have hfork := hp.onFork (spendingBlock nValue |>.indexEntry minerHashes)
  have hcb : (spendingBlock nValue).vtx.head?.bind (·.vin.head?) =
      some ⟨.null, pushInt64 721 ++ [0, 0], -1⟩ := rfl
  simp only [Node.contextCheck, Verdict.bind_eq_accept, Verdict.check_eq_accept,
    Verdict.require_eq_accept, Unique.exists_iff, hcb, Option.some.injEq, exists_eq_left', hp.length,
    decide_eq_true_eq]
  have halgo : getAlgo (spendingBlock nValue).nVersion = .x17 := (by decide : getAlgo 0x0804 = .x17)
  refine ⟨?_, getMedianTimePast_lt hp.accepted.ne_nil htime, ?_, rfl, rfl,
    (by decide : 2 ≤ (0x0804 : Version).toInt), ?_, ?_, ?_⟩
  · rw [halgo]
    exact hbits.symm
  · simp [spendingBlock, isFinalTx, minedCoinbase, spendFirst, firstInput, CTxIn.isFinal]
  · simp
  · have hversion : decide ((spendingBlock nValue).nVersion.toInt < 3) = false :=
      (by decide : decide ((0x0804 : Version).toInt < 3) = false)
    rw [hversion]
    rfl
  · rw [Bitmark.onFork, hp.length] at hfork
    rw [hfork, Bool.or_true]

/-- The spending block is connected. -/
theorem LateFork.connectBlock_spendingBlock (hp : LateFork p view issued)
    (hvalue : nValue = 0 ∨ nValue = 2000000000) {q : Progress}
    (hrun : spendingNode.runTxs (spendingBlock nValue) {}
      ((spendingBlock nValue).indexEntry minerHashes :: p) view (spendingBlock nValue).vtx =
        .accept q)
    (hfees : q.nFees = 2000000000 - nValue) (hchecks : q.vChecks = []) :
    (spendingBlock nValue).getHash minerHashes ≠ minerMainParams.hashGenesisBlock ∧
    spendingNode.connectBlock (spendingBlock nValue) {}
      ((spendingBlock nValue).indexEntry minerHashes :: p) view false =
      .accept ⟨q.view.setBestBlock ((spendingBlock nValue).indexEntry minerHashes).blockHash,
        { (spendingBlock nValue).indexEntry minerHashes with
          nMoneySupply := moneySupply ((spendingBlock nValue).indexEntry minerHashes :: p) 0
            (2000000000 - nValue) } :: p, q.vtxundo⟩ := by
  have hrange : 0 ≤ nValue ∧ nValue ≤ 2000000000 := by omega
  have hcheck : spendingNode.checkBlock (spendingBlock nValue) {} true true = .accept () := by
    rcases hvalue with rfl | rfl <;> decide +kernel
  have hall : Unflagged ((spendingBlock nValue).indexEntry minerHashes :: p) :=
    unflagged_cons.mpr ⟨⟨(by decide : updateSsf 0x0804 = false), rfl⟩, hp.unflagged⟩
  have hrules : versionRules (spendingBlock nValue).nVersion
      ((spendingBlock nValue).indexEntry minerHashes :: p) = true :=
    hp.unflagged.versionRules fun _ ↦ (by decide : 4 ≤ (0x0804 : Version).toInt)
  have hbest : prevBlockHash ((spendingBlock nValue).indexEntry minerHashes :: p) = view.hashBlock := by
    rw [prevBlockHash, List.tail_cons, hp.head, hp.best]
    rfl
  have hid : (spendingBlock nValue).getHash minerHashes = 722 := by
    rcases hvalue with rfl | rfl <;> decide
  have hnew : (spendingBlock nValue).getHash minerHashes ≠ minerMainParams.hashGenesisBlock := by
    rw [hid]
    decide
  have hbip30 : ((spendingBlock nValue).txHashes minerHashes).all view.prunedAt = true := by
    have htxs : (spendingBlock nValue).txHashes minerHashes = [721, 1000000] := by
      rcases hvalue with rfl | rfl <;> decide
    have hfresh : ∀ txid : Uint256, 721 ≤ txid.toNat → view.prunedAt txid = true := by
      intro txid h
      rw [CCoinsViewCache.prunedAt, hp.fresh txid (by rw [hp.length]; exact h)]
      rfl
    simp only [htxs, List.all_cons, List.all_nil, hfresh 721 (by decide),
      hfresh 1000000 (by decide), Bool.and_self]
  have hsubsidy := subsidy_range minerMainParams ((spendingBlock nValue).indexEntry minerHashes :: p)
    false
  have hpos : 0 ≤ subsidy minerMainParams
      ((spendingBlock nValue).indexEntry minerHashes :: p) false := hall.subsidy_nonneg
  have hneeded : 0 ≤ getBlockValue minerMainParams
      ((spendingBlock nValue).indexEntry minerHashes :: p) (2000000000 - nValue) := by
    rw [getBlockValue, toInt64_of_range (by omega) (by omega)]
    omega
  have hfinish : spendingNode.finishBlock (minedCoinbase 721 0) {}
      ((spendingBlock nValue).indexEntry minerHashes :: p) q false =
      .accept ⟨q.view.setBestBlock ((spendingBlock nValue).indexEntry minerHashes).blockHash,
        { (spendingBlock nValue).indexEntry minerHashes with
          nMoneySupply := moneySupply ((spendingBlock nValue).indexEntry minerHashes :: p) 0
            (2000000000 - nValue) } :: p, q.vtxundo⟩ := by
    have hcached : cacheScalingFactor ((spendingBlock nValue).indexEntry minerHashes :: p) =
        (spendingBlock nValue).indexEntry minerHashes :: p := by
      have := hall.scaledIndex
      rwa [scaledIndex, if_neg Bool.false_ne_true, hall.setScalingFactor] at this
    have hvalue : (minedCoinbase 721 0).getValueOut = some 0 := by decide
    have hnode : spendingNode.params = minerMainParams ∧ spendingNode.diskOk = true := ⟨rfl, rfl⟩
    simp only [Node.finishBlock, Bool.false_eq_true, if_false, hall.setScalingFactor, hcached, hvalue,
      hfees, hchecks, hnode.1, hnode.2, decide_eq_true hneeded, List.all_nil, Verdict.require,
      Verdict.check, Verdict.accept_bind, if_true]
  refine ⟨hnew, ?_⟩
  have hvtx : (spendingBlock nValue).vtx = [minedCoinbase 721 0, spendFirst nValue] := rfl
  have hnode : spendingNode.hashes = minerHashes ∧ spendingNode.params = minerMainParams :=
    ⟨rfl, rfl⟩
  rw [hvtx] at hrun
  simp only [Node.connectBlock, Bool.not_false, hcheck, hrules, hbest, if_true, hvtx, hnode.1,
    hnode.2, if_neg hnew, hbip30, hrun, hfinish, Verdict.check, Verdict.require,
    Verdict.accept_bind]

/-- The spending block is accepted, and its fees are taken off the supply of X17. -/
theorem LateFork.exists_spending (hp : LateFork p view issued)
    (hvalue : nValue = 0 ∨ nValue = 2000000000) : ∃ b view',
    AcceptedChain minerHashes minerMainParams (b :: p) view' ((nValue - 2000000000) :: issued) ∧
      b.nVersion = 0x0804 ∧ b.subsidyScalingFactor = 0 ∧
      b.nMoneySupply = Bitmark.prevMoneySupply (b :: p) + (nValue - 2000000000) := by
  have hrange : 0 ≤ nValue ∧ nValue ≤ 2000000000 := by omega
  obtain ⟨q, hrun, hfees, hchecks⟩ :=
    hp.runTxs_spendingBlock hrange ((spendingBlock nValue).indexEntry minerHashes)
  obtain ⟨hnew, hconnect⟩ := hp.connectBlock_spendingBlock hvalue hrun hfees hchecks
  have hhashes : spendingNode.hashes = minerHashes := rfl
  have hlink : p.head?.map (·.blockHash) = some (spendingBlock nValue).hashPrevBlock := by
    rw [hp.head, hp.length]
    rfl
  have haccepted := AcceptedChain.block hp.accepted hlink rfl hhashes rfl hp.contextCheck hhashes rfl
    hnew hconnect hrun
  have hissued : claimed (spendingBlock nValue).vtx - q.nFees = nValue - 2000000000 := by
    have hclaimed : claimed (spendingBlock nValue).vtx = 0 := rfl
    rw [hclaimed, hfees]
    omega
  rw [hissued] at haccepted
  refine ⟨_, _, haccepted, rfl, rfl, ?_⟩
  have hfork := hp.onFork ((spendingBlock nValue).indexEntry minerHashes)
  have hprev := hp.prevMoneySupply ((spendingBlock nValue).indexEntry minerHashes)
  rw [prevMoneySupply_of_onFork (hp.onFork _), moneySupply, if_pos hfork]
  rw [prevMoneySupply_of_onFork hfork] at hprev ⊢
  change toInt64 (algoSupply p (getAlgo 0x0804) + 0 - _) = algoSupply p (getAlgo 0x0804) + _
  change 0 ≤ algoSupply p (getAlgo 0x0804) ∧ algoSupply p (getAlgo 0x0804) ≤ _ at hprev
  rw [toInt64_of_range] <;> omega

end Spending

/-- `emission_capped` for the chain with a first X17 block that pays no fees. -/
theorem emission_capped_lateFork : ∃ b p view issued,
    AcceptedChain minerHashes minerMainParams (b :: p) view issued ∧ onFork (b :: p) = true ∧
      issued.sum ≤ maxMoney ∧
      (∃ remainder, 0 ≤ remainder ∧ remainder < 8 ∧
        ∑ algo, algoSupply (b :: p) algo + remainder = issued.sum) ∧
      ∀ e ∈ b :: p, 0 ≤ e.nMoneySupply := by
  obtain ⟨p, view, issued, hp⟩ := lateFork_plan.exists_planned rfl (by decide)
  have hp : LateFork p view issued := hp
  obtain ⟨b, view', hb, hversion, -, -⟩ := hp.exists_spending (show 2000000000 = 0 ∨ _ from .inr rfl)
  have hoff : ∀ {q : ChainIndex} {nets : List Int}, q <:+ p → FeesCovered q nets := by
    intro q nets hq
    induction q generalizing nets with
    | nil => trivial
    | cons c rest ih =>
      cases nets with
      | nil => trivial
      | cons net nets =>
        refine ⟨fun hon ↦ ?_, ih ((List.suffix_cons c rest).trans hq)⟩
        rw [hp.not_onFork hq] at hon
        cases hon
  have hledger := hp.accepted.ledger (by decide) rfl fun c rest hsuf hon ↦ by
    rw [hp.not_onFork hsuf] at hon
    cases hon
  refine ⟨b, p, view', _, hb, hp.onFork b, hb.emission_capped (by decide) rfl
    (fun c rest hsuf hon ↦ ?_) ⟨fun _ ↦ ?_, hoff List.suffix_rfl⟩⟩
  · rcases List.suffix_cons_iff.mp hsuf with heq | hsuf
    · rw [(List.cons.inj heq).1, hversion]
      decide
    · rw [hp.not_onFork hsuf] at hon
      cases hon
  · have hshare := (hp.prevMoneySupply b).1
    rw [prevMoneySupply_of_onFork (hp.onFork b), hledger.supply] at hshare
    omega

/-- The supply of an algorithm is negative once a block burns more in fees than it has issued:
the first X17 block of the chain leaves 20 coins of fees unclaimed. -/
theorem moneySupply_negative : ∃ b p view issued,
    AcceptedChain minerHashes minerMainParams (b :: p) view issued ∧ b.nMoneySupply < 0 := by
  obtain ⟨p, view, issued, hp⟩ := lateFork_plan.exists_planned rfl (by decide)
  have hp : LateFork p view issued := hp
  obtain ⟨b, view', hb, -, -, hsupply⟩ := hp.exists_spending (show 0 = 0 ∨ _ from .inl rfl)
  have hprev := hp.prevMoneySupply b
  exact ⟨b, p, view', _, hb, by omega⟩

end Bitmark

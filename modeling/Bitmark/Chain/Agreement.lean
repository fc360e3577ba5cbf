import Bitmark.Chain.HeaderMap

/-!
# Chains that agree

Two index chains for the same blocks may differ in the cached scaling factors and in the money
supply recorded for genesis, which nothing on the fork reads. Block values and recorded supplies
of later blocks are then the same on both.
-/

namespace Bitmark

/-- Forget everything but the header. -/
def headerOnly : HeaderMap where
  toFun b := { b with blockHash := 0, nMoneySupply := 0, subsidyScalingFactor := 0 }
  nVersion_eq _ := rfl
  nTime_eq _ := rfl
  nBits_eq _ := rfl

/-- The same blocks with the same recorded supplies, genesis apart. -/
inductive Agrees : ChainIndex → ChainIndex → Prop
  | nil : Agrees [] []
  | cons {b c : CBlockIndex} {p q : ChainIndex} (blockHash : b.blockHash = c.blockHash)
    (nVersion : b.nVersion = c.nVersion) (nTime : b.nTime = c.nTime) (nBits : b.nBits = c.nBits)
    (supply : p ≠ [] → b.nMoneySupply = c.nMoneySupply) (rest : Agrees p q) :
    Agrees (b :: p) (c :: q)

namespace Agrees

variable {b c : CBlockIndex} {p q r : ChainIndex}

theorem refl (p : ChainIndex) : Agrees p p := by
  induction p with
  | nil => exact .nil
  | cons b p ih => exact .cons rfl rfl rfl rfl (fun _ ↦ rfl) ih

theorem length_eq (h : Agrees p q) : p.length = q.length := by
  induction h with
  | nil => rfl
  | cons _ _ _ _ _ _ ih => simp only [List.length_cons, ih]

theorem ne_nil (h : Agrees p q) (hp : p ≠ []) : q ≠ [] := by
  cases h with
  | nil => exact hp
  | cons => simp

theorem trans (h : Agrees p q) (h' : Agrees q r) : Agrees p r := by
  induction h generalizing r with
  | nil => exact h'
  | cons hhash hversion htime hbits hsupply hrest ih =>
    cases h' with
    | cons hhash' hversion' htime' hbits' hsupply' hrest' =>
      refine .cons (hhash.trans hhash') (hversion.trans hversion') (htime.trans htime')
        (hbits.trans hbits') (fun hp ↦ ?_) (ih hrest')
      exact (hsupply hp).trans (hsupply' (hrest.ne_nil hp))

theorem drop (h : Agrees p q) (n : Nat) : Agrees (p.drop n) (q.drop n) := by
  induction h generalizing n with
  | nil => simpa using Agrees.nil
  | cons hhash hversion htime hbits hsupply hrest ih =>
    cases n with
    | zero => exact .cons hhash hversion htime hbits hsupply hrest
    | succ n => exact ih n

/-- What is read from headers only is the same. -/
theorem headers (h : Agrees p q) : headerOnly.apply p = headerOnly.apply q := by
  induction h with
  | nil => rfl
  | cons hhash hversion htime hbits hsupply hrest ih =>
    rw [HeaderMap.apply_cons, HeaderMap.apply_cons, ih]
    simp only [headerOnly, hversion, htime, hbits]

theorem onFork (h : Agrees p q) : onFork p = onFork q := by
  rw [← headerOnly.onFork_apply p, h.headers, headerOnly.onFork_apply]

theorem keyFactor (h : Agrees p q) : keyFactor p = keyFactor q := by
  rw [← headerOnly.keyFactor_apply p, h.headers, headerOnly.keyFactor_apply]

/-! ### Supplies -/

theorem prevOfAlgo (h : Agrees p q) (algo : Algo) :
    Agrees (prevOfAlgo algo p) (prevOfAlgo algo q) := by
  induction h with
  | nil => exact .nil
  | cons hhash hversion htime hbits hsupply hrest ih =>
    have hwhole := Agrees.cons hhash hversion htime hbits hsupply hrest
    rw [Bitmark.prevOfAlgo, Bitmark.prevOfAlgo, ← hwhole.onFork, ← hversion]
    split
    · split
      · exact hwhole
      · exact ih
    · exact .nil

theorem getPprevAlgo (h : Agrees p q) (hversion : b.nVersion = c.nVersion) (useAlgo : Option Algo) :
    Agrees (getPprevAlgo (b :: p) useAlgo) (getPprevAlgo (c :: q) useAlgo) := by
  have hfork : Bitmark.onFork (b :: p) = Bitmark.onFork (c :: q) :=
    (Agrees.cons (b := { c with blockHash := c.blockHash }) rfl rfl rfl rfl (fun _ ↦ rfl) h).onFork
  simp only [Bitmark.getPprevAlgo, ← hversion, ← hfork]
  split
  · exact h.prevOfAlgo _
  · exact .nil

theorem mpowMsCorrectionFrom (h : Agrees p q) :
    mpowMsCorrectionFrom p = mpowMsCorrectionFrom q := by
  induction h with
  | nil => rfl
  | @cons b c p q hhash hversion htime hbits hsupply hrest ih =>
    have hwhole := Agrees.cons hhash hversion htime hbits hsupply hrest
    rw [Bitmark.mpowMsCorrectionFrom, Bitmark.mpowMsCorrectionFrom, ← hwhole.onFork, ih,
      ← hrest.length_eq]
    split
    · rfl
    · split
      · rfl
      · next hlength => rw [hsupply fun hnil ↦ hlength (by rw [hnil]; rfl)]

/-- An entry on the fork is not genesis. -/
theorem supply_of_onFork (h : Agrees (b :: p) (c :: q)) (hfork : Bitmark.onFork (b :: p) = true) :
    b.nMoneySupply = c.nMoneySupply := by
  cases h with
  | cons _ _ _ _ hsupply _ =>
    refine hsupply fun hnil ↦ ?_
    rw [hnil] at hfork
    cases hfork

theorem prevMoneySupply (h : Agrees p q) (hversion : b.nVersion = c.nVersion) :
    prevMoneySupply (b :: p) = prevMoneySupply (c :: q) := by
  have hwalk := h.getPprevAlgo hversion none
  have hspec : Bitmark.getPprevAlgo (b :: p) = [] ∨ ∃ e rest,
      Bitmark.getPprevAlgo (b :: p) = e :: rest ∧ Bitmark.onFork (e :: rest) = true := by
    rw [Bitmark.getPprevAlgo]
    split
    · rcases prevOfAlgo_spec ((none : Option Algo).getD (getAlgo b.nVersion)) p with
        hnil | ⟨e, rest, heq, hon, -⟩
      · exact .inl hnil
      · exact .inr ⟨e, rest, heq, hon⟩
    · exact .inl rfl
  rw [Bitmark.prevMoneySupply, Bitmark.prevMoneySupply]
  rcases hspec with hnil | ⟨e, rest, heq, hon⟩
  · rw [hnil] at hwalk ⊢
    generalize Bitmark.getPprevAlgo (c :: q) = walk at hwalk
    cases hwalk
    exact h.mpowMsCorrectionFrom
  · rw [heq] at hwalk ⊢
    generalize Bitmark.getPprevAlgo (c :: q) = walk at hwalk
    cases hwalk with
    | cons hhash hv ht hb hs hrest =>
      exact (Agrees.cons hhash hv ht hb hs hrest).supply_of_onFork hon

theorem baseSubsidy (h : Agrees p q) (hversion : b.nVersion = c.nVersion) (params : CChainParams) :
    baseSubsidy params (b :: p) = baseSubsidy params (c :: q) := by
  simp only [Bitmark.baseSubsidy, emitted, h.prevMoneySupply hversion]

end Agrees

end Bitmark

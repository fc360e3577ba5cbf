import Bitmark.Consensus.AcceptBlock

/-!
# Cached scaling factors

`ConnectBlock` stores a scaling factor in the index entry of each block on the fork, or inherits
the one of the previous block of the algorithm (`src/main.cpp:2294`). Whatever was stored, it is
the factor that a walk back to the last block with the update flag finds.
-/

namespace Bitmark

/-- Every cached factor is missing or is the factor of the key block. -/
def Coherent (p : ChainIndex) : Prop :=
  ∀ b rest, b :: rest <:+ p → onFork (b :: rest) = true →
    b.subsidyScalingFactor = 0 ∨ keyFactor (b :: rest) = some b.subsidyScalingFactor

theorem coherent_nil : Coherent [] := by
  intro b rest h
  exact absurd (List.suffix_nil.mp h) (by simp)

theorem coherent_cons {b : CBlockIndex} {p : ChainIndex} :
    Coherent (b :: p) ↔ (onFork (b :: p) = true →
      b.subsidyScalingFactor = 0 ∨ keyFactor (b :: p) = some b.subsidyScalingFactor) ∧
      Coherent p := by
  constructor
  · exact fun h ↦ ⟨h b p List.suffix_rfl, fun c rest hsuf ↦ h c rest (hsuf.trans (List.suffix_cons b p))⟩
  · rintro ⟨hb, hp⟩ c rest hsuf
    rcases List.suffix_cons_iff.mp hsuf with heq | hsuf
    · obtain ⟨rfl, rfl⟩ := List.cons.inj heq
      exact hb
    · exact hp c rest hsuf

theorem Coherent.suffix {p q : ChainIndex} (h : Coherent p) (hq : q <:+ p) : Coherent q :=
  fun b rest hsuf ↦ h b rest (hsuf.trans hq)

/-- Without the update flag a block has the key block of the previous block of its algorithm. -/
theorem keyFactor_of_unflagged {b : CBlockIndex} {p : ChainIndex} (h : updateSsf b.nVersion = false) :
    keyFactor (b :: p) = keyFactor (getPprevAlgo (b :: p)) := by
  rw [keyFactor, keyFactor, keyBlock, if_neg (by simp [h])]

theorem keyFactor_of_flagged {b : CBlockIndex} {p : ChainIndex} (h : updateSsf b.nVersion = true) :
    keyFactor (b :: p) = some (getSsf (b :: p)) := by
  rw [keyFactor, keyBlock, if_pos h]

/-- A factor that is missing or right is completed to the right one. -/
theorem scalingFactor_of_coherent {b : CBlockIndex} {p : ChainIndex}
    (h : b.subsidyScalingFactor = 0 ∨ keyFactor (b :: p) = some b.subsidyScalingFactor) :
    scalingFactor (b :: p) = (keyFactor (b :: p)).getD 0 := by
  rw [scalingFactor]
  rcases h with h | h
  · rw [h]
    rfl
  · rw [h, Option.getD_some, Option.getD_some]
    exact ite_self _

/-- `setScalingFactor` on the fork gives a new block a factor that is missing or right. -/
theorem setScalingFactor_coherent {b : CBlockIndex} {p : ChainIndex} (hp : Coherent p)
    (hfork : onFork (b :: p) = true) (hnew : b.subsidyScalingFactor = 0) :
    ∃ factor, setScalingFactor (b :: p) = { b with subsidyScalingFactor := factor } :: p ∧
      (factor = 0 ∨ keyFactor (b :: p) = some factor) := by
  simp only [setScalingFactor, hfork, if_true]
  cases hflag : updateSsf b.nVersion with
  | true => exact ⟨getSsf (b :: p), by simp, .inr (keyFactor_of_flagged hflag)⟩
  | false =>
    simp only [Bool.false_eq_true, if_false]
    have hkey := keyFactor_of_unflagged (p := p) hflag
    have hsuf := getPprevAlgo_suffix b p none
    cases hprev : getPprevAlgo (b :: p) with
    | nil => exact ⟨0, by simp [← hnew], .inl rfl⟩
    | cons c rest =>
      rw [hprev] at hkey hsuf
      have hc : onFork (c :: rest) = true := by
        rw [getPprevAlgo, if_pos hfork] at hprev
        rcases prevOfAlgo_spec ((none : Option Algo).getD (getAlgo b.nVersion)) p with
          hnil | ⟨c', rest', heq, hon, -⟩
        · rw [hnil] at hprev
          cases hprev
        · rw [hprev] at heq
          rwa [heq]
      refine ⟨c.subsidyScalingFactor, rfl, ?_⟩
      rw [hkey]
      exact hp c rest hsuf hc

/-- The factor `GetBlockValue` uses for a new block on the fork. -/
theorem scalingFactor_setScalingFactor {b : CBlockIndex} {p : ChainIndex} (hp : Coherent p)
    (hfork : onFork (b :: p) = true) (hnew : b.subsidyScalingFactor = 0) :
    scalingFactor (setScalingFactor (b :: p)) = (keyFactor (b :: p)).getD 0 := by
  obtain ⟨factor, hset, hfactor⟩ := setScalingFactor_coherent hp hfork hnew
  have hhead : keyFactor ({ b with subsidyScalingFactor := factor } :: p) = keyFactor (b :: p) := by
    refine keyFactor_head ?_ p
    rfl
  rw [hset, scalingFactor_of_coherent (hhead.symm ▸ hfactor), hhead]

/-- What `ConnectBlock` leaves in the entry of a new block. -/
theorem connectedFactor_eq {b : CBlockIndex} {p : ChainIndex} (hp : Coherent p) :
    connectedFactor b p = if onFork (b :: p) then (keyFactor (b :: p)).getD 0 else 0 := by
  generalize hnew : ({ b with nMoneySupply := 0, subsidyScalingFactor := 0 } : CBlockIndex) = b'
  have hfork : onFork (b' :: p) = onFork (b :: p) := by rw [← hnew]; rfl
  have hkey : keyFactor (b' :: p) = keyFactor (b :: p) := by
    refine keyFactor_head ?_ p
    rw [← hnew]
  have hzero : b'.subsidyScalingFactor = 0 := by rw [← hnew]
  rw [connectedFactor, hnew, scaledIndex, if_neg Bool.false_ne_true]
  cases hon : onFork (b :: p) with
  | false =>
    rw [setScalingFactor, hfork, hon, if_neg Bool.false_ne_true, cacheScalingFactor, hfork, hon]
    simpa using hzero
  | true =>
    rw [hon] at hfork
    obtain ⟨factor, hset, -⟩ := setScalingFactor_coherent hp hfork hzero
    have hscale := scalingFactor_setScalingFactor hp hfork hzero
    have hon' : onFork ({ b' with subsidyScalingFactor := factor } :: p) = true := hfork
    rw [hset] at hscale ⊢
    simp only [cacheScalingFactor, hon', if_true, hscale, hkey]
    rfl

/-- What `ConnectBlock` leaves in an entry keeps the chain coherent. -/
theorem coherent_connected {b : CBlockIndex} {p : ChainIndex} (hp : Coherent p)
    (hfactor : b.subsidyScalingFactor = connectedFactor b p) : Coherent (b :: p) := by
  refine coherent_cons.mpr ⟨fun hfork ↦ ?_, hp⟩
  rw [hfactor, connectedFactor_eq hp, if_pos hfork]
  cases keyFactor (b :: p) with
  | none => exact .inl rfl
  | some factor => exact .inr rfl

/-- The cached factors of an accepted chain are coherent. -/
theorem AcceptedChain.coherent {H : Hashes} {params : CChainParams} {p : ChainIndex}
    {view : CCoinsViewCache} {issued : List Int} (h : AcceptedChain H params p view issued) :
    Coherent p := by
  refine h.induction_on (motive := fun p _ _ ↦ Coherent p) (fun b _ _ _ hfactor ↦ ?_)
    fun b pprev _ _ _ _ _ ih hext ↦ ?_
  · exact coherent_cons.mpr ⟨fun _ ↦ .inl hfactor, coherent_nil⟩
  · exact coherent_connected ih hext.factor

end Bitmark

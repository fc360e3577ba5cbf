import Bitmark.Consensus.SubsidyBounds
import Bitmark.Lib.Cadence
import Bitmark.Mining.Template

/-!
# The cadence of the update flag

`ConnectBlock` (`src/main.cpp:2155`) and `CreateNewBlock` (`src/miner.cpp:353`) walk back along the
blocks of an algorithm with loops of their own. Both look at the flags of the same blocks, so the
flag of a template always passes the rules and the flagged blocks of an algorithm are every
`nSSF`-th one.
-/

namespace Bitmark

open Cadence

/-- The blocks of an algorithm from a tip back to the last block before the fork, newest first:
the blocks `get_pprev_algo` steps through. -/
def algoBlocks (algo : Algo) : ChainIndex → List CBlockIndex
  | [] => []
  | b :: pprev =>
    if onFork (b :: pprev) then
      if getAlgo b.nVersion = algo then b :: algoBlocks algo pprev else algoBlocks algo pprev
    else []

/-- Their update flags. -/
def algoFlags (algo : Algo) (p : ChainIndex) : List Bool :=
  (algoBlocks algo p).map fun b ↦ updateSsf b.nVersion

/-! ### The walks -/

/-- A walk finds the newest block of the algorithm, with the others behind it. -/
theorem algoBlocks_eq (algo : Algo) (p : ChainIndex) :
    algoBlocks algo p = match prevOfAlgo algo p with
      | [] => []
      | b :: rest => b :: algoBlocks algo rest := by
  induction p with
  | nil => rfl
  | cons b p ih =>
    rw [algoBlocks, prevOfAlgo]
    split
    · split
      · rfl
      · exact ih
    · rfl

/-- One step of `get_pprev_algo` from a block on the fork. -/
theorem algoFlags_of_getPprevAlgo {b : CBlockIndex} {p : ChainIndex} {algo : Algo}
    (hfork : onFork (b :: p) = true) (halgo : getAlgo b.nVersion = algo) :
    (getPprevAlgo (b :: p) = [] ∧ algoFlags algo p = []) ∨
      ∃ c rest, getPprevAlgo (b :: p) = c :: rest ∧ onFork (c :: rest) = true ∧
        getAlgo c.nVersion = algo ∧
        algoFlags algo p = updateSsf c.nVersion :: algoFlags algo rest := by
  have hwalk : getPprevAlgo (b :: p) = prevOfAlgo algo p := by
    rw [getPprevAlgo, if_pos hfork, Option.getD_none, halgo]
  rw [hwalk, algoFlags, algoBlocks_eq]
  rcases prevOfAlgo_spec algo p with hnil | ⟨c, rest, heq, hon, hc, -⟩
  · exact .inl ⟨hnil, by rw [hnil]; rfl⟩
  · exact .inr ⟨c, rest, heq, hon, hc, by rw [heq]; rfl⟩

/-- The walk of the rules reaches the flagged ones of the next `n` blocks. -/
theorem mem_flaggedSteps {b : CBlockIndex} {p : ChainIndex} {algo : Algo}
    (hfork : onFork (b :: p) = true) (halgo : getAlgo b.nVersion = algo) (n i j : Nat) :
    j ∈ flaggedSteps n i (b :: p) ↔
      ∃ k < n, j = i + k ∧ (algoFlags algo p).getD k false = true := by
  induction n generalizing b p i with
  | zero => simp [flaggedSteps]
  | succ n ih =>
    rw [flaggedSteps]
    rcases algoFlags_of_getPprevAlgo hfork halgo with ⟨hnil, hflags⟩ | ⟨c, rest, heq, hon, hc, hflags⟩
    · simp [hnil, hflags]
    · have hstep : (∃ k < n + 1, j = i + k ∧ (algoFlags algo p).getD k false = true) ↔
          (j = i ∧ updateSsf c.nVersion = true) ∨
            ∃ k < n, j = i + 1 + k ∧ (algoFlags algo rest).getD k false = true := by
        rw [hflags]
        constructor
        · rintro ⟨k, hk, hj, hset⟩
          cases k with
          | zero => exact .inl ⟨hj, hset⟩
          | succ k => exact .inr ⟨k, by omega, by omega, hset⟩
        · rintro (⟨hj, hset⟩ | ⟨k, hk, hj, hset⟩)
          · exact ⟨0, by omega, hj, hset⟩
          · exact ⟨k + 1, by omega, by omega, hset⟩
      rw [heq, hstep, ← ih hon hc (i + 1)]
      cases hflag : updateSsf c.nVersion <;> simp [hflag]

/-- The rules of `ConnectBlock` say that the flag fits those of the blocks behind it. -/
theorem ssfCadence_iff {b : CBlockIndex} {p : ChainIndex} (hfork : onFork (b :: p) = true) :
    ssfCadence (b :: p) = true ↔
      Fits nSSF (updateSsf b.nVersion) (algoFlags (getAlgo b.nVersion) p) := by
  have hmem := mem_flaggedSteps hfork rfl nSSF 0
  have hssf : nSSF = 90 := rfl
  rw [ssfCadence, Fits]
  cases updateSsf b.nVersion with
  | true =>
    simp only [if_true, List.all_eq_true, decide_eq_true_eq]
    constructor
    · intro h k hk
      by_contra hset
      have := h k ((hmem k).mpr ⟨k, by omega, by omega, by simpa using hset⟩)
      omega
    · intro h j hj
      obtain ⟨k, hk, rfl, hset⟩ := (hmem j).mp hj
      by_contra hne
      rw [h k (by omega)] at hset
      cases hset
  | false =>
    simp only [Bool.false_eq_true, if_false, List.all_eq_true, decide_eq_true_eq]
    constructor
    · intro h
      by_contra hset
      exact h (nSSF - 1) ((hmem (nSSF - 1)).mpr ⟨nSSF - 1, by omega, by omega, by simpa using hset⟩) rfl
    · intro h j hj hlast
      obtain ⟨k, hk, rfl, hset⟩ := (hmem j).mp hj
      rw [show k = nSSF - 1 by omega, h] at hset
      cases hset

/-- The miner's loop sets the flag unless one of the blocks before the last one it looks at is
flagged. -/
theorem updateLoop_eq {b : CBlockIndex} {p : ChainIndex} {algo : Algo}
    (hfork : onFork (b :: p) = true) (halgo : getAlgo b.nVersion = algo) {n i : Nat}
    (hni : i + n = nSSF) :
    updateLoop n i (b :: p) = choice n (updateSsf b.nVersion :: algoFlags algo p) := by
  induction n generalizing b p i with
  | zero => rfl
  | succ n ih =>
    rw [updateLoop]
    have hchoice : choice (n + 1) (updateSsf b.nVersion :: algoFlags algo p) =
        if n = 0 then true else !updateSsf b.nVersion && choice n (algoFlags algo p) := by
      cases n with
      | zero => rfl
      | succ n =>
        rw [if_neg (by omega), choice, choice, Nat.add_sub_cancel, Nat.add_sub_cancel,
          List.range_succ_eq_map, List.all_cons, List.all_map]
        rfl
    rw [hchoice]
    rcases Nat.eq_zero_or_pos n with rfl | hpos
    · rw [if_pos rfl]
      split
      · exact decide_eq_true (by omega)
      · split
        · rfl
        · next hne => cases hp : getPprevAlgo (b :: p) <;> simp_all [updateLoop]
    · rw [if_neg hpos.ne']
      cases hflag : updateSsf b.nVersion with
      | true =>
        simp only [if_true, Bool.not_true, Bool.false_and, decide_eq_false_iff_not]
        omega
      | false =>
        simp only [Bool.false_eq_true, if_false, Bool.not_false, Bool.true_and]
        rcases algoFlags_of_getPprevAlgo hfork halgo with
          ⟨hnil, hflags⟩ | ⟨c, rest, heq, hon, hc, hflags⟩
        · rw [hnil, hflags]
          simp [choice]
        · rw [heq, hflags]
          exact ih (i := i + 1) hon hc (by omega)

/-! ### Accepted chains -/

section

variable {H : Hashes} {params : CChainParams} {p : ChainIndex} {view : CCoinsViewCache}
  {issued : List Int}

/-- The flags of an algorithm on an accepted chain fit one another. -/
theorem AcceptedChain.cadenced (h : AcceptedChain H params p view issued) (algo : Algo) :
    Cadenced nSSF (algoFlags algo p) := by
  refine h.induction_on (motive := fun p _ _ ↦ Cadenced nSSF (algoFlags algo p))
    (fun b _ _ _ _ ↦ ?_) fun b pprev _ _ _ _ _ ih hext ↦ ?_
  · exact trivial
  · rw [algoFlags, algoBlocks]
    split
    · next hfork =>
      split
      · next halgo =>
        have hrules := hext.rules
        rw [versionRules, hfork, Bool.and_eq_true, Bool.not_true, Bool.false_or] at hrules
        have hfits := (ssfCadence_iff hfork).mp hrules.2
        rw [halgo] at hfits
        exact ⟨hfits, ih⟩
      · exact ih
    · exact trivial

/-- The flag of a template is the writer's choice, behind a tip on the fork. -/
theorem setsUpdateSsf_eq {algo : Algo} (hactive : forkActive p = true) (hfork : onFork p = true) :
    setsUpdateSsf p algo = choice nSSF (algoFlags algo p) := by
  have hssf : nSSF = 90 := rfl
  cases p with
  | nil => cases hfork
  | cons tip pprev =>
    rw [setsUpdateSsf, hactive, Bool.true_and]
    by_cases halgo : getAlgo tip.nVersion = algo
    · rw [if_neg (by simpa using halgo)]
      simp only
      rw [updateLoop_eq hfork halgo (by omega), algoFlags, algoFlags, algoBlocks, if_pos hfork,
        if_pos halgo, List.map_cons]
    · have hwalk : getPprevAlgo (tip :: pprev) (some algo) = prevOfAlgo algo pprev := by
        rw [getPprevAlgo, if_pos hfork, Option.getD_some]
      have hflags : algoFlags algo (tip :: pprev) = algoFlags algo pprev := by
        rw [algoFlags, algoFlags, algoBlocks, if_pos hfork, if_neg halgo]
      rw [if_pos halgo, hwalk, hflags, algoFlags, algoBlocks_eq]
      rcases prevOfAlgo_spec algo pprev with hnil | ⟨c, rest, heq, hon, hc, -⟩
      · rw [hnil]
        simp [choice]
      · rw [heq]
        simp only
        rw [updateLoop_eq hon hc (by omega)]
        rfl

/-- The cadence of the update flag. On every accepted chain, the flagged blocks of an algorithm
since the fork are every `nSSF`-th from the first flagged one. The flag of a template passes the
rules of `ConnectBlock` on every tip, and once the algorithm has a flagged block no other flag
passes them. -/
theorem AcceptedChain.ssf_cadence (h : AcceptedChain H params p view issued) (algo : Algo) :
    (∃ first, ∀ j b, (algoBlocks algo p).reverse[j]? = some b →
      (updateSsf b.nVersion = true ↔ first ≤ j ∧ nSSF ∣ j - first)) ∧
    ∀ b, getAlgo b.nVersion = algo → onFork (b :: p) = true →
      (updateSsf b.nVersion = setsUpdateSsf p algo → ssfCadence (b :: p) = true) ∧
      ((∃ e ∈ algoBlocks algo p, updateSsf e.nVersion = true) → ssfCadence (b :: p) = true →
        updateSsf b.nVersion = setsUpdateSsf p algo) := by
  have hcadenced := h.cadenced algo
  have hssf : 0 < nSSF := by decide
  constructor
  · obtain ⟨first, hfirst⟩ := hcadenced.every hssf
    refine ⟨first, fun j b hb ↦ ?_⟩
    obtain ⟨hj, hget⟩ := List.getElem?_eq_some_iff.mp hb
    rw [List.length_reverse] at hj
    rw [← hfirst j (by rwa [algoFlags, List.length_map]), algoFlags, ← List.map_reverse,
      List.getD_eq_getElem?_getD, List.getElem?_map, hb]
    rfl
  · intro b halgo hfork
    have hactive : forkActive p = true := by
      rw [onFork] at hfork
      exact hfork
    rw [ssfCadence_iff hfork, halgo]
    cases hon : onFork p with
    | true =>
      rw [setsUpdateSsf_eq hactive hon]
      constructor
      · intro hflag
        rw [hflag]
        exact hcadenced.fits_choice
      · rintro ⟨e, he, hset⟩ hfits
        refine hcadenced.eq_choice hssf ?_ hfits
        obtain ⟨k, hk, rfl⟩ := List.mem_iff_getElem.mp he
        refine ⟨k, ?_⟩
        rw [algoFlags, List.getD_eq_getElem _ _ (by rwa [List.length_map]), List.getElem_map]
        exact hset
    | false =>
      -- the first block on the fork has no blocks behind it
      have hnone : algoBlocks algo p = [] := by
        cases p with
        | nil => rfl
        | cons c rest => rw [algoBlocks, if_neg (by simp [hon])]
      rw [algoFlags, hnone]
      refine ⟨fun _ ↦ ?_, fun hset ↦ absurd hset (by simp)⟩
      rw [Fits]
      split <;> simp

end

/-- `ssf_cadence` for a chain with an update: the next scrypt block has to follow the template. -/
theorem ssf_cadence_updated : ∃ b p view issued,
    AcceptedChain minerHashes minerParams (b :: p) view issued ∧
      b ∈ algoBlocks .scrypt (b :: p) ∧ updateSsf b.nVersion = true ∧
      (∃ first, ∀ j c, (algoBlocks .scrypt (b :: p)).reverse[j]? = some c →
        (updateSsf c.nVersion = true ↔ first ≤ j ∧ nSSF ∣ j - first)) ∧
      ∀ c, getAlgo c.nVersion = .scrypt → onFork (c :: b :: p) = true →
        ssfCadence (c :: b :: p) = true →
          updateSsf c.nVersion = setsUpdateSsf (b :: p) .scrypt := by
  obtain ⟨b, p, view, issued, hp, hversion, hfork, -, -⟩ := exists_updated
  have hflag : updateSsf b.nVersion = true := by
    rw [hversion]
    decide
  have hmem : b ∈ algoBlocks .scrypt (b :: p) := by
    rw [algoBlocks, if_pos hfork, if_pos (by rw [hversion]; decide)]
    exact List.mem_cons_self
  obtain ⟨hcadence, hnext⟩ := hp.ssf_cadence .scrypt
  exact ⟨b, p, view, issued, hp, hmem, hflag, hcadence, fun c halgo hon ↦
    (hnext c halgo hon).2 ⟨b, hmem, hflag⟩⟩

end Bitmark

import Bitmark.Chain.Resurrector
import Bitmark.Consensus.Restart

/-!
# The range of the next target

`GetNextWorkRequired` against the range test of `CheckProofOfWork` (`src/pow.cpp:13`). The targets
it computes from are divided by three or four at most, so they stay positive unless they are
that small; a target that is not positive would stop its algorithm.
-/

namespace Bitmark

namespace GravityWave

variable {algo : Algo}

/-- The blocks of the algorithm in the window. -/
def blocks (algo : Algo) : Nat → ChainIndex → List CBlockIndex
  | _, [] => []
  | left, b :: pprev =>
    if !onFork (b :: pprev) then []
    else if getAlgo b.nVersion ≠ algo then blocks algo left pprev
    else if left ≤ 1 then [b]
    else b :: blocks algo (left - 1) pprev

theorem length_blocks (left : Nat) (p : ChainIndex) :
    (blocks algo left p).length = (marks algo left p).count true := by
  induction p generalizing left with
  | nil => rfl
  | cons b pprev ih =>
    rw [blocks, marks]
    split
    · rfl
    · split
      · rw [List.count_cons_of_ne (by decide), ih]
      · split
        · rfl
        · rw [List.length_cons, List.count_cons_self, ih]

/-- The average of targets of three and more is three or more. -/
theorem le_average_sameAlgo {s : GravityWave} {b : CBlockIndex} (m : Int)
    (hb : 3 ≤ setCompact b.nBits) (h : s.countBlocks = 0 ∨ 3 ≤ s.pastDifficultyAverage) :
    3 ≤ (s.sameAlgo b m).pastDifficultyAverage := by
  by_cases hzero : s.countBlocks = 0
  · simp only [sameAlgo, hzero, Nat.zero_add, pastBlocks, show ¬ 25 < 1 by decide, if_false, if_true]
    exact hb
  · have havg : 3 ≤ s.pastDifficultyAverage := h.resolve_left hzero
    by_cases hfull : pastBlocks < s.countBlocks + 1
    · simp only [sameAlgo, hfull, if_true]
      exact havg
    · simp only [sameAlgo, hfull, Nat.add_eq_right, hzero, if_false, Nat.add_sub_cancel]
      have hcount : 0 < ((s.countBlocks + 1 : Nat) : Int) := by omega
      have hsum : 3 * ((s.countBlocks + 1 : Nat) : Int) ≤
          s.pastDifficultyAverage * (s.countBlocks : Int) + setCompact b.nBits := by
        push_cast
        nlinarith
      rw [Int.tdiv_eq_ediv_of_nonneg (le_trans (by omega) hsum)]
      exact (Int.le_ediv_iff_mul_le hcount).mpr hsum

@[simp] theorem pastDifficultyAverage_seeTime (s : GravityWave) (m : Int) :
    (s.seeTime m).pastDifficultyAverage = s.pastDifficultyAverage := by
  unfold seeTime
  split <;> rfl

@[simp] theorem pastDifficultyAverage_otherAlgo (s : GravityWave) :
    s.otherAlgo.pastDifficultyAverage = s.pastDifficultyAverage := by
  unfold otherAlgo endRow
  split <;> rfl

@[simp] theorem pastDifficultyAverage_beforeFork (s : GravityWave) (b : CBlockIndex) :
    (s.beforeFork b).pastDifficultyAverage = s.pastDifficultyAverage := by
  simp only [beforeFork, endRow]
  split <;> rfl

@[simp] theorem pastDifficultyAverage_stopAt (s : GravityWave) (m : Int) :
    (s.stopAt m).pastDifficultyAverage = s.pastDifficultyAverage := by
  unfold stopAt
  split <;> rfl

/-- Once the loop has counted a block of the algorithm, the targets it found are no smaller than
those it read. -/
theorem loop_targets {p : ChainIndex} (hheight : nForkHeight ≤ p.length)
    (hblocks : ∀ b ∈ blocks algo pastBlocks p, 3 ≤ setCompact b.nBits) :
    (loop algo {} p).1.countBlocks = 1 ∨
      3 ≤ (loop algo {} p).1.pastDifficultyAverage ∧
        3 ≤ (loop algo {} p).1.lastDifficultyAlgo := by
  have hsame : ∀ (s : GravityWave) (b : CBlockIndex) (m : Int), 3 ≤ setCompact b.nBits →
      (s.countBlocks = 0 ∨ 3 ≤ s.pastDifficultyAverage ∧ 3 ≤ s.lastDifficultyAlgo) →
      3 ≤ ((s.seeTime m).sameAlgo b m).pastDifficultyAverage ∧
        3 ≤ ((s.seeTime m).sameAlgo b m).lastDifficultyAlgo := by
    intro s b m hb h
    constructor
    · apply le_average_sameAlgo m hb
      rw [countBlocks_seeTime, pastDifficultyAverage_seeTime]
      exact h.imp id And.left
    · rw [sameAlgo_eq, countBlocks_seeTime, lastDifficultyAlgo_seeTime]
      dsimp only
      split
      · exact hb
      · next hcount => exact (h.resolve_left hcount).2
  refine loop_rule
    (P := fun s rest ↦ (∀ b ∈ blocks algo s.left rest, 3 ≤ setCompact b.nBits) ∧
      (s.countBlocks = 0 ∨ 3 ≤ s.pastDifficultyAverage ∧ 3 ≤ s.lastDifficultyAlgo))
    (Q := fun s _ ↦ s.countBlocks = 1 ∨
      3 ≤ s.pastDifficultyAverage ∧ 3 ≤ s.lastDifficultyAlgo)
    ?_ ?_ ?_ ?_ (by decide) hheight ⟨hblocks, .inl rfl⟩
  · intro s b pprev h hfork
    rw [countBlocks_beforeFork, pastDifficultyAverage_beforeFork, lastDifficultyAlgo_beforeFork]
    exact h.2.imp (congrArg (· + 1)) id
  · intro s b pprev h hfork halgo
    rw [blocks, if_neg (by simp [hfork]), if_pos halgo] at h
    simp only [left, countBlocks_otherAlgo, countBlocks_seeTime, pastDifficultyAverage_otherAlgo,
      pastDifficultyAverage_seeTime, lastDifficultyAlgo_otherAlgo, lastDifficultyAlgo_seeTime]
    exact h
  · intro s b pprev h hfork halgo hnext
    have hleft : ¬ s.left ≤ 1 := by
      unfold left
      omega
    rw [blocks, if_neg (by simp [hfork]), if_neg (not_not.mpr halgo), if_neg hleft,
      List.forall_mem_cons] at h
    refine ⟨?_, .inr (hsame s b _ h.1.1 h.2)⟩
    simp only [left, countBlocks_sameAlgo, countBlocks_seeTime, ← Nat.sub_sub]
    exact h.1.2
  · intro s b pprev h hfork halgo hlast
    have hleft : s.left ≤ 1 := by
      unfold left
      omega
    rw [blocks, if_neg (by simp [hfork]), if_neg (not_not.mpr halgo), if_pos hleft] at h
    rw [pastDifficultyAverage_stopAt, lastDifficultyAlgo_stopAt]
    exact .inr (hsame s b _ (h.1 b (List.mem_singleton.mpr rfl)) h.2)

end GravityWave

/-! ### Accepted targets are positive -/

theorem pos_of_checkProofOfWork {params : CChainParams} {hash : Uint256} {nBits : BitVec 32}
    {algo : Algo} (h : checkProofOfWork params hash nBits algo = true) : 0 < setCompact nBits := by
  by_contra hneg
  rw [checkProofOfWork, if_pos (.inl (not_lt.mp hneg))] at h
  cases h

theorem pos_of_checkAuxPowProofOfWork {H : Hashes} {verify : EquihashVerifier}
    {params : CChainParams} {block : CBlockHeader}
    (h : checkAuxPowProofOfWork H verify params block = .ok true) : 0 < setCompact block.nBits := by
  have hbind : ∀ {α : Type} {x : Access α} {f : α → Access Bool}, x >>= f = .ok true →
      ∃ a, f a = .ok true := by
    intro α x f h
    cases x with
    | error e => cases h
    | ok a => exact ⟨a, h⟩
  obtain ⟨chainId, h⟩ := hbind h
  split at h
  · cases h
  · split at h
    · split at h
      · cases h
      · obtain ⟨powHash, h⟩ := hbind h
        exact pos_of_checkProofOfWork (Except.ok.inj h)
    · split at h
      · cases h
      · obtain ⟨ok, h⟩ := hbind h
        split at h
        · cases h
        · split at h
          · cases h
          · obtain ⟨powHash, h⟩ := hbind h
            exact pos_of_checkProofOfWork (Except.ok.inj h)

/-- The work check of `CheckBlock` looks at the range of the target. -/
theorem Node.pos_of_connectBlock {node : Node} {block : CBlock} {state : CValidationState}
    {pindex : ChainIndex} {view : CCoinsViewCache} {r : Connected}
    (h : node.connectBlock block state pindex view false = .accept r) :
    0 < setCompact block.nBits := by
  obtain ⟨⟨⟩, hcheck, -⟩ := Verdict.bind_eq_accept.mp h
  simp only [checkBlock, Verdict.bind_eq_accept, Verdict.require_eq_accept, Verdict.check_eq_accept,
    Unique.exists_iff, PUnit.default_eq_unit] at hcheck
  obtain ⟨_, -, -, hwork, -⟩ := hcheck
  replace hwork : node.checkWork block state = .accept () := hwork
  have haccess : ∀ {x : Access Bool} {ok : Bool}, Verdict.ofAccess x = .accept ok → x = .ok ok := by
    intro x ok h
    cases x with
    | error e => cases h
    | ok a => exact congrArg Except.ok (Verdict.accept.inj h)
  unfold Node.checkWork at hwork
  split at hwork
  · obtain ⟨ok, hok, htrue⟩ := Verdict.bind_eq_accept.mp hwork
    rw [Verdict.check_eq_accept] at htrue
    subst htrue
    exact pos_of_checkAuxPowProofOfWork (haccess hok)
  · simp only [Verdict.bind_eq_accept, Verdict.check_eq_accept] at hwork
    obtain ⟨-, -, powHash, -, hpow⟩ := hwork
    exact pos_of_checkProofOfWork hpow

namespace AcceptedChain

variable {H : Hashes} {params : CChainParams} {p : ChainIndex} {view : CCoinsViewCache}
  {issued : List Int}

/-- The last block of an accepted chain passed the work check. -/
theorem head_pos {b : CBlockIndex} {pprev : ChainIndex}
    (h : AcceptedChain H params (b :: pprev) view issued) : 0 < setCompact b.nBits := by
  generalize hp : b :: pprev = p at h
  cases h with
  | genesis hhashes hparams hgenesis hconnect =>
    subst hhashes hparams
    have hpos := Node.pos_of_connectBlock hconnect
    obtain ⟨-, -, -, b', pprev', cb, vtx, hidx, -, hcase⟩ := Node.connectBlock_eq_accept hconnect
    obtain ⟨rfl, rfl⟩ := List.cons.inj hidx
    rcases hcase with ⟨-, rfl⟩ | ⟨hne, -⟩
    · obtain ⟨rfl, rfl⟩ := List.cons.inj hp
      exact hpos
    · exact absurd hgenesis hne
  | block hprev hlink hown hhashesA hparamsA haccept hhashesC hparamsC hnew hconnect hrun =>
    subst hhashesC hparamsC
    have hpos := Node.pos_of_connectBlock hconnect
    obtain ⟨cb, vtx, s, -, -, hindex, -⟩ := Node.connectBlock_eq_accept_of_new hnew hconnect
    rw [hindex] at hp
    obtain ⟨rfl, -⟩ := List.cons.inj hp
    exact hpos

theorem target_pos (h : AcceptedChain H params p view issued) :
    ∀ e ∈ p, 0 < setCompact e.nBits := by
  intro e he
  obtain ⟨newer, older, rfl⟩ := List.append_of_mem he
  obtain ⟨view', issued', hsuffix⟩ :=
    h.suffix (List.suffix_append newer (e :: older)) (List.cons_ne_nil _ _)
  exact hsuffix.head_pos

end AcceptedChain

/-! ### The range -/

/-- What `CheckProofOfWork` asks of a target before it looks at the hash. -/
structure InRange (params : CChainParams) (algo : Algo) (nBits : BitVec 32) : Prop where
  pos : 0 < setCompact nBits
  le_limit : setCompact nBits ≤ params.bnProofOfWorkLimit * getAlgoWeight algo
  fits : setCompact nBits < 2 ^ 256

/-- None of the divisors that are computed is zero: the number of blocks in an average and the
time span the window should have taken. -/
structure NonzeroDivisors (algo : Algo) (p : ChainIndex) : Prop where
  average : ∀ (s : GravityWave) (b : CBlockIndex) (m : Int),
    ((s.sameAlgo b m).countBlocks : Int) ≠ 0
  timespan : GravityWave.pastBlocks ≤ (GravityWave.loop algo {} p).1.countBlocks →
    (((GravityWave.loop algo {} p).1.countBlocks : Int) - 1) * dgwTimespan ≠ 0

theorem nonzeroDivisors (algo : Algo) (p : ChainIndex) : NonzeroDivisors algo p := by
  constructor
  · intro s b m
    rw [GravityWave.countBlocks_sameAlgo]
    exact Int.natCast_ne_zero.mpr (Nat.succ_ne_zero _)
  · intro hfull
    unfold GravityWave.pastBlocks at hfull
    unfold dgwTimespan
    omega

theorem getCompact_range {x : Int} (hnonneg : 0 ≤ x) (hx : x < 2 ^ 256) :
    setCompact (getCompact x) ≤ x ∧ (0 < x → 0 < setCompact (getCompact x)) := by
  obtain ⟨n, rfl⟩ := Int.eq_ofNat_of_zero_le hnonneg
  have hsize : n < 2 ^ 256 * 2 ^ 23 :=
    lt_of_lt_of_le (by exact_mod_cast hx) (Nat.le_mul_of_pos_right _ (Nat.pow_pos (by decide)))
  rw [show setCompact (getCompact n) = _ from compactRound_natCast hsize]
  constructor
  · exact_mod_cast Nat.compactFloor_le n
  · intro hpos
    exact_mod_cast Nat.compactFloor_pos (show 0 < n by exact_mod_cast hpos)

theorem tdiv_pos {a b : Int} (hb : 0 < b) (h : b ≤ a) : 0 < a.tdiv b := by
  rw [Int.tdiv_eq_ediv_of_nonneg (hb.le.trans h)]
  exact (Int.le_ediv_iff_mul_le hb).mpr (by rwa [zero_add, one_mul])

section Range

variable {params : CChainParams} {algo : Algo}

/-- A weight is one or more. -/
theorem le_mul_getAlgoWeight {x : Int} (hx : 0 ≤ x) (algo : Algo) : x ≤ x * getAlgoWeight algo := by
  have hweight : (1 : Int) ≤ getAlgoWeight algo := by exact_mod_cast getAlgoWeight_pos algo
  exact le_mul_of_one_le_right hx hweight

/-- A target within the unweighted limit. -/
theorem InRange.of_le {nBits : BitVec 32} (hlimit : params.bnProofOfWorkLimit < 2 ^ 256)
    (hpos : 0 < setCompact nBits) (hle : setCompact nBits ≤ params.bnProofOfWorkLimit) :
    InRange params algo nBits where
  pos := hpos
  le_limit := hle.trans (le_mul_getAlgoWeight (hpos.le.trans hle) algo)
  fits := hle.trans_lt hlimit

theorem inRange_limit (hpos : 0 < params.bnProofOfWorkLimit)
    (hlimit : params.bnProofOfWorkLimit < 2 ^ 256) :
    InRange params algo (getCompact params.bnProofOfWorkLimit) := by
  obtain ⟨hle, hp⟩ := getCompact_range hpos.le hlimit
  exact .of_le hlimit (hp hpos) hle

/-- A new target of `DarkGravityWave` that is positive before it is capped. -/
theorem inRange_capped (hpos : 0 < params.bnProofOfWorkLimit) {bnNew : Int} (hnew : 0 < bnNew) :
    InRange params algo (getCompact
      (min (min bnNew (params.bnProofOfWorkLimit * getAlgoWeight algo)) (2 ^ 256 - 1))) := by
  have hweight : 0 < params.bnProofOfWorkLimit * getAlgoWeight algo :=
    hpos.trans_le (le_mul_getAlgoWeight hpos.le algo)
  have hcapped : 0 < min (min bnNew (params.bnProofOfWorkLimit * getAlgoWeight algo)) (2 ^ 256 - 1) :=
    lt_min (lt_min hnew hweight) (by norm_num)
  have hfits : min (min bnNew (params.bnProofOfWorkLimit * getAlgoWeight algo)) (2 ^ 256 - 1) <
      2 ^ 256 := lt_of_le_of_lt (min_le_right _ _) (by norm_num)
  obtain ⟨hle, hp⟩ := getCompact_range hcapped.le hfits
  exact ⟨hp hcapped, hle.trans ((min_le_left _ _).trans (min_le_right _ _)), hle.trans_lt hfits⟩

/-! ### Before the fork -/

/-- The time span of a daily retarget, within its clamps. -/
private theorem preForkWork_cons (params : CChainParams) (last : CBlockIndex) (pprev : ChainIndex) :
    ∃ actual : Int, nTargetTimespan / 4 ≤ actual ∧ preForkWork params (last :: pprev) =
      if (pprev.length + 1) % nInterval ≠ 0 then
        if pprev.isEmpty ∧ params.networkID ≠ .main then getCompact params.bnProofOfWorkLimit
        else last.nBits
      else getCompact (min ((setCompact last.nBits * actual).tdiv nTargetTimespan)
        params.bnProofOfWorkLimit) := by
  refine ⟨_, ?_, rfl⟩
  exact le_min (le_max_right _ _) (by decide)

section Daily

variable {p : ChainIndex} (hpos : 0 < params.bnProofOfWorkLimit)
  (hlimit : params.bnProofOfWorkLimit < 2 ^ 256)
  (hlast : ∀ b ∈ p.head?, 0 < setCompact b.nBits ∧ setCompact b.nBits ≤ params.bnProofOfWorkLimit)

include hpos hlimit hlast

theorem preForkWork_le : setCompact (preForkWork params p) ≤ params.bnProofOfWorkLimit := by
  cases p with
  | nil => exact (getCompact_range hpos.le hlimit).1
  | cons last pprev =>
    obtain ⟨hlastPos, hlastLe⟩ := hlast last rfl
    obtain ⟨actual, hactual, hwork⟩ := preForkWork_cons params last pprev
    rw [hwork]
    split
    · split
      · exact (getCompact_range hpos.le hlimit).1
      · exact hlastLe
    · have hnew : 0 ≤ (setCompact last.nBits * actual).tdiv nTargetTimespan := by
        apply Int.tdiv_nonneg
        · exact mul_nonneg hlastPos.le (le_trans (by decide) hactual)
        · decide
      refine (getCompact_range (le_min hnew hpos.le) ?_).1.trans (min_le_right _ _)
      exact (min_le_right _ _).trans_lt hlimit

/-- The daily retarget divides a target by four at most. -/
theorem preForkWork_pos (hfour : p.length % nInterval = 0 → ∀ b ∈ p.head?, 4 ≤ setCompact b.nBits) :
    0 < setCompact (preForkWork params p) := by
  cases p with
  | nil => exact (getCompact_range hpos.le hlimit).2 hpos
  | cons last pprev =>
    obtain ⟨hlastPos, hlastLe⟩ := hlast last rfl
    obtain ⟨actual, hactual, hwork⟩ := preForkWork_cons params last pprev
    rw [hwork]
    split
    · split
      · exact (getCompact_range hpos.le hlimit).2 hpos
      · exact hlastPos
    · next hday =>
      have htarget : 4 ≤ setCompact last.nBits := hfour (not_not.mp hday) last rfl
      have hnew : 0 < (setCompact last.nBits * actual).tdiv nTargetTimespan := by
        apply tdiv_pos (by decide)
        calc nTargetTimespan = 4 * (nTargetTimespan / 4) := by decide
          _ ≤ setCompact last.nBits * actual := mul_le_mul htarget hactual (by decide) (by omega)
      have hmin := lt_min hnew hpos
      exact (getCompact_range hmin.le ((min_le_right _ _).trans_lt hlimit)).2 hmin

end Daily

/-! ### After the fork -/

/-- What `DarkGravityWave` has to find for its divisions to leave something: targets of three and
more in the window, or none, and then enough before the fork for the weights. -/
structure Divisible (algo : Algo) (p : ChainIndex) : Prop where
  window : ∀ b ∈ GravityWave.blocks algo GravityWave.pastBlocks p, 3 ≤ setCompact b.nBits
  first : GravityWave.blocks algo GravityWave.pastBlocks p = [] →
    8 * (getAlgoWeight .scrypt : Int) ≤ setCompact
      (((GravityWave.stop algo GravityWave.pastBlocks p).head?.map (·.nBits)).getD 0)

/-- The lower clamp of the time span is a third of the target span. -/
private theorem le_raised {actual target : Int} {surge : Prop} [Decidable surge] :
    target.tdiv 3 ≤ if actual < target.tdiv 3 ∨ surge then target.tdiv 3 else actual := by
  split
  · exact le_rfl
  · next h =>
    rw [not_or] at h
    exact not_lt.mp h.1

/-- The upper clamp stays above it. -/
private theorem le_lowered {actual target k : Int} (htarget : 0 < target) (hk : 1 ≤ k)
    (h : target.tdiv 3 ≤ actual) :
    target.tdiv 3 ≤ if target * 3 < actual then k * target * 3 else actual := by
  split
  · have hthird : target.tdiv 3 ≤ target := by
      rw [Int.tdiv_eq_ediv_of_nonneg htarget.le]
      omega
    have hmul : target ≤ k * target := le_mul_of_one_le_left htarget.le hk
    omega
  · exact h

/-- A third of the span divides a target by three at most. -/
private theorem mul_tdiv_pos {bnNew actual g : Int} (hbn : 3 ≤ bnNew) (hg : 0 < g)
    (hactual : (3 * g).tdiv 3 ≤ actual) : 0 < (bnNew * actual).tdiv (3 * g) := by
  rw [Int.mul_tdiv_cancel_left _ (by decide)] at hactual
  apply tdiv_pos (by omega)
  exact mul_le_mul hbn hactual hg.le (by omega)

/-- The changes of a target of three and more leave a positive one. -/
private theorem adjusted_pos {surge had resurrect full : Prop} [Decidable surge] [Decidable had]
    [Decidable resurrect] [Decidable full] {bnNew actual g k : Int} (hbn : 3 ≤ bnNew) (hg : 0 < g)
    (hk : 1 ≤ k) :
    0 < if full then
        if surge then bnNew.tdiv 3
        else if (!decide had) = true then
          (bnNew * if 3 * g * 3 <
              (if actual < (3 * g).tdiv 3 ∨ surge then (3 * g).tdiv 3 else actual) then k * (3 * g) * 3
            else if actual < (3 * g).tdiv 3 ∨ surge then (3 * g).tdiv 3 else actual).tdiv (3 * g)
        else bnNew
      else
        if surge then (if resurrect then bnNew * (k * 3) else bnNew).tdiv 3
        else if resurrect then bnNew * (k * 3) else bnNew := by
  have hraised : 3 ≤ if resurrect then bnNew * (k * 3) else bnNew := by
    split
    · exact hbn.trans (le_mul_of_one_le_right (by omega) (by omega))
    · exact hbn
  split
  · split
    · exact tdiv_pos (by decide) hbn
    · split
      · exact mul_tdiv_pos hbn hg (le_lowered (by omega) hk le_raised)
      · omega
  · split
    · exact tdiv_pos (by decide) hraised
    · omega

theorem firstTarget_pos {algo : Algo} {nBits : BitVec 32}
    (h : 8 * (getAlgoWeight .scrypt : Int) ≤ setCompact nBits) :
    0 < firstTarget params algo nBits := by
  have hscrypt : (128 : Int) ≤ 8 * getAlgoWeight .scrypt := by decide
  have hweighted : ∀ x : Int, 0 ≤ x → x ≤ x * getAlgoWeight algo :=
    fun x hx ↦ le_mul_getAlgoWeight hx algo
  unfold firstTarget
  dsimp only
  split
  · exact tdiv_pos (by decide) (h.trans (hweighted _ (by omega)))
  · split
    · exact tdiv_pos (by decide) (hscrypt.trans (h.trans (hweighted _ (by omega))))
    · exact tdiv_pos (by decide) (le_trans (by decide) (hweighted _ (by decide)))

/-- `DarkGravityWave` after the fork. -/
theorem inRange_darkGravityWave {p : ChainIndex} (hpos : 0 < params.bnProofOfWorkLimit)
    (hheight : nForkHeight ≤ p.length) (h : Divisible algo p) :
    InRange params algo (darkGravityWave params p algo) := by
  obtain ⟨hstop, hcount, -⟩ := GravityWave.loop_window algo hheight
  have htargets := GravityWave.loop_targets hheight h.window
  have hone : (GravityWave.loop algo {} p).1.countBlocks = 1 →
      GravityWave.blocks algo GravityWave.pastBlocks p = [] := by
    intro hone
    rw [hcount] at hone
    apply List.eq_nil_of_length_eq_zero
    rw [GravityWave.length_blocks]
    unfold GravityWave.pastBlocks at hone ⊢
    omega
  rw [darkGravityWave, if_neg (by unfold nForkHeight at hheight; unfold GravityWave.pastBlocks; omega)]
  generalize GravityWave.loop algo {} p = r at *
  obtain ⟨s, reading⟩ := r
  dsimp only at *
  apply inRange_capped hpos
  -- the factor for a halt is one or more
  have hk : 9600 < s.timeSinceLastAlgo → 1 ≤ s.timeSinceLastAlgo.tdiv 9600 := by
    intro hlong
    exact tdiv_pos (by decide) hlong.le
  have hk' : (1 : Int) ≤ if 9600 < s.timeSinceLastAlgo then s.timeSinceLastAlgo.tdiv 9600 else 1 := by
    split
    · next hlong => exact hk hlong
    · exact le_rfl
  by_cases hempty : s.countBlocks = 1
  · have hshort : ¬ GravityWave.pastBlocks ≤ s.countBlocks := by
      unfold GravityWave.pastBlocks
      omega
    have hfirst : 0 < firstTarget params algo ((reading.head?.map (·.nBits)).getD 0) := by
      rw [hstop]
      exact firstTarget_pos (h.first (hone hempty))
    rw [if_neg hshort, if_pos hempty]
    split
    · exact Int.mul_pos hfirst (by omega)
    · exact hfirst
  · obtain ⟨havg, hlast⟩ := htargets.resolve_left hempty
    rw [if_neg hempty]
    have htarget : ((s.countBlocks : Int) - 1) * dgwTimespan =
        3 * (((s.countBlocks : Int) - 1) * 320) := by
      unfold dgwTimespan
      omega
    have hspan : 0 < ((s.countBlocks : Int) - 1) * 320 := by
      have hcounted : 0 < s.countBlocks := by
        rw [hcount]
        exact lt_min (by decide) (Nat.succ_pos _)
      omega
    rw [htarget]
    have hchosen : ∀ (c : Prop) [Decidable c],
        3 ≤ if c then s.lastDifficultyAlgo else s.pastDifficultyAverage := by
      intro c hc
      split
      · exact hlast
      · exact havg
    exact adjusted_pos (hchosen _) hspan hk'

/-! ### Along a chain -/

/-- Whether the next block is on the fork. -/
def forkNext (p : ChainIndex) : Bool := nForkHeight ≤ p.length && isSuperMajority 4 p 75 100

theorem onFork_cons_eq (b : CBlockIndex) (p : ChainIndex) : onFork (b :: p) = forkNext p := rfl

theorem getNextWorkRequired_eq (hnetwork : params.networkID ≠ .regtest) (p : ChainIndex) :
    getNextWorkRequired params p algo =
      if forkNext p then darkGravityWave params p algo else preForkWork params p := by
  rw [getNextWorkRequired, if_neg hnetwork]
  by_cases hfork : forkNext p = true
  · have hparts := hfork
    simp only [forkNext, Bool.and_eq_true, decide_eq_true_eq] at hparts
    rw [if_neg (by simp [hparts]), if_pos hfork]
  · have hparts := hfork
    rw [forkNext, Bool.and_eq_true, decide_eq_true_eq, not_and_or, not_le] at hparts
    rw [if_pos (by simpa using hparts), if_neg hfork]

/-- Before the fork no target of an accepted chain exceeds the limit. -/
theorem AcceptedChain.target_le {H : Hashes} {p : ChainIndex} {view : CCoinsViewCache}
    {issued : List Int} (hpos : 0 < params.bnProofOfWorkLimit)
    (hlimit : params.bnProofOfWorkLimit < 2 ^ 256) (h : AcceptedChain H params p view issued)
    (hgenesis : ∀ b ∈ p.getLast?, setCompact b.nBits ≤ params.bnProofOfWorkLimit)
    (hoff : ∀ q, q <:+ p → onFork q = false) :
    ∀ e ∈ p, setCompact e.nBits ≤ params.bnProofOfWorkLimit := by
  refine h.induction_on (motive := fun p _ _ ↦
    (∀ b ∈ p.getLast?, setCompact b.nBits ≤ params.bnProofOfWorkLimit) →
      (∀ q, q <:+ p → onFork q = false) → ∀ e ∈ p, setCompact e.nBits ≤ params.bnProofOfWorkLimit)
    ?_ ?_ hgenesis hoff
  · intro b view hview hsupply hfactor hgenesis hoff e he
    obtain rfl := List.mem_singleton.mp he
    exact hgenesis e rfl
  · intro b pprev view₀ issued₀ view net hprev ih hext hgenesis hoff
    have hne : pprev ≠ [] := hprev.ne_nil
    rw [List.getLast?_cons_of_ne_nil hne] at hgenesis
    have hall := ih hgenesis fun q hq ↦ hoff q (hq.trans (List.suffix_cons b pprev))
    rw [List.forall_mem_cons]
    refine ⟨?_, hall⟩
    rw [hext.work]
    by_cases hnetwork : params.networkID = .regtest
    · rw [getNextWorkRequired, if_pos hnetwork]
      exact (getCompact_range hpos.le hlimit).1
    · have hfork : forkNext pprev = false := hoff (b :: pprev) List.suffix_rfl
      rw [getNextWorkRequired_eq hnetwork, if_neg (by simp [hfork])]
      apply preForkWork_le hpos hlimit
      intro last hlast
      have hmem : last ∈ pprev := List.mem_of_mem_head? hlast
      exact ⟨hprev.target_pos last hmem, hall last hmem⟩

/-- What the next target of an algorithm needs to find: a fork that was not given up again, and
targets that leave something after their division. -/
structure Retargetable (params : CChainParams) (algo : Algo) (p : ChainIndex) : Prop where
  genesis : ∀ b ∈ p.getLast?, setCompact b.nBits ≤ params.bnProofOfWorkLimit
  kept : forkNext p = false → ∀ q, q <:+ p → onFork q = false
  daily : forkNext p = false → p.length % nInterval = 0 → ∀ b ∈ p.head?, 4 ≤ setCompact b.nBits
  gravity : forkNext p = true → Divisible algo p

/-- On every accepted chain the next target of an algorithm is in the range of the work check, and
nothing is divided by zero on the way. -/
theorem getNextWorkRequired_inRange {H : Hashes} {p : ChainIndex} {view : CCoinsViewCache}
    {issued : List Int} (hpos : 0 < params.bnProofOfWorkLimit)
    (hlimit : params.bnProofOfWorkLimit < 2 ^ 256) (h : AcceptedChain H params p view issued)
    (hretarget : params.networkID ≠ .regtest → Retargetable params algo p) :
    InRange params algo (getNextWorkRequired params p algo) ∧ NonzeroDivisors algo p := by
  refine ⟨?_, nonzeroDivisors algo p⟩
  by_cases hnetwork : params.networkID = .regtest
  · rw [getNextWorkRequired, if_pos hnetwork]
    exact inRange_limit hpos hlimit
  · have hr := hretarget hnetwork
    rw [getNextWorkRequired_eq hnetwork]
    cases hfork : forkNext p with
    | true =>
      have hheight : nForkHeight ≤ p.length := by
        rw [forkNext, Bool.and_eq_true, decide_eq_true_eq] at hfork
        exact hfork.1
      exact inRange_darkGravityWave hpos hheight (hr.gravity hfork)
    | false =>
      have hle := h.target_le hpos hlimit hr.genesis (hr.kept hfork)
      have hlast : ∀ b ∈ p.head?, 0 < setCompact b.nBits ∧
          setCompact b.nBits ≤ params.bnProofOfWorkLimit := by
        intro b hb
        have hmem : b ∈ p := List.mem_of_mem_head? hb
        exact ⟨h.target_pos b hmem, hle b hmem⟩
      exact .of_le hlimit (preForkWork_pos hpos hlimit hlast (hr.daily hfork))
        (preForkWork_le hpos hlimit hlast)

end Range

/-- `getNextWorkRequired_inRange` for X17 right before the fork: its first target is an eighth of
the limit, weighted. -/
theorem inRange_lateFork : ∃ p view issued, AcceptedChain minerHashes minerMainParams p view issued ∧
    forkNext p = true ∧
    InRange minerMainParams .x17 (getNextWorkRequired minerMainParams p .x17) ∧
      NonzeroDivisors .x17 p := by
  obtain ⟨p, view, issued, hp⟩ := lateFork_plan.exists_planned rfl (by decide)
  have hp : LateFork p view issued := hp
  obtain ⟨head, tail, hcons⟩ := List.exists_cons_of_length_eq_add_one hp.length
  have hoff : onFork p = false := hcons ▸ hp.not_onFork (hcons ▸ List.suffix_rfl)
  have hfork : forkNext p = true := hp.onFork head
  have hbits : ∀ e ∈ p, e.nBits = 0x1d00ffff := by
    intro e he
    have hmem : headerOnly.toFun e ∈ planned 0x1d00ffff lateFork 721 := by
      rw [← hp.headers]
      exact List.mem_map_of_mem he
    have hnBits := nBits_planned hmem
    exact hnBits
  refine ⟨p, view, issued, hp.accepted, hfork, ?_⟩
  apply getNextWorkRequired_inRange (by decide) (by decide) hp.accepted
  intro hnetwork
  constructor
  · intro b hb
    rw [hbits b (List.mem_of_mem_getLast? hb)]
    decide
  · intro hno
    rw [hfork] at hno
    cases hno
  · intro hno
    rw [hfork] at hno
    cases hno
  · intro _
    have hstop : GravityWave.stop .x17 GravityWave.pastBlocks p = p ∧
        GravityWave.blocks .x17 GravityWave.pastBlocks p = [] := by
      rw [hcons] at hoff ⊢
      simp [GravityWave.stop, GravityWave.blocks, hoff]
    constructor
    · rw [hstop.2]
      exact fun b hb ↦ absurd hb List.not_mem_nil
    · intro _
      have hhead : (p.head?.map (·.nBits)).getD 0 = 0x1d00ffff := by
        rw [hcons]
        exact hbits head (by rw [hcons]; exact List.mem_cons_self)
      rw [hstop.1, hhead]
      decide

/-! ### A target that falls to zero -/

/-- The target of each day when blocks come every second. -/
def fallingBits : Nat → BitVec 32
  | 0 => 0x1d00ffff
  | day + 1 => getCompact (min ((setCompact (fallingBits day) * 21600).tdiv 86400)
      mainParams.bnProofOfWorkLimit)

/-- Blocks of version 3, one each second. -/
def everySecond (h : Nat) : Mined := ⟨3, BitVec.ofNat 32 (h + 1), 0⟩

/-- Their headers. -/
def fallingHeaders : Nat → ChainIndex
  | 0 => []
  | h + 1 => ⟨0, 3, BitVec.ofNat 32 (h + 1), fallingBits (h / nInterval), 0, 0⟩ :: fallingHeaders h

theorem length_fallingHeaders (h : Nat) : (fallingHeaders h).length = h := by
  induction h with
  | zero => rfl
  | succ h ih => rw [fallingHeaders, List.length_cons, ih]

theorem forkNext_fallingHeaders (h : Nat) : forkNext (fallingHeaders h) = false := by
  have hthree : decide (4 ≤ getBlockVersion 3) = false := by decide
  have hall : ∀ e ∈ fallingHeaders h, countsForFork e = false := by
    induction h with
    | zero => exact fun e he ↦ absurd he List.not_mem_nil
    | succ h ih => exact List.forall_mem_cons.mpr ⟨hthree, ih⟩
  have hcount : (fallingHeaders h).countP countsForFork = 0 := List.countP_eq_zero.mpr fun e he ↦ by
    rw [hall e he]
    exact Bool.false_ne_true
  exact not_onFork_of_countP (by rw [hcount]; decide) List.suffix_rfl ⟨0, 3, 0, 0, 0, 0⟩

theorem getElem?_fallingHeaders {h i : Nat} (hi : i < h) : (fallingHeaders h)[i]? =
    some ⟨0, 3, BitVec.ofNat 32 (h - 1 - i + 1), fallingBits ((h - 1 - i) / nInterval), 0, 0⟩ := by
  induction h generalizing i with
  | zero => exact absurd hi (Nat.not_lt_zero _)
  | succ h ih =>
    cases i with
    | zero => rfl
    | succ i =>
      rw [fallingHeaders, List.getElem?_cons_succ, ih (by omega), Nat.add_sub_cancel,
        Nat.sub_sub, Nat.add_comm 1 i]

/-- Each day divides the target by four. -/
theorem getNextWorkRequired_falling {h : Nat} (hh : h < 2 ^ 31) :
    getNextWorkRequired minerMainParams (fallingHeaders h) .scrypt = fallingBits (h / nInterval) := by
  rw [getNextWorkRequired_eq (by decide), if_neg (by simp [forkNext_fallingHeaders])]
  cases h with
  | zero => decide
  | succ h =>
    have hget := getElem?_fallingHeaders (h := h + 1) (i := nInterval - 1)
    rw [fallingHeaders] at hget ⊢
    rw [preForkWork, length_fallingHeaders]
    by_cases hday : (h + 1) % nInterval = 0
    · have hnext : (h + 1) / nInterval = h / nInterval + 1 := by
        unfold nInterval at hday ⊢
        omega
      have hlong : nInterval - 1 < h + 1 := by
        unfold nInterval at hday ⊢
        omega
      have hactual : min (max (((BitVec.ofNat 32 (h + 1)).toNat : Int) -
          (BitVec.ofNat 32 (h + 1 - 1 - (nInterval - 1) + 1)).toNat) (nTargetTimespan / 4))
          (nTargetTimespan * 4) = 21600 := by
        rw [BitVec.toNat_ofNat, BitVec.toNat_ofNat, Nat.mod_eq_of_lt (by omega),
          Nat.mod_eq_of_lt (by omega)]
        unfold nInterval at hlong ⊢
        have hspan : nTargetTimespan = 86400 := rfl
        rw [hspan]
        omega
      rw [if_neg (not_not.mpr hday), hget hlong, Option.getD_some, hnext]
      dsimp only
      rw [hactual]
      rfl
    · rw [if_pos hday, if_neg fun hfirst ↦ hfirst.2 rfl]
      dsimp only
      congr 1
      unfold nInterval at hday ⊢
      omega

/-- The day after which nothing is left of the target. -/
def lastDay : Nat := 112

private theorem work_fallingBits : ∀ day < lastDay,
    checkProofOfWork minerMainParams 0 (fallingBits day) .scrypt = true := by
  decide +kernel

section Falling

variable {p : ChainIndex} {h : Nat}

theorem header_everySecond (hh : h < 2 ^ 31) (hheaders : headerOnly.apply p = fallingHeaders h) :
    headerOnly.apply ((minedBlock minerMainParams p (everySecond h)).indexEntry minerHashes :: p) =
      fallingHeaders (h + 1) := by
  have halgo : getAlgo (everySecond h).nVersion = .scrypt := (by decide : getAlgo 3 = .scrypt)
  have hwork : getNextWorkRequired minerMainParams p .scrypt = fallingBits (h / nInterval) := by
    rw [← headerOnly.getNextWorkRequired_apply, hheaders, getNextWorkRequired_falling hh]
  rw [HeaderMap.apply_cons, hheaders]
  simp only [CBlock.indexEntry, minedBlock, halgo, hwork]
  rfl

/-- The next block is valid until the target is used up. -/
theorem valid_everySecond (hh : h < lastDay * nInterval) (hp : Unflagged p)
    (hheaders : headerOnly.apply p = fallingHeaders h) :
    (everySecond h).Valid minerMainParams p := by
  have hsmall : h < 2 ^ 31 := hh.trans (by decide)
  have hlength : p.length = h := by
    rw [← headerOnly.length_apply, hheaders, length_fallingHeaders]
  have halgo : getAlgo (everySecond h).nVersion = .scrypt := (by decide : getAlgo 3 = .scrypt)
  have hflag : updateSsf (everySecond h).nVersion = false := (by decide : updateSsf 3 = false)
  have hunflagged : Unflagged
      ((minedBlock minerMainParams p (everySecond h)).indexEntry minerHashes :: p) :=
    unflagged_cons.mpr ⟨⟨hflag, rfl⟩, hp⟩
  constructor
  · exact (by decide : isAuxpow 3 = false)
  · exact .inl halgo
  · rw [halgo, ← headerOnly.getNextWorkRequired_apply, hheaders, getNextWorkRequired_falling hsmall]
    exact work_fallingBits _ (Nat.div_lt_of_lt_mul (by rwa [Nat.mul_comm]))
  · omega
  · exact (by decide : moneyRange 0 = true)
  · apply hp.versionRules
    intro hfork
    rw [← headerOnly.onFork_apply, header_everySecond hsmall hheaders, fallingHeaders,
      onFork_cons_eq, forkNext_fallingHeaders] at hfork
    cases hfork
  · rw [hunflagged.setScalingFactor]
    exact hunflagged.subsidy_nonneg

private theorem nTime_fallingHeaders (hh : h < 2 ^ 31) :
    ∀ e ∈ fallingHeaders h, e.nTime.toNat < h + 1 := by
  induction h with
  | zero => exact fun e he ↦ absurd he List.not_mem_nil
  | succ h ih =>
    rw [fallingHeaders, List.forall_mem_cons]
    constructor
    · rw [BitVec.toNat_ofNat, Nat.mod_eq_of_lt (by omega)]
      omega
    · intro e he
      exact (ih (by omega) e he).trans (Nat.lt_succ_self _)

/-- The falling chain is accepted up to its last day. -/
theorem exists_falling (hh : h < lastDay * nInterval) : ∃ p view issued,
    MinedChain minerMainParams p view issued ∧ Unflagged p ∧
      headerOnly.apply p = fallingHeaders (h + 1) := by
  induction h with
  | zero =>
    have hvalid := valid_everySecond (p := []) (h := 0) (by decide) (by simp [Unflagged]) rfl
    have hflag : updateSsf (everySecond 0).nVersion = false := (by decide : updateSsf 3 = false)
    refine ⟨_, _, _, .genesis rfl hvalid, ?_, ?_⟩
    · exact unflagged_cons.mpr ⟨⟨hflag, rfl⟩, by simp [Unflagged]⟩
    · exact header_everySecond (p := []) (by decide) rfl
  | succ h ih =>
    obtain ⟨p, view, issued, hp, hunflagged, hheaders⟩ := ih (by omega)
    have hsmall : h + 1 < 2 ^ 31 := hh.trans (by decide)
    have hvalid := valid_everySecond hh hunflagged hheaders
    have hheader := header_everySecond hsmall hheaders
    have hflag : updateSsf (everySecond (h + 1)).nVersion = false :=
      (by decide : updateSsf 3 = false)
    have hall : Unflagged
        ((minedBlock minerMainParams p (everySecond (h + 1))).indexEntry minerHashes :: p) :=
      unflagged_cons.mpr ⟨⟨hflag, rfl⟩, hunflagged⟩
    have htime : ∀ e ∈ p, e.nTime.toNat < (everySecond (h + 1)).nTime.toNat := by
      intro e he
      have hmem : headerOnly.toFun e ∈ fallingHeaders (h + 1) := by
        rw [← hheaders]
        exact List.mem_map_of_mem he
      have hlt := nTime_fallingHeaders hsmall (headerOnly.toFun e) hmem
      rw [headerOnly.nTime_eq] at hlt
      have hnext : (everySecond (h + 1)).nTime.toNat = h + 1 + 1 := by
        rw [everySecond, BitVec.toNat_ofNat, Nat.mod_eq_of_lt (by omega)]
      omega
    have halgo : getAlgo (everySecond (h + 1)).nVersion = .scrypt :=
      (by decide : getAlgo 3 = .scrypt)
    have hversion : 3 ≤ (everySecond (h + 1)).nVersion.toInt :=
      (by decide : 3 ≤ (3 : Version).toInt)
    refine ⟨_, _, _, hp.extend rfl hvalid htime hversion (.inl halgo), ?_, ?_⟩
    · rw [mine, hall.scaledIndex]
      exact unflagged_cons.mpr ⟨⟨hflag, rfl⟩, hunflagged⟩
    · rw [mine, hall.scaledIndex, ← hheader]
      rfl

end Falling

/-- The target of an accepted chain can fall to zero. -/
theorem not_inRange_falling : ∃ p view issued,
    AcceptedChain minerHashes minerMainParams p view issued ∧
      ¬ InRange minerMainParams .scrypt (getNextWorkRequired minerMainParams p .scrypt) := by
  obtain ⟨p, view, issued, hp, -, hheaders⟩ :=
    exists_falling (h := lastDay * nInterval - 1) (by decide)
  refine ⟨p, view, issued, hp.accepted, ?_⟩
  intro hrange
  have hzero : setCompact (fallingBits lastDay) = 0 := by decide +kernel
  have hpos := hrange.pos
  rw [← headerOnly.getNextWorkRequired_apply, hheaders] at hpos
  change 0 < setCompact (getNextWorkRequired minerMainParams (fallingHeaders (lastDay * nInterval))
    .scrypt) at hpos
  rw [getNextWorkRequired_falling (by decide), Nat.mul_div_cancel _ (by decide), hzero] at hpos
  exact absurd hpos (lt_irrefl 0)

end Bitmark

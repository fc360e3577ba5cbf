import Bitmark.Chain.CompactTarget
import Bitmark.Chain.GravityWave

/-!
# The resurrector

`DarkGravityWave` for an algorithm without a block for more than 160 minutes: the target of its
last block is multiplied, unless the surge rules take over. Which rule applies depends on the
runs of blocks of the algorithm before the halt.
-/

namespace Bitmark

namespace GravityWave

variable {algo : Algo}

/-- The blocks of the algorithm in a row right behind the window. -/
def behind (algo : Algo) (p : ChainIndex) : Nat := pastInRow algo (stop algo pastBlocks p).tail

/-- The blocks of the algorithm in a row up to its last one. A run that reaches the end of the
window is followed on behind it. -/
def finalRun (algo : Algo) (p : ChainIndex) : Nat :=
  newestRun (marks algo pastBlocks p) +
    if newestRunEnds (marks algo pastBlocks p) then 0 else behind algo p

/-- The last block of the algorithm is the ninth, the eighteenth and so on of its run. -/
def Surge (algo : Algo) (p : ChainIndex) : Prop := 9 ≤ finalRun algo p ∧ finalRun algo p % 9 = 0

/-- The window has a run of nine blocks of the algorithm, or ends in a part of one that began
earlier and is not a multiple of nine behind the window. -/
def HadSurge (algo : Algo) (p : ChainIndex) : Prop :=
  List.replicate 9 true <:+: marks algo pastBlocks p ∨
    (Runs.openRun (marks algo pastBlocks p) ≠ 0 ∧ behind algo p ≠ 0 ∧
      9 ≤ Runs.openRun (marks algo pastBlocks p) + behind algo p ∧ behind algo p % 9 ≠ 0)

/-- The window has 25 blocks, the last one before the fork included. -/
def Full (algo : Algo) (p : ChainIndex) : Prop :=
  pastBlocks ≤ (marks algo pastBlocks p).count true + 1

instance (algo : Algo) (p : ChainIndex) : Decidable (Surge algo p) :=
  inferInstanceAs (Decidable (_ ∧ _))

instance (algo : Algo) (p : ChainIndex) : Decidable (HadSurge algo p) :=
  inferInstanceAs (Decidable (_ ∨ _))

instance (algo : Algo) (p : ChainIndex) : Decidable (Full algo p) :=
  inferInstanceAs (Decidable (_ ≤ _))

/-- A block of the algorithm on the fork is in the window. -/
theorem newestRun_ne_zero {p rest : ChainIndex} {b : CBlockIndex} (left : Nat)
    (h : prevOfAlgo algo p = b :: rest) : newestRun (marks algo left p) ≠ 0 ∧
      0 < (marks algo left p).count true := by
  induction p with
  | nil => cases h
  | cons c pprev ih =>
    rw [prevOfAlgo] at h
    split at h
    · next hfork =>
      split at h
      · next halgo =>
        rw [marks, if_neg (by simp [hfork]), if_neg (not_not.mpr halgo)]
        split
        · exact ⟨by decide, by decide⟩
        · simp [newestRun]
      · next halgo =>
        rw [(walk_otherAlgo hfork halgo left).1]
        obtain ⟨hrun, hcount⟩ := ih h
        exact ⟨by simpa [newestRun] using hrun, by simpa using hcount⟩
    · cases h

/-- What `DarkGravityWave` makes of the last target `bnLast` of a halted algorithm. -/
def resurrected (algo : Algo) (p : ChainIndex) (bnLast smultiplier : Int) : Int :=
  if Surge algo p then
    if Full algo p then bnLast.tdiv 3 else (bnLast * (smultiplier * 3)).tdiv 3
  else if Full algo p ∧ HadSurge algo p then bnLast
  else bnLast * (smultiplier * 3)

end GravityWave

open GravityWave

variable {params : CChainParams} {algo : Algo} {p rest : ChainIndex} {b : CBlockIndex}

/-- The time since the last block of an algorithm in units of 160 minutes. -/
def smultiplierOf (p last : ChainIndex) : Nat :=
  (getMedianTimePast p - getMedianTimePast last) / 9600

/-- When the blocks behind the window are counted. -/
private def counting (s : GravityWave) : Prop :=
  (s.nInRow ≠ 0 ∧ !s.nInRowDone) ∨ (s.lastInRow ≠ 0 ∧ !s.lastInRowDone)

private theorem finalRun_eq {s : GravityWave} {past : Nat}
    (hnewest : newestRun (marks algo pastBlocks p) ≠ 0)
    (hlastRow : s.lastRow =
      (newestRun (marks algo pastBlocks p), newestRunEnds (marks algo pastBlocks p)))
    (hpast : counting s → past = behind algo p) :
    (if s.lastInRowDone then s.lastInRow else s.lastInRow + past) = finalRun algo p := by
  obtain ⟨hrun, hdone⟩ := Prod.mk.inj hlastRow
  rw [finalRun, hrun, hdone]
  cases hends : newestRunEnds (marks algo pastBlocks p) with
  | true => rfl
  | false =>
    have hcounting : counting s := .inr ⟨by rwa [hrun], by rw [hdone, hends]; rfl⟩
    rw [hpast hcounting]
    rfl

private theorem hadSurge_iff {s : GravityWave} {past : Nat}
    (hrow : s.row = Runs.scan 9 (marks algo pastBlocks p))
    (hpast : counting s → past = behind algo p) :
    (9 ≤ s.nInRow ∨ (s.nInRow ≠ 0 ∧ past ≠ 0 ∧ 9 ≤ s.nInRow + past ∧ past % 9 ≠ 0)) ↔
      HadSurge algo p := by
  have hrun : s.nInRow = (Runs.scan 9 (marks algo pastBlocks p)).1 := congrArg Prod.fst hrow
  have hdone : s.nInRowDone = (Runs.scan 9 (marks algo pastBlocks p)).2 := congrArg Prod.snd hrow
  rw [HadSurge, ← Runs.le_scan_iff (by decide), ← hrun]
  rcases Runs.scan_spec (k := 9) (by decide) (marks algo pastBlocks p) with
    ⟨-, hlong, -⟩ | ⟨hopen, hlength, -⟩
  · rw [← hrun] at hlong
    exact iff_of_true (.inl hlong) (.inl hlong)
  · rw [← hlength, ← hrun]
    by_cases hzero : s.nInRow = 0
    · simp [hzero]
    · have hcounting : counting s := .inl ⟨hzero, by rw [hdone, hopen]; rfl⟩
      rw [hpast hcounting]

/-- The time span of a halted algorithm is three targets for each unit of the halt. -/
private theorem mul_stalled {T g : Int} {k : Nat} (hg : 0 < g) (hk : 0 < k) :
    (T * if g * 3 < if 10 * (k : Int) * g < g.tdiv 3 then g.tdiv 3 else 10 * k * g then k * g * 3
      else if 10 * (k : Int) * g < g.tdiv 3 then g.tdiv 3 else 10 * k * g).tdiv g = T * (k * 3) := by
  have hkg : g ≤ k * g := le_mul_of_one_le_left hg.le (by exact_mod_cast hk)
  have hthird : ¬ 10 * (k : Int) * g < g.tdiv 3 := by
    rw [Int.tdiv_eq_ediv_of_nonneg hg.le]
    have : 10 * (k : Int) * g = 10 * (k * g) := by ring
    omega
  have htriple : g * 3 < 10 * (k : Int) * g := by
    have : 10 * (k : Int) * g = 10 * (k * g) := by ring
    omega
  rw [if_neg hthird, if_pos htriple, show T * (k * g * 3) = T * (k * 3) * g by ring,
    Int.mul_tdiv_cancel _ hg.ne']

/-- `DarkGravityWave` for a halted algorithm. -/
theorem darkGravityWave_eq (params : CChainParams) (hfork : onFork p = true) (hlast : prevOfAlgo algo p = b :: rest)
    (hhalted : getMedianTimePast (b :: rest) + 9600 < getMedianTimePast p) :
    darkGravityWave params p algo =
      getCompact (min (min (resurrected algo p (setCompact b.nBits) (smultiplierOf p (b :: rest)))
        (params.bnProofOfWorkLimit * getAlgoWeight algo)) (2 ^ 256 - 1)) := by
  have hheight : nForkHeight < p.length := by
    cases p with
    | nil => cases hfork
    | cons c pprev =>
      simp only [onFork, Bool.and_eq_true, decide_eq_true_eq] at hfork
      exact Nat.lt_succ_of_le hfork.1
  obtain ⟨hstop, hcount, hrow⟩ := loop_window algo hheight.le
  have hlastRow := loop_lastRow algo hheight.le
  obtain ⟨htarget, htime⟩ := loop_lastBlock hheight.le hlast (by omega)
  obtain ⟨hnewest, hsome⟩ := newestRun_ne_zero pastBlocks hlast
  rw [darkGravityWave, if_neg (by unfold nForkHeight at hheight; unfold pastBlocks; omega)]
  generalize loop algo {} p = r at *
  obtain ⟨s, reading⟩ := r
  dsimp only at *
  have hsince : 9600 < s.timeSinceLastAlgo := by omega
  have hsmultiplier : s.timeSinceLastAlgo.tdiv 9600 = smultiplierOf p (b :: rest) := by
    rw [htime, smultiplierOf, ← Int.natCast_sub (by omega)]
    rfl
  have hfull : pastBlocks ≤ s.countBlocks ↔ Full algo p := by
    rw [hcount, Full]
    exact le_min_iff.trans (and_iff_right le_rfl)
  have hone : s.countBlocks ≠ 1 := by
    have hmany : 1 < pastBlocks := by decide
    omega
  generalize hcounted : (if (s.nInRow ≠ 0 ∧ !s.nInRowDone) ∨ (s.lastInRow ≠ 0 ∧ !s.lastInRowDone)
    then pastInRow algo reading.tail else 0) = past
  have hpast : counting s → past = behind algo p := by
    intro hcounting
    unfold counting at hcounting
    rw [← hcounted, if_pos hcounting, behind, hstop]
  simp only [finalRun_eq hnewest hlastRow hpast, hadSurge_iff hrow hpast, hsince, or_true, if_true,
    hsmultiplier, hfull, htarget, hone, if_false]
  congr 3
  have hk : 0 < smultiplierOf p (b :: rest) := Nat.div_pos (by omega) (by decide)
  unfold resurrected
  by_cases hsurge : Surge algo p
  · rw [if_pos hsurge]
    unfold Surge at hsurge
    simp only [hsurge, and_self, if_true]
  · rw [if_neg hsurge]
    unfold Surge at hsurge
    by_cases hwindow : Full algo p
    · by_cases hhad : HadSurge algo p
      · simp only [hsurge, hwindow, hhad, decide_true, Bool.not_true, Bool.false_eq_true,
          and_self, if_false, if_true]
      · have hlong : 25 ≤ s.countBlocks := hfull.mpr hwindow
        have hg : 0 < ((s.countBlocks : Int) - 1) * dgwTimespan := by
          unfold dgwTimespan
          omega
        generalize ((s.countBlocks : Int) - 1) * dgwTimespan = g at hg
        simp only [hsurge, hwindow, hhad, decide_false, Bool.not_false, and_false, or_false,
          if_false, if_true]
        exact mul_stalled hg hk
    · simp only [hsurge, hwindow, false_and, if_false]

/-! ### Against the promise -/

/-- A number after it went through the compact format. -/
def compactRound (x : Int) : Int := setCompact (getCompact x)

theorem compactRound_natCast {x : Nat} (h : x < 2 ^ 256 * 2 ^ 23) : compactRound x = x.compactFloor :=
  setCompact_getCompact (signedBytes_lt h)

/-- What a halt of 160 minutes and more promises for the next target: three times the last one
for each unit of the halt, or the weighted limit. -/
def promisedTarget (params : CChainParams) (algo : Algo) (p last : ChainIndex) (bnLast : Int) :
    Int :=
  min (params.bnProofOfWorkLimit * getAlgoWeight algo) (3 * smultiplierOf p last * bnLast)

/-- When the promise is kept: it fits into 256 bits, and neither surge rule takes over below the
limit. -/
structure Relieved (params : CChainParams) (algo : Algo) (p last : ChainIndex) (bnLast : Int) :
    Prop where
  fits : promisedTarget params algo p last bnLast < 2 ^ 256
  surge : Surge algo p → ¬ Full algo p ∧
    compactRound (params.bnProofOfWorkLimit * getAlgoWeight algo) ≤
      compactRound (min (smultiplierOf p last * bnLast)
        (params.bnProofOfWorkLimit * getAlgoWeight algo))
  hadSurge : ¬ Surge algo p → Full algo p → HadSurge algo p →
    compactRound (params.bnProofOfWorkLimit * getAlgoWeight algo) ≤ bnLast

/-- The same for natural numbers: the compact form of the promise, the limit `l` or `3 * k * x`,
is at most that of a new target `y` below the limit and 256 bits. -/
private def Kept (l k x y : Nat) : Prop :=
  (min l (3 * (k * x))).compactFloor ≤ (min (min y l) (2 ^ 256 - 1)).compactFloor

section Kept

variable {l k x y : Nat}

private theorem Kept.fits (h : Kept l k x y) : min l (3 * (k * x)) < 2 ^ 256 := by
  by_contra hlarge
  have hpow : (2 ^ 256 : Nat).compactFloor = 2 ^ 256 := by
    have := Nat.compactFloor_mul_pow (show 1 < 2 ^ 23 by decide) 32
    rwa [Nat.one_mul, show 256 ^ 32 = 2 ^ 256 from rfl] at this
  have hle : (2 ^ 256 : Nat) ≤ (min l (3 * (k * x))).compactFloor :=
    hpow.ge.trans (Nat.compactFloor_mono (not_lt.mp hlarge))
  have hge : (min (min y l) (2 ^ 256 - 1)).compactFloor ≤ 2 ^ 256 - 1 :=
    (Nat.compactFloor_le _).trans (min_le_right _ _)
  have hlt : (2 ^ 256 - 1 : Nat) < 2 ^ 256 := Nat.sub_lt (Nat.pow_pos (by decide)) one_pos
  exact absurd (hle.trans (h.trans hge)) hlt.not_ge

/-- A smaller target than promised keeps the promise only at the limit. -/
private theorem kept_iff_of_le (hk : 0 < k) (hx : 0 < x) (hy : y ≤ k * x) :
    Kept l k x y ↔
      min l (3 * (k * x)) < 2 ^ 256 ∧ l.compactFloor ≤ (min y l).compactFloor := by
  have hkx : 0 < k * x := Nat.mul_pos hk hx
  constructor
  · intro h
    refine ⟨h.fits, ?_⟩
    have hle : (min l (3 * (k * x))).compactFloor ≤ (min y l).compactFloor :=
      h.trans (Nat.compactFloor_mono (min_le_left _ _))
    rcases le_total l (3 * (k * x)) with hl | hl
    · rwa [min_eq_left hl] at hle
    · rw [min_eq_right hl] at hle
      have hlow : (min y l).compactFloor ≤ k * x :=
        (Nat.compactFloor_le _).trans ((min_le_left _ _).trans hy)
      exact absurd (Nat.lt_compactFloor_three_mul hkx) (hle.trans hlow).not_gt
  · rintro ⟨hfits, hl⟩
    have hsmall : min y l ≤ 2 ^ 256 - 1 := by
      apply Nat.le_sub_one_of_lt
      refine lt_of_le_of_lt ?_ hfits
      exact le_min (min_le_right _ _) ((min_le_left _ _).trans (by omega))
    rw [Kept, min_eq_left hsmall]
    exact (Nat.compactFloor_mono (min_le_left _ _)).trans hl

private theorem kept_three_mul_iff : Kept l k x (k * x * 3) ↔ min l (3 * (k * x)) < 2 ^ 256 := by
  refine ⟨Kept.fits, fun hfits ↦ ?_⟩
  have hsame : min (k * x * 3) l = min l (3 * (k * x)) := by
    rw [min_comm, Nat.mul_comm]
  rw [Kept, hsame, min_eq_left (Nat.le_sub_one_of_lt hfits)]

private theorem not_kept_third (hk : 0 < k) (hx : 0 < x) (hl : x ≤ l)
    (hcompact : x.compactFloor = x) : ¬ Kept l k x (x / 3) := by
  intro h
  have hkx : x ≤ k * x := Nat.le_mul_of_pos_left x hk
  have hlow : x ≤ (min l (3 * (k * x))).compactFloor :=
    hcompact.ge.trans (Nat.compactFloor_mono (le_min hl (by omega)))
  have hhigh : (min (min (x / 3) l) (2 ^ 256 - 1)).compactFloor ≤ x / 3 :=
    (Nat.compactFloor_le _).trans ((min_le_left _ _).trans (min_le_left _ _))
  have : x ≤ x / 3 := hlow.trans (h.trans hhigh)
  omega

end Kept

/-- What the promise and the next target are in terms of natural numbers. -/
private theorem resurrects_iff_kept {l x y : Nat} (hsize : l < 2 ^ 256 * 2 ^ 23)
    (hl : params.bnProofOfWorkLimit * getAlgoWeight algo = l) (hx : setCompact b.nBits = x)
    (hy : resurrected algo p (setCompact b.nBits) (smultiplierOf p (b :: rest)) = y)
    (heq : darkGravityWave params p algo =
      getCompact (min (min (resurrected algo p (setCompact b.nBits) (smultiplierOf p (b :: rest)))
        (params.bnProofOfWorkLimit * getAlgoWeight algo)) (2 ^ 256 - 1))) :
    compactRound (promisedTarget params algo p (b :: rest) (setCompact b.nBits)) ≤
        setCompact (darkGravityWave params p algo) ↔ Kept l (smultiplierOf p (b :: rest)) x y := by
  have hpromise : promisedTarget params algo p (b :: rest) (setCompact b.nBits) =
      (min l (3 * (smultiplierOf p (b :: rest) * x)) : Nat) := by
    rw [promisedTarget, hl, hx]
    push_cast
    rw [mul_assoc]
  have htarget : min (min (y : Int) l) (2 ^ 256 - 1) =
      (min (min y l) (2 ^ 256 - 1) : Nat) := by
    rw [Nat.cast_min, Nat.cast_min, Nat.cast_sub Nat.one_le_two_pow]
    rfl
  have hmax : min (min y l) (2 ^ 256 - 1) < 2 ^ 256 * 2 ^ 23 :=
    ((min_le_left _ _).trans (min_le_right _ _)).trans_lt hsize
  rw [hpromise, compactRound_natCast ((min_le_left _ _).trans_lt hsize), heq, hy, hl, htarget,
    setCompact_getCompact (signedBytes_lt hmax), Nat.cast_le]
  rfl

/-- On every chain on the fork and for every halted algorithm: the next target keeps the promise
exactly when the surge rules do not take over below the limit. -/
theorem darkGravityWave_resurrects_iff (hlimit : params.bnProofOfWorkLimit < 2 ^ 256)
    (hfork : onFork p = true) (hlast : prevOfAlgo algo p = b :: rest)
    (hpow : 0 < setCompact b.nBits ∧
      setCompact b.nBits ≤ params.bnProofOfWorkLimit * getAlgoWeight algo)
    (hhalted : getMedianTimePast (b :: rest) + 9600 < getMedianTimePast p) :
    compactRound (promisedTarget params algo p (b :: rest) (setCompact b.nBits)) ≤
        setCompact (darkGravityWave params p algo) ↔
      Relieved params algo p (b :: rest) (setCompact b.nBits) := by
  obtain ⟨x, hx, hcompact⟩ := exists_setCompact_eq b.nBits hpow.1.le
  obtain ⟨l, hl⟩ := Int.eq_ofNat_of_zero_le (hpow.1.le.trans hpow.2)
  rw [hx, hl] at hpow
  have hxpos : 0 < x := by exact_mod_cast hpow.1
  have hxl : x ≤ l := by exact_mod_cast hpow.2
  have hweight : (getAlgoWeight algo : Int) ≤ 2 ^ 23 := by cases algo <;> decide
  have hsize : l < 2 ^ 256 * 2 ^ 23 := by
    have hlt : (l : Int) < 2 ^ 256 * 2 ^ 23 := by
      rw [← hl]
      calc params.bnProofOfWorkLimit * getAlgoWeight algo
          < 2 ^ 256 * getAlgoWeight algo := by
            refine mul_lt_mul_of_pos_right hlimit ?_
            exact_mod_cast getAlgoWeight_pos algo
        _ ≤ 2 ^ 256 * 2 ^ 23 := mul_le_mul_of_nonneg_left hweight (by positivity)
    exact_mod_cast hlt
  have hk : 0 < smultiplierOf p (b :: rest) := Nat.div_pos (by omega) (by decide)
  have heq := darkGravityWave_eq params hfork hlast hhalted
  have hfits : promisedTarget params algo p (b :: rest) (setCompact b.nBits) < 2 ^ 256 ↔
      min l (3 * (smultiplierOf p (b :: rest) * x)) < 2 ^ 256 := by
    rw [promisedTarget, hl, hx, mul_assoc]
    exact_mod_cast Iff.rfl
  have hround : ∀ y : Nat, compactRound (params.bnProofOfWorkLimit * getAlgoWeight algo) ≤
      compactRound (min (y : Int) (params.bnProofOfWorkLimit * getAlgoWeight algo)) ↔
      l.compactFloor ≤ (min y l).compactFloor := by
    intro y
    rw [hl, ← Nat.cast_min, compactRound_natCast hsize,
      compactRound_natCast ((min_le_right _ _).trans_lt hsize), Nat.cast_le]
  have htarget : ∀ y : Nat,
      resurrected algo p (setCompact b.nBits) (smultiplierOf p (b :: rest)) = y →
      (compactRound (promisedTarget params algo p (b :: rest) (setCompact b.nBits)) ≤
        setCompact (darkGravityWave params p algo) ↔ Kept l (smultiplierOf p (b :: rest)) x y) :=
    fun y hy ↦ resurrects_iff_kept hsize hl hx hy heq
  by_cases hsurge : Surge algo p
  · by_cases hfull : Full algo p
    · have hthird : resurrected algo p (setCompact b.nBits) (smultiplierOf p (b :: rest)) =
          (x / 3 : Nat) := by
        rw [resurrected, if_pos hsurge, if_pos hfull, hx]
        rfl
      rw [htarget _ hthird]
      exact iff_of_false (not_kept_third hk hxpos hxl hcompact) fun h ↦ (h.surge hsurge).1 hfull
    · have hmul : resurrected algo p (setCompact b.nBits) (smultiplierOf p (b :: rest)) =
          (smultiplierOf p (b :: rest) * x : Nat) := by
        rw [resurrected, if_pos hsurge, if_neg hfull, hx, ← mul_assoc,
          Int.mul_tdiv_cancel _ (by decide), mul_comm]
        push_cast
        rfl
      rw [htarget _ hmul, kept_iff_of_le hk hxpos le_rfl, ← hfits, ← hround]
      constructor
      · rintro ⟨hfits, hlimit⟩
        refine ⟨hfits, fun _ ↦ ⟨hfull, ?_⟩, fun h ↦ absurd hsurge h⟩
        rw [hx]
        exact_mod_cast hlimit
      · intro h
        refine ⟨h.fits, ?_⟩
        have := (h.surge hsurge).2
        rw [hx] at this
        exact_mod_cast this
  · by_cases hhad : Full algo p ∧ HadSurge algo p
    · have hkeep : resurrected algo p (setCompact b.nBits) (smultiplierOf p (b :: rest)) = x := by
        rw [resurrected, if_neg hsurge, if_pos hhad, hx]
      rw [htarget _ hkeep, kept_iff_of_le hk hxpos (Nat.le_mul_of_pos_left x hk), ← hfits,
        min_eq_left hxl, hcompact]
      have hcast : l.compactFloor ≤ x ↔
          compactRound (params.bnProofOfWorkLimit * getAlgoWeight algo) ≤ setCompact b.nBits := by
        rw [hl, hx, compactRound_natCast hsize, Nat.cast_le]
      rw [hcast]
      constructor
      · rintro ⟨hfits, hlimit⟩
        exact ⟨hfits, fun h ↦ absurd h hsurge, fun _ _ _ ↦ hlimit⟩
      · intro h
        exact ⟨h.fits, h.hadSurge hsurge hhad.1 hhad.2⟩
    · have htriple : resurrected algo p (setCompact b.nBits) (smultiplierOf p (b :: rest)) =
          (smultiplierOf p (b :: rest) * x * 3 : Nat) := by
        rw [resurrected, if_neg hsurge, if_neg hhad, hx]
        push_cast
        ring
      rw [htarget _ htriple, kept_three_mul_iff, ← hfits]
      constructor
      · intro hfits
        exact ⟨hfits, fun h ↦ absurd h hsurge, fun _ h h' ↦ absurd ⟨h, h'⟩ hhad⟩
      · exact Relieved.fits

/-- Blocks of an algorithm, two minutes apart. -/
def blocksEvery2Minutes (n : Nat) (nVersion : Version) (start : Nat) : ChainIndex :=
  (List.range n).reverse.map fun i ↦ ⟨0, nVersion, BitVec.ofNat 32 (start + 120 * i), 0x1d00ffff, 0, 0⟩

/-- The fork, a run of yescrypt blocks right after it and, much later, blocks of SHA256D. -/
def haltedAfter (run : Nat) : ChainIndex :=
  blocksEvery2Minutes 11 0x0204 60000 ++ blocksEvery2Minutes run 0x0404 30000 ++
    blocksEvery2Minutes 200 4 1000

/-- `darkGravityWave_resurrects_iff` after a run of five blocks: the target rises. -/
theorem resurrects_haltedAfter_five :
    compactRound (promisedTarget mainParams .yescrypt (haltedAfter 5) ((haltedAfter 5).drop 11)
      (setCompact 0x1d00ffff)) ≤
      setCompact (darkGravityWave mainParams (haltedAfter 5) .yescrypt) := by
  refine (darkGravityWave_resurrects_iff (b := ⟨0, 0x0404, 30480, 0x1d00ffff, 0, 0⟩)
    (by decide) (by decide +kernel) (by decide +kernel : prevOfAlgo .yescrypt (haltedAfter 5) = _)
    (by decide +kernel) (by decide +kernel)).mpr ?_
  refine ⟨by decide +kernel, fun h ↦ absurd h (by decide +kernel), fun _ h ↦ absurd h (by decide +kernel)⟩

/-- After a run of 27 blocks the target of a halted algorithm falls to a third. -/
theorem not_resurrects_haltedAfter : ¬ ∀ (params : CChainParams) (algo : Algo)
    (p rest : ChainIndex) (b : CBlockIndex), params.bnProofOfWorkLimit < 2 ^ 256 →
    onFork p = true → prevOfAlgo algo p = b :: rest →
    0 < setCompact b.nBits ∧
      setCompact b.nBits ≤ params.bnProofOfWorkLimit * getAlgoWeight algo →
    getMedianTimePast (b :: rest) + 9600 < getMedianTimePast p →
    compactRound (promisedTarget params algo p (b :: rest) (setCompact b.nBits)) ≤
      setCompact (darkGravityWave params p algo) := by
  intro h
  have hkept := h mainParams .yescrypt (haltedAfter 27) ((haltedAfter 27).drop 12)
    ⟨0, 0x0404, 33120, 0x1d00ffff, 0, 0⟩ (by decide) (by decide +kernel) (by decide +kernel)
    (by decide +kernel) (by decide +kernel)
  exact absurd hkept (by decide +kernel)

end Bitmark

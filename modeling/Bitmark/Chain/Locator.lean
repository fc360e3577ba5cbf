import Bitmark.Lib.ParentTree
import Mathlib.Data.List.Sort
import Mathlib.Order.WellFounded
import Mathlib.Tactic.Ring

/-!
# Locators

`CChain` (`src/core.h:1387–1441`) is the list of the blocks of one branch by height, `SetTip` moves
it to another branch, and a locator is the list of hashes by which two nodes find where their
branches part (`src/main.cpp:356–409`).
-/

namespace Bitmark

/-- The index entries of a tree of blocks. A block is known by its hash, and heights are of type
`int`, like the number after each of them. -/
structure BlockTree (β Hash : Type) where
  pprev : β → Option β
  nHeight : β → ℕ
  getBlockHash : β → Hash
  genesis : β
  nHeight_genesis : nHeight genesis = 0
  eq_genesis : ∀ {b}, pprev b = none → b = genesis
  nHeight_pprev : ∀ {b p}, pprev b = some p → nHeight b = nHeight p + 1
  nHeight_lt : ∀ b, nHeight b + 1 < 2 ^ 31
  getBlockHash_injective : Function.Injective getBlockHash

namespace BlockTree

variable {β Hash : Type} (T : BlockTree β Hash)

/-- The tree without its hashes. -/
abbrev tree : ParentTree β where
  parent := T.pprev
  height := T.nHeight
  root := T.genesis
  height_root := T.nHeight_genesis
  eq_root := T.eq_genesis
  height_parent := T.nHeight_pprev

/-- Towards genesis the heights fall. -/
theorem elim_pprev_lt (b : β) : (T.pprev b).elim 0 (T.nHeight · + 1) < T.nHeight b + 1 := by
  cases hp : T.pprev b with
  | none => exact Nat.succ_pos _
  | some p =>
    rw [T.nHeight_pprev hp]
    exact Nat.lt_succ_self _

/-- The block of the branch with this tip at a height. -/
def entry (tip : Option β) (k : ℕ) : Option β :=
  tip.bind fun t ↦ if k ≤ T.nHeight t then some (T.tree.ancestorAt t k) else none

/-- The branch with this tip. -/
def branch : Option β → List (Option β)
  | none => []
  | some t => (List.range (T.nHeight t + 1)).map (T.entry (some t))

end BlockTree

/-- `CChain`: a list of pointers, which is one branch of the tree or empty. -/
structure CChain {β Hash : Type} (T : BlockTree β Hash) where
  vChain : List (Option β)
  eq_branch : ∃ tip, vChain = T.branch tip

theorem exists_branch_nil {β Hash : Type} (T : BlockTree β Hash) : ∃ tip, [] = T.branch tip :=
  ⟨none, rfl⟩

/-- `vChain.resize`. -/
def resizeChain {β : Type} (n : ℕ) (vChain : List (Option β)) : List (Option β) :=
  vChain.take n ++ List.replicate (n - vChain.length) none

namespace CChain

variable {β Hash : Type} [DecidableEq β] {T : BlockTree β Hash}

/-- The loop of `SetTip`, with the pointer it returns. -/
def setTipLoop (T : BlockTree β Hash) (vChain : List (Option β)) :
    Option β → List (Option β) × Option β
  | none => (vChain, none)
  | some pindex =>
    if vChain[T.nHeight pindex]? = some (some pindex) then (vChain, some pindex)
    else setTipLoop T (vChain.set (T.nHeight pindex) (some pindex)) (T.pprev pindex)
  termination_by pindex => pindex.elim 0 (T.nHeight · + 1)
  decreasing_by exact T.elim_pprev_lt pindex

/-- `operator[]`. -/
def entryAt (C : CChain T) (nHeight : ℤ) : Option β :=
  if nHeight < 0 ∨ nHeight ≥ C.vChain.length then none else C.vChain[nHeight.toNat]?.join

/-- `Genesis`. -/
def genesis (C : CChain T) : Option β := C.vChain.head?.join

/-- `Tip`. -/
def tip (C : CChain T) : Option β := C.vChain.getLast?.join

/-- `Contains`. -/
def contains (C : CChain T) (pindex : β) : Bool := C.entryAt (T.nHeight pindex) == some pindex

/-- The inner loop of `GetLocator`. Without a block to go to a null pointer is dereferenced. -/
def descend (C : CChain T) (nHeight : ℤ) : Option β → Option β
  | none => none
  | some pindex =>
    if (T.nHeight pindex : ℤ) > nHeight ∧ !C.contains pindex then C.descend nHeight (T.pprev pindex)
    else some pindex
  termination_by pindex => pindex.elim 0 (T.nHeight · + 1)
  decreasing_by exact T.elim_pprev_lt pindex

/-- The loop of `GetLocator`, with so many turns left. -/
def locatorLoop (C : CChain T) : ℕ → Option β → ℤ → List Hash → Option (List Hash)
  | 0, _, _, _ => none
  | _ + 1, none, _, vHave => some vHave
  | fuel + 1, some pindex, nStep, vHave =>
    let vHave := vHave ++ [T.getBlockHash pindex]
    if T.nHeight pindex = 0 then some vHave
    else do
      let nHeight := max (T.nHeight pindex - nStep) 0
      let pindex ← C.descend nHeight (some pindex)
      let next := if (T.nHeight pindex : ℤ) > nHeight then C.entryAt nHeight else some pindex
      locatorLoop C fuel next (if 10 < vHave.length then Int.bmod (2 * nStep) (2 ^ 32) else nStep)
        vHave

/-- `GetLocator`. -/
def getLocator (C : CChain T) (fuel : ℕ) (pindex : Option β) : Option (List Hash) :=
  C.locatorLoop fuel (pindex.or C.tip) 1 []

/-- `FindFork`, with the blocks that `mapBlockIndex` has. -/
def findFork (C : CChain T) (mapBlockIndex : Hash → Option β) : List Hash → Option β
  | [] => C.genesis
  | hash :: vHave =>
    match mapBlockIndex hash with
    | some pindex => if C.contains pindex then some pindex else C.findFork mapBlockIndex vHave
    | none => C.findFork mapBlockIndex vHave

/-! ### Branches -/

end CChain

namespace BlockTree

variable {β Hash : Type} (T : BlockTree β Hash) {t b : β} {k : ℕ}

theorem entry_eq_some_iff :
    T.entry (some t) k = some b ↔ T.tree.IsAncestor b t ∧ T.nHeight b = k := by
  change (if k ≤ T.nHeight t then some (T.tree.ancestorAt t k) else none) = some b ↔ _
  split
  case isTrue hle =>
    have hheight : T.nHeight (T.tree.ancestorAt t k) = k := T.tree.height_ancestorAt hle
    rw [Option.some.injEq]
    constructor
    · rintro rfl
      exact ⟨T.tree.isAncestor_ancestorAt t k, hheight⟩
    · rintro ⟨hb, rfl⟩
      exact hb.ancestorAt_eq
  case isFalse hgt =>
    constructor
    · intro h
      cases h
    · rintro ⟨hb, rfl⟩
      exact absurd hb.height_le hgt

theorem getElem?_branch (tip : Option β) (k : ℕ) :
    (T.branch tip)[k]?.join = T.entry tip k := by
  cases tip with
  | none => rfl
  | some t =>
    rw [branch, List.getElem?_map]
    by_cases hk : k < T.nHeight t + 1
    · rw [List.getElem?_range hk]
      rfl
    · rw [List.getElem?_eq_none (by rw [List.length_range]; omega)]
      exact (if_neg (by omega)).symm

variable {T}

/-- Below a block of a branch the branch has its ancestors. -/
theorem entry_of_isAncestor (h : T.tree.IsAncestor b t) (hk : k ≤ T.nHeight b) :
    T.entry (some t) k = some (T.tree.ancestorAt b k) := by
  have hle : k ≤ T.nHeight t := hk.trans h.height_le
  change (if k ≤ T.nHeight t then some (T.tree.ancestorAt t k) else none) = _
  rw [if_pos hle, h.ancestorAt_below hk]

/-- During `SetTip`: the entries from a height on are those of the new branch. -/
def passed (T : BlockTree β Hash) (old : Option β) (b : β) (m : ℕ) : List (Option β) :=
  (List.range (T.nHeight b + 1)).map fun i ↦ if i < m then T.entry old i else T.entry (some b) i

theorem passed_zero (old : Option β) (b : β) : T.passed old b 0 = T.branch (some b) :=
  List.map_congr_left fun i _ ↦ if_neg (Nat.not_lt_zero i)

theorem getElem?_passed (old : Option β) (b : β) (m : ℕ) {i : ℕ} (hi : i ≤ T.nHeight b) :
    (T.passed old b m)[i]? = some (if i < m then T.entry old i else T.entry (some b) i) := by
  rw [passed, List.getElem?_map, List.getElem?_range (Nat.lt_succ_of_le hi)]
  rfl

theorem length_passed (old : Option β) (b : β) (m : ℕ) :
    (T.passed old b m).length = T.nHeight b + 1 := by
  rw [passed, List.length_map, List.length_range]

/-- From a shared block on down both branches have the same entries. -/
theorem passed_shared {c : β} (hb : T.tree.IsAncestor c b) (ht : T.tree.IsAncestor c t) :
    T.passed (some t) b (T.nHeight c + 1) = T.branch (some b) := by
  apply List.map_congr_left
  intro i _
  split
  case isTrue hi =>
    have hle := Nat.le_of_lt_succ hi
    rw [entry_of_isAncestor ht hle, entry_of_isAncestor hb hle]
  case isFalse => rfl

theorem passed_set {c : β} (old : Option β) (hc : T.tree.IsAncestor c b) :
    (T.passed old b (T.nHeight c + 1)).set (T.nHeight c) (some c) =
      T.passed old b (T.nHeight c) := by
  apply List.ext_getElem?
  intro i
  by_cases hi : i ≤ T.nHeight b
  · rw [getElem?_passed old b _ hi, List.getElem?_set, length_passed]
    by_cases hcur : T.nHeight c = i
    · have hentry := entry_of_isAncestor hc le_rfl
      have hself : T.tree.ancestorAt c (T.nHeight c) = c := T.tree.ancestorAt_self c
      rw [hself, hcur] at hentry
      rw [if_pos hcur, if_pos (by omega), if_neg (by omega), hentry]
    · rw [if_neg hcur, getElem?_passed old b _ hi]
      congr 1
      apply if_congr _ rfl rfl
      omega
  · have hlen : T.nHeight b + 1 ≤ i := by omega
    rw [List.getElem?_eq_none (by rw [List.length_set, length_passed]; exact hlen),
      List.getElem?_eq_none (by rw [length_passed]; exact hlen)]

theorem resizeChain_branch (old : Option β) (b : β) :
    resizeChain (T.nHeight b + 1) (T.branch old) = T.passed old b (T.nHeight b + 1) := by
  apply List.ext_getElem?
  intro i
  have hold := T.getElem?_branch old i
  by_cases hi : i ≤ T.nHeight b
  · rw [getElem?_passed old b _ hi, if_pos (Nat.lt_succ_of_le hi), resizeChain]
    by_cases hlen : i < (T.branch old).length
    · rw [List.getElem?_append_left (by rw [List.length_take]; omega),
        List.getElem?_take_of_lt (Nat.lt_succ_of_le hi), List.getElem?_eq_getElem hlen] at *
      exact congrArg some hold
    · rw [List.getElem?_eq_none (by omega)] at hold
      rw [List.getElem?_append_right (by rw [List.length_take]; omega), List.length_take,
        List.getElem?_replicate_of_lt (by omega), ← hold]
      rfl
  · rw [List.getElem?_eq_none, List.getElem?_eq_none]
    · rw [length_passed]
      omega
    · rw [resizeChain, List.length_append, List.length_take, List.length_replicate]
      omega

end BlockTree

namespace CChain

open BlockTree

variable {β Hash : Type} [DecidableEq β] {T : BlockTree β Hash} {b : β}

/-- The loop of `SetTip` puts the new branch in place. -/
theorem setTipLoop_eq (old : Option β) {c : β} (hc : T.tree.IsAncestor c b) :
    (setTipLoop T (T.passed old b (T.nHeight c + 1)) (some c)).1 = T.branch (some b) := by
  induction hk : T.nHeight c using Nat.strong_induction_on generalizing c with
  | h k ih =>
    have hentry := getElem?_passed old b (T.nHeight c + 1) hc.height_le
    rw [if_pos (Nat.lt_succ_self _)] at hentry
    rw [← hk, setTipLoop]
    split
    case isTrue hfound =>
      rw [hentry, Option.some.injEq] at hfound
      cases old with
      | none => cases hfound
      | some t => exact passed_shared hc (T.entry_eq_some_iff.mp hfound).1
    case isFalse hmiss =>
      rw [passed_set old hc]
      cases hp : T.pprev c with
      | none =>
        -- another branch would have genesis
        have hgenesis : c = T.genesis := T.eq_genesis hp
        rw [hgenesis, T.nHeight_genesis, passed_zero, setTipLoop]
      | some p =>
        have hheight := T.nHeight_pprev hp
        have hstep : T.tree.IsAncestor p c := ⟨1, T.tree.up_succ_of_parent hp 0⟩
        rw [hheight]
        exact ih (T.nHeight p) (by omega) (hstep.trans hc) rfl

/-- `SetTip`, with the pointer it returns. -/
def setTip (C : CChain T) : Option β → CChain T × Option β
  | none => (⟨[], none, rfl⟩, none)
  | some pindex =>
    let r := setTipLoop T (resizeChain (T.nHeight pindex + 1) C.vChain) (some pindex)
    (⟨r.1, some pindex, by
      obtain ⟨old, hold⟩ := C.eq_branch
      dsimp only [r]
      rw [hold, resizeChain_branch]
      exact setTipLoop_eq old (.refl pindex)⟩, r.2)

@[simp] theorem setTip_vChain (C : CChain T) (pindex : Option β) :
    (C.setTip pindex).1.vChain = T.branch pindex := by
  cases pindex with
  | none => rfl
  | some pindex =>
    obtain ⟨old, hold⟩ := C.eq_branch
    change (setTipLoop T (resizeChain (T.nHeight pindex + 1) C.vChain) (some pindex)).1 = _
    rw [hold, resizeChain_branch]
    exact setTipLoop_eq old (.refl pindex)

/-! ### What a chain has -/

variable (C : CChain T) {t : β}

omit [DecidableEq β] in
theorem getLast?_branch (T : BlockTree β Hash) (tip : Option β) :
    (T.branch tip).getLast?.join = tip := by
  cases tip with
  | none => rfl
  | some t =>
    have hlast : (T.branch (some t)).getLast? = some (T.entry (some t) (T.nHeight t)) := by
      rw [branch, List.range_succ, List.map_append, List.map_singleton, List.getLast?_concat]
    have htop : T.entry (some t) (T.nHeight t) = some t := T.entry_eq_some_iff.mpr ⟨.refl t, rfl⟩
    rw [hlast, htop]
    rfl

omit [DecidableEq β] in
theorem eq_branch_tip : C.vChain = T.branch C.tip := by
  obtain ⟨tip, htip⟩ := C.eq_branch
  rw [CChain.tip, htip, getLast?_branch]

omit [DecidableEq β] in
theorem entryAt_natCast (k : ℕ) : C.entryAt k = T.entry C.tip k := by
  rw [entryAt, Int.toNat_natCast, ← getElem?_branch, ← C.eq_branch_tip]
  split
  case isTrue hout =>
    rw [List.getElem?_eq_none (by omega)]
    rfl
  case isFalse => rfl

theorem contains_iff : C.contains b = true ↔ ∃ t, C.tip = some t ∧ T.tree.IsAncestor b t := by
  rw [contains, beq_iff_eq, entryAt_natCast]
  cases htip : C.tip with
  | none => exact iff_of_false (fun h ↦ by cases h) (by rintro ⟨t, ht, -⟩; cases ht)
  | some t =>
    rw [T.entry_eq_some_iff, and_iff_left rfl]
    constructor
    · intro h
      exact ⟨t, rfl, h⟩
    · rintro ⟨t', ht', h⟩
      obtain rfl := Option.some.inj ht'
      exact h

variable {C}

/-! ### The locator -/

/-- The inner loop ends at the height it looks for, or at a block of the chain above it. -/
theorem descend_eq {k : ℕ} {p : β} (hk : k ≤ T.nHeight p) :
    ∃ q, C.descend k (some p) = some q ∧ T.tree.IsAncestor q p ∧ k ≤ T.nHeight q ∧
      (k < T.nHeight q → C.contains q = true) := by
  induction hp : T.nHeight p using Nat.strong_induction_on generalizing p with
  | h n ih =>
    rw [descend]
    split
    case isTrue hdown =>
      have hgt : k < T.nHeight p := Int.ofNat_lt.mp hdown.1
      cases hpprev : T.pprev p with
      | none =>
        have hzero : T.nHeight p = 0 := T.tree.parent_eq_none_iff.mp hpprev
        exact absurd hgt (by omega)
      | some p' =>
        have hheight := T.nHeight_pprev hpprev
        have hstep : T.tree.IsAncestor p' p := ⟨1, T.tree.up_succ_of_parent hpprev 0⟩
        obtain ⟨q, hq, hanc, hrest⟩ := ih (T.nHeight p') (by omega) (p := p') (by omega) rfl
        exact ⟨q, hq, hanc.trans hstep, hrest⟩
    case isFalse hstop =>
      refine ⟨p, rfl, .refl p, hk, fun hgt ↦ ?_⟩
      by_contra hout
      exact hstop ⟨Int.ofNat_lt.mpr hgt, by rw [Bool.eq_false_of_not_eq_true hout]; rfl⟩

/-- How far below its start the entries of a locator are: ten single steps, then steps that
double. -/
def locatorDepth (i : ℕ) : ℕ := if i < 10 then i else 9 + 2 ^ (i - 10)

theorem locatorDepth_succ (i : ℕ) : locatorDepth (i + 1) = locatorDepth i + 2 ^ (i - 10) := by
  rw [locatorDepth, locatorDepth]
  by_cases hi : i < 9
  · rw [if_pos (by omega), if_pos (by omega), show i - 10 = 0 by omega, Nat.pow_zero]
  · by_cases hnine : i = 9
    · rw [hnine]
      rfl
    · have hpow : 2 ^ (i + 1 - 10) = 2 ^ (i - 10) + 2 ^ (i - 10) := by
        rw [show i + 1 - 10 = i - 10 + 1 by omega, Nat.pow_succ]
        ring
      rw [if_neg (by omega), if_neg (by omega), hpow]
      ring

/-- An entry is at most twice as deep as what lies right behind the one before. -/
theorem locatorDepth_succ_le (i : ℕ) : locatorDepth (i + 1) ≤ 2 * (locatorDepth i + 1) := by
  rw [locatorDepth_succ]
  have hstep : 2 ^ (i - 10) ≤ locatorDepth i + 2 := by
    rw [locatorDepth]
    split
    case isTrue hi =>
      rw [show i - 10 = 0 by omega]
      omega
    case isFalse => omega
  omega

theorem strictMono_locatorDepth : StrictMono locatorDepth := by
  apply strictMono_nat_of_lt_succ
  intro i
  rw [locatorDepth_succ]
  exact Nat.lt_add_of_pos_right (Nat.two_pow_pos _)

theorem step_lt {i h : ℕ} (hdepth : locatorDepth i < h) (hh : h < 2 ^ 31) :
    2 ^ (i - 10) < 2 ^ 31 := by
  rw [locatorDepth] at hdepth
  split at hdepth
  case isTrue hi =>
    rw [show i - 10 = 0 by omega]
    omega
  case isFalse => omega

/-- The step doubles from the eleventh entry on, and stays an `int` as long as it is used. -/
theorem nextStep_eq {i : ℕ} (h : 2 ^ (i + 1 - 10) < 2 ^ 31) :
    (if 10 < i + 1 then Int.bmod (2 * (2 ^ (i - 10) : ℕ)) (2 ^ 32) else (2 ^ (i - 10) : ℕ)) =
      ((2 ^ (i + 1 - 10) : ℕ) : ℤ) := by
  split
  case isTrue hi =>
    have hpow : 2 ^ (i + 1 - 10) = 2 * 2 ^ (i - 10) := by
      rw [show i + 1 - 10 = i - 10 + 1 by omega, Nat.pow_succ, Nat.mul_comm]
    rw [hpow] at h ⊢
    rw [Nat.cast_mul, Nat.cast_two]
    apply Int.bmod_eq_of_le
    · omega
    · omega
  case isFalse hi => rw [show i - 10 = 0 by omega, show i + 1 - 10 = 0 by omega]

/-- The entry of a locator with a number. -/
def locatorEntry (T : BlockTree β Hash) (start : β) (i : ℕ) : β :=
  T.tree.ancestorAt start (T.nHeight start - locatorDepth i)

omit [DecidableEq β] in
theorem nHeight_locatorEntry (start : β) (i : ℕ) :
    T.nHeight (locatorEntry T start i) = T.nHeight start - locatorDepth i :=
  T.tree.height_ancestorAt (Nat.sub_le _ _)

/-- One turn of the loop goes from an entry to the next. -/
theorem next_locatorEntry (C : CChain T) (start : β) (i : ℕ) :
    let nHeight : ℤ := max (T.nHeight (locatorEntry T start i) - (2 ^ (i - 10) : ℕ)) 0
    ∃ q, C.descend nHeight (some (locatorEntry T start i)) = some q ∧
      (if (T.nHeight q : ℤ) > nHeight then C.entryAt nHeight else some q) =
        some (locatorEntry T start (i + 1)) := by
  have hheight := nHeight_locatorEntry (T := T) start i
  have htarget : max ((T.nHeight (locatorEntry T start i) : ℤ) - (2 ^ (i - 10) : ℕ)) 0 =
      ((T.nHeight start - locatorDepth (i + 1) : ℕ) : ℤ) := by
    rw [hheight, locatorDepth_succ]
    generalize 2 ^ (i - 10) = nStep
    omega
  have hle : T.nHeight start - locatorDepth (i + 1) ≤ T.nHeight (locatorEntry T start i) := by
    rw [hheight]
    exact Nat.sub_le_sub_left (strictMono_locatorDepth (Nat.lt_succ_self i)).le _
  obtain ⟨q, hq, hanc, hqle, hcontains⟩ := descend_eq (C := C) hle
  have hstart : T.tree.IsAncestor q start := hanc.trans (T.tree.isAncestor_ancestorAt start _)
  dsimp only
  rw [htarget]
  refine ⟨q, hq, ?_⟩
  split
  case isTrue hgt =>
    -- the chain has the block, so it has the ancestor
    obtain ⟨t, htip, ht⟩ := C.contains_iff.mp (hcontains (Int.ofNat_lt.mp hgt))
    rw [C.entryAt_natCast, htip, entry_of_isAncestor ht hqle, locatorEntry,
      hstart.ancestorAt_below hqle]
  case isFalse hnot =>
    have heq : T.nHeight q = T.nHeight start - locatorDepth (i + 1) := by omega
    rw [locatorEntry, ← heq]
    exact congrArg some hstart.ancestorAt_eq.symm

/-- The entries of a locator up to the one that is genesis. -/
def locatorBlocks (T : BlockTree β Hash) (start : β) (n : ℕ) : List β :=
  (List.range (n + 1)).map (locatorEntry T start)

/-- The loop adds the entries that are missing. -/
theorem locatorLoop_eq (C : CChain T) {start : β} {n : ℕ} (hn : T.nHeight start ≤ locatorDepth n)
    (hbefore : ∀ i < n, locatorDepth i < T.nHeight start) {fuel i : ℕ} (hi : i ≤ n)
    (hfuel : n < fuel + i) {nStep : ℤ} (hstep : i < n → nStep = (2 ^ (i - 10) : ℕ)) :
    C.locatorLoop fuel (some (locatorEntry T start i)) nStep
        (((List.range i).map (locatorEntry T start)).map T.getBlockHash) =
      some ((locatorBlocks T start n).map T.getBlockHash) := by
  induction fuel generalizing i nStep with
  | zero => omega
  | succ fuel ih =>
    have hheight := nHeight_locatorEntry (T := T) start i
    have hpush : ((List.range i).map (locatorEntry T start)).map T.getBlockHash ++
        [T.getBlockHash (locatorEntry T start i)] =
        ((List.range (i + 1)).map (locatorEntry T start)).map T.getBlockHash := by
      rw [List.range_succ, List.map_append, List.map_append]
      rfl
    rw [locatorLoop]
    dsimp only
    rw [hpush]
    split
    case isTrue hzero =>
      have hlast : i = n := by
        by_contra hne
        have hlt := hbefore i (by omega)
        omega
      rw [hlast, locatorBlocks]
    case isFalse hpos =>
      have hlt : i < n := by
        by_contra hge
        rw [show i = n by omega] at hheight hpos
        omega
      obtain ⟨q, hq, hnext⟩ := C.next_locatorEntry start i
      rw [hstep hlt, hq, Option.bind_eq_bind, Option.bind_some, hnext]
      apply ih hlt (by omega)
      intro hmore
      have hint := step_lt (hbefore (i + 1) hmore) ((Nat.lt_succ_self _).trans (T.nHeight_lt start))
      rw [List.length_map, List.length_map, List.length_range, nextStep_eq hint]

theorem exists_locatorEnd (h : ℕ) :
    ∃ n ≤ h, h ≤ locatorDepth n ∧ ∀ i < n, locatorDepth i < h := by
  have hex : ∃ n, h ≤ locatorDepth n := ⟨h, strictMono_locatorDepth.le_apply⟩
  refine ⟨Nat.find hex, Nat.find_le strictMono_locatorDepth.le_apply, Nat.find_spec hex, ?_⟩
  intro i hi
  exact Nat.lt_of_not_le (Nat.find_min hex hi)

/-- The locator of a block: the hashes of its entries up to genesis. -/
theorem getLocator_eq {start : β} {pindex : Option β} (hstart : pindex.or C.tip = some start) :
    ∃ n, T.nHeight start ≤ locatorDepth n ∧ (∀ i < n, locatorDepth i < T.nHeight start) ∧
      ∀ fuel > T.nHeight start,
        C.getLocator fuel pindex = some ((locatorBlocks T start n).map T.getBlockHash) := by
  obtain ⟨n, hle, hn, hbefore⟩ := exists_locatorEnd (T.nHeight start)
  refine ⟨n, hn, hbefore, fun fuel hfuel ↦ ?_⟩
  have hfirst : locatorEntry T start 0 = start := T.tree.ancestorAt_self start
  have hloop := @locatorLoop_eq _ _ _ _ C start n hn hbefore fuel 0 (Nat.zero_le n) (by omega) 1
    fun _ ↦ rfl
  rw [hfirst] at hloop
  rw [getLocator, hstart]
  exact hloop

omit [DecidableEq β] in
theorem isAncestor_of_mem_locatorBlocks {start : β} {n : ℕ} (h : b ∈ locatorBlocks T start n) :
    T.tree.IsAncestor b start := by
  obtain ⟨i, -, rfl⟩ := List.mem_map.mp h
  exact T.tree.isAncestor_ancestorAt start _

omit [DecidableEq β] in
theorem getLast?_locatorBlocks {start : β} {n : ℕ} (hn : T.nHeight start ≤ locatorDepth n) :
    (locatorBlocks T start n).getLast? = some T.genesis := by
  have hzero : T.nHeight start - locatorDepth n = 0 := Nat.sub_eq_zero_of_le hn
  rw [locatorBlocks, List.range_succ, List.map_append, List.map_singleton, List.getLast?_concat,
    locatorEntry, hzero]
  exact congrArg some (T.tree.ancestorAt_zero start)

omit [DecidableEq β] in
/-- The heights of a locator fall from each entry to the next. -/
theorem pairwise_locatorBlocks {start : β} {n : ℕ}
    (hbefore : ∀ i < n, locatorDepth i < T.nHeight start) :
    (locatorBlocks T start n).Pairwise fun a b ↦ T.nHeight b < T.nHeight a := by
  rw [locatorBlocks, List.pairwise_map]
  apply List.pairwise_lt_range.imp_of_mem
  intro i j hi hj hij
  have hlt := hbefore i (by have := List.mem_range.mp hj; omega)
  have hmono := strictMono_locatorDepth hij
  rw [nHeight_locatorEntry, nHeight_locatorEntry]
  omega

/-! ### The fork -/

/-- What a node knows of the tree: it has its chain. -/
structure Knows (C : CChain T) (mapBlockIndex : Hash → Option β) : Prop where
  getBlockHash : ∀ {hash b}, mapBlockIndex hash = some b → T.getBlockHash b = hash
  chain : ∀ {b}, C.contains b = true → mapBlockIndex (T.getBlockHash b) = some b

/-- `FindFork` finds the first block of a locator that the chain has. -/
theorem findFork_map {mapBlockIndex : Hash → Option β} (hknows : C.Knows mapBlockIndex)
    (blocks : List β) :
    C.findFork mapBlockIndex (blocks.map T.getBlockHash) =
      (blocks.find? C.contains).or C.genesis := by
  induction blocks with
  | nil => rfl
  | cons b blocks ih =>
    rw [List.map_cons, findFork]
    cases hb : C.contains b with
    | true =>
      rw [hknows.chain hb, List.find?_cons_of_pos hb]
      exact if_pos hb
    | false =>
      rw [List.find?_cons_of_neg (by rw [hb]; exact Bool.false_ne_true)]
      cases hfound : mapBlockIndex (T.getBlockHash b) with
      | none => exact ih
      | some b' =>
        obtain rfl := T.getBlockHash_injective (hknows.getBlockHash hfound)
        exact (if_neg (by rw [hb]; exact Bool.false_ne_true)).trans ih

/-- The block that is found is an ancestor of both, not above the fork, and not much below it. -/
theorem findFork_locatorBlocks {mapBlockIndex : Hash → Option β} (hknows : C.Knows mapBlockIndex)
    (ht : C.tip = some t) {start fork : β} (hfork : T.tree.IsFork fork start t) {n : ℕ}
    (hn : T.nHeight start ≤ locatorDepth n) :
    ∃ b, C.findFork mapBlockIndex ((locatorBlocks T start n).map T.getBlockHash) = some b ∧
      T.tree.IsAncestor b start ∧ T.tree.IsAncestor b t ∧ T.nHeight b ≤ T.nHeight fork ∧
      T.nHeight start - T.nHeight b ≤ 2 * (T.nHeight start - T.nHeight fork) := by
  have hcontains : ∀ b, C.contains b = true ↔ T.tree.IsAncestor b t := by
    intro b
    rw [contains_iff, ht]
    constructor
    · rintro ⟨t', ht', hb⟩
      obtain rfl := Option.some.inj ht'
      exact hb
    · intro hb
      exact ⟨t, rfl, hb⟩
  have hlast := getLast?_locatorBlocks hn
  have hsome : ((locatorBlocks T start n).find? C.contains).isSome := by
    rw [List.find?_isSome]
    exact ⟨T.genesis, List.mem_of_getLast? hlast, (hcontains _).mpr (T.tree.isAncestor_root t)⟩
  obtain ⟨b, hb⟩ := Option.isSome_iff_exists.mp hsome
  obtain ⟨hbt, i, hi, hget, hfirst⟩ := List.find?_eq_some_iff_getElem.mp hb
  have hanc := isAncestor_of_mem_locatorBlocks (List.mem_of_find?_eq_some hb)
  refine ⟨b, ?_, hanc, (hcontains b).mp hbt, hfork.height_le b hanc ((hcontains b).mp hbt), ?_⟩
  · rw [findFork_map hknows, hb]
    rfl
  · have hentry : ∀ j (hj : j < (locatorBlocks T start n).length),
        (locatorBlocks T start n)[j] = locatorEntry T start j := by
      intro j hj
      simp only [locatorBlocks, List.getElem_map, List.getElem_range]
    have hheight := nHeight_locatorEntry (T := T) start i
    rw [← hentry i hi, hget] at hheight
    rw [hheight]
    cases i with
    | zero =>
      change T.nHeight start - (T.nHeight start - 0) ≤ _
      omega
    | succ i =>
      -- the entry before is above the fork
      have hbefore := hfirst i (Nat.lt_succ_self i)
      rw [hentry i (by omega), Bool.not_eq_true'] at hbefore
      have habove : T.nHeight fork < T.nHeight start - locatorDepth i := by
        rw [← nHeight_locatorEntry]
        by_contra hle
        have hshared : T.tree.IsAncestor (locatorEntry T start i) t :=
          (hfork.isAncestor_iff (T.tree.isAncestor_ancestorAt start _)).mpr (Nat.le_of_not_lt hle)
        rw [(hcontains _).mpr hshared] at hbefore
        cases hbefore
      have hle := locatorDepth_succ_le i
      omega

end CChain

open CChain in
/-- A locator is a list of ancestors of its start, each lower than the one before, the last one
genesis. With it another node finds a block that both branches have, at most twice as deep below the
start as their fork. -/
theorem locator_finds_fork {β Hash : Type} [DecidableEq β] {T : BlockTree β Hash} (C : CChain T)
    {pindex : Option β} {start : β} (hstart : pindex.or C.tip = some start) :
    ∃ blocks : List β,
      (∀ fuel > T.nHeight start, C.getLocator fuel pindex = some (blocks.map T.getBlockHash)) ∧
      blocks.head? = some start ∧ blocks.getLast? = some T.genesis ∧
      (∀ b ∈ blocks, T.tree.IsAncestor b start) ∧
      blocks.Pairwise (fun a b ↦ T.nHeight b < T.nHeight a) ∧
      ∀ (other : CChain T) (mapBlockIndex : Hash → Option β) (t fork : β),
        other.Knows mapBlockIndex → other.tip = some t → T.tree.IsFork fork start t →
        ∃ b, other.findFork mapBlockIndex (blocks.map T.getBlockHash) = some b ∧
          T.tree.IsAncestor b start ∧ T.tree.IsAncestor b t ∧ T.nHeight b ≤ T.nHeight fork ∧
          T.nHeight start - T.nHeight b ≤ 2 * (T.nHeight start - T.nHeight fork) := by
  obtain ⟨n, hn, hbefore, hlocator⟩ := getLocator_eq hstart
  refine ⟨locatorBlocks T start n, hlocator, ?_, getLast?_locatorBlocks hn, ?_,
    pairwise_locatorBlocks hbefore, ?_⟩
  · rw [locatorBlocks, List.range_succ_eq_map, List.map_cons, List.head?_cons]
    exact congrArg some (T.tree.ancestorAt_self start)
  · intro b hb
    exact isAncestor_of_mem_locatorBlocks hb
  · intro other mapBlockIndex t fork hknows ht hfork
    exact findFork_locatorBlocks hknows ht hfork hn

/-- Genesis with a branch of two blocks and a branch of one. -/
def forkedTree : BlockTree (Fin 4) (Fin 4) where
  pprev
    | 0 => none
    | 2 => some 1
    | 1 | 3 => some 0
  nHeight
    | 0 => 0
    | 2 => 2
    | 1 | 3 => 1
  getBlockHash := id
  genesis := 0
  nHeight_genesis := rfl
  eq_genesis := by decide
  nHeight_pprev := by decide
  nHeight_lt := by decide
  getBlockHash_injective := Function.injective_id

/-- The branches of `forkedTree` find an ancestor they share. -/
theorem locator_finds_fork_sample :
    ∃ (blocks : List (Fin 4)) (b : Fin 4), blocks.head? = some 2 ∧ blocks.getLast? = some 0 ∧
      (⟨[some 0, some 3], some 3, rfl⟩ : CChain forkedTree).findFork some (blocks.map id) = some b ∧
      forkedTree.tree.IsAncestor b 2 ∧ forkedTree.tree.IsAncestor b 3 := by
  obtain ⟨fork, hfork⟩ := forkedTree.tree.exists_isFork 2 3
  obtain ⟨blocks, -, hfirst, hlast, -, -, hfind⟩ :=
    @locator_finds_fork _ _ _ forkedTree ⟨[some 0, some 1, some 2], some 2, rfl⟩ none 2 rfl
  obtain ⟨b, hb, hleft, hright, -⟩ := hfind ⟨[some 0, some 3], some 3, rfl⟩ some 3 fork
    ⟨fun h ↦ (Option.some.inj h).symm, fun _ ↦ rfl⟩ rfl hfork
  exact ⟨blocks, b, hfirst, hlast, hb, hleft, hright⟩

end Bitmark

import Bitmark.Chain.Locator
import Mathlib.Data.List.MinMax
import Mathlib.Data.Finset.Insert
import Mathlib.Data.Fin.VecNotation
import Mathlib.Data.Prod.Lex

/-!
# Activating the best chain

`FindMostWorkChain` and `ActivateBestChain` (`src/main.cpp:2548–2646`) over a tree of blocks, where
the outcome of `ConnectTip` is a function of the block and `DisconnectTip` succeeds. What
`InvalidChainFound` records and warns of is in `Chain.ForkWarning`.
-/

namespace Bitmark

/-! ### The candidates -/

/-- What `CBlockIndexWorkComparator` reads of an entry, its address included. -/
structure WorkKeys (β : Type) where
  nChainWork : β → ℕ
  nSequenceId : β → ℕ
  address : β → ℕ
  address_injective : Function.Injective address

namespace WorkKeys

variable {β : Type} (K : WorkKeys β)

/-- `CBlockIndexWorkComparator`, `src/main.cpp:84`. -/
def less (pa pb : β) : Bool :=
  if K.nChainWork pa > K.nChainWork pb then false
  else if K.nChainWork pa < K.nChainWork pb then true
  else if K.nSequenceId pa < K.nSequenceId pb then false
  else if K.nSequenceId pa > K.nSequenceId pb then true
  else if K.address pa < K.address pb then false
  else if K.address pa > K.address pb then true
  else false

/-- More work is greater, and an earlier block and a lower address. -/
def key (b : β) : ℕ ×ₗ ℕᵒᵈ ×ₗ ℕᵒᵈ :=
  toLex (K.nChainWork b, toLex (OrderDual.toDual (K.nSequenceId b), OrderDual.toDual (K.address b)))

theorem less_iff {pa pb : β} : K.less pa pb = true ↔ K.key pa < K.key pb := by
  simp only [less, key, Prod.Lex.toLex_lt_toLex, OrderDual.toDual_lt_toDual,
    OrderDual.toDual_inj]
  grind

theorem key_injective : Function.Injective K.key := by
  intro pa pb h
  simp only [key, toLex_inj, Prod.mk.injEq, OrderDual.toDual_inj] at h
  exact K.address_injective h.2.2

/-- `rbegin()` of a set in this order. -/
def rbegin (set : List β) : Option β := set.argmax K.key

end WorkKeys

/-! ### The state -/

/-- The entries that are known, those marked `BLOCK_FAILED_VALID` and `BLOCK_FAILED_CHILD`, the
elements of `setBlockIndexValid`, and the two chains. -/
structure BestChain {β Hash : Type} (T : BlockTree β Hash) where
  mapBlockIndex : List β
  failedValid : Finset β
  failedChild : Finset β
  setBlockIndexValid : List β
  chainActive : CChain T
  chainMostWork : CChain T

/-- What `ConnectTip` comes to. -/
inductive ConnectOutcome where
  | success
  | invalid (corruptionPossible : Bool)
  | error
deriving DecidableEq, Repr

/-- How the loop that connects new blocks is left. -/
inductive TipsConnected where
  | complete
  | invalid
  | error
deriving DecidableEq, Repr

namespace CChain

variable {β Hash : Type} {T : BlockTree β Hash}

/-- The chain without blocks. -/
def empty (T : BlockTree β Hash) : CChain T := ⟨[], exists_branch_nil T⟩

/-- `Height`. -/
def height (C : CChain T) : ℤ := C.vChain.length - 1

variable [DecidableEq β]

@[simp] theorem tip_setTip (C : CChain T) (pindex : Option β) : (C.setTip pindex).1.tip = pindex := by
  rw [CChain.tip, setTip_vChain, getLast?_branch]

@[simp] theorem length_setTip (C : CChain T) (pindex : β) :
    (C.setTip (some pindex)).1.vChain.length = T.nHeight pindex + 1 := by
  rw [setTip_vChain, BlockTree.branch, List.length_map, List.length_range]

omit [DecidableEq β] in
/-- A block that follows the tip by its height is one of a longer chain. -/
theorem lt_of_entryAt_next {C C' : CChain T} {b : β} (h : C'.entryAt (C.height + 1) = some b) :
    C.vChain.length < C'.vChain.length ∧ T.nHeight b = C.vChain.length := by
  have hcast : C.height + 1 = (C.vChain.length : ℤ) := by
    rw [height]
    omega
  rw [hcast] at h
  constructor
  · rw [entryAt] at h
    split at h
    · cases h
    · omega
  · rw [entryAt_natCast] at h
    cases htip : C'.tip with
    | none =>
      rw [htip] at h
      cases h
    | some t =>
      rw [htip] at h
      exact (T.entry_eq_some_iff.mp h).2

end CChain

namespace BestChain

variable {β Hash : Type} [DecidableEq β] {T : BlockTree β Hash}

/-- `nStatus & BLOCK_FAILED_MASK`. -/
def failed (s : BestChain T) (b : β) : Bool := b ∈ s.failedValid || b ∈ s.failedChild

/-- `setBlockIndexValid.erase`. -/
def erase (s : BestChain T) (b : β) : BestChain T :=
  { s with setBlockIndexValid := s.setBlockIndexValid.filter (· ≠ b) }

/-- The first loop of `FindMostWorkChain`. -/
def dropFailed (s : BestChain T) : BestChain T :=
  match htip : s.chainMostWork.tip with
  | none => s
  | some tip =>
    if s.failed tip then
      dropFailed { s.erase tip with chainMostWork := (s.chainMostWork.setTip (T.pprev tip)).1 }
    else s
  termination_by s.chainMostWork.tip.elim 0 (T.nHeight · + 1)
  decreasing_by
    rw [CChain.tip_setTip, htip]
    exact T.elim_pprev_lt tip

/-- The walk from a candidate to the active chain, up to a block that failed. -/
def invalidAncestor (s : BestChain T) : Option β → Option β
  | none => none
  | some pindexTest =>
    if s.chainActive.contains pindexTest then none
    else if s.failed pindexTest then some pindexTest
    else invalidAncestor s (T.pprev pindexTest)
  termination_by pindex => pindex.elim 0 (T.nHeight · + 1)
  decreasing_by exact T.elim_pprev_lt pindexTest

/-- The removal of a candidate with the blocks it has above one that failed. -/
def prune (s : BestChain T) (pindexTest : β) : Option β → BestChain T
  | none => s
  | some pindexFailed =>
    if pindexTest = pindexFailed then s
    else
      prune ({ s with failedChild := insert pindexFailed s.failedChild }.erase pindexFailed)
        pindexTest (T.pprev pindexFailed)
  termination_by pindex => pindex.elim 0 (T.nHeight · + 1)
  decreasing_by exact T.elim_pprev_lt pindexFailed

/-- The second loop, with so many turns left; the best candidate, or none where the set is empty. -/
def search (K : WorkKeys β) : ℕ → BestChain T → Option (Option β × BestChain T)
  | 0, _ => none
  | fuel + 1, s =>
    match K.rbegin s.setBlockIndexValid with
    | none => some (none, s)
    | some pindexNew =>
      match s.invalidAncestor (some pindexNew) with
      | some pindexTest => search K fuel (s.prune pindexTest (some pindexNew))
      | none => some (some pindexNew, s)

/-- `FindMostWorkChain`, `src/main.cpp:2548`. -/
def findMostWorkChain (K : WorkKeys β) (fuel : ℕ) (s : BestChain T) : Option (BestChain T) := do
  let (pindexNew, s) ← search K fuel s.dropFailed
  match pindexNew with
  | none => some s
  | some pindexNew =>
    match s.chainMostWork.tip with
    | none => some { s with chainMostWork := (s.chainMostWork.setTip (some pindexNew)).1 }
    | some tip =>
      if !K.less tip pindexNew then some s
      else some { s with chainMostWork := (s.chainMostWork.setTip (some pindexNew)).1 }

/-- The loop that disconnects active blocks. -/
def disconnectTips (s : BestChain T) : BestChain T :=
  match htip : s.chainActive.tip with
  | none => s
  | some tip =>
    if s.chainMostWork.contains tip then s
    else disconnectTips { s with chainActive := (s.chainActive.setTip (T.pprev tip)).1 }
  termination_by s.chainActive.tip.elim 0 (T.nHeight · + 1)
  decreasing_by
    rw [CChain.tip_setTip, htip]
    exact T.elim_pprev_lt tip

/-- `InvalidBlockFound`, `src/main.cpp:1852`. -/
def invalidBlockFound (s : BestChain T) (pindex : β) (corruptionPossible : Bool) : BestChain T :=
  if !corruptionPossible then
    { s with failedValid := insert pindex s.failedValid }.erase pindex
  else s

/-- The loop that connects new blocks; `none` is a null pointer or the assertion of `ConnectTip`. -/
def connectTips (outcome : β → ConnectOutcome) (s : BestChain T) :
    Option (TipsConnected × BestChain T) :=
  match s.chainMostWork.tip with
  | none => none
  | some tip =>
    if s.chainActive.contains tip then some (.complete, s)
    else
      match hnext : s.chainMostWork.entryAt (s.chainActive.height + 1) with
      | none => none
      | some pindexConnect =>
        if T.pprev pindexConnect ≠ s.chainActive.tip then none
        else
          match outcome pindexConnect with
          | .success =>
            connectTips outcome { s with chainActive := (s.chainActive.setTip pindexConnect).1 }
          | .invalid corruptionPossible =>
            some (.invalid, s.invalidBlockFound pindexConnect corruptionPossible)
          | .error => some (.error, s)
  termination_by s.chainMostWork.vChain.length - s.chainActive.vChain.length
  decreasing_by
    obtain ⟨hlt, hheight⟩ := CChain.lt_of_entryAt_next hnext
    rw [CChain.length_setTip, hheight]
    omega

/-- `ActivateBestChain`, `src/main.cpp:2600`, with so many turns left. -/
def activateBestChain (K : WorkKeys β) (outcome : β → ConnectOutcome) :
    ℕ → BestChain T → Option (Bool × BestChain T)
  | 0, _ => none
  | fuel + 1, s => do
    let s ← findMostWorkChain K fuel s
    if s.chainMostWork.tip = none then some (true, s)
    else
      let (connected, s) ← connectTips outcome s.disconnectTips
      match connected with
      | .complete => some (true, s)
      | .invalid => activateBestChain K outcome fuel s
      | .error => some (false, s)

/-! ### Runs -/

/-- `LoadBlockIndexDB`, `src/main.cpp:3318`: what the database has of the entries, and the block
that the coins are at. -/
def loadBlockIndexDB (T : BlockTree β Hash) (mapBlockIndex : List β)
    (failedValid failedChild : Finset β) (bestBlock : Option β) : BestChain T where
  mapBlockIndex := mapBlockIndex
  failedValid := failedValid
  failedChild := failedChild
  setBlockIndexValid := mapBlockIndex.filter fun b ↦ !(b ∈ failedValid || b ∈ failedChild)
  chainActive := ((CChain.empty T).setTip bestBlock).1
  chainMostWork := CChain.empty T

/-- `AddToBlockIndex` (`src/main.cpp:2648`) up to `ActivateBestChain`. -/
def addToBlockIndex (s : BestChain T) (pindexNew : β) : BestChain T :=
  { s with
    mapBlockIndex := pindexNew :: s.mapBlockIndex
    setBlockIndexValid := pindexNew :: s.setBlockIndexValid }

/-- The states of a run: an index is loaded, then blocks whose parents are known are added and
calls of `ActivateBestChain` return. -/
inductive Reachable : BestChain T → Prop
  | load (mapBlockIndex : List β) (failedValid failedChild : Finset β) (bestBlock : Option β)
      (hparent : ∀ b ∈ mapBlockIndex, ∀ p, T.pprev b = some p → p ∈ mapBlockIndex)
      (hflags : ∀ b, b ∈ failedValid ∨ b ∈ failedChild → b ∈ mapBlockIndex) :
      Reachable (loadBlockIndexDB T mapBlockIndex failedValid failedChild bestBlock)
  | add {s : BestChain T} (hs : Reachable s) (pindexNew : β) (hnew : pindexNew ∉ s.mapBlockIndex)
      (hparent : ∀ p, T.pprev pindexNew = some p → p ∈ s.mapBlockIndex) :
      Reachable (s.addToBlockIndex pindexNew)
  | activate {s s' : BestChain T} (hs : Reachable s) (K : WorkKeys β)
      (outcome : β → ConnectOutcome) {fuel : ℕ} {ok : Bool}
      (h : s.activateBestChain K outcome fuel = some (ok, s')) : Reachable s'

/-! ### The invariant -/

/-- The set has the known entries that are not marked failed. -/
structure Inv (s : BestChain T) : Prop where
  parent : ∀ b ∈ s.mapBlockIndex, ∀ p, T.pprev b = some p → p ∈ s.mapBlockIndex
  tip : ∀ b, s.chainMostWork.tip = some b → b ∈ s.mapBlockIndex
  valid : ∀ b, b ∈ s.setBlockIndexValid ↔ b ∈ s.mapBlockIndex ∧ s.failed b = false
  known : ∀ b, s.failed b = true → b ∈ s.mapBlockIndex

/-- No block on the way from the active chain to this one is marked failed. -/
def CleanPath (s : BestChain T) (b : β) : Prop :=
  ∀ a, T.tree.IsAncestor a b → s.chainActive.contains a = false → s.failed a = false

/-- A chain that was found before is still good, from its first block that is not marked on. -/
def Ready (s : BestChain T) : Prop :=
  ∀ b, s.dropFailed.chainMostWork.tip = some b → s.CleanPath b

/-- The chain found before has failed at the block after the active tip, and is yet unmarked above
it. -/
structure Stuck (outcome : β → ConnectOutcome) (s : BestChain T) (m b : β) : Prop where
  tip : s.chainMostWork.tip = some m
  unfailed : s.failed m = false
  isAncestor : T.tree.IsAncestor b m
  failed : s.failed b = true
  pprev : T.pprev b = s.chainActive.tip
  outcome : outcome b = .invalid false
  above : ∀ a, T.tree.IsAncestor a m → T.nHeight b < T.nHeight a → s.failed a = false

/-- What holds whenever the outer loop comes round. -/
structure LoopHead (outcome : β → ConnectOutcome) (s : BestChain T) : Prop where
  inv : s.Inv
  chain : s.Ready ∨ ∃ m b, s.Stuck outcome m b

variable {s s' : BestChain T} {b p t m : β}

theorem Inv.mem_index (h : s.Inv) (hb : b ∈ s.mapBlockIndex) {a : β}
    (ha : T.tree.IsAncestor a b) : a ∈ s.mapBlockIndex := by
  induction hk : T.nHeight b using Nat.strong_induction_on generalizing b with
  | h k ih =>
    rcases ha.eq_or_parent with rfl | ⟨p, hp, ha⟩
    · exact hb
    · have hheight := T.nHeight_pprev hp
      exact ih (T.nHeight p) (by omega) (h.parent b hb p hp) ha rfl

theorem erase_of_failed (h : s.Inv) (hb : s.failed b = true) : s.erase b = s := by
  have hset : s.setBlockIndexValid.filter (· ≠ b) = s.setBlockIndexValid := by
    refine List.filter_eq_self.mpr fun a ha ↦ decide_eq_true ?_
    rintro rfl
    rw [((h.valid a).mp ha).2] at hb
    cases hb
  rw [erase, hset]

theorem dropFailed_of_unfailed (htip : s.chainMostWork.tip = some b) (hb : s.failed b = false) :
    s.dropFailed = s := by
  rw [dropFailed]
  split
  · rfl
  · rename_i tip htip'
    obtain rfl := Option.some.inj (htip.symm.trans htip')
    rw [hb]
    rfl

theorem dropFailed_of_none (htip : s.chainMostWork.tip = none) : s.dropFailed = s := by
  rw [dropFailed]
  split
  · rfl
  · rename_i tip htip'
    rw [htip] at htip'
    cases htip'

theorem dropFailed_of_failed (htip : s.chainMostWork.tip = some b) (hb : s.failed b = true) :
    s.dropFailed =
      dropFailed { s.erase b with chainMostWork := (s.chainMostWork.setTip (T.pprev b)).1 } := by
  rw [dropFailed]
  split
  · rename_i htip'
    rw [htip] at htip'
    cases htip'
  · rename_i tip htip'
    obtain rfl := Option.some.inj (htip.symm.trans htip')
    rw [hb]
    rfl

/-- The first loop only takes blocks off the chain, down to one that is not marked. -/
theorem dropFailed_spec (h : s.Inv) :
    ∃ C, s.dropFailed = { s with chainMostWork := C } ∧ s.dropFailed.Inv ∧
      ∀ b, C.tip = some b → s.failed b = false ∧
        ∃ m, s.chainMostWork.tip = some m ∧ T.tree.IsAncestor b m := by
  induction hk : s.chainMostWork.tip.elim 0 (T.nHeight · + 1) using Nat.strong_induction_on
    generalizing s with
  | h k ih =>
    cases htip : s.chainMostWork.tip with
    | none =>
      rw [dropFailed_of_none htip]
      refine ⟨s.chainMostWork, rfl, h, fun b hb ↦ ?_⟩
      rw [htip] at hb
      cases hb
    | some tip =>
      cases hfailed : s.failed tip with
      | false =>
        rw [dropFailed_of_unfailed htip hfailed]
        refine ⟨s.chainMostWork, rfl, h, fun b hb ↦ ?_⟩
        obtain rfl := Option.some.inj (htip.symm.trans hb)
        exact ⟨hfailed, tip, rfl, .refl tip⟩
      | true =>
        rw [dropFailed_of_failed htip hfailed, erase_of_failed h hfailed]
        let next : BestChain T :=
          { s with chainMostWork := (s.chainMostWork.setTip (T.pprev tip)).1 }
        have htip' : next.chainMostWork.tip = T.pprev tip := CChain.tip_setTip _ _
        have hnext : next.Inv := by
          refine ⟨h.parent, fun b hb ↦ ?_, h.valid, h.known⟩
          exact h.parent tip (h.tip tip htip) b (htip'.symm.trans hb)
        have hlt : next.chainMostWork.tip.elim 0 (T.nHeight · + 1) < k := by
          rw [htip', ← hk, htip]
          exact T.elim_pprev_lt tip
        obtain ⟨C, hC, hinv, hspec⟩ := ih _ hlt hnext rfl
        refine ⟨C, hC, hinv, fun b hb ↦ ?_⟩
        obtain ⟨hunfailed, m, hm, hanc⟩ := hspec b hb
        refine ⟨hunfailed, tip, rfl, hanc.trans ?_⟩
        exact ParentTree.isAncestor_parent (htip'.symm.trans hm)

/-! ### The search -/

theorem contains_of_isAncestor {C : CChain T} (hb : C.contains b = true) {a : β}
    (ha : T.tree.IsAncestor a b) : C.contains a = true := by
  obtain ⟨t, ht, hanc⟩ := C.contains_iff.mp hb
  exact C.contains_iff.mpr ⟨t, ht, ha.trans hanc⟩

theorem invalidAncestor_eq_none (h : s.invalidAncestor (some b) = none) : s.CleanPath b := by
  induction hk : T.nHeight b using Nat.strong_induction_on generalizing b with
  | h k ih =>
    intro a ha hout
    rw [invalidAncestor] at h
    split at h
    case isTrue hin =>
      rw [contains_of_isAncestor hin ha] at hout
      cases hout
    case isFalse =>
      split at h
      case isTrue => cases h
      case isFalse hfailed =>
        rcases ha.eq_or_parent with rfl | ⟨p, hp, ha⟩
        · exact Bool.eq_false_of_not_eq_true hfailed
        · have hheight := T.nHeight_pprev hp
          have hp' : T.pprev b = some p := hp
          rw [hp'] at h
          exact ih (T.nHeight p) (by omega) h rfl a ha hout

/-- The walk stops at the first block that failed. -/
theorem invalidAncestor_eq_some (h : s.invalidAncestor (some b) = some t) :
    T.tree.IsAncestor t b ∧ s.chainActive.contains t = false ∧ s.failed t = true ∧
      ∀ a, T.tree.IsAncestor a b → T.nHeight t < T.nHeight a → s.failed a = false := by
  induction hk : T.nHeight b using Nat.strong_induction_on generalizing b with
  | h k ih =>
    rw [invalidAncestor] at h
    split at h
    case isTrue => cases h
    case isFalse hout =>
      split at h
      case isTrue hfailed =>
        obtain rfl := Option.some.inj h
        refine ⟨.refl b, Bool.eq_false_of_not_eq_true hout, hfailed, fun a ha hlt ↦ ?_⟩
        exact absurd ha.height_le (Nat.not_le.mpr hlt)
      case isFalse hunfailed =>
        cases hp : T.pprev b with
        | none =>
          rw [hp, invalidAncestor] at h
          cases h
        | some p =>
          have hheight := T.nHeight_pprev hp
          have hstep : T.tree.IsAncestor p b := ParentTree.isAncestor_parent hp
          rw [hp] at h
          obtain ⟨hanc, hout', hfailed, habove⟩ := ih (T.nHeight p) (by omega) h rfl
          refine ⟨hanc.trans hstep, hout', hfailed, fun a ha hlt ↦ ?_⟩
          rcases ha.eq_or_parent with rfl | ⟨p', hp', ha⟩
          · exact Bool.eq_false_of_not_eq_true hunfailed
          · obtain rfl := Option.some.inj (hp.symm.trans hp')
            exact habove a ha hlt

/-- What the search does to a state: blocks above one that failed, and what is between them, are
marked and leave the set. -/
structure Pruned (s s' : BestChain T) : Prop where
  mapBlockIndex : s'.mapBlockIndex = s.mapBlockIndex
  chainActive : s'.chainActive = s.chainActive
  chainMostWork : s'.chainMostWork = s.chainMostWork
  set : s'.setBlockIndexValid.Sublist s.setBlockIndexValid
  mono : ∀ b, s.failed b = true → s'.failed b = true
  origin : ∀ b, s'.failed b = true → s.failed b = false →
    ∃ a, T.tree.IsAncestor a b ∧ s.chainActive.contains a = false ∧ s.failed a = true ∧
      ∀ c, T.tree.IsAncestor c b → T.nHeight a ≤ T.nHeight c → s'.failed c = true

theorem Pruned.refl (s : BestChain T) : Pruned s s where
  mapBlockIndex := rfl
  chainActive := rfl
  chainMostWork := rfl
  set := .refl _
  mono _ h := h
  origin b h hnot := by
    rw [h] at hnot
    cases hnot

theorem Pruned.trans {s₁ s₂ : BestChain T} (h : Pruned s s₁) (h' : Pruned s₁ s₂) :
    Pruned s s₂ where
  mapBlockIndex := h'.mapBlockIndex.trans h.mapBlockIndex
  chainActive := h'.chainActive.trans h.chainActive
  chainMostWork := h'.chainMostWork.trans h.chainMostWork
  set := h'.set.trans h.set
  mono b hb := h'.mono b (h.mono b hb)
  origin b hb hnot := by
    cases hmid : s₁.failed b with
    | true =>
      obtain ⟨a, ha, hout, hfailed, hbetween⟩ := h.origin b hmid hnot
      exact ⟨a, ha, hout, hfailed, fun c hc hle ↦ h'.mono c (hbetween c hc hle)⟩
    | false =>
      obtain ⟨a₁, ha₁, hout₁, hfailed₁, hbetween₁⟩ := h'.origin b hb hmid
      rw [h.chainActive] at hout₁
      cases hold : s.failed a₁ with
      | true => exact ⟨a₁, ha₁, hout₁, hold, hbetween₁⟩
      | false =>
        obtain ⟨a, ha, hout, hfailed, hbetween⟩ := h.origin a₁ hfailed₁ hold
        refine ⟨a, ha.trans ha₁, hout, hfailed, fun c hc hle ↦ ?_⟩
        rcases Nat.le_total (T.nHeight a₁) (T.nHeight c) with hover | hunder
        · exact hbetween₁ c hc hover
        · exact h'.mono c (hbetween c (hc.of_height_le ha₁ hunder) hle)

/-- A path that is clean stays so. -/
theorem Pruned.cleanPath (h : Pruned s s') (hb : s.CleanPath b) : s'.CleanPath b := by
  intro a ha hout
  rw [h.chainActive] at hout
  by_contra hfailed
  obtain ⟨a', ha', hout', hfailed', -⟩ :=
    h.origin a (eq_true_of_ne_false hfailed) (hb a ha hout)
  rw [hb a' (ha'.trans ha) hout'] at hfailed'
  cases hfailed'

/-- The blocks of a path above one of it. -/
def Above (T : BlockTree β Hash) (t b a : β) : Prop :=
  T.tree.IsAncestor a b ∧ T.nHeight t < T.nHeight a

omit [DecidableEq β] in
theorem above_pprev (hp : T.pprev b = some p) (hne : t ≠ b) (ht : T.tree.IsAncestor t b) (a : β) :
    Above T t b a ↔ a = b ∨ Above T t p a := by
  have hheight := T.nHeight_pprev hp
  have htp : T.tree.IsAncestor t p := by
    rcases ht.eq_or_parent with heq | ⟨p', hp', ht⟩
    · exact absurd heq hne
    · obtain rfl := Option.some.inj (hp.symm.trans hp')
      exact ht
  constructor
  · rintro ⟨ha, hlt⟩
    rcases ha.eq_or_parent with heq | ⟨p', hp', ha⟩
    · exact .inl heq
    · obtain rfl := Option.some.inj (hp.symm.trans hp')
      exact .inr ⟨ha, hlt⟩
  · rintro (rfl | ⟨ha, hlt⟩)
    · have hle : T.nHeight t ≤ T.nHeight p := htp.height_le
      exact ⟨.refl a, by omega⟩
    · exact ⟨ha.trans (ParentTree.isAncestor_parent hp), hlt⟩

theorem prune_spec (ht : T.tree.IsAncestor t b) :
    ∃ failedChild set, s.prune t (some b) =
        { s with failedChild := failedChild, setBlockIndexValid := set } ∧
      (∀ a, a ∈ failedChild ↔ a ∈ s.failedChild ∨ Above T t b a) ∧
      set.Sublist s.setBlockIndexValid ∧
      ∀ a, a ∈ set ↔ a ∈ s.setBlockIndexValid ∧ ¬ Above T t b a := by
  induction hk : T.nHeight b using Nat.strong_induction_on generalizing s b with
  | h k ih =>
    rw [prune]
    split
    case isTrue heq =>
      have hnone : ∀ a, ¬ Above T t b a := by
        rintro a ⟨ha, hlt⟩
        have hle : T.nHeight a ≤ T.nHeight b := ha.height_le
        rw [heq] at hlt
        exact Nat.not_le.mpr hlt hle
      refine ⟨s.failedChild, s.setBlockIndexValid, rfl, fun a ↦ ?_, .refl _, fun a ↦ ?_⟩
      · exact (or_iff_left (hnone a)).symm
      · exact (and_iff_left (hnone a)).symm
    case isFalse hne =>
      rcases ht.eq_or_parent with heq | ⟨p, hp, htp⟩
      · exact absurd heq hne
      · have hp' : T.pprev b = some p := hp
        have hheight := T.nHeight_pprev hp'
        rw [hp']
        obtain ⟨failedChild, set, heq, hflag, hsub, hmem⟩ := ih (T.nHeight p) (by omega)
          (s := { s with failedChild := insert b s.failedChild }.erase b) htp rfl
        refine ⟨failedChild, set, heq, fun a ↦ ?_, hsub.trans List.filter_sublist, fun a ↦ ?_⟩
        · rw [hflag, above_pprev hp' hne ht, erase, Finset.mem_insert]
          tauto
        · rw [hmem, above_pprev hp' hne ht, erase, List.mem_filter, decide_eq_true_eq]
          tauto

/-- A candidate above a block that failed leaves the set, and the set gets smaller. -/
theorem prune_pruned (h : s.Inv) (hb : b ∈ s.setBlockIndexValid)
    (ht : s.invalidAncestor (some b) = some t) :
    (s.prune t (some b)).Inv ∧ Pruned s (s.prune t (some b)) ∧
      (s.prune t (some b)).setBlockIndexValid.length < s.setBlockIndexValid.length := by
  obtain ⟨hanc, hout, hfailed, -⟩ := invalidAncestor_eq_some ht
  obtain ⟨hindex, hunfailed⟩ := (h.valid b).mp hb
  obtain ⟨failedChild, set, heq, hflag, hsub, hmem⟩ := prune_spec (s := s) hanc
  rw [heq]
  have hfailed_iff : ∀ a, ({ s with failedChild := failedChild, setBlockIndexValid := set } :
      BestChain T).failed a = true ↔ s.failed a = true ∨ Above T t b a := by
    intro a
    simp only [failed, Bool.or_eq_true, decide_eq_true_eq, hflag, or_assoc]
  refine ⟨⟨h.parent, h.tip, fun a ↦ ?_, fun a ha ↦ ?_⟩,
    ⟨rfl, rfl, rfl, hsub, fun a ha ↦ ?_, fun a ha hnot ↦ ?_⟩, ?_⟩
  · rw [hmem, h.valid, ← Bool.not_eq_true, ← Bool.not_eq_true, hfailed_iff]
    tauto
  · rcases (hfailed_iff a).mp ha with hold | habove
    · exact h.known a hold
    · exact h.mem_index hindex habove.1
  · exact (hfailed_iff a).mpr (.inl ha)
  · rcases (hfailed_iff a).mp ha with hold | ⟨hab, hlt⟩
    · rw [hold] at hnot
      cases hnot
    · refine ⟨t, hanc.of_height_le hab hlt.le, hout, hfailed, fun c hc hle ↦ ?_⟩
      rcases Nat.eq_or_lt_of_le hle with hsame | hlt'
      · rw [← hanc.eq_of_height (hc.trans hab) hsame]
        exact (hfailed_iff t).mpr (.inl hfailed)
      · exact (hfailed_iff c).mpr (.inr ⟨hc.trans hab, hlt'⟩)
  · have hlt : T.nHeight t < T.nHeight b := by
      refine lt_of_le_of_ne hanc.height_le fun hsame ↦ ?_
      rw [hanc.eq_of_height (.refl b) hsame, hunfailed] at hfailed
      cases hfailed
    refine lt_of_le_of_ne hsub.length_le fun hlength ↦ ?_
    rw [← hsub.eq_of_length hlength] at hb
    exact ((hmem b).mp hb).2 ⟨.refl b, hlt⟩

/-- The search ends at the best candidate that is left, whose path is clean. -/
theorem search_spec (K : WorkKeys β) {fuel : ℕ} {r : Option β} (h : s.Inv)
    (hr : search K fuel s = some (r, s')) :
    s'.Inv ∧ Pruned s s' ∧ r = K.rbegin s'.setBlockIndexValid ∧ ∀ p, r = some p → s'.CleanPath p := by
  induction fuel generalizing s with
  | zero => cases hr
  | succ fuel ih =>
    rw [search] at hr
    split at hr
    case h_1 hnone =>
      obtain ⟨rfl, rfl⟩ := Prod.mk.inj (Option.some.inj hr)
      exact ⟨h, .refl s, hnone.symm, fun p hp ↦ by cases hp⟩
    case h_2 pindexNew hbest =>
      split at hr
      case h_1 pindexTest htest =>
        obtain ⟨hinv, hpruned, -⟩ := prune_pruned h (List.argmax_mem hbest) htest
        obtain ⟨hinv', hpruned', hrest⟩ := ih hinv hr
        exact ⟨hinv', hpruned.trans hpruned', hrest⟩
      case h_2 hclean =>
        obtain ⟨rfl, rfl⟩ := Prod.mk.inj (Option.some.inj hr)
        refine ⟨h, .refl s, hbest.symm, fun p hp ↦ ?_⟩
        obtain rfl := Option.some.inj hp
        exact invalidAncestor_eq_none hclean

theorem search_isSome (K : WorkKeys β) {fuel : ℕ} (h : s.Inv)
    (hfuel : s.setBlockIndexValid.length < fuel) : ∃ r, search K fuel s = some r := by
  induction fuel generalizing s with
  | zero => exact absurd hfuel (Nat.not_lt_zero _)
  | succ fuel ih =>
    rw [search]
    split
    case h_1 => exact ⟨_, rfl⟩
    case h_2 pindexNew hbest =>
      split
      case h_1 pindexTest htest =>
        obtain ⟨hinv, -, hlt⟩ := prune_pruned h (List.argmax_mem hbest) htest
        exact ih hinv (by omega)
      case h_2 => exact ⟨_, rfl⟩

/-! ### One turn of the outer loop -/

/-- The most-work chain is the best candidate, over a clean path, or there is no candidate. -/
def Best (K : WorkKeys β) (s : BestChain T) : Prop :=
  s.chainMostWork.tip = K.rbegin s.setBlockIndexValid ∧
    ∀ p, K.rbegin s.setBlockIndexValid = some p → s.CleanPath p

omit [DecidableEq β] in
theorem mem_of_rbegin {K : WorkKeys β} {set : List β} (h : K.rbegin set = some p) : p ∈ set :=
  List.argmax_mem h

/-- `FindMostWorkChain` finds the best candidate. It keeps a chain only that it has just marked. -/
theorem findMostWorkChain_spec (K : WorkKeys β) {fuel : ℕ} (h : s.Inv)
    (hs' : s.findMostWorkChain K fuel = some s') :
    s'.Inv ∧ s'.chainActive = s.chainActive ∧
      s'.setBlockIndexValid.Sublist s.setBlockIndexValid ∧
      (s'.Best K ∨ ∃ m, s.dropFailed.chainMostWork.tip = some m ∧ s.failed m = false ∧
        s'.failed m = true ∧ Pruned s.dropFailed s') := by
  obtain ⟨C, hdrop, hinv, hC⟩ := dropFailed_spec h
  rw [findMostWorkChain, Option.bind_eq_bind, Option.bind_eq_some_iff] at hs'
  obtain ⟨⟨r, s₁⟩, hsearch, hs'⟩ := hs'
  obtain ⟨hinv₁, hpruned, hr, hclean⟩ := search_spec K hinv hsearch
  have hactive : s₁.chainActive = s.chainActive := by rw [hpruned.chainActive, hdrop]
  have hset : s₁.setBlockIndexValid.Sublist s.setBlockIndexValid := by
    have hsub := hpruned.set
    rwa [hdrop] at hsub
  -- a chain that is kept and not in the set was marked by this search
  have hkept : ∀ m, s₁.chainMostWork.tip = some m → m ∉ s₁.setBlockIndexValid →
      ∃ m, s.dropFailed.chainMostWork.tip = some m ∧ s.failed m = false ∧ s₁.failed m = true ∧
        Pruned s.dropFailed s₁ := by
    intro m hm hnot
    have htip := hm
    rw [hpruned.chainMostWork] at htip
    refine ⟨m, htip, ?_, ?_, hpruned⟩
    · rw [hdrop] at htip
      exact (hC m htip).1
    · by_contra hunfailed
      exact hnot ((hinv₁.valid m).mpr ⟨hinv₁.tip m hm, Bool.eq_false_of_not_eq_true hunfailed⟩)
  -- the chain moves to the best candidate
  have hmoved : ∀ p, r = some p →
      some { s₁ with chainMostWork := (s₁.chainMostWork.setTip (some p)).1 } = some s' →
      s'.Inv ∧ s'.chainActive = s.chainActive ∧
        s'.setBlockIndexValid.Sublist s.setBlockIndexValid ∧ s'.Best K := by
    rintro p rfl heq
    obtain rfl := Option.some.inj heq
    have hmem := mem_of_rbegin hr.symm
    refine ⟨⟨hinv₁.parent, fun b hb ↦ ?_, hinv₁.valid, hinv₁.known⟩, hactive, hset, ?_, fun b hb ↦ ?_⟩
    · obtain rfl := Option.some.inj ((CChain.tip_setTip _ _).symm.trans hb)
      exact ((hinv₁.valid p).mp hmem).1
    · exact (CChain.tip_setTip _ _).trans hr
    · exact hclean b (hr.trans hb)
  dsimp only at hs'
  split at hs'
  case h_1 =>
    obtain rfl := Option.some.inj hs'
    refine ⟨hinv₁, hactive, hset, ?_⟩
    have hnil := List.argmax_eq_none.mp hr.symm
    cases htip : s₁.chainMostWork.tip with
    | none =>
      refine .inl ⟨htip.trans hr, fun p hp ↦ ?_⟩
      rw [← hr] at hp
      cases hp
    | some m =>
      refine .inr (hkept m htip ?_)
      rw [hnil]
      exact List.not_mem_nil
  case h_2 p =>
    split at hs'
    case h_1 =>
      obtain ⟨hinv', hactive', hset', hbest⟩ := hmoved p rfl hs'
      exact ⟨hinv', hactive', hset', .inl hbest⟩
    case h_2 tip htip =>
      split at hs'
      case isTrue hless =>
        obtain rfl := Option.some.inj hs'
        refine ⟨hinv₁, hactive, hset, ?_⟩
        by_cases hmem : tip ∈ s₁.setBlockIndexValid
        · -- it is the best candidate itself
          have hle : K.key tip ≤ K.key p := List.le_of_mem_argmax hmem hr.symm
          rw [Bool.not_eq_true', ← Bool.not_eq_true, K.less_iff, not_lt] at hless
          obtain rfl := K.key_injective (le_antisymm hle hless)
          exact .inl ⟨htip.trans hr, fun b hb ↦ hclean b (hr.trans hb)⟩
        · exact .inr (hkept tip htip hmem)
      case isFalse =>
        obtain ⟨hinv', hactive', hset', hbest⟩ := hmoved p rfl hs'
        exact ⟨hinv', hactive', hset', .inl hbest⟩

theorem findMostWorkChain_isSome (K : WorkKeys β) {fuel : ℕ} (h : s.Inv)
    (hfuel : s.setBlockIndexValid.length < fuel) : ∃ s', s.findMostWorkChain K fuel = some s' := by
  obtain ⟨C, hdrop, hinv, -⟩ := dropFailed_spec h
  have hlength : s.dropFailed.setBlockIndexValid.length < fuel := by rwa [hdrop]
  obtain ⟨⟨r, s₁⟩, hr⟩ := search_isSome K hinv hlength
  rw [findMostWorkChain, hr, Option.bind_eq_bind, Option.bind_some]
  dsimp only
  split
  · exact ⟨_, rfl⟩
  · split
    · exact ⟨_, rfl⟩
    · split
      · exact ⟨_, rfl⟩
      · exact ⟨_, rfl⟩

/-- Disconnecting stops at the fork with the most-work chain. -/
theorem disconnectTips_spec (hm : s.chainMostWork.tip = some m) :
    ∃ C, s.disconnectTips = { s with chainActive := C } ∧
      (∀ t, C.tip = some t → T.tree.IsAncestor t m) ∧
      ∀ a, T.tree.IsAncestor a m → s.chainActive.contains a = true → C.contains a = true := by
  induction hk : s.chainActive.tip.elim 0 (T.nHeight · + 1) using Nat.strong_induction_on
    generalizing s with
  | h k ih =>
    rw [disconnectTips]
    split
    case h_1 hnone =>
      refine ⟨s.chainActive, rfl, fun t ht ↦ ?_, fun a _ h ↦ h⟩
      rw [hnone] at ht
      cases ht
    case h_2 tip htip =>
      split
      case isTrue hin =>
        refine ⟨s.chainActive, rfl, fun t ht ↦ ?_, fun a _ h ↦ h⟩
        obtain rfl := Option.some.inj (htip.symm.trans ht)
        obtain ⟨m', hm', hanc⟩ := CChain.contains_iff _ |>.mp hin
        obtain rfl := Option.some.inj (hm.symm.trans hm')
        exact hanc
      case isFalse hout =>
        let next : BestChain T := { s with chainActive := (s.chainActive.setTip (T.pprev tip)).1 }
        have htip' : next.chainActive.tip = T.pprev tip := CChain.tip_setTip _ _
        have hlt : next.chainActive.tip.elim 0 (T.nHeight · + 1) < k := by
          rw [htip', ← hk, htip]
          exact T.elim_pprev_lt tip
        obtain ⟨C, hC, hbelow, hkeep⟩ := ih _ hlt (s := next) hm rfl
        refine ⟨C, hC, hbelow, fun a ha hin ↦ hkeep a ha ?_⟩
        obtain ⟨t, ht, hanc⟩ := CChain.contains_iff _ |>.mp hin
        obtain rfl := Option.some.inj (htip.symm.trans ht)
        rcases hanc.eq_or_parent with rfl | ⟨p, hp, hanc⟩
        · exact absurd (CChain.contains_iff _ |>.mpr ⟨m, hm, ha⟩) hout
        · exact CChain.contains_iff _ |>.mpr ⟨p, htip'.trans hp, hanc⟩

/-- The block of the most-work chain after the active tip. -/
theorem exists_next (hm : s.chainMostWork.tip = some m)
    (hbelow : ∀ t, s.chainActive.tip = some t → T.tree.IsAncestor t m)
    (hout : s.chainActive.contains m = false) :
    ∃ b, s.chainMostWork.entryAt (s.chainActive.height + 1) = some b ∧ T.tree.IsAncestor b m ∧
      T.pprev b = s.chainActive.tip := by
  have hcast : s.chainActive.height + 1 = (s.chainActive.vChain.length : ℤ) := by
    rw [CChain.height]
    omega
  rw [hcast, CChain.entryAt_natCast, hm, s.chainActive.eq_branch_tip]
  cases htip : s.chainActive.tip with
  | none =>
    have hroot : T.tree.IsAncestor T.genesis m := T.tree.isAncestor_root m
    refine ⟨T.genesis, T.entry_eq_some_iff.mpr ⟨hroot, T.nHeight_genesis⟩, hroot, ?_⟩
    exact T.tree.parent_eq_none_iff.mpr T.nHeight_genesis
  | some t =>
    have htm := hbelow t htip
    have hlt : T.nHeight t < T.nHeight m := by
      refine lt_of_le_of_ne htm.height_le fun hsame ↦ ?_
      rw [htm.eq_of_height (.refl m) hsame] at htip
      rw [CChain.contains_iff _ |>.mpr ⟨m, htip, .refl m⟩] at hout
      cases hout
    have hlength : (T.branch (some t)).length = T.nHeight t + 1 := by
      rw [BlockTree.branch, List.length_map, List.length_range]
    have hanc := T.tree.isAncestor_ancestorAt m (T.nHeight t + 1)
    have hheight : T.nHeight (T.tree.ancestorAt m (T.nHeight t + 1)) = T.nHeight t + 1 :=
      T.tree.height_ancestorAt hlt
    refine ⟨_, ?_, hanc, ?_⟩
    · rw [hlength]
      exact T.entry_eq_some_iff.mpr ⟨hanc, hheight⟩
    · cases hp : T.pprev (T.tree.ancestorAt m (T.nHeight t + 1)) with
      | none =>
        have hzero : T.nHeight _ = 0 := T.tree.parent_eq_none_iff.mp hp
        omega
      | some p =>
        have hp' := T.nHeight_pprev hp
        have hpm := (ParentTree.isAncestor_parent hp).trans hanc
        have hsame : T.nHeight p = T.nHeight t := by omega
        exact congrArg some (hpm.eq_of_height htm hsame)

/-- How the loop that connects blocks ends: at the tip of the most-work chain, or at the first
block that does not connect. -/
theorem connectTips_spec (outcome : β → ConnectOutcome) (hm : s.chainMostWork.tip = some m)
    (hbelow : ∀ t, s.chainActive.tip = some t → T.tree.IsAncestor t m) :
    ∃ C r s', s.connectTips outcome = some (r, s') ∧
      (∀ t, C.tip = some t → T.tree.IsAncestor t m) ∧
      (∀ a, s.chainActive.contains a = true → C.contains a = true) ∧
      match r with
      | .complete => s' = { s with chainActive := C } ∧ C.tip = some m
      | .error => s' = { s with chainActive := C }
      | .invalid => ∃ b corruptionPossible, outcome b = .invalid corruptionPossible ∧
          T.tree.IsAncestor b m ∧ T.pprev b = C.tip ∧
          s' = ({ s with chainActive := C } : BestChain T).invalidBlockFound b
            corruptionPossible := by
  induction hk : s.chainMostWork.vChain.length - s.chainActive.vChain.length using
    Nat.strong_induction_on generalizing s with
  | h k ih =>
    rw [connectTips]
    split
    case h_1 hnone =>
      rw [hm] at hnone
      cases hnone
    case h_2 tip htip =>
      obtain rfl := Option.some.inj (hm.symm.trans htip)
      split
      case isTrue hin =>
        refine ⟨s.chainActive, .complete, s, rfl, hbelow, fun a h ↦ h, rfl, ?_⟩
        obtain ⟨t, ht, hanc⟩ := CChain.contains_iff _ |>.mp hin
        have hsame : T.nHeight t = T.nHeight m :=
          Nat.le_antisymm (hbelow t ht).height_le hanc.height_le
        rw [ht, (hbelow t ht).eq_of_height (.refl m) hsame]
      case isFalse hout =>
        obtain ⟨b, hb, hanc, hparent⟩ := exists_next hm hbelow (Bool.eq_false_of_not_eq_true hout)
        split
        case h_1 hnone =>
          rw [hb] at hnone
          cases hnone
        case h_2 pindexConnect hnext =>
          obtain rfl := Option.some.inj (hb.symm.trans hnext)
          rw [if_neg (not_not.mpr hparent)]
          cases houtcome : outcome b with
          | success =>
            let next : BestChain T :=
              { s with chainActive := (s.chainActive.setTip (some b)).1 }
            have htip' : next.chainActive.tip = some b := CChain.tip_setTip _ _
            obtain ⟨hlt, hheight⟩ := CChain.lt_of_entryAt_next hnext
            have hmeasure :
                next.chainMostWork.vChain.length - next.chainActive.vChain.length < k := by
              have hlength : next.chainActive.vChain.length = T.nHeight b + 1 :=
                CChain.length_setTip _ _
              rw [← hk, hlength, hheight]
              change s.chainMostWork.vChain.length - _ < _
              omega
            have hbelow' : ∀ t, next.chainActive.tip = some t → T.tree.IsAncestor t m := by
              intro t ht
              obtain rfl := Option.some.inj (htip'.symm.trans ht)
              exact hanc
            have hkeep : ∀ a, s.chainActive.contains a = true →
                next.chainActive.contains a = true := by
              intro a hin
              obtain ⟨t, ht, hat⟩ := CChain.contains_iff _ |>.mp hin
              exact CChain.contains_iff _ |>.mpr
                ⟨b, htip', hat.trans (ParentTree.isAncestor_parent (hparent.trans ht))⟩
            obtain ⟨C, r, s', hrun, hC, hkeep', hend⟩ := ih _ hmeasure (s := next) hm hbelow' rfl
            exact ⟨C, r, s', hrun, hC, fun a h ↦ hkeep' a (hkeep a h), hend⟩
          | invalid corruptionPossible =>
            exact ⟨s.chainActive, .invalid, _, rfl, hbelow, fun a h ↦ h, b, corruptionPossible,
              houtcome, hanc, hparent, rfl⟩
          | error => exact ⟨s.chainActive, .error, s, rfl, hbelow, fun a h ↦ h, rfl⟩

theorem disconnectTips_of_below (hm : s.chainMostWork.tip = some m)
    (hbelow : ∀ t, s.chainActive.tip = some t → T.tree.IsAncestor t m) : s.disconnectTips = s := by
  rw [disconnectTips]
  split
  case h_1 => rfl
  case h_2 tip htip => exact if_pos (CChain.contains_iff _ |>.mpr ⟨m, hm, hbelow tip htip⟩)

theorem failed_invalidBlockFound (a : β) :
    (s.invalidBlockFound b false).failed a = true ↔ s.failed a = true ∨ a = b := by
  simp only [invalidBlockFound, erase, failed, Bool.not_false, if_true, Bool.or_eq_true,
    decide_eq_true_eq, Finset.mem_insert]
  tauto

theorem Inv.invalidBlockFound (h : s.Inv) (hb : b ∈ s.mapBlockIndex) :
    (s.invalidBlockFound b false).Inv := by
  refine ⟨h.parent, h.tip, fun a ↦ ?_, fun a ha ↦ ?_⟩
  swap
  · rcases (failed_invalidBlockFound a).mp ha with hold | rfl
    · exact h.known a hold
    · exact hb
  rw [← Bool.not_eq_true, failed_invalidBlockFound]
  have hset : a ∈ (s.invalidBlockFound b false).setBlockIndexValid ↔
      a ∈ s.setBlockIndexValid ∧ a ≠ b := by
    change a ∈ s.setBlockIndexValid.filter (· ≠ b) ↔ _
    rw [List.mem_filter, decide_eq_true_eq]
  have hindex : (s.invalidBlockFound b false).mapBlockIndex = s.mapBlockIndex := rfl
  rw [hset, hindex, h.valid, ← Bool.not_eq_true]
  tauto

theorem not_contains_of_pprev {C : CChain T} (hp : T.pprev b = C.tip) : C.contains b = false := by
  by_contra hin
  obtain ⟨t, ht, hanc⟩ := C.contains_iff.mp (eq_true_of_ne_false hin)
  have hheight := T.nHeight_pprev (hp.trans ht)
  have hle : T.nHeight b ≤ T.nHeight t := hanc.height_le
  omega

/-- Where all of a chain is marked down to the block after the active tip, the first loop goes back
into the active chain. -/
theorem ready_of_failed (h : s.Inv) (hm : s.chainMostWork.tip = some m)
    (hb : T.tree.IsAncestor b m) (hp : T.pprev b = s.chainActive.tip)
    (hfailed : ∀ a, T.tree.IsAncestor a m → T.nHeight b ≤ T.nHeight a → s.failed a = true) :
    s.Ready := by
  intro d hd
  obtain ⟨C, hdrop, -, hC⟩ := dropFailed_spec h
  rw [hdrop] at hd
  obtain ⟨hunfailed, m', hm', hdm⟩ := hC d hd
  obtain rfl := Option.some.inj (hm.symm.trans hm')
  have hlt : T.nHeight d < T.nHeight b := by
    by_contra hle
    rw [hfailed d hdm (not_lt.mp hle)] at hunfailed
    cases hunfailed
  intro a ha hout
  rcases (hdm.of_height_le hb hlt.le).eq_or_parent with heq | ⟨p, hparent, hdp⟩
  · rw [heq] at hlt
    exact absurd hlt (lt_irrefl _)
  · have hin : s.chainActive.contains a = true :=
      CChain.contains_iff _ |>.mpr ⟨p, hp.symm.trans hparent, ha.trans hdp⟩
    rw [hin] at hout
    cases hout

/-- A call that returns leaves the invariant, and a clean path to the best candidate. -/
structure Final (K : WorkKeys β) (s : BestChain T) : Prop where
  inv : s.Inv
  ready : s.Ready
  best : ∀ p, K.rbegin s.setBlockIndexValid = some p → s.CleanPath p

/-- A turn after which the loop comes round, with fewer candidates unless a block may only be
corrupt. -/
def Again (outcome : β → ConnectOutcome) (s s' : BestChain T) : Prop :=
  s'.LoopHead outcome ∧ ((∀ b, outcome b ≠ .invalid true) →
    s'.setBlockIndexValid.length < s.setBlockIndexValid.length)

/-- A turn with the best candidate. -/
theorem turn_best (K : WorkKeys β) {outcome : β → ConnectOutcome} (h : s.Inv) (hbest : s.Best K)
    (hm : s.chainMostWork.tip = some m) :
    ∃ r s', s.disconnectTips.connectTips outcome = some (r, s') ∧
      match r with
      | .complete | .error => s'.Final K
      | .invalid => s.Again outcome s' := by
  obtain ⟨htip, hclean⟩ := hbest
  obtain ⟨C₀, hdisconnect, hbelow, hkeep₀⟩ := disconnectTips_spec hm
  obtain ⟨C, r, s', hrun, -, hkeep, hend⟩ :=
    connectTips_spec outcome (s := { s with chainActive := C₀ }) hm hbelow
  have hmem : m ∈ s.setBlockIndexValid := mem_of_rbegin (htip.symm.trans hm)
  obtain ⟨hindex, hunfailed⟩ := (h.valid m).mp hmem
  let moved : BestChain T := { s with chainActive := C }
  have hinv : moved.Inv := ⟨h.parent, h.tip, h.valid, h.known⟩
  have hpath : ∀ a, T.tree.IsAncestor a m → C.contains a = false → s.failed a = false := by
    intro a ha hout
    refine hclean m (htip.symm.trans hm) a ha ?_
    by_contra hin
    rw [hkeep a (hkeep₀ a ha (eq_true_of_ne_false hin))] at hout
    cases hout
  have hready : moved.Ready := by
    have hsame : moved.dropFailed = moved := dropFailed_of_unfailed hm hunfailed
    intro b hb
    rw [hsame] at hb
    obtain rfl := Option.some.inj (hm.symm.trans hb)
    exact hpath
  have hfinal : moved.Final K := by
    refine ⟨hinv, hready, fun p hp ↦ ?_⟩
    obtain rfl := Option.some.inj (hm.symm.trans (htip.trans hp))
    exact hpath
  refine ⟨r, s', by rw [hdisconnect, hrun], ?_⟩
  cases r with
  | complete =>
    obtain ⟨rfl, -⟩ := hend
    exact hfinal
  | error =>
    obtain rfl := hend
    exact hfinal
  | invalid =>
    obtain ⟨b, corruptionPossible, houtcome, hanc, hparent, rfl⟩ := hend
    cases corruptionPossible with
    | true => exact ⟨⟨hinv, .inl hready⟩, fun hnone ↦ absurd houtcome (hnone b)⟩
    | false =>
      have hb : s.failed b = false := hpath b hanc (not_contains_of_pprev hparent)
      have hinv' := hinv.invalidBlockFound (h.mem_index hindex hanc)
      refine ⟨⟨hinv', ?_⟩, fun _ ↦ ?_⟩
      · by_cases hbm : b = m
        · left
          refine ready_of_failed hinv' (b := b) hm hanc hparent fun a ha hle ↦ ?_
          have hsame : T.nHeight a = T.nHeight b :=
            Nat.le_antisymm (hbm ▸ ha.height_le) hle
          exact (failed_invalidBlockFound a).mpr (.inr (ha.eq_of_height hanc hsame))
        · right
          have hstays : ∀ a, a ≠ b → s.failed a = false →
              (moved.invalidBlockFound b false).failed a = false := by
            intro a hne ha
            rw [← Bool.not_eq_true, failed_invalidBlockFound, not_or]
            exact ⟨ne_true_of_eq_false ha, hne⟩
          refine ⟨m, b, hm, hstays m (Ne.symm hbm) hunfailed, hanc,
            (failed_invalidBlockFound b).mpr (.inr rfl), hparent, houtcome, fun a ha hlt ↦ ?_⟩
          refine hstays a (fun heq ↦ absurd hlt (by rw [heq]; exact lt_irrefl _)) (hpath a ha ?_)
          -- it is above the active tip
          by_contra hin
          have hba := hanc.of_height_le ha hlt.le
          have hin' := contains_of_isAncestor (eq_true_of_ne_false hin) hba
          rw [not_contains_of_pprev hparent] at hin'
          cases hin'
      · have hset : b ∈ s.setBlockIndexValid := (h.valid b).mpr ⟨h.mem_index hindex hanc, hb⟩
        change (s.setBlockIndexValid.filter (· ≠ b)).length < _
        exact List.length_filter_lt_length_iff_exists.mpr ⟨b, hset, by simp⟩

omit [DecidableEq β] in
theorem eq_of_pprev_eq {b' : β} (hb : T.tree.IsAncestor b m) (hb' : T.tree.IsAncestor b' m)
    (h : T.pprev b' = T.pprev b) : b' = b := by
  refine hb'.eq_of_height hb ?_
  cases hp : T.pprev b with
  | none =>
    have hzero : T.nHeight b = 0 := T.tree.parent_eq_none_iff.mp hp
    have hzero' : T.nHeight b' = 0 := T.tree.parent_eq_none_iff.mp (h.trans hp)
    exact hzero'.trans hzero.symm
  | some t => exact (T.nHeight_pprev (h.trans hp)).trans (T.nHeight_pprev hp).symm

/-- Connecting starts with the block of the most-work chain after the active tip. -/
theorem connectTips_of_invalid {outcome : β → ConnectOutcome} {corruptionPossible : Bool}
    (hm : s.chainMostWork.tip = some m) (hb : T.tree.IsAncestor b m)
    (hp : T.pprev b = s.chainActive.tip) (houtcome : outcome b = .invalid corruptionPossible) :
    s.disconnectTips.connectTips outcome =
      some (.invalid, s.invalidBlockFound b corruptionPossible) := by
  have hbelow : ∀ t, s.chainActive.tip = some t → T.tree.IsAncestor t m := fun t ht ↦
    (ParentTree.isAncestor_parent (hp.trans ht)).trans hb
  have hout : s.chainActive.contains m = false := by
    by_contra hin
    have hin' := contains_of_isAncestor (eq_true_of_ne_false hin) hb
    rw [not_contains_of_pprev hp] at hin'
    cases hin'
  obtain ⟨b', hnext, hanc', hparent'⟩ := exists_next hm hbelow hout
  obtain rfl := eq_of_pprev_eq hb hanc' (hparent'.trans hp.symm)
  rw [disconnectTips_of_below hm hbelow, connectTips]
  split
  case h_1 hnone =>
    rw [hm] at hnone
    cases hnone
  case h_2 tip htip =>
    obtain rfl := Option.some.inj (hm.symm.trans htip)
    rw [hout, if_neg Bool.false_ne_true]
    split
    case h_1 hnone =>
      rw [hnext] at hnone
      cases hnone
    case h_2 pindexConnect hnext' =>
      obtain rfl := Option.some.inj (hnext.symm.trans hnext')
      rw [if_neg (not_not.mpr hp), houtcome]

/-- A turn with a chain that the search has just marked: it fails where it failed before. -/
theorem turn_stuck {outcome : β → ConnectOutcome} (h : s.Inv) {s₁ : BestChain T}
    (hinv₁ : s₁.Inv) (hstuck : s.Stuck outcome m b) (hpruned : Pruned s s₁)
    (hm : s₁.failed m = true) :
    ∃ s', s₁.disconnectTips.connectTips outcome = some (.invalid, s') ∧ s.Again outcome s' := by
  have htip : s₁.chainMostWork.tip = some m := by rw [hpruned.chainMostWork, hstuck.tip]
  have hparent : T.pprev b = s₁.chainActive.tip := by rw [hpruned.chainActive, hstuck.pprev]
  -- the search marked the chain all the way down to the block
  have hfailed : ∀ a, T.tree.IsAncestor a m → T.nHeight b ≤ T.nHeight a → s₁.failed a = true := by
    obtain ⟨a₀, ha₀, -, hfailed₀, hbetween⟩ := hpruned.origin m hm hstuck.unfailed
    intro a ha hle
    refine hbetween a ha (le_trans ?_ hle)
    by_contra hlt
    rw [hstuck.above a₀ ha₀ (not_le.mp hlt)] at hfailed₀
    cases hfailed₀
  have hinv' := hinv₁.invalidBlockFound
    (hinv₁.mem_index (hinv₁.tip m htip) hstuck.isAncestor)
  refine ⟨s₁.invalidBlockFound b false, ?_, ⟨hinv', .inl ?_⟩, fun _ ↦ ?_⟩
  · exact connectTips_of_invalid htip hstuck.isAncestor hparent hstuck.outcome
  · refine ready_of_failed hinv' (b := b) htip hstuck.isAncestor hparent fun a ha hle ↦ ?_
    exact (failed_invalidBlockFound a).mpr (.inl (hfailed a ha hle))
  · have hmem : m ∈ s.setBlockIndexValid :=
      (h.valid m).mpr ⟨h.tip m hstuck.tip, hstuck.unfailed⟩
    have hgone : m ∉ s₁.setBlockIndexValid := by
      intro hin
      rw [((hinv₁.valid m).mp hin).2] at hm
      cases hm
    refine lt_of_le_of_lt (List.length_filter_le _ _) (lt_of_le_of_ne hpruned.set.length_le ?_)
    intro hlength
    rw [hpruned.set.eq_of_length hlength] at hgone
    exact hgone hmem

/-- One turn of the outer loop. -/
theorem turn_spec (K : WorkKeys β) {outcome : β → ConnectOutcome} {fuel : ℕ} {s₁ : BestChain T}
    (h : s.LoopHead outcome) (hfind : s.findMostWorkChain K fuel = some s₁) :
    (s₁.chainMostWork.tip = none ∧ s₁.Final K) ∨
      s₁.chainMostWork.tip ≠ none ∧ ∃ r s', s₁.disconnectTips.connectTips outcome = some (r, s') ∧
        match r with
        | .complete | .error => s'.Final K
        | .invalid => s.Again outcome s' := by
  obtain ⟨hinv₁, hactive, hset, hfound⟩ := findMostWorkChain_spec K h.inv hfind
  rcases hfound with hbest | ⟨m, hm, hunfailed, hfailed, hpruned⟩
  · cases htip : s₁.chainMostWork.tip with
    | none =>
      obtain ⟨C, hdrop, -, hC⟩ := dropFailed_spec hinv₁
      refine .inl ⟨rfl, hinv₁, fun b hb ↦ ?_, hbest.2⟩
      rw [hdrop] at hb
      obtain ⟨-, m, hm, -⟩ := hC b hb
      rw [htip] at hm
      cases hm
    | some m =>
      obtain ⟨r, s', hrun, hend⟩ := @turn_best _ _ _ _ _ _ K outcome hinv₁ hbest htip
      refine .inr ⟨Option.some_ne_none m, r, s', hrun, ?_⟩
      cases r with
      | complete => exact hend
      | error => exact hend
      | invalid =>
        exact ⟨hend.1, fun hnone ↦ lt_of_lt_of_le (hend.2 hnone) hset.length_le⟩
  · have hclean_false : ¬ s.CleanPath m := by
      intro hclean
      have hclean' : s.dropFailed.CleanPath m := by
        obtain ⟨C, hdrop, -, -⟩ := dropFailed_spec h.inv
        rw [hdrop]
        exact hclean
      have hunfailed' : s.dropFailed.failed m = false := by
        obtain ⟨C, hdrop, -, -⟩ := dropFailed_spec h.inv
        rw [hdrop]
        exact hunfailed
      obtain ⟨a, ha, hout, hfailed', -⟩ := hpruned.origin m hfailed hunfailed'
      rw [hclean' a ha hout] at hfailed'
      cases hfailed'
    rcases h.chain with hready | ⟨m', b, hstuck⟩
    · exact absurd (hready m hm) hclean_false
    · rw [dropFailed_of_unfailed hstuck.tip hstuck.unfailed] at hm hpruned
      obtain rfl := Option.some.inj (hstuck.tip.symm.trans hm)
      obtain ⟨s', hrun, hagain⟩ := turn_stuck h.inv hinv₁ hstuck hpruned hfailed
      refine .inr ⟨?_, .invalid, s', hrun, hagain⟩
      rw [hpruned.chainMostWork, hm]
      exact Option.some_ne_none _

/-! ### Whole calls -/

theorem activateBestChain_final (K : WorkKeys β) {outcome : β → ConnectOutcome} {fuel : ℕ}
    {ok : Bool} (h : s.LoopHead outcome)
    (hrun : s.activateBestChain K outcome fuel = some (ok, s')) : s'.Final K := by
  induction fuel generalizing s with
  | zero => cases hrun
  | succ fuel ih =>
    rw [activateBestChain, Option.bind_eq_bind, Option.bind_eq_some_iff] at hrun
    obtain ⟨s₁, hfind, hrun⟩ := hrun
    rcases turn_spec K h hfind with ⟨htip, hfinal⟩ | ⟨htip, r, s₂, hconnect, hend⟩
    · rw [if_pos htip] at hrun
      obtain ⟨-, rfl⟩ := Prod.mk.inj (Option.some.inj hrun)
      exact hfinal
    · rw [if_neg htip, hconnect] at hrun
      cases r with
      | complete =>
        obtain ⟨-, rfl⟩ := Prod.mk.inj (Option.some.inj hrun)
        exact hend
      | error =>
        obtain ⟨-, rfl⟩ := Prod.mk.inj (Option.some.inj hrun)
        exact hend
      | invalid => exact ih hend.1 hrun

/-- Each turn that is not the last takes a candidate out of the set. -/
theorem activateBestChain_isSome (K : WorkKeys β) {outcome : β → ConnectOutcome}
    (hnone : ∀ b, outcome b ≠ .invalid true) {fuel : ℕ} (h : s.LoopHead outcome)
    (hfuel : s.setBlockIndexValid.length + 1 < fuel) :
    ∃ r, s.activateBestChain K outcome fuel = some r := by
  induction fuel generalizing s with
  | zero => exact absurd hfuel (Nat.not_lt_zero _)
  | succ fuel ih =>
    have hfuel' : s.setBlockIndexValid.length < fuel := by omega
    obtain ⟨s₁, hfind⟩ := findMostWorkChain_isSome K h.inv hfuel'
    rw [activateBestChain, hfind]
    rcases turn_spec K h hfind with ⟨htip, -⟩ | ⟨htip, r, s₂, hconnect, hend⟩
    · exact ⟨_, if_pos htip⟩
    · rw [Option.bind_eq_bind, Option.bind_some, if_neg htip, hconnect]
      cases r with
      | complete => exact ⟨_, rfl⟩
      | error => exact ⟨_, rfl⟩
      | invalid =>
        have hlt := hend.2 hnone
        exact ih hend.1 (by omega)

/-! ### Runs of the program -/

theorem chainMostWork_dropFailed (hvalid : s'.failedValid = s.failedValid)
    (hchild : s'.failedChild = s.failedChild) (hchain : s'.chainMostWork = s.chainMostWork) :
    s'.dropFailed.chainMostWork = s.dropFailed.chainMostWork := by
  induction hk : s.chainMostWork.tip.elim 0 (T.nHeight · + 1) using Nat.strong_induction_on
    generalizing s s' with
  | h k ih =>
    have hfailed : ∀ b, s'.failed b = s.failed b := by
      intro b
      rw [failed, failed, hvalid, hchild]
    cases htip : s.chainMostWork.tip with
    | none => rw [dropFailed_of_none htip, dropFailed_of_none (hchain ▸ htip), hchain]
    | some tip =>
      have htip' : s'.chainMostWork.tip = some tip := hchain ▸ htip
      cases hb : s.failed tip with
      | false =>
        rw [dropFailed_of_unfailed htip hb, dropFailed_of_unfailed htip' ((hfailed tip).trans hb),
          hchain]
      | true =>
        rw [dropFailed_of_failed htip hb, dropFailed_of_failed htip' ((hfailed tip).trans hb)]
        refine ih _ ?_ hvalid hchild (by rw [hchain]) rfl
        rw [CChain.tip_setTip, ← hk, htip]
        exact T.elim_pprev_lt tip

/-- Between the calls: the invariant, and a chain that was found before is still good. -/
theorem Reachable.inv (h : Reachable s) : s.Inv ∧ s.Ready := by
  induction h with
  | load mapBlockIndex failedValid failedChild bestBlock hparent hflags =>
    have hinv : (loadBlockIndexDB T mapBlockIndex failedValid failedChild bestBlock).Inv := by
      refine ⟨hparent, fun b hb ↦ ?_, fun b ↦ ?_, fun b hb ↦ hflags b ?_⟩
      · cases hb
      · change b ∈ mapBlockIndex.filter _ ↔ _
        rw [List.mem_filter, Bool.not_eq_true']
        rfl
      · simpa [failed, loadBlockIndexDB] using hb
    refine ⟨hinv, fun b hb ↦ ?_⟩
    obtain ⟨C, hdrop, -, hC⟩ := dropFailed_spec hinv
    rw [hdrop] at hb
    obtain ⟨-, m, hm, -⟩ := hC b hb
    cases hm
  | @add s hs pindexNew hnew hparent ih =>
    obtain ⟨hinv, hready⟩ := ih
    refine ⟨⟨fun b hb p hp ↦ ?_, fun b hb ↦ ?_, fun b ↦ ?_, fun b hb ↦ ?_⟩, fun b hb ↦ ?_⟩
    · rcases List.mem_cons.mp hb with rfl | hb
      · exact List.mem_cons_of_mem _ (hparent p hp)
      · exact List.mem_cons_of_mem _ (hinv.parent b hb p hp)
    · exact List.mem_cons_of_mem _ (hinv.tip b hb)
    · have hunfailed : s.failed pindexNew = false := by
        by_contra hfailed
        exact hnew (hinv.known pindexNew (eq_true_of_ne_false hfailed))
      have hsame : (s.addToBlockIndex pindexNew).failed b = s.failed b := rfl
      rw [hsame]
      change b ∈ pindexNew :: s.setBlockIndexValid ↔ b ∈ pindexNew :: s.mapBlockIndex ∧ _
      rw [List.mem_cons, List.mem_cons, hinv.valid]
      constructor
      · rintro (rfl | ⟨hb, hb'⟩)
        · exact ⟨.inl rfl, hunfailed⟩
        · exact ⟨.inr hb, hb'⟩
      · rintro ⟨rfl | hb, hb'⟩
        · exact .inl rfl
        · exact .inr ⟨hb, hb'⟩
    · exact List.mem_cons_of_mem _ (hinv.known b hb)
    · have hsame : (s.addToBlockIndex pindexNew).dropFailed.chainMostWork =
          s.dropFailed.chainMostWork := chainMostWork_dropFailed rfl rfl rfl
      rw [hsame] at hb
      exact hready b hb
  | activate hs K outcome h ih =>
    have hfinal := activateBestChain_final K ⟨ih.1, .inl ih.2⟩ h
    exact ⟨hfinal.inv, hfinal.ready⟩

theorem search_succ (K : WorkKeys β) {fuel : ℕ} {r : Option β × BestChain T}
    (h : search K fuel s = some r) : search K (fuel + 1) s = some r := by
  induction fuel generalizing s with
  | zero => cases h
  | succ fuel ih =>
    rw [search] at h ⊢
    cases hbest : K.rbegin s.setBlockIndexValid with
    | none =>
      rw [hbest] at h
      exact h
    | some pindexNew =>
      rw [hbest] at h
      dsimp only at h ⊢
      cases htest : s.invalidAncestor (some pindexNew) with
      | none =>
        rw [htest] at h
        exact h
      | some pindexTest =>
        rw [htest] at h
        exact ih h

theorem activateBestChain_succ (K : WorkKeys β) {outcome : β → ConnectOutcome} {fuel : ℕ}
    {r : Bool × BestChain T} (h : s.activateBestChain K outcome fuel = some r) :
    s.activateBestChain K outcome (fuel + 1) = some r := by
  induction fuel generalizing s with
  | zero => cases h
  | succ fuel ih =>
    rw [activateBestChain, Option.bind_eq_bind, Option.bind_eq_some_iff] at h
    obtain ⟨s₁, hfind, hrest⟩ := h
    have hfind' : s.findMostWorkChain K (fuel + 1) = some s₁ := by
      rw [findMostWorkChain, Option.bind_eq_bind, Option.bind_eq_some_iff] at hfind
      obtain ⟨r₁, hsearch, hfind⟩ := hfind
      rw [findMostWorkChain, search_succ K hsearch]
      exact hfind
    rw [activateBestChain, hfind', Option.bind_eq_bind, Option.bind_some]
    split at hrest
    case isTrue htip => rwa [if_pos htip]
    case isFalse htip =>
      rw [if_neg htip]
      cases hconnect : connectTips outcome s₁.disconnectTips with
      | none =>
        rw [hconnect] at hrest
        cases hrest
      | some r₂ =>
        obtain ⟨connected, s₂⟩ := r₂
        rw [hconnect] at hrest
        cases connected with
        | complete => exact hrest
        | invalid => exact ih hrest
        | error => exact hrest

theorem activateBestChain_mono (K : WorkKeys β) {outcome : β → ConnectOutcome} {fuel fuel' : ℕ}
    {r : Bool × BestChain T} (hle : fuel ≤ fuel') (h : s.activateBestChain K outcome fuel = some r) :
    s.activateBestChain K outcome fuel' = some r := by
  induction hle with
  | refl => exact h
  | step _ ih => exact activateBestChain_succ K ih

/-- Where no block comes out invalid with possible corruption, every call ends from every state
that is reached. No block of the set is marked failed then, and the best candidate has no failed
block on its way to the active chain. -/
theorem activateBestChain_ends (K : WorkKeys β) {outcome : β → ConnectOutcome}
    (hnone : ∀ b, outcome b ≠ .invalid true) (h : Reachable s) :
    ∃ ok s', (∀ fuel, s.setBlockIndexValid.length + 1 < fuel →
        s.activateBestChain K outcome fuel = some (ok, s')) ∧
      (∀ b ∈ s'.setBlockIndexValid, s'.failed b = false) ∧
      ∀ p, K.rbegin s'.setBlockIndexValid = some p → s'.CleanPath p := by
  obtain ⟨hinv, hready⟩ := h.inv
  have hhead : s.LoopHead outcome := ⟨hinv, .inl hready⟩
  obtain ⟨⟨ok, s'⟩, hrun⟩ := activateBestChain_isSome K hnone hhead (Nat.lt_succ_self _)
  have hfinal := activateBestChain_final K hhead hrun
  refine ⟨ok, s', fun fuel hfuel ↦ activateBestChain_mono K hfuel hrun, fun b hb ↦ ?_, hfinal.best⟩
  exact ((hfinal.inv.valid b).mp hb).2

/-! ### Two calls -/

/-- A turn that comes back to its own state comes back for ever. -/
theorem activateBestChain_of_turn (K : WorkKeys β) {outcome : β → ConnectOutcome}
    (hfind : ∀ fuel, s.findMostWorkChain K (fuel + 1) = some s) (htip : s.chainMostWork.tip ≠ none)
    (hconnect : s.disconnectTips.connectTips outcome = some (.invalid, s)) (fuel : ℕ) :
    s.activateBestChain K outcome fuel = none := by
  induction fuel with
  | zero => rfl
  | succ fuel ih =>
    rw [activateBestChain]
    cases fuel with
    | zero => rfl
    | succ fuel =>
      rw [hfind, Option.bind_eq_bind, Option.bind_some, if_neg htip, hconnect]
      exact ih

end BestChain

local instance neZero_branchTree : NeZero 4 := ⟨by decide⟩

/-- Genesis with two branches, one of two blocks and one of a single block. -/
def branchTree : BlockTree (Fin 4) (Fin 4) where
  pprev := ![none, some 0, some 1, some 0]
  nHeight := ![0, 1, 2, 1]
  getBlockHash := id
  genesis := 0
  nHeight_genesis := rfl
  eq_genesis := by decide
  nHeight_pprev := by decide
  nHeight_lt := by decide
  getBlockHash_injective _ _ h := h

/-- The branch of a single block has more work. -/
def branchKeys : WorkKeys (Fin 4) where
  nChainWork := ![0, 1, 2, 3]
  nSequenceId _ := 0
  address := Fin.val
  address_injective := Fin.val_injective

namespace BestChain

/-- Genesis is active and the block after it is new. -/
def oneNew : BestChain branchTree := loadBlockIndexDB branchTree [0, 1] ∅ ∅ (some 0)

/-- One branch is active, and the other fails with its first block. -/
def oneFailed : BestChain branchTree := loadBlockIndexDB branchTree [0, 1, 2, 3] {1} ∅ (some 3)

/-- The block after genesis comes out invalid. -/
def invalidOutcome (corruptionPossible : Bool) (b : Fin 4) : ConnectOutcome :=
  if b = 1 then .invalid corruptionPossible else .success

/-- Genesis is active, so the new block has a clean path. -/
theorem invalidAncestor_oneNew (C : CChain branchTree) :
    ({ oneNew with chainMostWork := C } : BestChain branchTree).invalidAncestor (some 1) = none := by
  have htip : oneNew.chainActive.tip = some 0 := CChain.tip_setTip _ _
  have hout : oneNew.chainActive.contains 1 = false := not_contains_of_pprev htip.symm
  have hin : oneNew.chainActive.contains 0 = true :=
    CChain.contains_iff _ |>.mpr ⟨0, htip, .refl 0⟩
  have hfailed : oneNew.failed 1 = false := rfl
  rw [invalidAncestor]
  change (if oneNew.chainActive.contains 1 = true then none
    else if oneNew.failed 1 = true then _ else _) = none
  rw [hout, hfailed, if_neg Bool.false_ne_true, if_neg Bool.false_ne_true]
  change invalidAncestor _ (some 0) = none
  rw [invalidAncestor]
  exact if_pos hin

theorem reachable_oneNew : oneNew.Reachable := .load [0, 1] ∅ ∅ (some 0) (by decide) (by decide)

theorem activateBestChain_ends_oneNew :
    ∃ ok s', (∀ fuel, oneNew.setBlockIndexValid.length + 1 < fuel →
        oneNew.activateBestChain branchKeys (invalidOutcome false) fuel = some (ok, s')) ∧
      (∀ b ∈ s'.setBlockIndexValid, s'.failed b = false) ∧
      ∀ p, branchKeys.rbegin s'.setBlockIndexValid = some p → s'.CleanPath p :=
  activateBestChain_ends branchKeys (by decide) reachable_oneNew

/-- A block that may only be corrupt is tried for ever. A branch that failed stays in the set as
long as another one has more work. -/
theorem activateBestChain_loops :
    (oneNew.Reachable ∧ ∃ s₁, (∀ fuel, oneNew.findMostWorkChain branchKeys (fuel + 1) = some s₁ ∧
        s₁.findMostWorkChain branchKeys (fuel + 1) = some s₁) ∧
      s₁.disconnectTips.connectTips (invalidOutcome true) = some (.invalid, s₁) ∧
      ∀ fuel, oneNew.activateBestChain branchKeys (invalidOutcome true) fuel = none) ∧
    oneFailed.Reachable ∧ ∃ s', oneFailed.activateBestChain branchKeys (fun _ ↦ .success) 2 =
      some (true, s') ∧ 2 ∈ s'.setBlockIndexValid ∧ branchTree.tree.IsAncestor 1 2 ∧
      s'.chainActive.contains 1 = false ∧ s'.failed 1 = true := by
  constructor
  · let s₁ : BestChain branchTree :=
      { oneNew with chainMostWork := (oneNew.chainMostWork.setTip (some 1)).1 }
    have htip : s₁.chainMostWork.tip = some 1 := CChain.tip_setTip _ _
    have hactive : s₁.chainActive.tip = some 0 := CChain.tip_setTip _ _
    have hbest : branchKeys.rbegin oneNew.setBlockIndexValid = some 1 := by decide
    have hfirst : ∀ fuel, oneNew.findMostWorkChain branchKeys (fuel + 1) = some s₁ := by
      intro fuel
      rw [findMostWorkChain, dropFailed_of_none rfl, search, hbest]
      dsimp only
      rw [invalidAncestor_oneNew oneNew.chainMostWork]
      rfl
    have hnext : ∀ fuel, s₁.findMostWorkChain branchKeys (fuel + 1) = some s₁ := by
      intro fuel
      have hbest' : branchKeys.rbegin s₁.setBlockIndexValid = some 1 := hbest
      have hclean : s₁.invalidAncestor (some 1) = none := invalidAncestor_oneNew _
      rw [findMostWorkChain, dropFailed_of_unfailed htip rfl, search, hbest']
      dsimp only
      rw [hclean, Option.bind_eq_bind, Option.bind_some]
      dsimp only
      rw [htip]
      rfl
    have houtcome : invalidOutcome true 1 = .invalid true := rfl
    have hconnect : s₁.disconnectTips.connectTips (invalidOutcome true) = some (.invalid, s₁) :=
      connectTips_of_invalid htip (.refl 1) hactive.symm houtcome
    refine ⟨reachable_oneNew, s₁, fun fuel ↦ ⟨hfirst fuel, hnext fuel⟩,
      hconnect, fun fuel ↦ ?_⟩
    have hloop := activateBestChain_of_turn branchKeys hnext (by rw [htip]; decide) hconnect
    cases fuel with
    | zero => rfl
    | succ fuel =>
      cases fuel with
      | zero => rfl
      | succ fuel =>
        rw [activateBestChain, hfirst, Option.bind_eq_bind, Option.bind_some,
          if_neg (by rw [htip]; decide), hconnect]
        exact hloop (fuel + 1)
  · have hactive : oneFailed.chainActive.tip = some 3 := CChain.tip_setTip _ _
    let s' : BestChain branchTree :=
      { oneFailed with chainMostWork := (oneFailed.chainMostWork.setTip (some 3)).1 }
    have htip : s'.chainMostWork.tip = some 3 := CChain.tip_setTip _ _
    have hin : oneFailed.chainActive.contains 3 = true :=
      CChain.contains_iff _ |>.mpr ⟨3, hactive, .refl 3⟩
    have hbest : branchKeys.rbegin oneFailed.setBlockIndexValid = some 3 := by decide
    have hclean : oneFailed.invalidAncestor (some 3) = none := by
      rw [invalidAncestor]
      exact if_pos hin
    have hfind : oneFailed.findMostWorkChain branchKeys 1 = some s' := by
      rw [findMostWorkChain, dropFailed_of_none rfl, search, hbest]
      dsimp only
      rw [hclean]
      rfl
    have hconnect : s'.disconnectTips.connectTips (fun _ ↦ .success) = some (.complete, s') := by
      have hbelow : ∀ t, s'.chainActive.tip = some t → branchTree.tree.IsAncestor t 3 := by
        intro t ht
        obtain rfl := Option.some.inj (hactive.symm.trans ht)
        exact .refl 3
      rw [disconnectTips_of_below htip hbelow, connectTips]
      split
      case h_1 hnone =>
        rw [htip] at hnone
        cases hnone
      case h_2 tip htip' =>
        obtain rfl := Option.some.inj (htip.symm.trans htip')
        exact if_pos hin
    refine ⟨.load _ _ _ _ (by decide) (by decide), s', ?_, by decide, ⟨1, rfl⟩, ?_, rfl⟩
    · rw [activateBestChain, hfind, Option.bind_eq_bind, Option.bind_some,
        if_neg (by rw [htip]; decide), hconnect]
      rfl
    · by_contra hcontains
      obtain ⟨t, ht, hanc⟩ := CChain.contains_iff _ |>.mp (eq_true_of_ne_false hcontains)
      obtain rfl := Option.some.inj (hactive.symm.trans ht)
      exact absurd (hanc.eq_of_height (.refl 3) rfl) (by decide)


end BestChain

end Bitmark

import Bitmark.Base.HashOrder
import Bitmark.Lib.Multimap
import Bitmark.Lib.Trace
import Bitmark.Primitives.WireFormat

/-!
# Orphan transactions

Transactions whose inputs are not known yet are kept in `mapOrphanTransactions`, and under each hash
they spend from in `mapOrphanTransactionsByPrev` (`src/main.cpp:68–73` and `418–495`).
-/

namespace Bitmark

/-- `COrphanTx`. -/
structure COrphanTx where
  tx : CTransaction
  fromPeer : Int
deriving DecidableEq, Repr

/-- The two maps. -/
structure OrphanTxs where
  mapOrphanTransactions : SortedMap Uint256 COrphanTx := ∅
  mapOrphanTransactionsByPrev : SortedMap Uint256 (Finset Uint256) := ∅
deriving DecidableEq

/-- The hashes that the inputs of a transaction spend from. -/
def CTransaction.prevHashes (tx : CTransaction) : List Uint256 := tx.vin.map (·.prevout.hash)

namespace OrphanTxs

variable (H : Hashes)

/-- `AddOrphanTx`. -/
def addOrphanTx (o : OrphanTxs) (tx : CTransaction) (peer : Int) : Bool × OrphanTxs :=
  let hash := tx.getHash H
  if (o.mapOrphanTransactions.lookup hash).isSome then (false, o)
  -- Ignore big transactions, to avoid a send-big-orphans memory exhaustion attack.
  else if 5000 < tx.getSerializeSize then (false, o)
  else
    (true,
      { mapOrphanTransactions := o.mapOrphanTransactions.insert hash ⟨tx, peer⟩
        mapOrphanTransactionsByPrev :=
          tx.prevHashes.foldl (fun m prev ↦ m.insertInto prev hash) o.mapOrphanTransactionsByPrev })

/-- `EraseOrphanTx`. -/
def eraseOrphanTx (o : OrphanTxs) (hash : Uint256) : OrphanTxs :=
  match o.mapOrphanTransactions.lookup hash with
  | none => o
  | some orphan =>
    { mapOrphanTransactions := o.mapOrphanTransactions.erase hash
      mapOrphanTransactionsByPrev :=
        orphan.tx.prevHashes.foldl (fun m prev ↦ m.eraseFrom prev hash) o.mapOrphanTransactionsByPrev }

/-- `EraseOrphansFor`. The iterator is moved on before the entry it was at is erased, so it visits
the entries there were at the start. -/
def eraseOrphansFor (o : OrphanTxs) (peer : Int) : OrphanTxs :=
  o.mapOrphanTransactions.entries.foldl
    (fun o entry ↦ if entry.2.fromPeer = peer then o.eraseOrphanTx (entry.2.tx.getHash H) else o) o

/-- The orphan that a random hash selects: the first one from there on, or else the first. -/
def evictee (o : OrphanTxs) (randomhash : Uint256) : Option Uint256 :=
  match o.mapOrphanTransactions.keys.find? (randomhash ≤ ·) with
  | some hash => some hash
  | none => o.mapOrphanTransactions.keys.head?

theorem mapOrphanTransactions_eraseOrphanTx (o : OrphanTxs) (hash : Uint256) :
    (o.eraseOrphanTx hash).mapOrphanTransactions = o.mapOrphanTransactions.erase hash := by
  unfold eraseOrphanTx
  split
  next hnone => exact (SortedMap.erase_of_lookup_eq_none hnone).symm
  next => rfl

theorem mem_keys_of_evictee {o : OrphanTxs} {randomhash hash : Uint256}
    (h : o.evictee randomhash = some hash) : hash ∈ o.mapOrphanTransactions.keys := by
  unfold evictee at h
  split at h
  next hfind =>
    obtain rfl := Option.some.inj h
    exact List.mem_of_find?_eq_some hfind
  next => exact List.mem_of_head? h

theorem length_keys_eraseOrphanTx {o : OrphanTxs} {randomhash hash : Uint256}
    (h : o.evictee randomhash = some hash) :
    (o.eraseOrphanTx hash).mapOrphanTransactions.keys.length < o.mapOrphanTransactions.keys.length := by
  obtain ⟨orphan, horphan⟩ := SortedMap.mem_keys.mp (mem_keys_of_evictee h)
  rw [mapOrphanTransactions_eraseOrphanTx, ← SortedMap.length_keys_erase horphan]
  exact Nat.lt_succ_self _

/-- The loop of `LimitOrphanTxSize` with what `GetRandHash` returns in each round. -/
def limitOrphanTxSizeFrom (o : OrphanTxs) (randomhash : ℕ → Uint256) (nMaxOrphans nEvicted : ℕ) :
    ℕ × OrphanTxs :=
  if nMaxOrphans < o.mapOrphanTransactions.keys.length then
    match h : o.evictee (randomhash nEvicted) with
    | some hash => (o.eraseOrphanTx hash).limitOrphanTxSizeFrom randomhash nMaxOrphans (nEvicted + 1)
    | none => (nEvicted, o)
  else (nEvicted, o)
termination_by o.mapOrphanTransactions.keys.length
decreasing_by exact length_keys_eraseOrphanTx h

/-- `LimitOrphanTxSize`. -/
def limitOrphanTxSize (o : OrphanTxs) (randomhash : ℕ → Uint256) (nMaxOrphans : ℕ) :
    ℕ × OrphanTxs :=
  let (nEvicted, o) := o.limitOrphanTxSizeFrom randomhash nMaxOrphans 0
  (toUint32 nEvicted, o)

/-- A call of one of the four functions. -/
inductive Call where
  | addOrphanTx (tx : CTransaction) (peer : Int)
  | eraseOrphanTx (hash : Uint256)
  | eraseOrphansFor (peer : Int)
  | limitOrphanTxSize (randomhash : ℕ → Uint256) (nMaxOrphans : ℕ)

def call (o : OrphanTxs) : Call → OrphanTxs
  | .addOrphanTx tx peer => (o.addOrphanTx H tx peer).2
  | .eraseOrphanTx hash => o.eraseOrphanTx hash
  | .eraseOrphansFor peer => o.eraseOrphansFor H peer
  | .limitOrphanTxSize randomhash nMaxOrphans => (o.limitOrphanTxSize randomhash nMaxOrphans).2

/-- The orphans after a sequence of calls. -/
def run (calls : List Call) : OrphanTxs := calls.foldl (call H) {}

/-! ### The index by parent -/

/-- The index agrees with the transactions, which are stored under their hashes. -/
structure Indexed (o : OrphanTxs) : Prop where
  keyed : ∀ hash orphan, o.mapOrphanTransactions.lookup hash = some orphan →
    orphan.tx.getHash H = hash
  byPrev : ∀ prev hash, o.mapOrphanTransactionsByPrev.Holds prev hash ↔
    ∃ orphan, o.mapOrphanTransactions.lookup hash = some orphan ∧ prev ∈ orphan.tx.prevHashes
  noEmpty : o.mapOrphanTransactionsByPrev.NoEmpty

theorem indexed_empty : Indexed H {} where
  keyed hash orphan h := by cases h
  byPrev prev hash := by
    constructor
    · intro h
      exact absurd h SortedMap.not_holds_empty
    · rintro ⟨orphan, h, -⟩
      cases h
  noEmpty := SortedMap.noEmpty_empty

variable {H}

namespace Indexed

variable {o : OrphanTxs}

theorem addOrphanTx (h : Indexed H o) (tx : CTransaction) (peer : Int) :
    Indexed H (o.addOrphanTx H tx peer).2 := by
  unfold OrphanTxs.addOrphanTx
  dsimp only
  split
  case isTrue => exact h
  case isFalse hnew =>
    rw [Bool.not_eq_true, Option.isSome_eq_false_iff, Option.isNone_iff_eq_none] at hnew
    split
    case isTrue => exact h
    case isFalse =>
      constructor
      · intro hash orphan horphan
        rw [SortedMap.lookup_insert] at horphan
        split at horphan
        case isTrue heq =>
          obtain rfl := Option.some.inj horphan
          exact heq.symm
        case isFalse => exact h.keyed hash orphan horphan
      · intro prev hash
        rw [SortedMap.holds_insertInto_all, h.byPrev, SortedMap.lookup_insert]
        by_cases heq : hash = tx.getHash H
        · simp [heq, hnew]
        · simp [heq]
      · exact h.noEmpty.insertInto_all _ _

theorem eraseOrphanTx (h : Indexed H o) (hash : Uint256) : Indexed H (o.eraseOrphanTx hash) := by
  unfold OrphanTxs.eraseOrphanTx
  split
  next => exact h
  next orphan horphan =>
    constructor
    · intro hash' orphan' horphan'
      rw [SortedMap.lookup_erase] at horphan'
      split at horphan'
      · cases horphan'
      · exact h.keyed hash' orphan' horphan'
    · intro prev hash'
      rw [SortedMap.holds_eraseFrom_all, h.byPrev, SortedMap.lookup_erase]
      by_cases heq : hash' = hash
      · simp [heq, horphan]
      · simp [heq]
    · exact h.noEmpty.eraseFrom_all _ _

theorem eraseOrphansFor (h : Indexed H o) (peer : Int) : Indexed H (o.eraseOrphansFor H peer) := by
  unfold OrphanTxs.eraseOrphansFor
  apply Trace.invariant_foldl _ _ h
  intro o entry h
  split
  · exact h.eraseOrphanTx _
  · exact h

theorem limitOrphanTxSizeFrom (h : Indexed H o) (randomhash : ℕ → Uint256)
    (nMaxOrphans nEvicted : ℕ) :
    Indexed H (o.limitOrphanTxSizeFrom randomhash nMaxOrphans nEvicted).2 := by
  fun_induction OrphanTxs.limitOrphanTxSizeFrom o randomhash nMaxOrphans nEvicted with
  | case1 o nEvicted hsize hash hevictee ih => exact ih (h.eraseOrphanTx hash)
  | case2 o nEvicted hsize hevictee => exact h
  | case3 o nEvicted hsize => exact h

theorem call (h : Indexed H o) (c : Call) : Indexed H (o.call H c) := by
  cases c with
  | addOrphanTx tx peer => exact h.addOrphanTx tx peer
  | eraseOrphanTx hash => exact h.eraseOrphanTx hash
  | eraseOrphansFor peer => exact h.eraseOrphansFor peer
  | limitOrphanTxSize randomhash nMaxOrphans => exact h.limitOrphanTxSizeFrom randomhash nMaxOrphans 0

end Indexed

theorem indexed_run (calls : List Call) : Indexed H (run H calls) :=
  Trace.invariant_foldl (OrphanTxs.call H) (fun _ c h ↦ h.call c) (indexed_empty H) calls

/-! ### What the calls remove -/

/-- Erasing the orphans of a peer one by one, from any list of entries that holds them under their
hashes. -/
theorem lookup_eraseOrphansFor_fold (peer : Int) {entries : List (Uint256 × COrphanTx)}
    (hkeyed : ∀ entry ∈ entries, entry.2.tx.getHash H = entry.1) (o : OrphanTxs) (hash : Uint256) :
    (entries.foldl
      (fun o entry ↦ if entry.2.fromPeer = peer then o.eraseOrphanTx (entry.2.tx.getHash H) else o)
      o).mapOrphanTransactions.lookup hash =
      if ∃ entry ∈ entries, entry.1 = hash ∧ entry.2.fromPeer = peer then none
      else o.mapOrphanTransactions.lookup hash := by
  induction entries generalizing o with
  | nil => simp
  | cons entry entries ih =>
    rw [List.forall_mem_cons] at hkeyed
    rw [List.foldl_cons, ih hkeyed.2, hkeyed.1]
    simp only [List.exists_mem_cons_iff]
    by_cases hrest : ∃ entry ∈ entries, entry.1 = hash ∧ entry.2.fromPeer = peer
    · rw [if_pos hrest, if_pos (.inr hrest)]
    · rw [if_neg hrest]
      simp only [or_iff_left hrest]
      by_cases hpeer : entry.2.fromPeer = peer
      · rw [if_pos hpeer, mapOrphanTransactions_eraseOrphanTx, SortedMap.lookup_erase]
        simp [hpeer, eq_comm]
      · simp [hpeer]

/-- On behalf of a peer exactly its own orphans go. -/
theorem Indexed.lookup_eraseOrphansFor {o : OrphanTxs} (h : Indexed H o) (peer : Int)
    (hash : Uint256) :
    (o.eraseOrphansFor H peer).mapOrphanTransactions.lookup hash =
      (o.mapOrphanTransactions.lookup hash).filter fun orphan ↦ orphan.fromPeer ≠ peer := by
  have hkeyed : ∀ entry ∈ o.mapOrphanTransactions.entries, entry.2.tx.getHash H = entry.1 :=
    fun entry hentry ↦ h.keyed entry.1 entry.2 (SortedMap.lookup_eq_some.mpr hentry)
  have hexists : (∃ entry ∈ o.mapOrphanTransactions.entries, entry.1 = hash ∧
      entry.2.fromPeer = peer) ↔
      ∃ orphan, o.mapOrphanTransactions.lookup hash = some orphan ∧ orphan.fromPeer = peer := by
    constructor
    · rintro ⟨entry, hentry, rfl, hpeer⟩
      exact ⟨entry.2, SortedMap.lookup_eq_some.mpr hentry, hpeer⟩
    · rintro ⟨orphan, horphan, hpeer⟩
      exact ⟨(hash, orphan), SortedMap.lookup_eq_some.mp horphan, rfl, hpeer⟩
  rw [OrphanTxs.eraseOrphansFor, lookup_eraseOrphansFor_fold peer hkeyed]
  simp only [hexists]
  cases o.mapOrphanTransactions.lookup hash with
  | none => simp
  | some orphan => by_cases hpeer : orphan.fromPeer = peer <;> simp [Option.filter, hpeer]

/-- A map with too many orphans has one to evict. -/
theorem evictee_ne_none {o : OrphanTxs} (h : o.mapOrphanTransactions.keys ≠ [])
    (randomhash : Uint256) : o.evictee randomhash ≠ none := by
  unfold evictee
  split
  · simp
  · rw [ne_eq, List.head?_eq_none_iff]
    exact h

theorem limitOrphanTxSizeFrom_le (o : OrphanTxs) (randomhash : ℕ → Uint256)
    (nMaxOrphans nEvicted : ℕ) :
    (o.limitOrphanTxSizeFrom randomhash nMaxOrphans nEvicted).2.mapOrphanTransactions.keys.length ≤
      nMaxOrphans := by
  fun_induction limitOrphanTxSizeFrom o randomhash nMaxOrphans nEvicted with
  | case1 o nEvicted hsize hash hevictee ih => exact ih
  | case2 o nEvicted hsize hevictee =>
    refine absurd hevictee (evictee_ne_none ?_ _)
    intro hnil
    rw [hnil] at hsize
    exact absurd hsize (Nat.not_lt_zero _)
  | case3 o nEvicted hsize => exact not_lt.mp hsize

/-! ### Who announced an orphan -/

theorem lookup_of_eraseOrphanTx {o : OrphanTxs} {hash' hash : Uint256} {orphan : COrphanTx}
    (h : (o.eraseOrphanTx hash').mapOrphanTransactions.lookup hash = some orphan) :
    o.mapOrphanTransactions.lookup hash = some orphan := by
  rw [mapOrphanTransactions_eraseOrphanTx, SortedMap.lookup_erase] at h
  split at h
  · cases h
  · exact h

theorem lookup_of_limitOrphanTxSizeFrom {o : OrphanTxs} {randomhash : ℕ → Uint256}
    {nMaxOrphans nEvicted : ℕ} {hash : Uint256} {orphan : COrphanTx}
    (h : (o.limitOrphanTxSizeFrom randomhash nMaxOrphans nEvicted).2.mapOrphanTransactions.lookup
      hash = some orphan) : o.mapOrphanTransactions.lookup hash = some orphan := by
  fun_induction limitOrphanTxSizeFrom o randomhash nMaxOrphans nEvicted with
  | case1 o nEvicted hsize hash' hevictee ih => exact lookup_of_eraseOrphanTx (ih h)
  | case2 o nEvicted hsize hevictee => exact h
  | case3 o nEvicted hsize => exact h

/-- A call stores only what `AddOrphanTx` is called for, under its hash and with its peer. -/
theorem Indexed.lookup_of_call {o : OrphanTxs} (ho : Indexed H o) {c : Call} {hash : Uint256}
    {orphan : COrphanTx} (h : (o.call H c).mapOrphanTransactions.lookup hash = some orphan) :
    o.mapOrphanTransactions.lookup hash = some orphan ∨
      c = .addOrphanTx orphan.tx orphan.fromPeer ∧
        (o.addOrphanTx H orphan.tx orphan.fromPeer).1 = true := by
  cases c with
  | addOrphanTx tx peer =>
    rw [OrphanTxs.call, OrphanTxs.addOrphanTx] at h
    split at h
    · exact .inl h
    split at h
    · exact .inl h
    next hknown hbig =>
      rw [SortedMap.lookup_insert] at h
      split at h
      · obtain rfl := Option.some.inj h
        refine .inr ⟨rfl, ?_⟩
        rw [OrphanTxs.addOrphanTx, if_neg hknown, if_neg hbig]
      · exact .inl h
  | eraseOrphanTx hash' => exact .inl (lookup_of_eraseOrphanTx h)
  | eraseOrphansFor peer =>
    rw [OrphanTxs.call, ho.lookup_eraseOrphansFor, Option.filter_eq_some_iff] at h
    exact .inl h.1
  | limitOrphanTxSize randomhash nMaxOrphans => exact .inl (lookup_of_limitOrphanTxSizeFrom h)

theorem run_concat (calls : List Call) (c : Call) : run H (calls ++ [c]) = (run H calls).call H c :=
  List.foldl_concat ..

/-- A call of `AddOrphanTx` stored the orphan for its peer, and it has been there since. -/
def StoredBy (H : Hashes) (calls : List Call) (hash : Uint256) (orphan : COrphanTx) : Prop :=
  ∃ before later, calls = before ++ .addOrphanTx orphan.tx orphan.fromPeer :: later ∧
    ((run H before).addOrphanTx H orphan.tx orphan.fromPeer).1 = true ∧
    ∀ soFar, soFar <+: later →
      let o := run H (before ++ .addOrphanTx orphan.tx orphan.fromPeer :: soFar)
      o.mapOrphanTransactions.lookup hash = some orphan

theorem storedBy_of_lookup (calls : List Call) {hash : Uint256} {orphan : COrphanTx}
    (h : (run H calls).mapOrphanTransactions.lookup hash = some orphan) :
    StoredBy H calls hash orphan := by
  induction calls using List.reverseRecOn with
  | nil => cases h
  | append_singleton calls c ih =>
    rw [run_concat] at h
    rcases (indexed_run calls).lookup_of_call h with hbefore | ⟨rfl, hadded⟩
    · obtain ⟨before, later, rfl, hadded, hkept⟩ := ih hbefore
      refine ⟨before, later ++ [c], by simp, hadded, fun soFar hsoFar ↦ ?_⟩
      rcases List.prefix_concat_iff.mp hsoFar with rfl | hearlier
      · rw [← run_concat] at h
        simpa using h
      · exact hkept soFar hearlier
    · refine ⟨calls, [], rfl, hadded, fun soFar hsoFar ↦ ?_⟩
      obtain rfl := List.prefix_nil.mp hsoFar
      rw [run_concat]
      exact h

/-- After every sequence of calls the index is exact, a peer's orphans are the ones erased for it,
and a limit is met. The peer of an orphan is the one of the call that stored it. -/
theorem run_consistent (H : Hashes) (calls : List Call) :
    (∀ prev hash, (run H calls).mapOrphanTransactionsByPrev.Holds prev hash ↔
      ∃ orphan, (run H calls).mapOrphanTransactions.lookup hash = some orphan ∧
        ∃ txin ∈ orphan.tx.vin, txin.prevout.hash = prev) ∧
    (∀ prev set, (run H calls).mapOrphanTransactionsByPrev.lookup prev = some set → set.Nonempty) ∧
    (∀ peer hash, ((run H calls).eraseOrphansFor H peer).mapOrphanTransactions.lookup hash =
      ((run H calls).mapOrphanTransactions.lookup hash).filter fun orphan ↦
        orphan.fromPeer ≠ peer) ∧
    (∀ hash orphan, (run H calls).mapOrphanTransactions.lookup hash = some orphan →
      StoredBy H calls hash orphan) ∧
    ∀ randomhash nMaxOrphans,
      ((run H calls).limitOrphanTxSize randomhash nMaxOrphans).2.mapOrphanTransactions.keys.length ≤
        nMaxOrphans := by
  have h := indexed_run (H := H) calls
  refine ⟨?_, h.noEmpty, h.lookup_eraseOrphansFor, fun hash orphan ↦ storedBy_of_lookup calls, ?_⟩
  · intro prev hash
    rw [h.byPrev]
    simp only [CTransaction.prevHashes, List.mem_map]
  · intro randomhash nMaxOrphans
    exact limitOrphanTxSizeFrom_le _ randomhash nMaxOrphans 0

end OrphanTxs

end Bitmark

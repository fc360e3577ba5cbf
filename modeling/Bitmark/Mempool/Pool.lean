import Bitmark.Consensus.TxHistory
import Bitmark.Lib.FinmapFilter

/-!
# The memory pool

`CTxMemPool` of `src/txmempool.cpp`: the pooled transactions by id, and for every outpoint that a
pooled input spends a pointer to that input. A `CTransaction*` is the key of the entry it points
into. The lists of what was removed and the counter of updates are left out.
-/

namespace Bitmark

/-- `CTxMemPoolEntry`, `src/txmempool.h:22`, without its priority, a floating-point number. -/
structure CTxMemPoolEntry where
  tx : CTransaction
  nFee : Int
  nTxSize : Nat
  nTime : Int
  nHeight : Nat
deriving DecidableEq, Repr

/-- `CInPoint`: an input of a pooled transaction. -/
structure CInPoint where
  ptx : Uint256
  n : Nat
deriving DecidableEq, Repr

/-- `CTxMemPool`. -/
structure CTxMemPool where
  mapTx : Finmap fun _ : Uint256 ↦ CTxMemPoolEntry
  mapNextTx : Finmap fun _ : COutPoint ↦ CInPoint

namespace CTxMemPool

/-- `CTxMemPool::clear`, and the pool of a node that starts. -/
def empty : CTxMemPool := ⟨∅, ∅⟩

/-- `CTxMemPool::lookup`. -/
def lookup (pool : CTxMemPool) (hash : Uint256) : Option CTxMemPoolEntry := pool.mapTx.lookup hash

/-- `CTxMemPool::exists`. -/
def «exists» (pool : CTxMemPool) (hash : Uint256) : Bool := (pool.lookup hash).isSome

/-- `mapNextTx[tx.vin[i].prevout] = CInPoint(&tx, i)` for the inputs from `i` on. -/
def pointInputs (hash : Uint256) (mapNextTx : Finmap fun _ : COutPoint ↦ CInPoint) :
    Nat → List CTxIn → Finmap fun _ : COutPoint ↦ CInPoint
  | _, [] => mapNextTx
  | i, txin :: vin => pointInputs hash (mapNextTx.insert txin.prevout ⟨hash, i⟩) (i + 1) vin

/-- `CTxMemPool::addUnchecked`, `src/txmempool.cpp:73`. -/
def addUnchecked (pool : CTxMemPool) (hash : Uint256) (entry : CTxMemPoolEntry) : CTxMemPool where
  mapTx := pool.mapTx.insert hash entry
  mapNextTx := pointInputs hash pool.mapNextTx 0 entry.tx.vin

/-- `mapNextTx.erase(txin.prevout)` for every input, and `mapTx.erase(hash)`. -/
def takeOut (pool : CTxMemPool) (hash : Uint256) (tx : CTransaction) : CTxMemPool where
  mapTx := pool.mapTx.erase hash
  mapNextTx := tx.vin.foldl (fun m txin ↦ m.erase txin.prevout) pool.mapNextTx

/-- Nothing where `mapNextTx.find(outpoint)` is `end()`, else `f(*it->second.ptx)`. -/
def forSpender (pool : CTxMemPool) (outpoint : COutPoint)
    (f : CTransaction → Option CTxMemPool) : Option CTxMemPool :=
  match pool.mapNextTx.lookup outpoint with
  | none => some pool
  | some it => do
    let entry ← pool.lookup it.ptx
    f entry.tx

variable (H : Hashes)

/-- `CTxMemPool::remove`, `src/txmempool.cpp:89`, with `none` for calls nested deeper than
`depth` and for a pointer that dangles. -/
def removeNested : Nat → CTxMemPool → CTransaction → Bool → Option CTxMemPool
  | 0, _, _, _ => none
  | depth + 1, pool, tx, fRecursive => do
    let hash := tx.getHash H
    let pool ←
      if fRecursive then
        (List.range tx.vout.length).foldlM (fun pool i ↦
          pool.forSpender ⟨hash, BitVec.ofNat 32 i⟩ fun child ↦
            removeNested depth pool child true) pool
      else some pool
    some (if pool.exists hash then pool.takeOut hash tx else pool)

/-- `CTxMemPool::remove`: no chain of pooled transactions is longer than the pool. -/
def remove (pool : CTxMemPool) (tx : CTransaction) (fRecursive : Bool) : Option CTxMemPool :=
  removeNested H (pool.mapTx.keys.card + 1) pool tx fRecursive

/-- `CTxMemPool::removeConflicts`, `src/txmempool.cpp:113`. -/
def removeConflicts (pool : CTxMemPool) (tx : CTransaction) : Option CTxMemPool :=
  tx.vin.foldlM (fun pool txin ↦
    pool.forSpender txin.prevout fun txConflict ↦
      if txConflict.beq tx then some pool else remove H pool txConflict true) pool

/-- The assertions of `CTxMemPool::check` about one input of a pooled transaction. -/
def checkInput (pool : CTxMemPool) (view : CCoinsViewCache) (hash : Uint256) (i : Nat)
    (txin : CTxIn) : Bool :=
  (match pool.lookup txin.prevout.hash with
    | some entry2 =>
      match entry2.tx.vout[txin.prevout.n.toNat]? with
      | some txout => !txout.isNull
      | none => false
    | none => (view.getCoins txin.prevout.hash).any fun coins ↦ coins.isAvailable txin.prevout.n.toNat)
  && pool.mapNextTx.lookup txin.prevout == some ⟨hash, i⟩

/-- `CTxMemPool::check`, `src/txmempool.cpp:138`: whether no assertion fails. -/
def check (pool : CTxMemPool) (view : CCoinsViewCache) : Bool :=
  (pool.mapTx.all fun hash entry ↦
    entry.tx.vin.zipIdx.all fun l ↦ pool.checkInput view hash l.2 l.1) &&
  pool.mapNextTx.all fun outpoint it ↦
    (pool.lookup it.ptx).any fun entry ↦
      decide (entry.tx.getHash H = it.ptx) &&
        (entry.tx.vin[it.n]?.map (·.prevout) == some outpoint)

end CTxMemPool

/-! ### The two maps -/

namespace CTxMemPool

variable {H : Hashes} {pool pool' : CTxMemPool} {tx : CTransaction} {hash : Uint256}

/-- An input of a pooled transaction spends this outpoint. -/
def Points (pool : CTxMemPool) (outpoint : COutPoint) (it : CInPoint) : Prop :=
  ∃ entry, pool.lookup it.ptx = some entry ∧ entry.tx.vin[it.n]?.map (·.prevout) = some outpoint

/-- Every entry is under its id, and `mapNextTx` holds exactly the pooled inputs. -/
structure Indexed (H : Hashes) (pool : CTxMemPool) : Prop where
  key : ∀ hash entry, pool.lookup hash = some entry → entry.tx.getHash H = hash
  next : ∀ outpoint it, pool.mapNextTx.lookup outpoint = some it ↔ pool.Points outpoint it

theorem indexed_empty : Indexed H empty where
  key hash entry h := by simp [lookup, empty] at h
  next outpoint it := by simp [Points, lookup, empty]

/-- An input of a pooled transaction is in `mapNextTx`. -/
theorem Indexed.next_of_mem (h : pool.Indexed H) {entry : CTxMemPoolEntry}
    (hentry : pool.lookup hash = some entry) {txin : CTxIn} (hmem : txin ∈ entry.tx.vin) :
    ∃ i, entry.tx.vin[i]? = some txin ∧ pool.mapNextTx.lookup txin.prevout = some ⟨hash, i⟩ := by
  obtain ⟨i, hi⟩ := List.mem_iff_getElem?.mp hmem
  exact ⟨i, hi, (h.next _ _).mpr ⟨entry, hentry, by rw [hi]; rfl⟩⟩

/-- No two pooled inputs spend one outpoint. -/
theorem Indexed.unique (h : pool.Indexed H) {outpoint : COutPoint} {it it' : CInPoint}
    (hit : pool.Points outpoint it) (hit' : pool.Points outpoint it') : it = it' :=
  Option.some.inj (((h.next _ _).mpr hit).symm.trans ((h.next _ _).mpr hit'))

theorem lookup_pointInputs (m : Finmap fun _ : COutPoint ↦ CInPoint) (vin : List CTxIn) (k : Nat)
    (hnodup : (vin.map (·.prevout)).Nodup) (outpoint : COutPoint) (it : CInPoint) :
    (pointInputs hash m k vin).lookup outpoint = some it ↔
      (∃ i, vin[i]?.map (·.prevout) = some outpoint ∧ it = ⟨hash, k + i⟩) ∨
      (outpoint ∉ vin.map (·.prevout) ∧ m.lookup outpoint = some it) := by
  induction vin generalizing m k with
  | nil => simp [pointInputs]
  | cons txin vin ih =>
    rw [List.map_cons, List.nodup_cons] at hnodup
    rw [pointInputs, ih _ _ hnodup.2, List.map_cons, List.mem_cons, not_or]
    by_cases ho : outpoint = txin.prevout
    · subst ho
      rw [Finmap.lookup_insert]
      constructor
      · rintro (⟨i, hi, rfl⟩ | ⟨-, hit⟩)
        · refine .inl ⟨i + 1, ?_, ?_⟩
          · rw [List.getElem?_cons_succ]
            exact hi
          · rw [Nat.add_assoc, Nat.add_comm 1 i]
        · exact .inl ⟨0, rfl, (Option.some.inj hit).symm⟩
      · rintro (⟨i, hi, rfl⟩ | ⟨⟨hne, -⟩, -⟩)
        · cases i with
          | zero => exact .inr ⟨hnodup.1, rfl⟩
          | succ i =>
            rw [List.getElem?_cons_succ] at hi
            refine .inl ⟨i, hi, ?_⟩
            rw [Nat.add_assoc, Nat.add_comm 1 i]
        · exact absurd rfl hne
    · rw [Finmap.lookup_insert_of_ne _ ho]
      constructor
      · rintro (⟨i, hi, rfl⟩ | ⟨hnot, hit⟩)
        · refine .inl ⟨i + 1, ?_, ?_⟩
          · rw [List.getElem?_cons_succ]
            exact hi
          · rw [Nat.add_assoc, Nat.add_comm 1 i]
        · exact .inr ⟨⟨ho, hnot⟩, hit⟩
      · rintro (⟨i, hi, rfl⟩ | ⟨⟨-, hnot⟩, hit⟩)
        · cases i with
          | zero => exact absurd (Option.some.inj hi).symm ho
          | succ i =>
            rw [List.getElem?_cons_succ] at hi
            refine .inl ⟨i, hi, ?_⟩
            rw [Nat.add_assoc, Nat.add_comm 1 i]
        · exact .inr ⟨hnot, hit⟩

theorem lookup_eraseInputs (m : Finmap fun _ : COutPoint ↦ CInPoint) (vin : List CTxIn)
    (outpoint : COutPoint) :
    (vin.foldl (fun m txin ↦ m.erase txin.prevout) m).lookup outpoint =
      if outpoint ∈ vin.map (·.prevout) then none else m.lookup outpoint := by
  induction vin generalizing m with
  | nil => simp
  | cons txin vin ih =>
    rw [List.foldl_cons, ih, List.map_cons]
    by_cases hmem : outpoint ∈ vin.map (·.prevout)
    · rw [if_pos hmem, if_pos (List.mem_cons_of_mem _ hmem)]
    · rw [if_neg hmem]
      by_cases ho : outpoint = txin.prevout
      · rw [ho, Finmap.lookup_erase, if_pos List.mem_cons_self]
      · rw [Finmap.lookup_erase_ne ho, if_neg]
        rw [List.mem_cons, not_or]
        exact ⟨ho, hmem⟩

/-- `addUnchecked` keeps the maps in step, if the transaction is new and conflicts with none. -/
theorem Indexed.addUnchecked (h : pool.Indexed H) {entry : CTxMemPoolEntry}
    (hkey : entry.tx.getHash H = hash) (hnew : pool.lookup hash = none)
    (hnodup : (entry.tx.vin.map (·.prevout)).Nodup)
    (hfree : ∀ txin ∈ entry.tx.vin, pool.mapNextTx.lookup txin.prevout = none) :
    (pool.addUnchecked hash entry).Indexed H := by
  constructor
  · intro k e he
    by_cases hk : k = hash
    · rw [hk, lookup, CTxMemPool.addUnchecked, Finmap.lookup_insert] at he
      obtain rfl := Option.some.inj he
      rw [hk]
      exact hkey
    · rw [lookup, CTxMemPool.addUnchecked, Finmap.lookup_insert_of_ne _ hk] at he
      exact h.key k e he
  · intro outpoint it
    rw [CTxMemPool.addUnchecked, lookup_pointInputs _ _ _ hnodup]
    constructor
    · rintro (⟨i, hi, rfl⟩ | ⟨hnot, hit⟩)
      · refine ⟨entry, Finmap.lookup_insert _, ?_⟩
        rw [Nat.zero_add]
        exact hi
      · obtain ⟨e, he, hi⟩ := (h.next _ _).mp hit
        refine ⟨e, ?_, hi⟩
        rw [lookup, Finmap.lookup_insert_of_ne]
        · exact he
        · intro heq
          rw [heq, hnew] at he
          cases he
    · rintro ⟨e, he, hi⟩
      by_cases hk : it.ptx = hash
      · rw [hk, lookup, Finmap.lookup_insert] at he
        obtain rfl := Option.some.inj he
        refine .inl ⟨it.n, hi, ?_⟩
        rw [Nat.zero_add, ← hk]
      · rw [lookup, Finmap.lookup_insert_of_ne _ hk] at he
        have hit : pool.mapNextTx.lookup outpoint = some it := (h.next _ _).mpr ⟨e, he, hi⟩
        refine .inr ⟨?_, hit⟩
        intro hmem
        obtain ⟨txin, htxin, rfl⟩ := List.mem_map.mp hmem
        rw [hfree txin htxin] at hit
        cases hit

theorem lookup_takeOut (pool : CTxMemPool) (hash k : Uint256) (tx : CTransaction) :
    (pool.takeOut hash tx).lookup k = if k = hash then none else pool.lookup k := by
  unfold takeOut lookup
  by_cases hk : k = hash
  · rw [if_pos hk, hk, Finmap.lookup_erase]
  · rw [if_neg hk, Finmap.lookup_erase_ne hk]

/-- Taking out an entry with its inputs keeps the maps in step. -/
theorem Indexed.takeOut (h : pool.Indexed H) {entry : CTxMemPoolEntry}
    (hentry : pool.lookup hash = some entry) (hvin : tx.vin = entry.tx.vin) :
    (pool.takeOut hash tx).Indexed H := by
  have hpointed : ∀ outpoint it, pool.Points outpoint it →
      (outpoint ∈ entry.tx.vin.map (·.prevout) ↔ it.ptx = hash) := by
    intro outpoint it hit
    constructor
    · intro hmem
      obtain ⟨txin, htxin, rfl⟩ := List.mem_map.mp hmem
      obtain ⟨i, hi, -⟩ := h.next_of_mem hentry htxin
      have hpoint : pool.Points txin.prevout ⟨hash, i⟩ := ⟨entry, hentry, by rw [hi]; rfl⟩
      rw [h.unique hit hpoint]
    · intro heq
      obtain ⟨e, he, hi⟩ := hit
      rw [heq, hentry] at he
      obtain rfl := Option.some.inj he
      obtain ⟨txin, htxin, rfl⟩ := Option.map_eq_some_iff.mp hi
      exact List.mem_map_of_mem (List.mem_of_getElem? htxin)
  constructor
  · intro k e he
    rw [lookup_takeOut] at he
    split at he
    · cases he
    · exact h.key k e he
  · intro outpoint it
    rw [CTxMemPool.takeOut, lookup_eraseInputs, hvin]
    constructor
    · intro hit
      split at hit
      · cases hit
      · next hnot =>
        have hpoints := (h.next _ _).mp hit
        have hne : it.ptx ≠ hash := fun heq ↦ hnot ((hpointed _ _ hpoints).mpr heq)
        obtain ⟨e, he, hi⟩ := hpoints
        exact ⟨e, by rw [lookup, Finmap.lookup_erase_ne hne]; exact he, hi⟩
    · rintro ⟨e, he, hi⟩
      by_cases hk : it.ptx = hash
      · rw [hk, lookup, Finmap.lookup_erase] at he
        cases he
      · rw [lookup, Finmap.lookup_erase_ne hk] at he
        have hpoints : pool.Points outpoint it := ⟨e, he, hi⟩
        rw [if_neg (fun hmem ↦ hk ((hpointed _ _ hpoints).mp hmem))]
        exact (h.next _ _).mpr hpoints

end CTxMemPool

end Bitmark

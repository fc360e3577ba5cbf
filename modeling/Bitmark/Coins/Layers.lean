import Bitmark.Coins.View
import Bitmark.Lib.FinmapFilter

/-!
# Layers of coin caches

The classes of `src/coins.cpp:75–118` and `src/txdb.cpp:17–68` as they are stacked: caches over
a cache over the database. A lookup fills the caches it passes, `Flush` hands the entries of one
cache to the view under it, and a best block hash of zero marks one that was not read yet. Here
`CCoinsViewCache` holds the entries of its own layer only.

Each layer refines one flat view of `Bitmark.Coins.View`: a write to a layer is a write to its
own flat view and to those above it, and a flush copies the flat view one layer down.
-/

namespace Bitmark

/-- `CCoinsViewDB`: the records under `'c'` and the record `'B'`. -/
structure CCoinsViewDB where
  coins : Finmap fun _ : Uint256 ↦ CCoins
  hashBestChain : Option Uint256 := none

namespace CCoinsViewDB

/-- `GetCoins`. -/
def getCoins (view : CCoinsViewDB) (txid : Uint256) : Option CCoins := view.coins.lookup txid

/-- `HaveCoins`. -/
def haveCoins (view : CCoinsViewDB) (txid : Uint256) : Bool := decide (txid ∈ view.coins)

/-- `SetCoins`: a pruned entry is erased. -/
def setCoins (view : CCoinsViewDB) (txid : Uint256) (coins : CCoins) : CCoinsViewDB :=
  { view with
    coins := if coins.isPruned then view.coins.erase txid else view.coins.insert txid coins }

/-- `GetBestBlock`. -/
def getBestBlock (view : CCoinsViewDB) : Uint256 := view.hashBestChain.getD 0

/-- `SetBestBlock`. -/
def setBestBlock (view : CCoinsViewDB) (hashBlock : Uint256) : CCoinsViewDB :=
  { view with hashBestChain := some hashBlock }

/-- `BatchWrite`, `src/txdb.cpp:57`. Every key of the batch is written once: a pruned entry
erases what is there. A zero hash is not written. -/
def batchWrite (view : CCoinsViewDB) (mapCoins : Finmap fun _ : Uint256 ↦ CCoins)
    (hashBlock : Uint256) : CCoinsViewDB where
  coins := (mapCoins ∪ view.coins).filter fun txid coins ↦
    !(decide (txid ∈ mapCoins) && coins.isPruned)
  hashBestChain := if hashBlock ≠ 0 then some hashBlock else view.hashBestChain

end CCoinsViewDB

namespace CCoinsViewCache

/-- `BatchWrite`, `src/coins.cpp:111`: the hash is copied whatever it is. -/
def batchWrite (view : CCoinsViewCache) (mapCoins : Finmap fun _ : Uint256 ↦ CCoins)
    (hashBlock : Uint256) : CCoinsViewCache where
  cacheCoins := mapCoins ∪ view.cacheCoins
  hashBlock := hashBlock

end CCoinsViewCache

/-- `CCoinsView`: the database, or a cache over another view. -/
inductive CCoinsView
  | db (view : CCoinsViewDB)
  | cache (view : CCoinsViewCache) (base : CCoinsView)

namespace CCoinsView

/-- `GetCoins(txid, coins)`: what is found, and the view with its caches filled. The lookup
`FetchCoins` does the same and is not repeated. -/
def getCoins : CCoinsView → Uint256 → Option CCoins × CCoinsView
  | db view, txid => (view.getCoins txid, db view)
  | cache view base, txid =>
    match view.cacheCoins.lookup txid with
    | some coins => (some coins, cache view base)
    | none =>
      match base.getCoins txid with
      | (some coins, base) => (some coins, cache (view.setCoins txid coins) base)
      | (none, base) => (none, cache view base)

/-- `HaveCoins`: a cache fetches the entry, the database only looks. -/
def haveCoins : CCoinsView → Uint256 → Bool × CCoinsView
  | db view, txid => (view.haveCoins txid, db view)
  | cache view base, txid =>
    let (coins, view) := (cache view base).getCoins txid
    (coins.isSome, view)

/-- `SetCoins`. -/
def setCoins : CCoinsView → Uint256 → CCoins → CCoinsView
  | db view, txid, coins => db (view.setCoins txid coins)
  | cache view base, txid, coins => cache (view.setCoins txid coins) base

/-- A write through the reference of `GetCoins(txid)`, with `none` for the failed assertion.
Only caches give out references. -/
def modify : CCoinsView → Uint256 → (CCoins → CCoins) → Option CCoinsView
  | db _, _, _ => none
  | cache view base, txid, f =>
    match (cache view base).getCoins txid with
    | (some coins, view) => some (view.setCoins txid (f coins))
    | (none, _) => none

/-- `GetBestBlock`: a cache remembers the answer, unless it is zero. -/
def getBestBlock : CCoinsView → Uint256 × CCoinsView
  | db view => (view.getBestBlock, db view)
  | cache view base =>
    if view.hashBlock = 0 then
      let (hashBlock, base) := base.getBestBlock
      (hashBlock, cache (view.setBestBlock hashBlock) base)
    else (view.hashBlock, cache view base)

/-- `SetBestBlock`. -/
def setBestBlock : CCoinsView → Uint256 → CCoinsView
  | db view, hashBlock => db (view.setBestBlock hashBlock)
  | cache view base, hashBlock => cache (view.setBestBlock hashBlock) base

/-- `BatchWrite`. -/
def batchWrite : CCoinsView → (Finmap fun _ : Uint256 ↦ CCoins) → Uint256 → CCoinsView
  | db view, mapCoins, hashBlock => db (view.batchWrite mapCoins hashBlock)
  | cache view base, mapCoins, hashBlock => cache (view.batchWrite mapCoins hashBlock) base

/-- `Flush`: the entries go, the hash stays. The database has nothing to flush. -/
def flush : CCoinsView → CCoinsView
  | db view => db view
  | cache view base =>
    cache { view with cacheCoins := ∅ } (base.batchWrite view.cacheCoins view.hashBlock)

end CCoinsView

/-- The operations on one layer. -/
inductive CoinsOp
  | getCoins (txid : Uint256)
  | haveCoins (txid : Uint256)
  | setCoins (txid : Uint256) (coins : CCoins)
  | modify (txid : Uint256) (f : CCoins → CCoins)
  | getBestBlock
  | setBestBlock (hashBlock : Uint256)
  | flush

namespace CCoinsView

/-- An operation on the outermost layer. -/
def applyTop (view : CCoinsView) : CoinsOp → Option CCoinsView
  | .getCoins txid => some (view.getCoins txid).2
  | .haveCoins txid => some (view.haveCoins txid).2
  | .setCoins txid coins => some (view.setCoins txid coins)
  | .modify txid f => view.modify txid f
  | .getBestBlock => some view.getBestBlock.2
  | .setBestBlock hashBlock => some (view.setBestBlock hashBlock)
  | .flush => some view.flush

/-- An operation on the layer under `n` others, which do not notice it. -/
def apply : CCoinsView → Nat → CoinsOp → Option CCoinsView
  | view, 0, op => view.applyTop op
  | db _, _ + 1, _ => none
  | cache view base, n + 1, op => (base.apply n op).map (cache view)

/-- A sequence of operations on any layers. -/
def run : CCoinsView → List (Nat × CoinsOp) → Option CCoinsView
  | view, [] => some view
  | view, (n, op) :: ops => do
    let view ← view.apply n op
    view.run ops

/-- The layer under `n` others. -/
def layer : CCoinsView → Nat → Option CCoinsView
  | view, 0 => some view
  | db _, _ + 1 => none
  | cache _ base, n + 1 => base.layer n

@[simp] theorem apply_zero (view : CCoinsView) (op : CoinsOp) :
    view.apply 0 op = view.applyTop op := by
  cases view <;> rfl

@[simp] theorem layer_zero (view : CCoinsView) : view.layer 0 = some view := by
  cases view <;> rfl

/-! ### The plain maps -/

/-- What a layer holds with those below it, as one flat view. -/
def flat : CCoinsView → CCoinsViewCache
  | db view => ⟨view.coins, view.getBestBlock⟩
  | cache view base =>
    ⟨view.cacheCoins ∪ base.flat.cacheCoins,
      if view.hashBlock = 0 then base.flat.hashBlock else view.hashBlock⟩

/-- The flat views of all layers, the outermost first. -/
def flats : CCoinsView → List CCoinsViewCache
  | db view => [(db view).flat]
  | cache view base => (cache view base).flat :: base.flats

end CCoinsView

/-- A write on a plain map: an entry that is not there cannot be written through a reference. -/
def CCoinsViewCache.write (view : CCoinsViewCache) : CoinsOp → CCoinsViewCache
  | .setCoins txid coins => view.setCoins txid coins
  | .modify txid f => ((view.getCoins txid).map fun coins ↦ view.setCoins txid (f coins)).getD view
  | .setBestBlock hashBlock => view.setBestBlock hashBlock
  | _ => view

/-- A flush of the outermost plain map: the next one becomes the same. -/
def flushPlain : List CCoinsViewCache → List CCoinsViewCache
  | p :: _ :: ps => p :: p :: ps
  | ps => ps

/-- An operation on the plain maps: what is written to a layer is seen there and above it, and
a flush gives the layer below the same contents. -/
def applyPlain : List CCoinsViewCache → Nat → CoinsOp → List CCoinsViewCache
  | [], _, _ => []
  | p :: ps, n + 1, op => p.write op :: applyPlain ps n op
  | p :: ps, 0, .flush => flushPlain (p :: ps)
  | p :: ps, 0, op => p.write op :: ps

/-- A sequence of operations on the plain maps. -/
def runPlain (ps : List CCoinsViewCache) (ops : List (Nat × CoinsOp)) : List CCoinsViewCache :=
  ops.foldl (fun ps step ↦ applyPlain ps step.1 step.2) ps

namespace CCoinsView

/-! ### The invariant -/

/-- The database answers like a plain map, except that it has no pruned entries. -/
structure Answers (view : CCoinsViewDB) (p : CCoinsViewCache) : Prop where
  getCoins : ∀ txid, view.getCoins txid = p.getCoins txid ∨
    view.getCoins txid = none ∧ p.PrunedAt txid
  hashBlock : view.getBestBlock = p.hashBlock

/-- A plain map is the one below it with the entries of the cache on top. -/
structure Overlays (view p q : CCoinsViewCache) : Prop where
  cacheCoins : p.cacheCoins = view.cacheCoins ∪ q.cacheCoins
  hashBlock : p.hashBlock = if view.hashBlock = 0 then q.hashBlock else view.hashBlock

/-- The layers hold what the plain maps hold. -/
def Refines : CCoinsView → List CCoinsViewCache → Prop
  | db view, [p] => Answers view p
  | cache view base, p :: q :: ps => Overlays view p q ∧ base.Refines (q :: ps)
  | _, _ => False

/-- Every stack refines its own flat views. -/
theorem refines_flats (view : CCoinsView) : view.Refines view.flats := by
  induction view with
  | db view => exact ⟨fun _ ↦ .inl rfl, rfl⟩
  | cache view base ih =>
    cases base with
    | db below => exact ⟨⟨rfl, rfl⟩, ih⟩
    | cache below base => exact ⟨⟨rfl, rfl⟩, ih⟩

theorem Refines.exists_cons {view : CCoinsView} {ps : List CCoinsViewCache}
    (h : view.Refines ps) : ∃ p qs, ps = p :: qs := by
  cases ps with
  | nil => cases view <;> exact h.elim
  | cons p qs => exact ⟨p, qs, rfl⟩

theorem refines_cache {view : CCoinsViewCache} {base : CCoinsView} {p : CCoinsViewCache}
    {ps : List CCoinsViewCache} :
    (cache view base).Refines (p :: ps) ↔
      ∃ q qs, ps = q :: qs ∧ Overlays view p q ∧ base.Refines (q :: qs) := by
  cases ps with
  | nil => simp [Refines]
  | cons q qs => simp [Refines]

theorem refines_db {view : CCoinsViewDB} {p : CCoinsViewCache} {ps : List CCoinsViewCache} :
    (db view).Refines (p :: ps) ↔ ps = [] ∧ Answers view p := by
  cases ps with
  | nil => simp [Refines]
  | cons q qs => simp [Refines]

theorem Overlays.getCoins {view p q : CCoinsViewCache} (h : Overlays view p q) (txid : Uint256) :
    p.getCoins txid = (view.getCoins txid).or (q.getCoins txid) := by
  unfold CCoinsViewCache.getCoins
  rw [h.cacheCoins, Finmap.lookup_union]

/-- Caching what the map below has changes nothing. -/
theorem Overlays.fill {view p q : CCoinsViewCache} (h : Overlays view p q) {txid : Uint256}
    {coins : CCoins} (hcoins : p.getCoins txid = some coins) :
    Overlays (view.setCoins txid coins) p q := by
  refine ⟨Finmap.ext_lookup fun txid' ↦ ?_, h.hashBlock⟩
  by_cases htxid : txid' = txid
  · subst htxid
    rw [Finmap.lookup_union, CCoinsViewCache.setCoins, Finmap.lookup_insert, Option.some_or]
    exact hcoins
  · rw [Finmap.lookup_union, CCoinsViewCache.setCoins, Finmap.lookup_insert_of_ne _ htxid,
      ← Finmap.lookup_union, ← h.cacheCoins]

theorem Overlays.setCoins {view p q : CCoinsViewCache} (h : Overlays view p q) (txid : Uint256)
    (coins : CCoins) : Overlays (view.setCoins txid coins) (p.setCoins txid coins) q := by
  constructor
  · show p.cacheCoins.insert txid coins = view.cacheCoins.insert txid coins ∪ q.cacheCoins
    rw [h.cacheCoins, Finmap.insert_union]
  · exact h.hashBlock

/-- A write below a cache without an entry for the key is seen through it. -/
theorem Overlays.setCoins_below {view p q : CCoinsViewCache} (h : Overlays view p q)
    {txid : Uint256} (htxid : txid ∉ view.cacheCoins) (coins : CCoins) :
    Overlays view (p.setCoins txid coins) (q.setCoins txid coins) := by
  refine ⟨Finmap.ext_lookup fun txid' ↦ ?_, h.hashBlock⟩
  rw [Finmap.lookup_union]
  by_cases heq : txid' = txid
  · subst heq
    rw [Finmap.lookup_eq_none.mpr htxid, Option.none_or]
    show (p.setCoins txid' coins).getCoins txid' = (q.setCoins txid' coins).getCoins txid'
    rw [CCoinsViewCache.getCoins_setCoins_self, CCoinsViewCache.getCoins_setCoins_self]
  · rw [CCoinsViewCache.setCoins, CCoinsViewCache.setCoins, Finmap.lookup_insert_of_ne _ heq,
      Finmap.lookup_insert_of_ne _ heq, h.cacheCoins, Finmap.lookup_union]

theorem Overlays.getCoins_below {view p q : CCoinsViewCache} (h : Overlays view p q)
    {txid : Uint256} (htxid : txid ∉ view.cacheCoins) : p.getCoins txid = q.getCoins txid := by
  rw [h.getCoins, CCoinsViewCache.getCoins, Finmap.lookup_eq_none.mpr htxid, Option.none_or]

/-! ### Lookups -/

/-- `GetCoins` answers like the plain map up to pruned entries, and fills caches only. -/
theorem Refines.getCoins {view : CCoinsView} {p : CCoinsViewCache} {ps : List CCoinsViewCache}
    (h : view.Refines (p :: ps)) (txid : Uint256) :
    ((view.getCoins txid).1 = p.getCoins txid ∨
      (view.getCoins txid).1 = none ∧ p.PrunedAt txid) ∧
    (view.getCoins txid).2.Refines (p :: ps) := by
  induction view generalizing p ps with
  | db view =>
    obtain ⟨rfl, hanswers⟩ := Iff.mp refines_db h
    exact ⟨hanswers.getCoins txid, h⟩
  | cache view base ih =>
    obtain ⟨q, qs, rfl, hover, hbase⟩ := Iff.mp refines_cache h
    unfold CCoinsView.getCoins
    cases hlookup : view.cacheCoins.lookup txid with
    | some coins =>
      refine ⟨.inl ?_, h⟩
      rw [hover.getCoins, CCoinsViewCache.getCoins, hlookup, Option.some_or]
    | none =>
      have hp := hover.getCoins_below (Finmap.lookup_eq_none.mp hlookup)
      obtain ⟨hanswer, hfilled⟩ := ih hbase
      cases hbelow : base.getCoins txid with
      | mk found base' =>
        rw [hbelow] at hanswer hfilled
        cases found with
        | some coins =>
          have hq : q.getCoins txid = some coins := by
            rcases hanswer with hq | ⟨hnone, -⟩
            · exact hq.symm
            · cases hnone
          refine ⟨.inl (hp.trans hq).symm, Iff.mpr refines_cache ⟨q, qs, rfl, ?_, hfilled⟩⟩
          exact hover.fill (hp.trans hq)
        | none =>
          refine ⟨?_, Iff.mpr refines_cache ⟨q, qs, rfl, hover, hfilled⟩⟩
          rcases hanswer with hq | ⟨-, hpruned⟩
          · exact .inl (hq.trans hp.symm)
          · exact .inr ⟨rfl, fun coins hcoins ↦ hpruned coins (hp.symm.trans hcoins)⟩

/-- The unspent outputs a layer answers with are those of the plain map. -/
theorem Refines.unspent {view : CCoinsView} {p : CCoinsViewCache} {ps : List CCoinsViewCache}
    (h : view.Refines (p :: ps)) (txid : Uint256) (i : Nat) :
    ((view.getCoins txid).1.bind fun coins ↦ coins.unspent i) = p.unspent txid i := by
  rcases (h.getCoins txid).1 with heq | ⟨hnone, hpruned⟩
  · rw [heq, CCoinsViewCache.unspent]
  · rw [hnone, hpruned.unspent, Option.bind_none]

/-- `GetBestBlock` answers like the plain map, and fills caches only. -/
theorem Refines.getBestBlock {view : CCoinsView} {p : CCoinsViewCache}
    {ps : List CCoinsViewCache} (h : view.Refines (p :: ps)) :
    view.getBestBlock.1 = p.hashBlock ∧ view.getBestBlock.2.Refines (p :: ps) := by
  induction view generalizing p ps with
  | db view =>
    obtain ⟨rfl, hanswers⟩ := Iff.mp refines_db h
    exact ⟨hanswers.hashBlock, h⟩
  | cache view base ih =>
    obtain ⟨q, qs, rfl, hover, hbase⟩ := Iff.mp refines_cache h
    obtain ⟨hanswer, hfilled⟩ := ih hbase
    have hp := hover.hashBlock
    unfold CCoinsView.getBestBlock
    by_cases hzero : view.hashBlock = 0
    · rw [if_pos hzero] at hp ⊢
      refine ⟨hanswer.trans hp.symm, Iff.mpr refines_cache ⟨q, qs, rfl, ⟨hover.cacheCoins, ?_⟩, hfilled⟩⟩
      show p.hashBlock = if base.getBestBlock.1 = 0 then q.hashBlock else base.getBestBlock.1
      rw [hanswer, hp, ite_id]
    · rw [if_neg hzero] at hp ⊢
      exact ⟨hp.symm, h⟩

/-! ### Writes -/

/-- `SetCoins` of the database, and its plain map. -/
theorem Answers.setCoins {view : CCoinsViewDB} {p : CCoinsViewCache} (h : Answers view p)
    (txid : Uint256) (coins : CCoins) :
    Answers (view.setCoins txid coins) (p.setCoins txid coins) := by
  refine ⟨fun txid' ↦ ?_, h.hashBlock⟩
  unfold CCoinsViewDB.getCoins CCoinsViewDB.setCoins
  by_cases htxid : txid' = txid
  · subst htxid
    rw [CCoinsViewCache.getCoins_setCoins_self]
    by_cases hpruned : coins.isPruned = true
    · right
      rw [if_pos hpruned]
      refine ⟨Finmap.lookup_erase _ _, fun coins' hcoins ↦ ?_⟩
      rw [CCoinsViewCache.getCoins_setCoins_self] at hcoins
      rwa [← Option.some.inj hcoins]
    · left
      rw [if_neg hpruned]
      exact Finmap.lookup_insert _
  · have hkeep : (view.setCoins txid coins).coins.lookup txid' = view.coins.lookup txid' := by
      unfold CCoinsViewDB.setCoins
      by_cases hpruned : coins.isPruned = true
      · exact (congrArg _ (if_pos hpruned)).trans (Finmap.lookup_erase_ne htxid)
      · exact (congrArg _ (if_neg hpruned)).trans (Finmap.lookup_insert_of_ne _ htxid)
    have hget := CCoinsViewCache.getCoins_setCoins_of_ne p htxid coins
    rcases h.getCoins txid' with heq | ⟨hnone, hpruned⟩
    · exact .inl (hkeep.trans (heq.trans hget.symm))
    · refine .inr ⟨hkeep.trans hnone, fun coins' hcoins ↦ hpruned coins' ?_⟩
      exact hget.symm.trans hcoins

theorem Refines.setCoins {view : CCoinsView} {p : CCoinsViewCache} {ps : List CCoinsViewCache}
    (h : view.Refines (p :: ps)) (txid : Uint256) (coins : CCoins) :
    (view.setCoins txid coins).Refines (p.setCoins txid coins :: ps) := by
  cases view with
  | db view =>
    obtain ⟨rfl, hanswers⟩ := Iff.mp refines_db h
    exact Iff.mpr refines_db ⟨rfl, hanswers.setCoins txid coins⟩
  | cache view base =>
    obtain ⟨q, qs, rfl, hover, hbase⟩ := Iff.mp refines_cache h
    exact Iff.mpr refines_cache ⟨q, qs, rfl, hover.setCoins txid coins, hbase⟩

theorem Refines.modify {view view' : CCoinsView} {p : CCoinsViewCache}
    {ps : List CCoinsViewCache} (h : view.Refines (p :: ps)) {txid : Uint256}
    {f : CCoins → CCoins} (hmodify : view.modify txid f = some view') :
    view'.Refines (p.write (.modify txid f) :: ps) := by
  cases view with
  | db view => cases hmodify
  | cache view base =>
    obtain ⟨hanswer, hfilled⟩ := h.getCoins txid
    cases hget : (cache view base).getCoins txid with
    | mk found filled =>
      rw [hget] at hanswer hfilled
      simp only [CCoinsView.modify, hget] at hmodify
      cases found with
      | none => cases hmodify
      | some coins =>
        have hp : p.getCoins txid = some coins := by
          rcases hanswer with heq | ⟨hnone, -⟩
          · exact heq.symm
          · cases hnone
        obtain rfl := Option.some.inj hmodify
        rw [CCoinsViewCache.write, hp]
        exact hfilled.setCoins txid (f coins)

theorem Refines.haveCoins {view : CCoinsView} {p : CCoinsViewCache} {ps : List CCoinsViewCache}
    (h : view.Refines (p :: ps)) (txid : Uint256) :
    (view.haveCoins txid).2.Refines (p :: ps) := by
  cases view with
  | db view => exact h
  | cache view base => exact (h.getCoins txid).2

/-! ### What the operations ask for -/

/-- What a write under a cache asks of the cache: that it holds nothing for the same key. A
best block hash it has read or was given stays in it, over a flush too. -/
def PassesUnder (view : CCoinsViewCache) : CoinsOp → Prop
  | .setCoins txid _ | .modify txid _ => txid ∉ view.cacheCoins
  | .setBestBlock hashBlock => view.hashBlock = 0 ∨ view.hashBlock = hashBlock
  | _ => True

/-- A layer is written only while no layer above it holds data for the same key. -/
def Disciplined : CCoinsView → Nat → CoinsOp → Prop
  | cache view base, n + 1, op => PassesUnder view op ∧ base.Disciplined n op
  | _, _, _ => True

/-- No zero hash is taken for a best block that was not read: a cache is given a zero hash only
when its base has none, and one with a zero hash is flushed to another cache only when that one
has no best block of its own to lose. -/
def KeepsBestBlock : CCoinsView → CoinsOp → Prop
  | cache _ base, .setBestBlock hashBlock => hashBlock ≠ 0 ∨ base.getBestBlock.1 = 0
  | cache view (cache below base), .flush =>
    view.hashBlock ≠ 0 ∨ (cache below base).getBestBlock.1 = base.getBestBlock.1
  | _, _ => True

/-- What a step has to satisfy for the layers to go on refining the plain maps. -/
def Allowed (view : CCoinsView) (n : Nat) (op : CoinsOp) : Prop :=
  view.Disciplined n op ∧ ∀ top, view.layer n = some top → top.KeepsBestBlock op

/-- Every step of a run satisfies a condition on the state before it. -/
def Throughout (P : CCoinsView → Nat → CoinsOp → Prop) :
    CCoinsView → List (Nat × CoinsOp) → Prop
  | _, [] => True
  | view, (n, op) :: ops =>
    P view n op ∧ ∀ view', view.apply n op = some view' → view'.Throughout P ops

/-! ### The steps keep the invariant -/

theorem Refines.setBestBlock {view : CCoinsView} {p : CCoinsViewCache}
    {ps : List CCoinsViewCache} (h : view.Refines (p :: ps)) {hashBlock : Uint256}
    (hkeeps : view.KeepsBestBlock (.setBestBlock hashBlock)) :
    (view.setBestBlock hashBlock).Refines (p.setBestBlock hashBlock :: ps) := by
  cases view with
  | db view =>
    obtain ⟨rfl, hanswers⟩ := Iff.mp refines_db h
    exact Iff.mpr refines_db ⟨rfl, hanswers.getCoins, rfl⟩
  | cache view base =>
    obtain ⟨q, qs, rfl, hover, hbase⟩ := Iff.mp refines_cache h
    refine Iff.mpr refines_cache ⟨q, qs, rfl, ⟨hover.cacheCoins, ?_⟩, hbase⟩
    show hashBlock = if hashBlock = 0 then q.hashBlock else hashBlock
    by_cases hzero : hashBlock = 0
    · rcases hkeeps with hne | hbelow
      · exact absurd hzero hne
      · rw [if_pos hzero, hzero, ← hbelow, hbase.getBestBlock.1]
    · rw [if_neg hzero]

/-- A batch of the overlaid entries makes the database answer like the upper map. -/
theorem Answers.batchWrite {db : CCoinsViewDB} {view p q : CCoinsViewCache}
    (h : Answers db q) (hover : Overlays view p q) :
    Answers (db.batchWrite view.cacheCoins view.hashBlock) p := by
  constructor
  · intro txid
    have hp := hover.getCoins txid
    unfold CCoinsViewDB.getCoins CCoinsViewDB.batchWrite
    rw [Finmap.lookup_filter, Finmap.lookup_union]
    cases hlookup : view.cacheCoins.lookup txid with
    | some coins =>
      have hmem : txid ∈ view.cacheCoins := Finmap.mem_of_lookup_eq_some hlookup
      rw [show view.getCoins txid = some coins from hlookup, Option.some_or] at hp
      by_cases hpruned : coins.isPruned = true
      · refine .inr ⟨by simp [Option.filter, hmem, hpruned], fun coins' hcoins ↦ ?_⟩
        rwa [← Option.some.inj (hp.symm.trans hcoins)]
      · left
        rw [hp]
        simp [Option.filter, hpruned]
    | none =>
      have hmem : txid ∉ view.cacheCoins := Finmap.lookup_eq_none.mp hlookup
      rw [show view.getCoins txid = none from hlookup, Option.none_or] at hp
      have hkeep : ((none : Option CCoins).or (db.coins.lookup txid)).filter
          (fun coins ↦ !(decide (txid ∈ view.cacheCoins) && coins.isPruned)) =
          db.getCoins txid := by
        rw [Option.none_or, decide_eq_false hmem, CCoinsViewDB.getCoins]
        cases db.coins.lookup txid <;> rfl
      rw [hkeep]
      rcases h.getCoins txid with heq | ⟨hnone, hpruned⟩
      · exact .inl (heq.trans hp.symm)
      · exact .inr ⟨hnone, fun coins hcoins ↦ hpruned coins (hp.symm.trans hcoins)⟩
  · rw [hover.hashBlock, CCoinsViewDB.batchWrite, CCoinsViewDB.getBestBlock]
    by_cases hzero : view.hashBlock = 0
    · rw [if_pos hzero, if_neg (not_not.mpr hzero)]
      exact h.hashBlock
    · rw [if_neg hzero, if_pos hzero, Option.getD_some]

theorem Overlays.flushed {view p q : CCoinsViewCache} (h : Overlays view p q) :
    Overlays { view with cacheCoins := ∅ } p p := by
  refine ⟨Finmap.empty_union.symm, ?_⟩
  show p.hashBlock = if view.hashBlock = 0 then p.hashBlock else view.hashBlock
  by_cases hzero : view.hashBlock = 0
  · rw [if_pos hzero]
  · rw [if_neg hzero, h.hashBlock, if_neg hzero]

theorem Refines.flush {view : CCoinsView} {ps : List CCoinsViewCache}
    (h : view.Refines ps) (hkeeps : view.KeepsBestBlock .flush) :
    view.flush.Refines (applyPlain ps 0 .flush) := by
  obtain ⟨p, ps, rfl⟩ := h.exists_cons
  cases view with
  | db view =>
    obtain ⟨rfl, hanswers⟩ := Iff.mp refines_db h
    exact h
  | cache view base =>
    obtain ⟨q, qs, rfl, hover, hbase⟩ := Iff.mp refines_cache h
    refine Iff.mpr refines_cache ⟨p, qs, rfl, hover.flushed, ?_⟩
    cases base with
    | db below =>
      obtain ⟨rfl, hanswers⟩ := Iff.mp refines_db hbase
      exact Iff.mpr refines_db ⟨rfl, hanswers.batchWrite hover⟩
    | cache below base =>
      obtain ⟨r, rs, rfl, hbelow, hrest⟩ := Iff.mp refines_cache hbase
      refine Iff.mpr refines_cache ⟨r, rs, rfl, ⟨?_, ?_⟩, hrest⟩
      · rw [hover.cacheCoins, hbelow.cacheCoins, ← Finmap.union_assoc]
        rfl
      · show p.hashBlock = if view.hashBlock = 0 then r.hashBlock else view.hashBlock
        rw [hover.hashBlock]
        by_cases hzero : view.hashBlock = 0
        · rcases hkeeps with hne | hsame
          · exact absurd hzero hne
          · rw [if_pos hzero, if_pos hzero, ← hbase.getBestBlock.1, hsame, hrest.getBestBlock.1]
        · rw [if_neg hzero, if_neg hzero]

theorem Refines.applyTop {view view' : CCoinsView} {ps : List CCoinsViewCache} {op : CoinsOp}
    (h : view.Refines ps) (hkeeps : view.KeepsBestBlock op)
    (happly : view.applyTop op = some view') : view'.Refines (applyPlain ps 0 op) := by
  obtain ⟨p, ps, rfl⟩ := h.exists_cons
  have hwrite : op ≠ .flush → applyPlain (p :: ps) 0 op = p.write op :: ps := by
    intro hne
    cases op with
    | flush => exact absurd rfl hne
    | _ => rfl
  cases op with
  | getCoins txid =>
    obtain rfl := Option.some.inj happly
    rw [hwrite nofun]
    exact (h.getCoins txid).2
  | haveCoins txid =>
    obtain rfl := Option.some.inj happly
    rw [hwrite nofun]
    exact h.haveCoins txid
  | setCoins txid coins =>
    obtain rfl := Option.some.inj happly
    rw [hwrite nofun]
    exact h.setCoins txid coins
  | modify txid f =>
    rw [hwrite nofun]
    exact h.modify happly
  | getBestBlock =>
    obtain rfl := Option.some.inj happly
    rw [hwrite nofun]
    exact h.getBestBlock.2
  | setBestBlock hashBlock =>
    obtain rfl := Option.some.inj happly
    rw [hwrite nofun]
    exact h.setBestBlock hkeeps
  | flush =>
    obtain rfl := Option.some.inj happly
    exact h.flush hkeeps

/-- What is written under a cache without the key is seen through it. -/
theorem Overlays.write_below {view p q : CCoinsViewCache} (h : Overlays view p q) {op : CoinsOp}
    (hpass : PassesUnder view op) : Overlays view (p.write op) (q.write op) := by
  cases op with
  | setCoins txid coins => exact h.setCoins_below hpass coins
  | modify txid f =>
    simp only [CCoinsViewCache.write, h.getCoins_below hpass]
    cases q.getCoins txid with
    | none => exact h
    | some coins => exact h.setCoins_below hpass (f coins)
  | setBestBlock hashBlock =>
    refine ⟨h.cacheCoins, ?_⟩
    show hashBlock = if view.hashBlock = 0 then hashBlock else view.hashBlock
    rcases hpass with hzero | hsame
    · rw [if_pos hzero]
    · rw [hsame, ite_id]
  | getCoins | haveCoins | getBestBlock | flush => exact h

/-- The layer an operation was on top of still sees its own plain map first. -/
theorem exists_applyPlain_cons (p : CCoinsViewCache) (ps : List CCoinsViewCache) (n : Nat)
    (op : CoinsOp) : ∃ qs, applyPlain (p :: ps) n op = p.write op :: qs := by
  cases n with
  | succ n => exact ⟨_, rfl⟩
  | zero =>
    cases op with
    | flush =>
      cases ps with
      | nil => exact ⟨_, rfl⟩
      | cons q qs => exact ⟨_, rfl⟩
    | _ => exact ⟨_, rfl⟩

theorem Refines.apply {view view' : CCoinsView} {ps : List CCoinsViewCache} {n : Nat}
    {op : CoinsOp} (h : view.Refines ps) (hallowed : view.Allowed n op)
    (happly : view.apply n op = some view') : view'.Refines (applyPlain ps n op) := by
  induction n generalizing view view' ps with
  | zero => exact h.applyTop (hallowed.2 view view.layer_zero) (by simpa using happly)
  | succ n ih =>
    cases view with
    | db view => cases happly
    | cache view base =>
      obtain ⟨p, ps, rfl⟩ := h.exists_cons
      obtain ⟨q, qs, rfl, hover, hbase⟩ := Iff.mp refines_cache h
      obtain ⟨base', hbase', rfl⟩ := Option.map_eq_some_iff.mp happly
      have hrest := ih hbase ⟨hallowed.1.2, hallowed.2⟩ hbase'
      obtain ⟨qs', hqs'⟩ := exists_applyPlain_cons q qs n op
      have hplain : applyPlain (p :: q :: qs) (n + 1) op =
          p.write op :: applyPlain (q :: qs) n op := rfl
      rw [hqs'] at hrest
      rw [hplain, hqs']
      exact Iff.mpr refines_cache ⟨_, qs', rfl, hover.write_below hallowed.1.1, hrest⟩

/-- Over a run the layers go on holding what the plain maps hold. -/
theorem Refines.run {view view' : CCoinsView} {ps : List CCoinsViewCache}
    {ops : List (Nat × CoinsOp)} (h : view.Refines ps) (hallowed : view.Throughout Allowed ops)
    (hrun : view.run ops = some view') : view'.Refines (runPlain ps ops) := by
  induction ops generalizing view ps with
  | nil =>
    obtain rfl := Option.some.inj hrun
    exact h
  | cons step ops ih =>
    obtain ⟨next, hnext, hrun⟩ := Option.bind_eq_some_iff.mp hrun
    exact ih (h.apply hallowed.1 hnext) (hallowed.2 next hnext) hrun

theorem Refines.layer {view top : CCoinsView} {ps : List CCoinsViewCache} {n : Nat}
    (h : view.Refines ps) (hlayer : view.layer n = some top) :
    ∃ p qs, ps[n]? = some p ∧ top.Refines (p :: qs) := by
  induction n generalizing view ps with
  | zero =>
    obtain rfl := Option.some.inj (view.layer_zero.symm.trans hlayer)
    obtain ⟨p, qs, rfl⟩ := h.exists_cons
    exact ⟨p, qs, rfl, h⟩
  | succ n ih =>
    cases view with
    | db view => cases hlayer
    | cache view base =>
      obtain ⟨p, qs, rfl⟩ := h.exists_cons
      obtain ⟨q, qs, rfl, -, hbase⟩ := Iff.mp refines_cache h
      exact ih hbase hlayer

/-- Every layer answers like its plain map for the unspent outputs and the best block. -/
def SameAnswers (view : CCoinsView) (ps : List CCoinsViewCache) : Prop :=
  ∀ n top, view.layer n = some top → ∃ p, ps[n]? = some p ∧
    (∀ txid i, ((top.getCoins txid).1.bind fun coins ↦ coins.unspent i) = p.unspent txid i) ∧
    top.getBestBlock.1 = p.hashBlock

/-- The layers answer like plain maps updated by the same operations. -/
theorem sameAnswers_run (view view' : CCoinsView) (ops : List (Nat × CoinsOp))
    (hallowed : view.Throughout Allowed ops) (hrun : view.run ops = some view') :
    view'.SameAnswers (runPlain view.flats ops) := by
  intro n top hlayer
  obtain ⟨p, qs, hp, hrefines⟩ := (view.refines_flats.run hallowed hrun).layer hlayer
  exact ⟨p, hp, hrefines.unspent, hrefines.getBestBlock.1⟩

/-- Two empty caches over an empty database. -/
def twoCaches : CCoinsView := cache ⟨∅, 0⟩ (cache ⟨∅, 0⟩ (db ⟨∅, none⟩))

/-- A best block set and flushed down to the database layer by layer, with an entry. -/
def flushedDown : List (Nat × CoinsOp) :=
  [(0, .setBestBlock 7), (0, .setCoins 1 {}), (0, .flush), (1, .flush), (0, .haveCoins 1)]

theorem sameAnswers_flushedDown :
    ∃ view', twoCaches.run flushedDown = some view' ∧
      view'.SameAnswers (runPlain twoCaches.flats flushedDown) := by
  refine ⟨_, rfl, sameAnswers_run _ _ _ ?_ rfl⟩
  have hseven : (7 : Uint256) ≠ 0 := by decide
  refine ⟨⟨trivial, ?_⟩, fun _ h ↦ ?_⟩
  · rintro _ ⟨⟩
    exact .inl hseven
  obtain rfl := Option.some.inj h
  refine ⟨⟨trivial, by rintro _ ⟨⟩; trivial⟩, fun _ h ↦ ?_⟩
  obtain rfl := Option.some.inj h
  refine ⟨⟨trivial, by rintro _ ⟨⟩; exact .inl hseven⟩, fun _ h ↦ ?_⟩
  obtain rfl := Option.some.inj h
  refine ⟨⟨⟨trivial, trivial⟩, by rintro _ ⟨⟩; trivial⟩, fun _ h ↦ ?_⟩
  obtain rfl := Option.some.inj h
  exact ⟨⟨trivial, by rintro _ ⟨⟩; trivial⟩, fun _ _ ↦ trivial⟩

/-- A best block written to the lower cache and lost by a flush onto it: the upper cache never
read one and hands its zero down. -/
def lostBestBlock : List (Nat × CoinsOp) := [(1, .setBestBlock 7), (0, .setCoins 1 {}), (0, .flush)]

theorem not_sameAnswers_of_disciplined :
    ¬ ∀ (view view' : CCoinsView) (ops : List (Nat × CoinsOp)), view.Throughout Disciplined ops →
      view.run ops = some view' → view'.SameAnswers (runPlain view.flats ops) := by
  intro h
  have hdisciplined : twoCaches.Throughout Disciplined lostBestBlock := by
    refine ⟨⟨.inl rfl, trivial⟩, fun _ h ↦ ?_⟩
    obtain rfl := Option.some.inj h
    refine ⟨trivial, fun _ h ↦ ?_⟩
    obtain rfl := Option.some.inj h
    exact ⟨trivial, fun _ _ ↦ trivial⟩
  obtain ⟨p, hp, -, hbest⟩ := h twoCaches _ lostBestBlock hdisciplined rfl 1 _ rfl
  obtain rfl := Option.some.inj hp
  exact absurd hbest (by decide)

end CCoinsView

end Bitmark

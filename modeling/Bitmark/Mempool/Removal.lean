import Bitmark.Mempool.Pool

/-!
# Removal from the pool

What `remove` and `removeConflicts` take out: transactions together with everything in the pool
that spends their outputs, and nothing else. Ids that are not cyclic bound how deep the calls nest.
-/

namespace Bitmark

namespace CTxMemPool

/-- An input of the transaction spends an output of this one. -/
def SpendsOutputOf (H : Hashes) (child tx : CTransaction) : Prop :=
  ∃ txin ∈ child.vin, txin.prevout.hash = tx.getHash H ∧ txin.prevout.n.toNat < tx.vout.length

/-- An entry of the first pool that is not in the second. -/
def Dropped (pool pool' : CTxMemPool) (hash : Uint256) (entry : CTxMemPoolEntry) : Prop :=
  pool.lookup hash = some entry ∧ pool'.lookup hash = none

/-- The second pool is the first one without some entries and all that spends their outputs; what
is gone is one of the roots or spends an output of what is gone. -/
structure Cut (H : Hashes) (root : CTransaction → Prop) (pool pool' : CTxMemPool) : Prop where
  indexed : pool'.Indexed H
  kept : ∀ hash entry, pool'.lookup hash = some entry → pool.lookup hash = some entry
  closed : ∀ hash entry hash' entry', pool'.lookup hash = some entry →
    Dropped pool pool' hash' entry' → ¬ SpendsOutputOf H entry.tx entry'.tx
  rooted : ∀ hash entry, Dropped pool pool' hash entry → root entry.tx ∨
    ∃ hash' entry', Dropped pool pool' hash' entry' ∧ SpendsOutputOf H entry.tx entry'.tx

variable {H : Hashes} {root root' : CTransaction → Prop} {pool mid pool' : CTxMemPool}
  {tx : CTransaction}

theorem not_dropped_self {hash : Uint256} {entry : CTxMemPoolEntry} :
    ¬ Dropped pool pool hash entry := by
  rintro ⟨hin, hout⟩
  rw [hin] at hout
  cases hout

theorem Cut.refl (h : pool.Indexed H) : Cut H root pool pool where
  indexed := h
  kept _ _ hentry := hentry
  closed _ _ _ _ _ hdropped := absurd hdropped not_dropped_self
  rooted _ _ hdropped := absurd hdropped not_dropped_self

/-- Roots that spend outputs of what is gone are no roots. -/
theorem Cut.reroot (h : Cut H root pool pool') (hroot : ∀ hash entry,
    Dropped pool pool' hash entry → root entry.tx → root' entry.tx ∨
      ∃ hash' entry', Dropped pool pool' hash' entry' ∧ SpendsOutputOf H entry.tx entry'.tx) :
    Cut H root' pool pool' := by
  refine ⟨h.indexed, h.kept, h.closed, ?_⟩
  intro hash entry hdropped
  rcases h.rooted hash entry hdropped with hr | hspends
  · exact hroot hash entry hdropped hr
  · exact .inr hspends

/-- What is dropped on the way is dropped at one of the two steps. -/
theorem Cut.dropped_trans {hash : Uint256} {entry : CTxMemPoolEntry} (h : Cut H root mid pool') :
    Dropped pool pool' hash entry ↔ (Dropped pool mid hash entry) ∨
      (pool.lookup hash = some entry ∧ (mid.lookup hash).isSome ∧ pool'.lookup hash = none) := by
  constructor
  · rintro ⟨hin, hout⟩
    cases hmid : mid.lookup hash with
    | none => exact .inl ⟨hin, hmid⟩
    | some e => exact .inr ⟨hin, rfl, hout⟩
  · rintro (⟨hin, hmid⟩ | ⟨hin, -, hout⟩)
    · refine ⟨hin, ?_⟩
      cases hout : pool'.lookup hash with
      | none => rfl
      | some e =>
        rw [h.kept hash e hout] at hmid
        cases hmid
    · exact ⟨hin, hout⟩

theorem Cut.trans (h₁ : Cut H root pool mid) (h₂ : Cut H root mid pool') :
    Cut H root pool pool' := by
  have hsecond : ∀ hash entry, pool.lookup hash = some entry → (mid.lookup hash).isSome →
      mid.lookup hash = some entry := by
    intro hash entry hin hmid
    obtain ⟨e, he⟩ := Option.isSome_iff_exists.mp hmid
    rw [h₁.kept hash e he] at hin
    rw [he, hin]
  have hlift : ∀ hash entry, Dropped mid pool' hash entry → Dropped pool pool' hash entry :=
    fun hash entry hd ↦ ⟨h₁.kept hash entry hd.1, hd.2⟩
  refine ⟨h₂.indexed, fun hash entry he ↦ h₁.kept hash entry (h₂.kept hash entry he), ?_, ?_⟩
  · intro hash entry hash' entry' hentry hdropped
    rcases h₂.dropped_trans.mp hdropped with hd | ⟨hin, hmid, hout⟩
    · exact h₁.closed hash entry hash' entry' (h₂.kept hash entry hentry) hd
    · exact h₂.closed hash entry hash' entry' hentry ⟨hsecond hash' entry' hin hmid, hout⟩
  · intro hash entry hdropped
    rcases h₂.dropped_trans.mp hdropped with hd | ⟨hin, hmid, hout⟩
    · refine (h₁.rooted hash entry hd).imp_right ?_
      rintro ⟨hash', entry', hd', hspends⟩
      exact ⟨hash', entry', h₂.dropped_trans.mpr (.inl hd'), hspends⟩
    · refine (h₂.rooted hash entry ⟨hsecond hash entry hin hmid, hout⟩).imp_right ?_
      rintro ⟨hash', entry', hd', hspends⟩
      exact ⟨hash', entry', hlift hash' entry' hd', hspends⟩

/-- Taking out an entry whose outputs no other entry spends. -/
theorem Cut.takeOut (h : pool.Indexed H) {entry : CTxMemPoolEntry}
    (hentry : pool.lookup (tx.getHash H) = some entry) (hvin : tx.vin = entry.tx.vin)
    (hleaf : ∀ hash e, pool.lookup hash = some e → ¬ SpendsOutputOf H e.tx entry.tx)
    (hroot : root entry.tx) : Cut H root pool (pool.takeOut (tx.getHash H) tx) := by
  have hdropped : ∀ hash e, Dropped pool (pool.takeOut (tx.getHash H) tx) hash e → e = entry := by
    rintro hash e ⟨hin, hout⟩
    rw [lookup_takeOut] at hout
    split at hout
    · next heq =>
      rw [heq, hentry] at hin
      exact (Option.some.inj hin).symm
    · rw [hin] at hout
      cases hout
  have hkept : ∀ hash e, (pool.takeOut (tx.getHash H) tx).lookup hash = some e →
      pool.lookup hash = some e := by
    intro hash e he
    rw [lookup_takeOut] at he
    split at he
    · cases he
    · exact he
  refine ⟨h.takeOut hentry hvin, hkept, ?_, ?_⟩
  · intro hash e hash' e' he hd
    rw [hdropped hash' e' hd]
    exact hleaf hash e (hkept hash e he)
  · intro hash e hd
    rw [hdropped hash e hd]
    exact .inl hroot

/-! ### Recursive removal -/

section Removal

variable {occurs : CTransaction → Prop}

/-- The entries of the pool are transactions that occur. -/
def AllOccur (occurs : CTransaction → Prop) (pool : CTxMemPool) : Prop :=
  ∀ hash entry, pool.lookup hash = some entry → occurs entry.tx

theorem AllOccur.of_cut (h : AllOccur occurs pool) (hcut : Cut H root pool pool') :
    AllOccur occurs pool' :=
  fun hash entry hentry ↦ h hash entry (hcut.kept hash entry hentry)

/-- The ids in the pool above a rank. -/
def above (rank : Uint256 → Nat) (pool : CTxMemPool) (r : Nat) : Finset Uint256 :=
  pool.mapTx.keys.filter fun hash ↦ r < rank hash

theorem mem_above {rank : Uint256 → Nat} {r : Nat} {hash : Uint256} :
    hash ∈ pool.above rank r ↔ (pool.lookup hash).isSome ∧ r < rank hash := by
  rw [above, Finset.mem_filter, Finmap.mem_keys, ← Finmap.lookup_isSome]
  rfl

theorem Cut.above_subset (h : Cut H root pool pool') (rank : Uint256 → Nat) (r : Nat) :
    pool'.above rank r ⊆ pool.above rank r := by
  intro hash hmem
  rw [mem_above] at hmem ⊢
  obtain ⟨e, he⟩ := Option.isSome_iff_exists.mp hmem.1
  exact ⟨by rw [h.kept hash e he]; rfl, hmem.2⟩

/-- The transaction itself, and what spends one of its outputs. -/
def RootOf (H : Hashes) (tx child : CTransaction) : Prop :=
  child.getHash H = tx.getHash H ∨ SpendsOutputOf H child tx

/-- The loop of `remove` over the outputs. -/
theorem removeOutputs_cut {depth : Nat} {rank : Uint256 → Nat}
    (hrank : ∀ tx, occurs tx → ∀ txin ∈ tx.vin, rank txin.prevout.hash < rank (tx.getHash H))
    (hremove : ∀ pool tx, pool.Indexed H → AllOccur occurs pool → occurs tx →
      (pool.above rank (rank (tx.getHash H))).card < depth → ∃ pool',
        removeNested H depth pool tx true = some pool' ∧ Cut H (RootOf H tx) pool pool' ∧
          pool'.lookup (tx.getHash H) = none)
    (hindexed : pool.Indexed H) (hoccur : AllOccur occurs pool)
    (hdepth : (pool.above rank (rank (tx.getHash H))).card ≤ depth) (is : List Nat)
    (his : ∀ i ∈ is, i < tx.vout.length) :
    ∃ pool', is.foldlM (fun pool i ↦
        pool.forSpender ⟨tx.getHash H, BitVec.ofNat 32 i⟩ fun child ↦
          removeNested H depth pool child true) pool = some pool' ∧
      Cut H (fun child ↦ SpendsOutputOf H child tx) pool pool' ∧
      ∀ hash e, pool'.lookup hash = some e → ∀ txin ∈ e.tx.vin,
        txin.prevout.hash = tx.getHash H → txin.prevout.n.toNat ∉ is := by
  induction is generalizing pool with
  | nil => exact ⟨pool, rfl, .refl hindexed, fun _ _ _ _ _ _ ↦ List.not_mem_nil⟩
  | cons i is ih =>
    obtain ⟨hi, his⟩ := List.forall_mem_cons.mp his
    rw [List.foldlM_cons]
    cases hit : pool.mapNextTx.lookup ⟨tx.getHash H, BitVec.ofNat 32 i⟩ with
    | none =>
      obtain ⟨pool', hloop, hcut, hnone⟩ := ih hindexed hoccur hdepth his
      refine ⟨pool', ?_, hcut, ?_⟩
      · simp only [forSpender, hit]
        exact hloop
      intro hash e he txin hmem hhash
      rw [List.mem_cons, not_or]
      refine ⟨?_, hnone hash e he txin hmem hhash⟩
      rintro rfl
      obtain ⟨j, -, hj⟩ := hindexed.next_of_mem (hcut.kept hash e he) hmem
      have heq : txin.prevout = ⟨tx.getHash H, BitVec.ofNat 32 txin.prevout.n.toNat⟩ := by
        rw [BitVec.ofNat_toNat, BitVec.setWidth_eq, ← hhash]
      rw [heq, hit] at hj
      cases hj
    | some it =>
      obtain ⟨child, hchild, hpoint⟩ := (hindexed.next _ _).mp hit
      obtain ⟨txin, htxin, hprevout⟩ := Option.map_eq_some_iff.mp hpoint
      have hmem : txin ∈ child.tx.vin := List.mem_of_getElem? htxin
      have hkey := hindexed.key it.ptx child hchild
      have hspends : SpendsOutputOf H child.tx tx := by
        refine ⟨txin, hmem, by rw [hprevout], ?_⟩
        rw [hprevout, BitVec.toNat_ofNat]
        exact (Nat.mod_le _ _).trans_lt hi
      have hrankChild : rank (tx.getHash H) < rank (child.tx.getHash H) := by
        have hlt := hrank child.tx (hoccur it.ptx child hchild) txin hmem
        rwa [hprevout] at hlt
      have hfewer : (pool.above rank (rank (child.tx.getHash H))).card < depth := by
        refine (Finset.card_lt_card ?_).trans_le hdepth
        rw [Finset.ssubset_iff_of_subset]
        · refine ⟨it.ptx, mem_above.mpr ⟨by rw [hchild]; rfl, hkey ▸ hrankChild⟩, ?_⟩
          intro hin
          rw [mem_above, hkey] at hin
          exact lt_irrefl _ hin.2
        · intro hash hin
          rw [mem_above] at hin ⊢
          exact ⟨hin.1, hrankChild.trans hin.2⟩
      obtain ⟨mid, hmid, hcutMid, hgone⟩ :=
        hremove pool child.tx hindexed hoccur (hoccur it.ptx child hchild) hfewer
      rw [hkey] at hgone
      have hcutMid : Cut H (fun c ↦ SpendsOutputOf H c tx) pool mid := by
        refine hcutMid.reroot ?_
        rintro hash entry hdropped (hsame | hbuilt)
        · rw [hindexed.key hash entry hdropped.1, hkey] at hsame
          have hin := hdropped.1
          rw [hsame, hchild] at hin
          obtain rfl := Option.some.inj hin
          exact .inl hspends
        · exact .inr ⟨it.ptx, child, ⟨hchild, hgone⟩, hbuilt⟩
      obtain ⟨pool', hloop, hcut, hnone⟩ := ih hcutMid.indexed (hoccur.of_cut hcutMid)
        ((Finset.card_le_card (hcutMid.above_subset rank _)).trans hdepth) his
      refine ⟨pool', ?_, hcutMid.trans hcut, ?_⟩
      · simp only [forSpender, hit, hchild, Option.bind_eq_bind, Option.bind_some, hmid]
        exact hloop
      · intro hash e he txin' hmem' hhash
        rw [List.mem_cons, not_or]
        refine ⟨?_, hnone hash e he txin' hmem' hhash⟩
        rintro rfl
        have hinMid := hcut.kept hash e he
        obtain ⟨j, -, hj⟩ := hindexed.next_of_mem (hcutMid.kept hash e hinMid) hmem'
        have heq : txin'.prevout = ⟨tx.getHash H, BitVec.ofNat 32 txin'.prevout.n.toNat⟩ := by
          rw [BitVec.ofNat_toNat, BitVec.setWidth_eq, ← hhash]
        rw [heq, hit] at hj
        obtain rfl := Option.some.inj hj
        rw [hgone] at hinMid
        cases hinMid

/-- A recursive removal returns: it takes out the transaction with what is built on it. -/
theorem removeNested_cut (hids : TxIds H occurs) {rank : Uint256 → Nat}
    (hrank : ∀ tx, occurs tx → ∀ txin ∈ tx.vin, rank txin.prevout.hash < rank (tx.getHash H))
    (depth : Nat) (pool : CTxMemPool) (tx : CTransaction) (hindexed : pool.Indexed H)
    (hoccur : AllOccur occurs pool) (htx : occurs tx)
    (hdepth : (pool.above rank (rank (tx.getHash H))).card < depth) :
    ∃ pool', removeNested H depth pool tx true = some pool' ∧ Cut H (RootOf H tx) pool pool' ∧
      pool'.lookup (tx.getHash H) = none ∧
      ∀ hash entry, pool'.lookup hash = some entry → ¬ SpendsOutputOf H entry.tx tx := by
  induction depth generalizing pool tx with
  | zero => exact absurd hdepth (Nat.not_lt_zero _)
  | succ depth ih =>
    obtain ⟨mid, hloop, hcut, hnone⟩ := removeOutputs_cut hrank
      (fun pool tx hi ho ht hd ↦ by
        obtain ⟨pool', hrun, hcut, hgone, -⟩ := ih pool tx hi ho ht hd
        exact ⟨pool', hrun, hcut, hgone⟩) hindexed hoccur (Nat.lt_succ_iff.mp hdepth)
      (List.range tx.vout.length) (fun i hi ↦ List.mem_range.mp hi)
    have hcut : Cut H (RootOf H tx) pool mid :=
      hcut.reroot fun hash entry _ hspends ↦ .inl (.inr hspends)
    have hchildless : ∀ hash e, mid.lookup hash = some e → ¬ SpendsOutputOf H e.tx tx := by
      rintro hash e he ⟨txin, hmem, hhash, hn⟩
      exact hnone hash e he txin hmem hhash (List.mem_range.mpr hn)
    refine ⟨if mid.exists (tx.getHash H) then mid.takeOut (tx.getHash H) tx else mid, ?_, ?_⟩
    · simp only [removeNested, if_true]
      rw [hloop]
      rfl
    · cases hentry : mid.lookup (tx.getHash H) with
      | none =>
        rw [CTxMemPool.exists, hentry, if_neg (by simp)]
        exact ⟨hcut, hentry, hchildless⟩
      | some entry =>
        rw [CTxMemPool.exists, hentry, Option.isSome_some, if_pos rfl]
        have hoccurEntry := hoccur.of_cut hcut _ entry hentry
        have hid := hcut.indexed.key _ entry hentry
        have hlast : Cut H (RootOf H tx) mid (mid.takeOut (tx.getHash H) tx) := by
          refine .takeOut hcut.indexed hentry (hids.vin_eq htx hoccurEntry hid.symm) ?_ (.inl hid)
          intro hash e he hspends
          rw [SpendsOutputOf, hid, hids.vout_eq hoccurEntry htx hid] at hspends
          exact hchildless hash e he hspends
        refine ⟨hcut.trans hlast, ?_, fun hash e he ↦ hchildless hash e (hlast.kept hash e he)⟩
        rw [lookup_takeOut, if_pos rfl]

theorem card_above_le (rank : Uint256 → Nat) (pool : CTxMemPool) (r : Nat) :
    (pool.above rank r).card ≤ pool.mapTx.keys.card :=
  Finset.card_filter_le _ _

/-- `remove` with everything built on the transaction. -/
theorem remove_recursive (hids : TxIds H occurs) (hindexed : pool.Indexed H)
    (hoccur : AllOccur occurs pool) (htx : occurs tx) :
    ∃ pool', pool.remove H tx true = some pool' ∧ Cut H (RootOf H tx) pool pool' ∧
      pool'.lookup (tx.getHash H) = none ∧
      ∀ hash entry, pool'.lookup hash = some entry → ¬ SpendsOutputOf H entry.tx tx := by
  obtain ⟨rank, hrank⟩ := hids.acyclic
  exact removeNested_cut hids hrank _ pool tx hindexed hoccur htx
    (Nat.lt_succ_of_le (card_above_le rank pool _))

/-- `remove` of the transaction alone. -/
theorem remove_single (pool : CTxMemPool) (tx : CTransaction) : pool.remove H tx false =
    some (if pool.exists (tx.getHash H) then pool.takeOut (tx.getHash H) tx else pool) := rfl

/-- A different transaction that spends an outpoint of this one. -/
def ConflictsWith (tx other : CTransaction) : Prop :=
  other.beq tx = false ∧ ∃ txin ∈ tx.vin, txin.prevout ∈ other.vin.map (·.prevout)

/-- `removeConflicts` takes out what conflicts with the transaction, with all built on it. -/
theorem removeConflicts_cut (tx : CTransaction) (hids : TxIds H occurs) (hindexed : pool.Indexed H)
    (hoccur : AllOccur occurs pool) : ∃ pool', pool.removeConflicts H tx = some pool' ∧
      Cut H (ConflictsWith tx) pool pool' ∧
      ∀ hash entry, pool'.lookup hash = some entry → ¬ ConflictsWith tx entry.tx := by
  suffices hloop : ∀ vin ⊆ tx.vin, ∃ pool', vin.foldlM (fun pool txin ↦
      pool.forSpender txin.prevout fun txConflict ↦
        if txConflict.beq tx then some pool else remove H pool txConflict true) pool = some pool' ∧
      Cut H (ConflictsWith tx) pool pool' ∧
      ∀ hash entry, pool'.lookup hash = some entry → entry.tx.beq tx = false →
        ∀ txin ∈ vin, txin.prevout ∉ entry.tx.vin.map (·.prevout) by
    obtain ⟨pool', hrun, hcut, hnone⟩ := hloop tx.vin (fun _ h ↦ h)
    refine ⟨pool', hrun, hcut, ?_⟩
    rintro hash entry hentry ⟨hne, txin, htxin, hmem⟩
    exact hnone hash entry hentry hne txin htxin hmem
  intro vin
  induction vin generalizing pool with
  | nil => exact fun _ ↦ ⟨pool, rfl, .refl hindexed, fun _ _ _ _ _ h ↦ absurd h List.not_mem_nil⟩
  | cons txin vin ih =>
    intro hsub
    obtain ⟨htxin, hsub⟩ := List.cons_subset.mp hsub
    -- one round: what spends this outpoint is gone, or is the transaction itself
    have hround : ∃ mid, pool.forSpender txin.prevout (fun txConflict ↦
        if txConflict.beq tx then some pool else remove H pool txConflict true) = some mid ∧
        Cut H (ConflictsWith tx) pool mid ∧
        ∀ hash entry, mid.lookup hash = some entry → entry.tx.beq tx = false →
          txin.prevout ∉ entry.tx.vin.map (·.prevout) := by
      have hspender : ∀ hash entry, pool.lookup hash = some entry →
          txin.prevout ∈ entry.tx.vin.map (·.prevout) →
          ∃ i, pool.mapNextTx.lookup txin.prevout = some ⟨hash, i⟩ := by
        intro hash entry hentry hmem
        obtain ⟨txin', hmem', heq⟩ := List.mem_map.mp hmem
        obtain ⟨i, -, hi⟩ := hindexed.next_of_mem hentry hmem'
        exact ⟨i, by rw [← heq]; exact hi⟩
      unfold forSpender
      cases hit : pool.mapNextTx.lookup txin.prevout with
      | none =>
        refine ⟨pool, rfl, .refl hindexed, ?_⟩
        intro hash entry hentry _ hmem
        obtain ⟨i, hi⟩ := hspender hash entry hentry hmem
        rw [hit] at hi
        cases hi
      | some it =>
        obtain ⟨other, hother, hpoint⟩ := (hindexed.next _ _).mp hit
        have hsame : ∀ hash entry, pool.lookup hash = some entry →
            txin.prevout ∈ entry.tx.vin.map (·.prevout) → hash = it.ptx ∧ entry = other := by
          intro hash entry hentry hmem
          obtain ⟨i, hi⟩ := hspender hash entry hentry hmem
          rw [hit] at hi
          obtain rfl := Option.some.inj hi
          rw [hentry] at hother
          exact ⟨rfl, Option.some.inj hother⟩
        simp only [hother, Option.bind_eq_bind, Option.bind_some]
        by_cases heq : other.tx.beq tx = true
        · rw [if_pos heq]
          refine ⟨pool, rfl, .refl hindexed, ?_⟩
          intro hash entry hentry hne hmem
          rw [(hsame hash entry hentry hmem).2, heq] at hne
          cases hne
        · rw [if_neg heq]
          obtain ⟨mid, hrun, hcut, hgone, -⟩ :=
            remove_recursive hids hindexed hoccur (hoccur it.ptx other hother)
          have hkey := hindexed.key it.ptx other hother
          rw [hkey] at hgone
          refine ⟨mid, hrun, hcut.reroot ?_, ?_⟩
          · rintro hash entry hdropped (hself | hbuilt)
            · rw [hindexed.key hash entry hdropped.1, hkey] at hself
              have hin := hdropped.1
              rw [hself, hother] at hin
              obtain rfl := Option.some.inj hin
              obtain ⟨txin', htxin', hprevout⟩ := Option.map_eq_some_iff.mp hpoint
              refine .inl ⟨by simpa using heq, txin, htxin, ?_⟩
              rw [← hprevout]
              exact List.mem_map_of_mem (List.mem_of_getElem? htxin')
            · exact .inr ⟨it.ptx, other, ⟨hother, hgone⟩, hbuilt⟩
          · intro hash entry hentry _ hmem
            rw [(hsame hash entry (hcut.kept hash entry hentry) hmem).1, hgone] at hentry
            cases hentry
    obtain ⟨mid, hmid, hcutMid, hfirst⟩ := hround
    obtain ⟨pool', hrun, hcut, hnone⟩ := ih hcutMid.indexed (hoccur.of_cut hcutMid) hsub
    refine ⟨pool', ?_, hcutMid.trans hcut, ?_⟩
    · rw [List.foldlM_cons, hmid]
      exact hrun
    · intro hash entry hentry hne txin' hmem
      rcases List.mem_cons.mp hmem with rfl | hmem
      · exact hfirst hash entry (hcut.kept hash entry hentry) hne
      · exact hnone hash entry hentry hne txin' hmem

end Removal

end CTxMemPool

end Bitmark

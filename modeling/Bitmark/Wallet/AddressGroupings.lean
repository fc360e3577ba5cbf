import Bitmark.Lib.Components
import Bitmark.Wallet.Signing
import Mathlib.Data.Finset.Lattice.Fold
import Mathlib.Data.Finset.Option
import Mathlib.Data.List.AList
import Mathlib.Order.Lattice.Nat

/-!
# Groups of addresses

`GetAddressGroupings` (`src/wallet.cpp:1892`) puts addresses together that one transaction shows to
be of one owner, and merges the groups that overlap. Groups are known by pointers, and a map has the
group of each address.
-/

namespace Bitmark

/-- `CTxDestination`, where there is one. -/
inductive CTxDestination where
  | keyID (keyID : CKeyID)
  | scriptID (scriptID : CScriptID)
deriving DecidableEq

/-- `ExtractDestination`, `src/script.cpp:1718`. -/
def extractDestination (hash160 : Bytes → Uint160) (scriptPubKey : Bytes) : Option CTxDestination :=
  match solver scriptPubKey with
  | none => none
  | some (whichType, vSolutions) =>
    match whichType with
    | .pubkey => some (.keyID (hash160 (CPubKey.ofVector (vSolutions.headD []))))
    | .pubkeyhash => some (.keyID (uint160 (vSolutions.headD [])))
    | .scripthash => some (.scriptID (uint160 (vSolutions.headD [])))
    | .nonstandard | .multisig | .nullData => none

/-! ### The groupings -/

/-- What the wallet knows of scripts and addresses: `IsMine`, the hash of a public key, and the
addresses that `mapAddressBook` has. -/
structure AddressWallet where
  isMine : Bytes → Bool
  hash160 : Bytes → Uint160
  mapAddressBook : Finset CTxDestination

/-- `mapWallet`. -/
abbrev MapWallet := AList fun _ : Uint256 ↦ CTransaction

/-- The output that an input spends, if the wallet has it. -/
def MapWallet.spentOutput (mapWallet : MapWallet) (txin : CTxIn) : Option CTxOut := do
  let prev ← mapWallet.lookup txin.prevout.hash
  prev.vout[txin.prevout.n.toNat]?

namespace AddressWallet

variable (W : AddressWallet) (mapWallet : MapWallet)

/-- `IsMine(const CTxIn&)`, `src/wallet.cpp:695`. -/
def isMineInput (txin : CTxIn) : Bool :=
  match MapWallet.spentOutput mapWallet txin with
  | some txout => W.isMine txout.scriptPubKey
  | none => false

/-- `IsChange`, `src/wallet.cpp:726`. -/
def isChange (txout : CTxOut) : Bool :=
  W.isMine txout.scriptPubKey &&
    match extractDestination W.hash160 txout.scriptPubKey with
    | none => true
    | some address => address ∉ W.mapAddressBook

/-- The address of an output. -/
def address (txout : CTxOut) : Option CTxDestination := extractDestination W.hash160 txout.scriptPubKey

/-- The addresses of own inputs. -/
def inputAddresses (pcoin : CTransaction) : List CTxDestination :=
  pcoin.vin.filterMap fun txin ↦
    if W.isMineInput mapWallet txin then (MapWallet.spentOutput mapWallet txin).bind W.address else none

/-- The addresses of change. -/
def changeAddresses (pcoin : CTransaction) : List CTxDestination :=
  pcoin.vout.filterMap fun txout ↦ if W.isChange txout then W.address txout else none

/-- The addresses of own outputs. -/
def outputAddresses (pcoin : CTransaction) : List CTxDestination :=
  pcoin.vout.filterMap fun txout ↦
    if W.isMine txout.scriptPubKey then W.address txout else none

/-- The grouping of a transaction; `any_mine` is that an own input has an address. -/
def grouping (pcoin : CTransaction) : Finset CTxDestination :=
  let inputs := W.inputAddresses mapWallet pcoin
  (inputs ++ if inputs ≠ [] then W.changeAddresses pcoin else []).toFinset

/-- What a transaction adds to `groupings`. -/
def txGroupings (pcoin : CTransaction) : Finset (Finset CTxDestination) :=
  (if W.grouping mapWallet pcoin ≠ ∅ then {W.grouping mapWallet pcoin} else ∅) ∪
    (W.outputAddresses pcoin).toFinset.image fun address ↦ {address}

/-- `groupings` after the first loop. -/
def groupings : Finset (Finset CTxDestination) :=
  mapWallet.entries.foldl (fun groupings walletEntry ↦
    groupings ∪ W.txGroupings mapWallet walletEntry.2) ∅

end AddressWallet

/-! ### The merging -/

/-- An order in which the elements of each set come. -/
structure SetOrder (α : Type) where
  order : Finset α → List α
  mem_order : ∀ s a, a ∈ order s ↔ a ∈ s

/-- `new` returns a pointer that is not in use. -/
structure SetAllocator where
  new : Finset ℕ → ℕ
  new_not_mem : ∀ used, new used ∉ used

/-- The pointer after the last. -/
def SetAllocator.next : SetAllocator where
  new used := used.sup id + 1
  new_not_mem _ h := absurd (Finset.le_sup (f := id) h) (Nat.not_succ_le_self _)

/-- `uniqueGroupings` and `setmap`, with the sets that are allocated. -/
structure UniqueGroupings (δ : Type) where
  heap : ℕ → Option (Finset δ)
  uniqueGroupings : Finset ℕ
  setmap : δ → Option ℕ

namespace UniqueGroupings

variable {δ : Type} [DecidableEq δ]

def empty : UniqueGroupings δ := ⟨fun _ ↦ none, ∅, fun _ ↦ none⟩

/-- The set at a pointer. -/
def contents (s : UniqueGroupings δ) (p : ℕ) : Finset δ := (s.heap p).getD ∅

/-- A grouping is merged with the groups it hits; `none` is the use of a group that was deleted. -/
def addGrouping (A : SetAllocator) (s : UniqueGroupings δ) (grouping : Finset δ) :
    Option (UniqueGroupings δ) :=
  let hits := grouping.biUnion fun address ↦ (s.setmap address).toFinset
  if ∀ hit ∈ hits, (s.heap hit).isSome then
    let merged := grouping ∪ hits.biUnion s.contents
    let pointer := A.new s.uniqueGroupings
    some {
      heap := fun p ↦ if p = pointer then some merged else if p ∈ hits then none else s.heap p
      uniqueGroupings := insert pointer (s.uniqueGroupings \ hits)
      setmap := fun element ↦ if element ∈ merged then some pointer else s.setmap element }
  else none

/-- The groupings one after the other. -/
def addGroupings (A : SetAllocator) (s : UniqueGroupings δ) :
    List (Finset δ) → Option (UniqueGroupings δ)
  | [] => some s
  | grouping :: groupings => do
    let s ← s.addGrouping A grouping
    s.addGroupings A groupings

/-- `ret`: the sets that the pointers lead to. -/
def ret (s : UniqueGroupings δ) : Option (Finset (Finset δ)) :=
  if ∀ p ∈ s.uniqueGroupings, (s.heap p).isSome then some (s.uniqueGroupings.image s.contents)
  else none

end UniqueGroupings

/-- `GetAddressGroupings`. -/
def AddressWallet.getAddressGroupings (W : AddressWallet) (mapWallet : MapWallet)
    (E : SetOrder (Finset CTxDestination)) (A : SetAllocator) :
    Option (Finset (Finset CTxDestination)) := do
  let s ← UniqueGroupings.empty.addGroupings A (E.order (W.groupings mapWallet))
  s.ret

/-! ### Merging finds the components -/

namespace UniqueGroupings

variable {δ : Type} [DecidableEq δ] {s : UniqueGroupings δ} {parts : Finset (Finset δ)}

/-- The pointers lead to the parts, and the map has the part of each element. -/
structure Holds (s : UniqueGroupings δ) (parts : Finset (Finset δ)) : Prop where
  live : ∀ p ∈ s.uniqueGroupings, (s.heap p).isSome = true
  parts : s.uniqueGroupings.image s.contents = parts
  setmap : ∀ a p, s.setmap a = some p ↔ p ∈ s.uniqueGroupings ∧ a ∈ s.contents p

theorem holds_empty : (empty : UniqueGroupings δ).Holds ∅ where
  live := nofun
  parts := rfl
  setmap _ _ := iff_of_false nofun fun h ↦ absurd h.1 (Finset.notMem_empty _)

/-- The hits are the pointers to the parts that the grouping meets. -/
theorem Holds.mem_hits (h : s.Holds parts) {grouping : Finset δ} {p : ℕ} :
    p ∈ grouping.biUnion (fun address ↦ (s.setmap address).toFinset) ↔
      p ∈ s.uniqueGroupings ∧ s.contents p ∈ Components.hits parts grouping := by
  rw [Finset.mem_biUnion, Components.mem_hits, ← h.parts]
  constructor
  · rintro ⟨a, ha, hp⟩
    obtain ⟨hmem, hcontents⟩ := (h.setmap a p).mp (Option.mem_toFinset.mp hp)
    exact ⟨hmem, Finset.mem_image_of_mem _ hmem, a, ha, hcontents⟩
  · rintro ⟨hmem, -, a, ha, hcontents⟩
    exact ⟨a, ha, Option.mem_toFinset.mpr ((h.setmap a p).mpr ⟨hmem, hcontents⟩)⟩

theorem Holds.merged_eq (h : s.Holds parts) (grouping : Finset δ) :
    grouping ∪ (grouping.biUnion fun address ↦ (s.setmap address).toFinset).biUnion s.contents =
      Components.merged parts grouping := by
  ext a
  rw [Finset.mem_union, Finset.mem_biUnion, Components.mem_merged]
  apply or_congr_right
  constructor
  · rintro ⟨p, hp, ha⟩
    exact ⟨s.contents p, (h.mem_hits.mp hp).2, ha⟩
  · rintro ⟨S, hS, ha⟩
    obtain ⟨p, hp, rfl⟩ := Finset.mem_image.mp (h.parts.symm ▸ (Components.mem_hits.mp hS).1)
    exact ⟨p, h.mem_hits.mpr ⟨hp, hS⟩, ha⟩

/-- What is in a group that is not hit is not in the new one. -/
theorem Holds.mem_hits_of_mem_merged (h : s.Holds parts) {grouping : Finset δ} {p : ℕ} {a : δ}
    (hp : p ∈ s.uniqueGroupings) (ha : a ∈ s.contents p)
    (hmerged : a ∈ Components.merged parts grouping) :
    s.contents p ∈ Components.hits parts grouping := by
  rcases Components.mem_merged.mp hmerged with hgrouping | ⟨S, hS, haS⟩
  · rw [Components.mem_hits, ← h.parts]
    exact ⟨Finset.mem_image_of_mem _ hp, a, hgrouping, ha⟩
  · obtain ⟨q, hq, rfl⟩ := Finset.mem_image.mp (h.parts.symm ▸ (Components.mem_hits.mp hS).1)
    have hsame := ((h.setmap a p).mpr ⟨hp, ha⟩).symm.trans ((h.setmap a q).mpr ⟨hq, haS⟩)
    rwa [Option.some.inj hsame]

/-- No group that was deleted is used. The new group is at a new pointer, those that are not hit
stay where they are. -/
theorem Holds.addGrouping_eq (h : s.Holds parts) (A : SetAllocator) (grouping : Finset δ) :
    ∃ s' pointer, s.addGrouping A grouping = some s' ∧ pointer ∉ s.uniqueGroupings ∧
      (∀ p, p ∈ s'.uniqueGroupings ↔ p = pointer ∨
        p ∈ s.uniqueGroupings ∧ s.contents p ∉ Components.hits parts grouping) ∧
      s'.heap pointer = some (Components.merged parts grouping) ∧
      (∀ p ∈ s.uniqueGroupings, s.contents p ∉ Components.hits parts grouping →
        s'.heap p = s.heap p) ∧
      ∀ a, s'.setmap a =
        if a ∈ Components.merged parts grouping then some pointer else s.setmap a := by
  have hmem_hits : ∀ p, _ := fun p ↦ @Holds.mem_hits δ _ s parts h grouping p
  have hmerged := h.merged_eq grouping
  have hfresh := A.new_not_mem s.uniqueGroupings
  rw [UniqueGroupings.addGrouping]
  dsimp only
  generalize grouping.biUnion (fun address ↦ (s.setmap address).toFinset) = hits at hmem_hits hmerged ⊢
  generalize A.new s.uniqueGroupings = pointer at hfresh ⊢
  rw [hmerged, if_pos fun p hp ↦ h.live p ((hmem_hits p).mp hp).1]
  refine ⟨_, pointer, rfl, hfresh, fun p ↦ ?_, if_pos rfl, fun p hp hnot ↦ ?_, fun a ↦ rfl⟩
  · rw [Finset.mem_insert, Finset.mem_sdiff, hmem_hits]
    tauto
  · have hne : p ≠ pointer := by
      rintro rfl
      exact hfresh hp
    exact (if_neg hne).trans (if_neg fun hhit ↦ hnot ((hmem_hits p).mp hhit).2)

/-- The grouping is added to the parts. -/
theorem Holds.addGrouping (h : s.Holds parts) (A : SetAllocator) (grouping : Finset δ) :
    ∃ s', s.addGrouping A grouping = some s' ∧ s'.Holds (Components.addSet parts grouping) := by
  obtain ⟨s', pointer, hs', hfresh, hmem, hnew, hold, hsetmap⟩ := h.addGrouping_eq A grouping
  have hcontents_new : s'.contents pointer = Components.merged parts grouping := by
    rw [contents, hnew]
    rfl
  have hcontents : ∀ p ∈ s.uniqueGroupings, s.contents p ∉ Components.hits parts grouping →
      s'.contents p = s.contents p := by
    intro p hp hnot
    rw [contents, hold p hp hnot, contents]
  refine ⟨s', hs', fun p hp ↦ ?_, ?_, fun a p ↦ ?_⟩
  · rcases (hmem p).mp hp with rfl | ⟨hp, hnot⟩
    · rw [hnew]
      rfl
    · rw [hold p hp hnot]
      exact h.live p hp
  · ext S
    rw [Finset.mem_image, Components.mem_addSet]
    constructor
    · rintro ⟨p, hp, rfl⟩
      rcases (hmem p).mp hp with rfl | ⟨hp, hnot⟩
      · exact .inl hcontents_new
      · rw [hcontents p hp hnot]
        exact .inr ⟨h.parts ▸ Finset.mem_image_of_mem _ hp, hnot⟩
    · rintro (rfl | ⟨hS, hnot⟩)
      · exact ⟨pointer, (hmem pointer).mpr (.inl rfl), hcontents_new⟩
      · obtain ⟨p, hp, rfl⟩ := Finset.mem_image.mp (h.parts.symm ▸ hS)
        exact ⟨p, (hmem p).mpr (.inr ⟨hp, hnot⟩), hcontents p hp hnot⟩
  · rw [hsetmap, hmem]
    by_cases hmerged : a ∈ Components.merged parts grouping
    · rw [if_pos hmerged, Option.some.injEq]
      constructor
      · rintro rfl
        rw [hcontents_new]
        exact ⟨.inl rfl, hmerged⟩
      · rintro ⟨rfl | ⟨hp, hnot⟩, ha⟩
        · rfl
        · rw [hcontents p hp hnot] at ha
          exact absurd (h.mem_hits_of_mem_merged hp ha hmerged) hnot
    · rw [if_neg hmerged, h.setmap]
      constructor
      · rintro ⟨hp, ha⟩
        have hnot : s.contents p ∉ Components.hits parts grouping := fun hhit ↦
          hmerged (Components.mem_merged.mpr (.inr ⟨_, hhit, ha⟩))
        rw [hcontents p hp hnot]
        exact ⟨.inr ⟨hp, hnot⟩, ha⟩
      · rintro ⟨rfl | ⟨hp, hnot⟩, ha⟩
        · rw [hcontents_new] at ha
          exact absurd ha hmerged
        · rw [hcontents p hp hnot] at ha
          exact ⟨hp, ha⟩

/-- The loop finds the components of the groupings. -/
theorem Holds.addGroupings (h : s.Holds parts) {family : Set (Finset δ)}
    (hparts : Components.IsComponents family parts) (A : SetAllocator) {l : List (Finset δ)}
    (hl : ∀ G ∈ l, G.Nonempty) :
    ∃ s' parts', s.addGroupings A l = some s' ∧ s'.Holds parts' ∧
      Components.IsComponents (family ∪ {G | G ∈ l}) parts' := by
  induction l generalizing s parts family with
  | nil =>
    refine ⟨s, parts, rfl, h, ?_⟩
    have hsame : family ∪ {G | G ∈ ([] : List (Finset δ))} = family := by
      ext G
      simp
    rwa [hsame]
  | cons G l ih =>
    obtain ⟨s₁, hs₁, h₁⟩ := h.addGrouping A G
    have hparts₁ := hparts.addSet (hl G List.mem_cons_self)
    obtain ⟨s', parts', hs', h', hparts'⟩ :=
      ih h₁ hparts₁ fun G' hG' ↦ hl G' (List.mem_cons_of_mem _ hG')
    refine ⟨s', parts', ?_, h', ?_⟩
    · rw [UniqueGroupings.addGroupings, hs₁]
      exact hs'
    · have hsame : family ∪ {G' | G' ∈ G :: l} = insert G family ∪ {G' | G' ∈ l} := by
        ext G'
        simp only [Set.mem_union, Set.mem_ofPred_eq, List.mem_cons, Set.mem_insert_iff]
        tauto
      rwa [hsame]

theorem Holds.ret (h : s.Holds parts) : s.ret = some parts := by
  rw [UniqueGroupings.ret, if_pos h.live, h.parts]

end UniqueGroupings

/-! ### The addresses -/

namespace AddressWallet

variable (W : AddressWallet) (mapWallet : MapWallet)

/-- The addresses that a transaction shows to be of one owner: those of own inputs, and with one of
them those of change. -/
def Member (pcoin : CTransaction) (a : CTxDestination) : Prop :=
  W.inputAddresses mapWallet pcoin ≠ [] ∧
    (a ∈ W.inputAddresses mapWallet pcoin ∨ a ∈ W.changeAddresses pcoin)

/-- An address of own inputs, of change or of own outputs. -/
def Occurs (a : CTxDestination) : Prop :=
  ∃ walletEntry ∈ mapWallet.entries, a ∈ W.inputAddresses mapWallet walletEntry.2 ∨
    W.Member mapWallet walletEntry.2 a ∨ a ∈ W.outputAddresses walletEntry.2

/-- One transaction shows that both are of one owner. -/
def Linked (a b : CTxDestination) : Prop :=
  ∃ walletEntry ∈ mapWallet.entries, W.Member mapWallet walletEntry.2 a ∧
    W.Member mapWallet walletEntry.2 b

variable {W mapWallet} {a b : CTxDestination} {pcoin : CTransaction}

theorem mem_grouping : a ∈ W.grouping mapWallet pcoin ↔ W.Member mapWallet pcoin a := by
  rw [grouping, Member, List.mem_toFinset, List.mem_append]
  split
  case isTrue hne => rw [and_iff_right hne]
  case isFalse hnil =>
    rw [not_not] at hnil
    simp [hnil]

theorem mem_txGroupings {G : Finset CTxDestination} :
    G ∈ W.txGroupings mapWallet pcoin ↔ G = W.grouping mapWallet pcoin ∧ G.Nonempty ∨
      ∃ a ∈ W.outputAddresses pcoin, G = {a} := by
  rw [txGroupings, Finset.mem_union, Finset.mem_image]
  apply or_congr
  · split
    case isTrue hne =>
      rw [Finset.mem_singleton]
      constructor
      · rintro rfl
        exact ⟨rfl, Finset.nonempty_iff_ne_empty.mpr hne⟩
      · exact And.left
    case isFalse hempty =>
      rw [not_not] at hempty
      refine iff_of_false (Finset.notMem_empty G) ?_
      rintro ⟨rfl, hne⟩
      rw [hempty] at hne
      exact absurd hne Finset.not_nonempty_empty
  · constructor
    · rintro ⟨a, ha, rfl⟩
      exact ⟨a, List.mem_toFinset.mp ha, rfl⟩
    · rintro ⟨a, ha, rfl⟩
      exact ⟨a, List.mem_toFinset.mpr ha, rfl⟩

theorem mem_groupings {G : Finset CTxDestination} :
    G ∈ W.groupings mapWallet ↔
      ∃ walletEntry ∈ mapWallet.entries, G ∈ W.txGroupings mapWallet walletEntry.2 := by
  have hfold : ∀ (l : List (Sigma fun _ : Uint256 ↦ CTransaction))
      (start : Finset (Finset CTxDestination)), G ∈ l.foldl (fun groupings walletEntry ↦
        groupings ∪ W.txGroupings mapWallet walletEntry.2) start ↔
      G ∈ start ∨ ∃ walletEntry ∈ l, G ∈ W.txGroupings mapWallet walletEntry.2 := by
    intro l
    induction l with
    | nil =>
      intro start
      simp
    | cons walletEntry l ih =>
      intro start
      rw [List.foldl_cons, ih, Finset.mem_union, List.exists_mem_cons_iff, or_assoc]
  rw [groupings, hfold, or_iff_right (Finset.notMem_empty G)]

theorem nonempty_of_mem_groupings {G : Finset CTxDestination} (h : G ∈ W.groupings mapWallet) :
    G.Nonempty := by
  obtain ⟨walletEntry, -, hG⟩ := mem_groupings.mp h
  rcases mem_txGroupings.mp hG with ⟨-, hne⟩ | ⟨a, -, rfl⟩
  · exact hne
  · exact Finset.singleton_nonempty a

/-- Two addresses are in one grouping when one transaction links them, or when they are the same
address of an own output. -/
theorem shares_groupings :
    Components.Shares {G | G ∈ W.groupings mapWallet} a b ↔ W.Linked mapWallet a b ∨
      a = b ∧ ∃ walletEntry ∈ mapWallet.entries, a ∈ W.outputAddresses walletEntry.2 := by
  constructor
  · rintro ⟨G, hG, ha, hb⟩
    obtain ⟨walletEntry, hentry, hG⟩ := mem_groupings.mp hG
    rcases mem_txGroupings.mp hG with ⟨rfl, -⟩ | ⟨c, hc, rfl⟩
    · exact .inl ⟨walletEntry, hentry, mem_grouping.mp ha, mem_grouping.mp hb⟩
    · obtain rfl := Finset.mem_singleton.mp ha
      obtain rfl := Finset.mem_singleton.mp hb
      exact .inr ⟨rfl, walletEntry, hentry, hc⟩
  · rintro (⟨walletEntry, hentry, ha, hb⟩ | ⟨rfl, walletEntry, hentry, ha⟩)
    · refine ⟨W.grouping mapWallet walletEntry.2, mem_groupings.mpr ⟨walletEntry, hentry, ?_⟩,
        mem_grouping.mpr ha, mem_grouping.mpr hb⟩
      exact mem_txGroupings.mpr (.inl ⟨rfl, a, mem_grouping.mpr ha⟩)
    · refine ⟨{a}, mem_groupings.mpr ⟨walletEntry, hentry, ?_⟩, Finset.mem_singleton_self a,
        Finset.mem_singleton_self a⟩
      exact mem_txGroupings.mpr (.inr ⟨a, ha, rfl⟩)

theorem connected_groupings_self :
    Components.Connected {G | G ∈ W.groupings mapWallet} a a ↔ W.Occurs mapWallet a := by
  constructor
  · intro h
    obtain ⟨b, hab, -⟩ := Relation.TransGen.head'_iff.mp h
    rcases shares_groupings.mp hab with ⟨walletEntry, hentry, ha, -⟩ | ⟨-, walletEntry, hentry, ha⟩
    · exact ⟨walletEntry, hentry, .inr (.inl ha)⟩
    · exact ⟨walletEntry, hentry, .inr (.inr ha)⟩
  · rintro ⟨walletEntry, hentry, hinput | hmember | houtput⟩
    · have hmember : W.Member mapWallet walletEntry.2 a :=
        ⟨List.ne_nil_of_mem hinput, .inl hinput⟩
      exact .single (shares_groupings.mpr (.inl ⟨walletEntry, hentry, hmember, hmember⟩))
    · exact .single (shares_groupings.mpr (.inl ⟨walletEntry, hentry, hmember, hmember⟩))
    · exact .single (shares_groupings.mpr (.inr ⟨rfl, walletEntry, hentry, houtput⟩))

theorem connected_groupings :
    Components.Connected {G | G ∈ W.groupings mapWallet} a b ↔
      W.Occurs mapWallet a ∧ Relation.ReflTransGen (W.Linked mapWallet) a b := by
  constructor
  · intro h
    refine ⟨connected_groupings_self.mp (h.trans h.symm), ?_⟩
    induction h with
    | single hab =>
      rcases shares_groupings.mp hab with hlinked | ⟨rfl, -⟩
      · exact .single hlinked
      · exact .refl
    | tail _ hbc ih =>
      rcases shares_groupings.mp hbc with hlinked | ⟨rfl, -⟩
      · exact ih.tail hlinked
      · exact ih
  · rintro ⟨hoccurs, hchain⟩
    induction hchain with
    | refl => exact connected_groupings_self.mpr hoccurs
    | tail _ hbc ih => exact ih.tail (shares_groupings.mpr (.inl hbc))

/-- The groupings do not depend on the order of the wallet. -/
theorem groupings_perm {mapWallet' : MapWallet} (h : mapWallet'.entries.Perm mapWallet.entries) :
    W.groupings mapWallet' = W.groupings mapWallet := by
  have hspent : MapWallet.spentOutput mapWallet' = MapWallet.spentOutput mapWallet := by
    funext txin
    rw [MapWallet.spentOutput, MapWallet.spentOutput, AList.perm_lookup h]
  have htx : ∀ pcoin, W.txGroupings mapWallet' pcoin = W.txGroupings mapWallet pcoin := by
    intro pcoin
    have hmine : W.isMineInput mapWallet' = W.isMineInput mapWallet := by
      funext txin
      rw [isMineInput, isMineInput, hspent]
    have hinputs : W.inputAddresses mapWallet' pcoin = W.inputAddresses mapWallet pcoin := by
      rw [inputAddresses, inputAddresses, hmine, hspent]
    rw [txGroupings, txGroupings, grouping, grouping, hinputs]
  ext G
  rw [mem_groupings, mem_groupings]
  constructor
  · rintro ⟨walletEntry, hentry, hG⟩
    exact ⟨walletEntry, h.mem_iff.mp hentry, htx walletEntry.2 ▸ hG⟩
  · rintro ⟨walletEntry, hentry, hG⟩
    exact ⟨walletEntry, h.mem_iff.mpr hentry, (htx walletEntry.2).symm ▸ hG⟩

/-- The call returns the components of the groupings. -/
theorem getAddressGroupings_isComponents (E : SetOrder (Finset CTxDestination)) (A : SetAllocator) :
    ∃ parts, W.getAddressGroupings mapWallet E A = some parts ∧
      Components.IsComponents {G | G ∈ W.groupings mapWallet} parts := by
  have hnonempty : ∀ G ∈ E.order (W.groupings mapWallet), G.Nonempty := fun G hG ↦
    nonempty_of_mem_groupings ((E.mem_order _ G).mp hG)
  obtain ⟨s, parts, hs, hholds, hparts⟩ :=
    UniqueGroupings.holds_empty.addGroupings Components.isComponents_empty A hnonempty
  refine ⟨parts, ?_, ?_⟩
  · rw [getAddressGroupings, hs]
    exact hholds.ret
  · have hsame : (∅ ∪ {G | G ∈ E.order (W.groupings mapWallet)} : Set (Finset CTxDestination)) =
        {G | G ∈ W.groupings mapWallet} := by
      ext G
      rw [Set.empty_union]
      exact E.mem_order _ G
    rwa [hsame] at hparts

end AddressWallet

/-- In every order of the wallet, of the groupings and of the pointers, the call returns the same
sets: non-empty, disjoint, of all addresses that occur, and two addresses are in one of them exactly
when a chain of transactions links them. -/
theorem getAddressGroupings_components (W : AddressWallet) (mapWallet : MapWallet) :
    ∃ ret : Finset (Finset CTxDestination),
      (∀ mapWallet' : MapWallet, mapWallet'.entries.Perm mapWallet.entries → ∀ E A,
        W.getAddressGroupings mapWallet' E A = some ret) ∧
      (∀ S ∈ ret, S.Nonempty) ∧ (∀ S ∈ ret, ∀ S' ∈ ret, S ≠ S' → Disjoint S S') ∧
      (∀ a, (∃ S ∈ ret, a ∈ S) ↔ W.Occurs mapWallet a) ∧
      ∀ a b, (∃ S ∈ ret, a ∈ S ∧ b ∈ S) ↔
        W.Occurs mapWallet a ∧ Relation.ReflTransGen (W.Linked mapWallet) a b := by
  obtain ⟨ret, -, hret⟩ := @AddressWallet.getAddressGroupings_isComponents W mapWallet
    ⟨Finset.toList, fun _ _ ↦ Finset.mem_toList⟩ SetAllocator.next
  refine ⟨ret, fun mapWallet' hperm E A ↦ ?_, hret.nonempty, fun S hS S' hS' hne ↦ ?_,
    fun a ↦ ?_, fun a b ↦ ?_⟩
  · obtain ⟨parts, hparts, hcomponents⟩ :=
      @AddressWallet.getAddressGroupings_isComponents W mapWallet' E A
    rw [AddressWallet.groupings_perm hperm] at hcomponents
    rw [hparts, hcomponents.unique hret]
  · refine Finset.disjoint_left.mpr fun a ha ha' ↦ ?_
    exact hne (hret.eq_of_mem S hS S' hS' a ha ha')
  · rw [← AddressWallet.connected_groupings_self, ← hret.connected_iff]
    simp only [and_self]
  · rw [hret.connected_iff, AddressWallet.connected_groupings]

/-! ### Own inputs without an address -/

/-- A script of one key out of one. -/
def soleKeyScript : Bytes := [op1, 0x21, 0x02] ++ List.replicate 32 1 ++ [op1, opCheckmultisig]

/-- A script that pays to a key hash of equal bytes. -/
def keyHashScript (byte : UInt8) : Bytes :=
  [opDup, opHash160, 0x14] ++ List.replicate 20 byte ++ [opEqualverify, opChecksig]

/-- A wallet that has all these keys, and no address book. -/
def soleKeyWallet : AddressWallet where
  isMine := [soleKeyScript, keyHashScript 1, keyHashScript 2].contains
  hash160 bs := Fin.ofNat _ (leNat bs)
  mapAddressBook := ∅

/-- An output of that script is spent, with two outputs of change. -/
def soleKeySpend : CTransaction where
  vin := [{ prevout := ⟨1, 0⟩ }]
  vout := [⟨2, keyHashScript 1⟩, ⟨3, keyHashScript 2⟩]

def soleKeySpent : MapWallet where
  entries := [⟨1, { vout := [⟨5, soleKeyScript⟩] }⟩, ⟨2, soleKeySpend⟩]
  nodupKeys := by
    unfold List.NodupKeys
    decide

def soleKeyChange (byte : UInt8) : CTxDestination := .keyID (uint160 (List.replicate 20 byte))

theorem groupings_soleKeySpent :
    soleKeyWallet.groupings soleKeySpent = {{soleKeyChange 1}, {soleKeyChange 2}} := by decide

/-- The input is the wallet's own, but its output has no address, and the change is not put
together. -/
theorem getAddressGroupings_soleKeySpent :
    ∃ walletEntry ∈ soleKeySpent.entries,
      (∃ txin ∈ walletEntry.2.vin, soleKeyWallet.isMineInput soleKeySpent txin = true) ∧
      soleKeyChange 1 ∈ soleKeyWallet.changeAddresses walletEntry.2 ∧
      soleKeyChange 2 ∈ soleKeyWallet.changeAddresses walletEntry.2 ∧
      ∀ E A, ∃ ret, soleKeyWallet.getAddressGroupings soleKeySpent E A = some ret ∧
        ¬ ∃ S ∈ ret, soleKeyChange 1 ∈ S ∧ soleKeyChange 2 ∈ S := by
  refine ⟨⟨2, soleKeySpend⟩, List.mem_cons_of_mem _ List.mem_cons_self,
    ⟨_, List.mem_cons_self, by decide⟩, by decide, by decide, fun E A ↦ ?_⟩
  obtain ⟨ret, hret, hcomponents⟩ :=
    @AddressWallet.getAddressGroupings_isComponents soleKeyWallet soleKeySpent E A
  refine ⟨ret, hret, ?_⟩
  rw [hcomponents.connected_iff, groupings_soleKeySpent]
  intro h
  -- every set is of one address, so a chain stays where it is
  have hsame : ∀ a b, Components.Shares {G | G ∈ ({{soleKeyChange 1}, {soleKeyChange 2}} :
      Finset (Finset CTxDestination))} a b → a = b := by
    rintro a b ⟨G, hG, ha, hb⟩
    have hone : G.card ≤ 1 := by
      rcases Finset.mem_insert.mp (Set.mem_ofPred_eq ▸ hG) with rfl | hG
      · exact le_rfl
      · rw [Finset.mem_singleton.mp hG]
        exact le_rfl
    exact Finset.card_le_one.mp hone a ha b hb
  have hchain : ∀ b, Components.Connected {G | G ∈ ({{soleKeyChange 1}, {soleKeyChange 2}} :
      Finset (Finset CTxDestination))} (soleKeyChange 1) b → soleKeyChange 1 = b := by
    intro b hb
    induction hb with
    | single hab => exact hsame _ _ hab
    | tail _ hbc ih => exact ih.trans (hsame _ _ hbc)
  exact absurd (hchain _ h) (by decide)

end Bitmark

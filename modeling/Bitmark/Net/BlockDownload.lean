import Mathlib.Data.Finmap
import Bitmark.Base.Word
import Bitmark.Lib.Registry

/-!
# Block-download bookkeeping

The queues of blocks to be requested from each peer and of blocks in flight, with the two maps
that hold iterators into them (`src/main.cpp:115–131`, `src/main.cpp:205–320` and the getdata loop
of `src/main.cpp:4854`). A `std::list` iterator is the number of the node it points at; numbers are
never used twice, and erasing at a number that is not in the list is a fault.
-/

namespace Bitmark

/-- `NodeId`, `src/net.h:47`. -/
abbrev NodeId := Int

/-- `MAX_BLOCKS_IN_TRANSIT_PER_PEER`, `src/main.h:64`. -/
def maxBlocksInTransitPerPeer : Nat := 128

/-- `QueuedBlock`, `src/main.cpp:124`. -/
structure QueuedBlock where
  hash : Uint256
  nTime : Int
  nQueuedBefore : Int
deriving DecidableEq, Repr

/-- `CNodeState`, `src/main.cpp:205`, without its list of rejections. -/
structure CNodeState where
  name : String := ""
  nMisbehavior : Int := 0
  fShouldBan : Bool := false
  vBlocksInFlight : List (Nat × QueuedBlock) := []
  nBlocksInFlight : Int := 0
  vBlocksToDownload : List (Nat × Uint256) := []
  nBlocksToDownload : Int := 0
  nLastBlockReceive : Int := 0
deriving DecidableEq, Repr

/-- What goes wrong on a path the code does not check. -/
inductive ListFault where
  /-- The state of an unknown peer is used, or its assertion fails. -/
  | nullState
  /-- An iterator does not point into the list. -/
  | danglingIterator
  /-- `front()` of an empty list. -/
  | emptyList
deriving DecidableEq, Repr

/-- `mapNodeState`, `mapBlocksInFlight` and `mapBlocksToDownload`, and the next list node. -/
structure BlockDownload where
  mapNodeState : Finmap fun _ : NodeId ↦ CNodeState
  mapBlocksInFlight : Finmap fun _ : Uint256 ↦ NodeId × Nat
  mapBlocksToDownload : Finmap fun _ : Uint256 ↦ NodeId × Nat
  nextIterator : Nat

namespace BlockDownload

/-- Before the first peer. -/
def empty : BlockDownload := ⟨∅, ∅, ∅, 0⟩

/-- `State(pnode)` where it is dereferenced. -/
def state (s : BlockDownload) (pnode : NodeId) : Except ListFault CNodeState :=
  match s.mapNodeState.lookup pnode with
  | some state => .ok state
  | none => .error .nullState

/-- `list.erase(it)`. -/
def eraseIterator {α : Type} (it : Nat) (l : List (Nat × α)) :
    Except ListFault (List (Nat × α)) :=
  if it ∈ l.map Prod.fst then .ok (Registry.eraseRef it l) else .error .danglingIterator

/-- `InitializeNode`, `src/main.cpp:248`. -/
def initializeNode (s : BlockDownload) (nodeid : NodeId) (addrName : String) : BlockDownload :=
  let state := (s.mapNodeState.lookup nodeid).getD {}
  { s with mapNodeState := s.mapNodeState.insert nodeid { state with name := addrName } }

/-- `FinalizeNode`, `src/main.cpp:254`; the orphan transactions of the peer are left out. -/
def finalizeNode (s : BlockDownload) (nodeid : NodeId) : Except ListFault BlockDownload := do
  let state ← s.state nodeid
  .ok { s with
    mapBlocksInFlight := state.vBlocksInFlight.foldl (fun m entry ↦ m.erase entry.2.hash)
      s.mapBlocksInFlight
    mapBlocksToDownload := state.vBlocksToDownload.foldl (fun m hash ↦ m.erase hash.2)
      s.mapBlocksToDownload
    mapNodeState := s.mapNodeState.erase nodeid }

/-- The first half of `MarkBlockAsReceived`: a block that waits to be requested. -/
def receiveQueued (s : BlockDownload) (hash : Uint256) : Except ListFault BlockDownload :=
  match s.mapBlocksToDownload.lookup hash with
  | none => .ok s
  | some (node, it) => do
    let state ← s.state node
    let vBlocksToDownload ← eraseIterator it state.vBlocksToDownload
    .ok { s with
      mapNodeState := s.mapNodeState.insert node
        { state with vBlocksToDownload, nBlocksToDownload := state.nBlocksToDownload - 1 }
      mapBlocksToDownload := s.mapBlocksToDownload.erase hash }

/-- The second half: a block in flight. -/
def receiveInFlight (s : BlockDownload) (now : Int) (hash : Uint256) (nodeFrom : NodeId) :
    Except ListFault BlockDownload :=
  match s.mapBlocksInFlight.lookup hash with
  | none => .ok s
  | some (node, it) => do
    let state ← s.state node
    let vBlocksInFlight ← eraseIterator it state.vBlocksInFlight
    .ok { s with
      mapNodeState := s.mapNodeState.insert node
        { state with
          vBlocksInFlight
          nBlocksInFlight := state.nBlocksInFlight - 1
          nLastBlockReceive := if node = nodeFrom then now else state.nLastBlockReceive }
      mapBlocksInFlight := s.mapBlocksInFlight.erase hash }

/-- `MarkBlockAsReceived`, `src/main.cpp:268`; `now` is `GetTimeMicros()`. -/
def markBlockAsReceived (s : BlockDownload) (now : Int) (hash : Uint256) (nodeFrom : NodeId := -1) :
    Except ListFault BlockDownload := do
  let s ← s.receiveQueued hash
  s.receiveInFlight now hash nodeFrom

/-- `Misbehaving`, `src/main.cpp:1250`; `banscore` is the argument of the node. -/
def misbehaving (s : BlockDownload) (banscore : Int) (pnode : NodeId) (howmuch : Int) :
    BlockDownload :=
  match s.mapNodeState.lookup pnode with
  | none => s
  | some state =>
    if howmuch = 0 then s
    else
      let nMisbehavior := state.nMisbehavior + howmuch
      { s with
        mapNodeState := s.mapNodeState.insert pnode
          { state with
            nMisbehavior
            fShouldBan := state.fShouldBan || decide (banscore ≤ nMisbehavior) } }

/-- `AddBlockToQueue`, `src/main.cpp:290`. -/
def addBlockToQueue (s : BlockDownload) (banscore : Int) (nodeid : NodeId) (hash : Uint256) :
    BlockDownload × Bool :=
  if hash ∈ s.mapBlocksToDownload ∨ hash ∈ s.mapBlocksInFlight then (s, false)
  else
    match s.mapNodeState.lookup nodeid with
    | none => (s, false)
    | some state =>
      let it := s.nextIterator
      let nBlocksToDownload := state.nBlocksToDownload + 1
      let s :=
        { s with
          nextIterator := it + 1
          mapNodeState := s.mapNodeState.insert nodeid
            { state with
              vBlocksToDownload := state.vBlocksToDownload ++ [(it, hash)]
              nBlocksToDownload } }
      let s := if 5000 < nBlocksToDownload then s.misbehaving banscore nodeid 10 else s
      ({ s with mapBlocksToDownload := s.mapBlocksToDownload.insert hash (nodeid, it) }, true)

/-- `MarkBlockAsInFlight`, `src/main.cpp:307`. The peer's state is found before the block is
taken out of the queues, and used after it. -/
def markBlockAsInFlight (s : BlockDownload) (now : Int) (nodeid : NodeId) (hash : Uint256) :
    Except ListFault BlockDownload := do
  let _ ← s.state nodeid
  let s ← s.markBlockAsReceived now hash
  let state ← s.state nodeid
  let newentry : QueuedBlock := ⟨hash, now, state.nBlocksInFlight⟩
  let it := s.nextIterator
  .ok { s with
    nextIterator := it + 1
    mapNodeState := s.mapNodeState.insert nodeid
      { state with
        nLastBlockReceive :=
          if state.nBlocksInFlight = 0 then newentry.nTime else state.nLastBlockReceive
        vBlocksInFlight := state.vBlocksInFlight ++ [(it, newentry)]
        nBlocksInFlight := state.nBlocksInFlight + 1 }
    mapBlocksInFlight := s.mapBlocksInFlight.insert hash (nodeid, it) }

/-- The getdata loop of `SendMessages`, `src/main.cpp:4854`, for a peer that is not being
disconnected, with the hashes it requests; `now` gives the times of its rounds. -/
def requestBlocks (pto : NodeId) :
    Nat → (Nat → Int) → BlockDownload → Except ListFault (BlockDownload × List Uint256)
  | 0, _, s => .ok (s, [])
  | fuel + 1, now, s => do
    let state ← s.state pto
    if state.nBlocksToDownload ≠ 0 ∧ state.nBlocksInFlight < maxBlocksInTransitPerPeer then
      match state.vBlocksToDownload with
      | [] => .error .emptyList
      | (_, hash) :: _ => do
        let s ← s.markBlockAsInFlight (now 0) pto hash
        let (s, hashes) ← requestBlocks pto fuel (fun i ↦ now (i + 1)) s
        .ok (s, hash :: hashes)
    else .ok (s, [])

end BlockDownload

/-- The calls that touch the bookkeeping. -/
inductive DownloadOp where
  | initializeNode (nodeid : NodeId) (addrName : String)
  | finalizeNode (nodeid : NodeId)
  | addBlockToQueue (banscore : Int) (nodeid : NodeId) (hash : Uint256)
  | markBlockAsInFlight (now : Int) (nodeid : NodeId) (hash : Uint256)
  | markBlockAsReceived (now : Int) (hash : Uint256) (nodeFrom : NodeId)
  | requestBlocks (now : Nat → Int) (pto : NodeId)

/-- The peer whose state a call uses without looking whether it is known. -/
def DownloadOp.dereferences : DownloadOp → Option NodeId
  | .finalizeNode nodeid => some nodeid
  | .markBlockAsInFlight _ nodeid _ => some nodeid
  | .requestBlocks _ pto => some pto
  | .initializeNode .. | .addBlockToQueue .. | .markBlockAsReceived .. => none

namespace BlockDownload

/-- One call. No peer has more than `maxBlocksInTransitPerPeer` blocks requested in one loop. -/
def step (s : BlockDownload) : DownloadOp → Except ListFault BlockDownload
  | .initializeNode nodeid addrName => .ok (s.initializeNode nodeid addrName)
  | .finalizeNode nodeid => s.finalizeNode nodeid
  | .addBlockToQueue banscore nodeid hash => .ok (s.addBlockToQueue banscore nodeid hash).1
  | .markBlockAsInFlight now nodeid hash => s.markBlockAsInFlight now nodeid hash
  | .markBlockAsReceived now hash nodeFrom => s.markBlockAsReceived now hash nodeFrom
  | .requestBlocks now pto => (·.1) <$> s.requestBlocks pto maxBlocksInTransitPerPeer now

/-- A sequence of calls. -/
def run (s : BlockDownload) (ops : List DownloadOp) : Except ListFault BlockDownload :=
  ops.foldlM step s

/-! ### The invariant -/

/-- The queues of the known peers. -/
def queues (s : BlockDownload) (node : NodeId) : Option (List (Nat × Uint256)) :=
  (s.mapNodeState.lookup node).map (·.vBlocksToDownload)

/-- The blocks in flight of the known peers. -/
def flights (s : BlockDownload) (node : NodeId) : Option (List (Nat × QueuedBlock)) :=
  (s.mapNodeState.lookup node).map (·.vBlocksInFlight)

/-- A peer's counters are the lengths of its lists, whose nodes were all made before `next`. -/
structure Tidy (next : Nat) (state : CNodeState) : Prop where
  countToDownload : state.nBlocksToDownload = state.vBlocksToDownload.length
  countInFlight : state.nBlocksInFlight = state.vBlocksInFlight.length
  madeToDownload : ∀ p ∈ state.vBlocksToDownload, p.1 < next
  madeInFlight : ∀ p ∈ state.vBlocksInFlight, p.1 < next

/-- Both maps lead exactly to the listed blocks, no block is in both, and all peers are tidy. -/
structure Booked (s : BlockDownload) : Prop where
  toDownload : Registry.Exact id s.queues fun hash ↦ s.mapBlocksToDownload.lookup hash
  inFlight : Registry.Exact QueuedBlock.hash s.flights fun hash ↦ s.mapBlocksInFlight.lookup hash
  apart : ∀ hash, s.mapBlocksToDownload.lookup hash = none ∨ s.mapBlocksInFlight.lookup hash = none
  tidy : ∀ node state, s.mapNodeState.lookup node = some state → Tidy s.nextIterator state

variable {s s' : BlockDownload} {node : NodeId} {hash : Uint256}

theorem lookup_insert_eq_update {α β : Type} [DecidableEq α] (m : Finmap fun _ : α ↦ β) (a : α)
    (b : β) : (fun x ↦ (m.insert a b).lookup x) = Function.update (fun x ↦ m.lookup x) a (some b) := by
  ext1 x
  by_cases h : x = a
  · subst h
    rw [Finmap.lookup_insert, Function.update_self]
  · rw [Finmap.lookup_insert_of_ne m h, Function.update_of_ne h]

theorem lookup_erase_eq_update {α β : Type} [DecidableEq α] (m : Finmap fun _ : α ↦ β) (a : α) :
    (fun x ↦ (m.erase a).lookup x) = Function.update (fun x ↦ m.lookup x) a none := by
  ext1 x
  by_cases h : x = a
  · subst h
    rw [Finmap.lookup_erase, Function.update_self]
  · rw [Finmap.lookup_erase_ne h, Function.update_of_ne h]

/-- The lists after a peer's state is replaced. -/
theorem queues_insert {state : CNodeState}
    (h : s'.mapNodeState = s.mapNodeState.insert node state) :
    s'.queues = Function.update s.queues node (some state.vBlocksToDownload) := by
  ext1 n
  rw [queues, h]
  by_cases hn : n = node
  · subst hn
    rw [Finmap.lookup_insert, Function.update_self, Option.map_some]
  · rw [Finmap.lookup_insert_of_ne _ hn, Function.update_of_ne hn, queues]

theorem flights_insert {state : CNodeState}
    (h : s'.mapNodeState = s.mapNodeState.insert node state) :
    s'.flights = Function.update s.flights node (some state.vBlocksInFlight) := by
  ext1 n
  rw [flights, h]
  by_cases hn : n = node
  · subst hn
    rw [Finmap.lookup_insert, Function.update_self, Option.map_some]
  · rw [Finmap.lookup_insert_of_ne _ hn, Function.update_of_ne hn, flights]

/-- A list that the replacement keeps. -/
theorem queues_insert_same {state state' : CNodeState}
    (hstate : s.mapNodeState.lookup node = some state)
    (h : s'.mapNodeState = s.mapNodeState.insert node state')
    (hsame : state'.vBlocksToDownload = state.vBlocksToDownload) : s'.queues = s.queues := by
  rw [queues_insert h, hsame, Function.update_eq_iff]
  exact ⟨by rw [queues, hstate]; rfl, fun n _ ↦ rfl⟩

theorem flights_insert_same {state state' : CNodeState}
    (hstate : s.mapNodeState.lookup node = some state)
    (h : s'.mapNodeState = s.mapNodeState.insert node state')
    (hsame : state'.vBlocksInFlight = state.vBlocksInFlight) : s'.flights = s.flights := by
  rw [flights_insert h, hsame, Function.update_eq_iff]
  exact ⟨by rw [flights, hstate]; rfl, fun n _ ↦ rfl⟩

private theorem tidy_insert {m : Finmap fun _ : NodeId ↦ CNodeState} {next next' : Nat}
    (h : ∀ node state, m.lookup node = some state → Tidy next state) (hnext : next ≤ next')
    {state : CNodeState} (hstate : Tidy next' state) :
    ∀ n st, (m.insert node state).lookup n = some st → Tidy next' st := by
  intro n st hst
  by_cases hn : n = node
  · subst hn
    rw [Finmap.lookup_insert] at hst
    obtain rfl := Option.some.inj hst
    exact hstate
  · rw [Finmap.lookup_insert_of_ne m hn] at hst
    obtain ⟨h₁, h₂, h₃, h₄⟩ := h n st hst
    exact ⟨h₁, h₂, fun p hp ↦ (h₃ p hp).trans_le hnext, fun p hp ↦ (h₄ p hp).trans_le hnext⟩

theorem state_eq_ok {state : CNodeState} (h : s.mapNodeState.lookup node = some state) :
    s.state node = .ok state := by
  rw [BlockDownload.state, h]

theorem eraseIterator_eq_ok {α : Type} {it : Nat} {l : List (Nat × α)} {a : α} (h : (it, a) ∈ l) :
    eraseIterator it l = .ok (Registry.eraseRef it l) :=
  if_pos (List.mem_map_of_mem h)

/-! ### One call -/

theorem booked_empty : empty.Booked where
  toDownload := Registry.exact_empty
  inFlight := Registry.exact_empty
  apart := fun hash ↦ .inl (Finmap.lookup_empty hash)
  tidy := by
    intro node state h
    rw [empty, Finmap.lookup_empty] at h
    cases h

/-- What both halves of `MarkBlockAsReceived` keep: the peers that are known. -/
def SamePeers (s s' : BlockDownload) : Prop :=
  ∀ node, (s'.mapNodeState.lookup node).isSome = (s.mapNodeState.lookup node).isSome

private theorem samePeers_insert {state state' : CNodeState}
    (h : s.mapNodeState.lookup node = some state) :
    ∀ n, ((s.mapNodeState.insert node state').lookup n).isSome =
      (s.mapNodeState.lookup n).isSome := by
  intro n
  by_cases hn : n = node
  · subst hn
    rw [Finmap.lookup_insert, h]
    rfl
  · rw [Finmap.lookup_insert_of_ne _ hn]

theorem lookup_erase_eq_none {α β : Type} [DecidableEq α] {m : Finmap fun _ : α ↦ β} {a b : α}
    (h : m.lookup a = none) : (m.erase b).lookup a = none := by
  by_cases hab : a = b
  · subst hab
    exact Finmap.lookup_erase a m
  · rw [Finmap.lookup_erase_ne hab, h]

/-- A block that waits is found through its iterator and taken out. -/
theorem Booked.receiveQueued (h : s.Booked) (hash : Uint256) :
    ∃ s', s.receiveQueued hash = .ok s' ∧ s'.Booked ∧ SamePeers s s' ∧
      s'.mapBlocksToDownload.lookup hash = none ∧ s'.mapBlocksInFlight = s.mapBlocksInFlight := by
  rw [BlockDownload.receiveQueued]
  cases hlookup : s.mapBlocksToDownload.lookup hash with
  | none => exact ⟨s, rfl, h, fun _ ↦ rfl, hlookup, rfl⟩
  | some entry =>
    obtain ⟨node, it⟩ := entry
    obtain ⟨l, hl, e, hmem, rfl⟩ := (h.toDownload.index_iff hash node it).mp hlookup
    obtain ⟨state, hstate, rfl⟩ := Option.map_eq_some_iff.mp hl
    have htidy := h.tidy node state hstate
    have hnodup := h.toDownload.refs_nodup node _ hl
    have hlen := Registry.length_eraseRef hmem
    simp only [state_eq_ok hstate, eraseIterator_eq_ok hmem, bind, Except.bind]
    refine ⟨_, rfl, ⟨?_, ?_, ?_, ?_⟩, samePeers_insert hstate, Finmap.lookup_erase _ _, rfl⟩
    · rw [queues_insert rfl, lookup_erase_eq_update]
      exact h.toDownload.remove hlookup hl
    · rw [flights_insert_same hstate (by rfl) (by rfl)]
      exact h.inFlight
    · intro k
      exact (h.apart k).imp_left lookup_erase_eq_none
    · refine tidy_insert h.tidy le_rfl ⟨?_, htidy.countInFlight, ?_, htidy.madeInFlight⟩
      · have := htidy.countToDownload
        change state.nBlocksToDownload - 1 = ((Registry.eraseRef it state.vBlocksToDownload).length : Int)
        omega
      · exact fun p hp ↦ htidy.madeToDownload p ((Registry.mem_eraseRef hnodup).mp hp).1

/-- So is a block in flight. -/
theorem Booked.receiveInFlight (h : s.Booked) (now : Int) (hash : Uint256) (nodeFrom : NodeId) :
    ∃ s', s.receiveInFlight now hash nodeFrom = .ok s' ∧ s'.Booked ∧ SamePeers s s' ∧
      s'.mapBlocksInFlight.lookup hash = none ∧
      s'.mapBlocksToDownload = s.mapBlocksToDownload ∧
      (s.mapBlocksInFlight.lookup hash = none → s' = s) := by
  rw [BlockDownload.receiveInFlight]
  cases hlookup : s.mapBlocksInFlight.lookup hash with
  | none => exact ⟨s, rfl, h, fun _ ↦ rfl, hlookup, rfl, fun _ ↦ rfl⟩
  | some entry =>
    obtain ⟨node, it⟩ := entry
    obtain ⟨l, hl, e, hmem, rfl⟩ := (h.inFlight.index_iff hash node it).mp hlookup
    obtain ⟨state, hstate, rfl⟩ := Option.map_eq_some_iff.mp hl
    have htidy := h.tidy node state hstate
    have hnodup := h.inFlight.refs_nodup node _ hl
    have hlen := Registry.length_eraseRef hmem
    simp only [state_eq_ok hstate, eraseIterator_eq_ok hmem, bind, Except.bind]
    refine ⟨_, rfl, ⟨?_, ?_, ?_, ?_⟩, samePeers_insert hstate, Finmap.lookup_erase _ _, rfl, by simp⟩
    · rw [queues_insert_same hstate (by rfl) (by rfl)]
      exact h.toDownload
    · rw [flights_insert rfl, lookup_erase_eq_update]
      exact h.inFlight.remove hlookup hl
    · intro k
      exact (h.apart k).imp_right lookup_erase_eq_none
    · refine tidy_insert h.tidy le_rfl ⟨htidy.countToDownload, ?_, htidy.madeToDownload, ?_⟩
      · have := htidy.countInFlight
        change state.nBlocksInFlight - 1 = ((Registry.eraseRef it state.vBlocksInFlight).length : Int)
        omega
      · exact fun p hp ↦ htidy.madeInFlight p ((Registry.mem_eraseRef hnodup).mp hp).1

/-- `MarkBlockAsReceived` leaves the block in neither map. -/
theorem Booked.markBlockAsReceived (h : s.Booked) (now : Int) (hash : Uint256) (nodeFrom : NodeId) :
    ∃ s', s.markBlockAsReceived now hash nodeFrom = .ok s' ∧ s'.Booked ∧ SamePeers s s' ∧
      s'.mapBlocksToDownload.lookup hash = none ∧ s'.mapBlocksInFlight.lookup hash = none := by
  obtain ⟨s₁, h₁, hbooked₁, hpeers₁, hnone₁, -⟩ := h.receiveQueued hash
  obtain ⟨s₂, h₂, hbooked₂, hpeers₂, hnone₂, hsame₂, -⟩ := hbooked₁.receiveInFlight now hash nodeFrom
  refine ⟨s₂, ?_, hbooked₂, fun n ↦ (hpeers₂ n).trans (hpeers₁ n), ?_, hnone₂⟩
  · rw [BlockDownload.markBlockAsReceived, h₁]
    exact h₂
  · rw [hsame₂, hnone₁]

theorem Booked.initializeNode (h : s.Booked) (nodeid : NodeId) (addrName : String) :
    (s.initializeNode nodeid addrName).Booked := by
  cases hlookup : s.mapNodeState.lookup nodeid with
  | none =>
    refine ⟨?_, ?_, h.apart, ?_⟩
    · rw [queues_insert rfl, hlookup]
      exact h.toDownload.open (by rw [queues, hlookup]; rfl)
    · rw [flights_insert rfl, hlookup]
      exact h.inFlight.open (by rw [flights, hlookup]; rfl)
    · refine tidy_insert h.tidy le_rfl ?_
      rw [hlookup]
      exact ⟨rfl, rfl, by simp, by simp⟩
  | some state =>
    have hget : (s.mapNodeState.lookup nodeid).getD {} = state := by rw [hlookup]; rfl
    refine ⟨?_, ?_, h.apart, ?_⟩
    · rw [queues_insert_same hlookup rfl (by rw [hget])]
      exact h.toDownload
    · rw [flights_insert_same hlookup rfl (by rw [hget])]
      exact h.inFlight
    · have htidy := h.tidy nodeid state hlookup
      refine tidy_insert h.tidy le_rfl ?_
      rw [hget]
      exact ⟨htidy.countToDownload, htidy.countInFlight, htidy.madeToDownload, htidy.madeInFlight⟩

/-- Erasing the keys of a list. -/
theorem lookup_foldl_erase {α β γ : Type} [DecidableEq α] (f : γ → α) (l : List γ)
    (m : Finmap fun _ : α ↦ β) (a : α) :
    (l.foldl (fun m c ↦ m.erase (f c)) m).lookup a =
      if a ∈ l.map f then none else m.lookup a := by
  induction l generalizing m with
  | nil => simp
  | cons c l ih =>
    rw [List.foldl_cons, ih, List.map_cons]
    by_cases hmem : a ∈ l.map f
    · rw [if_pos hmem, if_pos (List.mem_cons_of_mem _ hmem)]
    · by_cases hc : a = f c
      · rw [if_neg hmem, if_pos (by simp [hc]), hc, Finmap.lookup_erase]
      · rw [if_neg hmem, if_neg (by simp [hc, hmem]), Finmap.lookup_erase_ne hc]

theorem Booked.finalizeNode (h : s.Booked) {nodeid : NodeId} (hs : s.finalizeNode nodeid = .ok s') :
    s'.Booked := by
  cases hlookup : s.mapNodeState.lookup nodeid with
  | none =>
    rw [BlockDownload.finalizeNode, BlockDownload.state, hlookup] at hs
    cases hs
  | some state =>
    rw [BlockDownload.finalizeNode, state_eq_ok hlookup] at hs
    obtain rfl := Except.ok.inj hs
    have hqueues : s.queues nodeid = some state.vBlocksToDownload := by rw [queues, hlookup]; rfl
    have hflights : s.flights nodeid = some state.vBlocksInFlight := by rw [flights, hlookup]; rfl
    have hgone : ∀ {α : Type} (f : CNodeState → α),
        (fun n ↦ ((s.mapNodeState.erase nodeid).lookup n).map f) =
          Function.update (fun n ↦ (s.mapNodeState.lookup n).map f) nodeid none := by
      intro α f
      ext1 n
      by_cases hn : n = nodeid
      · subst hn
        rw [Finmap.lookup_erase, Function.update_self]
        rfl
      · rw [Finmap.lookup_erase_ne hn, Function.update_of_ne hn]
    refine ⟨?_, ?_, ?_, ?_⟩
    · change Registry.Exact id (fun n ↦ ((s.mapNodeState.erase nodeid).lookup n).map _) _
      rw [hgone]
      refine h.toDownload.close hqueues ?_ ?_
      · intro p hp
        have hmem : id p.2 ∈ state.vBlocksToDownload.map fun hash ↦ hash.2 :=
          List.mem_map.mpr ⟨p, hp, rfl⟩
        rw [lookup_foldl_erase (fun hash : Nat × Uint256 ↦ hash.2), if_pos hmem]
      · intro k hk
        rw [lookup_foldl_erase (fun hash : Nat × Uint256 ↦ hash.2), if_neg]
        rw [List.mem_map]
        rintro ⟨p, hp, hpk⟩
        exact hk p hp hpk
    · change Registry.Exact _ (fun n ↦ ((s.mapNodeState.erase nodeid).lookup n).map _) _
      rw [hgone]
      refine h.inFlight.close hflights ?_ ?_
      · intro p hp
        have hmem : p.2.hash ∈ state.vBlocksInFlight.map fun entry ↦ entry.2.hash :=
          List.mem_map.mpr ⟨p, hp, rfl⟩
        rw [lookup_foldl_erase (fun entry : Nat × QueuedBlock ↦ entry.2.hash), if_pos hmem]
      · intro k hk
        rw [lookup_foldl_erase (fun entry : Nat × QueuedBlock ↦ entry.2.hash), if_neg]
        rw [List.mem_map]
        rintro ⟨p, hp, hpk⟩
        exact hk p hp hpk
    · intro k
      refine (h.apart k).imp (fun hk ↦ ?_) fun hk ↦ ?_
      · rw [lookup_foldl_erase (fun hash : Nat × Uint256 ↦ hash.2), hk, ite_self]
      · rw [lookup_foldl_erase (fun entry : Nat × QueuedBlock ↦ entry.2.hash), hk, ite_self]
    · intro n st hst
      by_cases hn : n = nodeid
      · subst hn
        rw [Finmap.lookup_erase] at hst
        cases hst
      · rw [Finmap.lookup_erase_ne hn] at hst
        exact h.tidy n st hst

/-- `Misbehaving` touches no list and no counter. -/
theorem Booked.misbehaving (h : s.Booked) (banscore : Int) (pnode : NodeId) (howmuch : Int) :
    (s.misbehaving banscore pnode howmuch).Booked := by
  unfold BlockDownload.misbehaving
  split
  · exact h
  · next state hstate =>
    split
    · exact h
    · have htidy := h.tidy pnode state hstate
      refine ⟨?_, ?_, h.apart, tidy_insert h.tidy le_rfl ⟨htidy.countToDownload,
        htidy.countInFlight, htidy.madeToDownload, htidy.madeInFlight⟩⟩
      · rw [queues_insert_same hstate (by rfl) (by rfl)]
        exact h.toDownload
      · rw [flights_insert_same hstate (by rfl) (by rfl)]
        exact h.inFlight

private theorem lists_of_lookup {state : CNodeState}
    (h : s.mapNodeState.lookup node = some state) : s.queues node = some state.vBlocksToDownload ∧
      s.flights node = some state.vBlocksInFlight := by
  rw [queues, flights, h]
  exact ⟨rfl, rfl⟩

/-- The number of the next list node is not in a tidy list. -/
private theorem next_notMem {α : Type} {l : List (Nat × α)} {next : Nat} (h : ∀ p ∈ l, p.1 < next) :
    next ∉ l.map Prod.fst := by
  intro hmem
  obtain ⟨p, hp, rfl⟩ := List.mem_map.mp hmem
  exact (h p hp).ne rfl

private theorem made_append {α : Type} {l : List (Nat × α)} {next : Nat} (h : ∀ p ∈ l, p.1 < next)
    (a : α) : ∀ p ∈ l ++ [(next, a)], p.1 < next + 1 := by
  intro p hp
  rcases List.mem_append.mp hp with hp | hp
  · exact (h p hp).trans next.lt_succ_self
  · rw [List.mem_singleton.mp hp]
    exact next.lt_succ_self

theorem misbehaving_mapBlocksToDownload (banscore : Int) (pnode : NodeId) (howmuch : Int) :
    (s.misbehaving banscore pnode howmuch).mapBlocksToDownload = s.mapBlocksToDownload := by
  unfold BlockDownload.misbehaving
  split
  · rfl
  · split <;> rfl

/-- The map entry can be made before the penalty, which touches the peers' scores only. -/
private theorem misbehaving_insert (banscore : Int) (pnode : NodeId) (howmuch : Int)
    (m : Finmap fun _ : Uint256 ↦ NodeId × Nat) :
    { s.misbehaving banscore pnode howmuch with mapBlocksToDownload := m } =
      BlockDownload.misbehaving { s with mapBlocksToDownload := m } banscore pnode howmuch := by
  unfold BlockDownload.misbehaving
  dsimp only
  split
  · rfl
  · split <;> rfl

theorem Booked.addBlockToQueue (h : s.Booked) (banscore : Int) (nodeid : NodeId) (hash : Uint256) :
    (s.addBlockToQueue banscore nodeid hash).1.Booked := by
  unfold BlockDownload.addBlockToQueue
  split
  · exact h
  · next hnew =>
    rw [not_or, ← Finmap.lookup_eq_none, ← Finmap.lookup_eq_none] at hnew
    split
    · exact h
    · next state hstate =>
      have htidy := h.tidy nodeid state hstate
      have hcount := htidy.countToDownload
      obtain ⟨hqueue, -⟩ := lists_of_lookup hstate
      -- the state with the list element and the map entry, before the penalty
      have hadded : Booked
          { s with
            nextIterator := s.nextIterator + 1
            mapNodeState := s.mapNodeState.insert nodeid
              { state with
                vBlocksToDownload := state.vBlocksToDownload ++ [(s.nextIterator, hash)]
                nBlocksToDownload := state.nBlocksToDownload + 1 }
            mapBlocksToDownload := s.mapBlocksToDownload.insert hash (nodeid, s.nextIterator) } := by
        refine ⟨?_, ?_, ?_, ?_⟩
        · rw [queues_insert rfl, lookup_insert_eq_update]
          exact h.toDownload.add (e := hash) hqueue (next_notMem htidy.madeToDownload) hnew.1
        · rw [flights_insert_same hstate (by rfl) (by rfl)]
          exact h.inFlight
        · intro k
          by_cases hk : k = hash
          · subst hk
            exact .inr hnew.2
          · rw [Finmap.lookup_insert_of_ne _ hk]
            exact h.apart k
        · refine tidy_insert h.tidy (Nat.le_succ _)
            ⟨?_, htidy.countInFlight, made_append htidy.madeToDownload hash, ?_⟩
          · rw [List.length_append, List.length_singleton]
            push_cast
            omega
          · exact fun p hp ↦ (htidy.madeInFlight p hp).trans (Nat.lt_succ_self _)
      dsimp only
      split
      · rw [misbehaving_mapBlocksToDownload, misbehaving_insert]
        exact hadded.misbehaving banscore nodeid 10
      · exact hadded

/-- A block is moved in flight at a known peer, from wherever it was. -/
theorem Booked.markBlockAsInFlight (h : s.Booked) (now : Int) {nodeid : NodeId} (hash : Uint256)
    (hnode : (s.mapNodeState.lookup nodeid).isSome) :
    ∃ s', s.markBlockAsInFlight now nodeid hash = .ok s' ∧ s'.Booked ∧ SamePeers s s' := by
  obtain ⟨state₀, hstate₀⟩ := Option.isSome_iff_exists.mp hnode
  obtain ⟨s₁, hreceived, h₁, hpeers, hqueued, hflying⟩ := h.markBlockAsReceived now hash (-1)
  obtain ⟨state, hstate⟩ := Option.isSome_iff_exists.mp ((hpeers nodeid).trans hnode)
  have htidy := h₁.tidy nodeid state hstate
  have hcount := htidy.countInFlight
  obtain ⟨-, hflight⟩ := lists_of_lookup hstate
  simp only [BlockDownload.markBlockAsInFlight, state_eq_ok hstate₀, hreceived, state_eq_ok hstate,
    bind, Except.bind]
  refine ⟨_, rfl, ⟨?_, ?_, ?_, ?_⟩, fun n ↦ (samePeers_insert hstate n).trans (hpeers n)⟩
  · rw [queues_insert_same hstate (by rfl) (by rfl)]
    exact h₁.toDownload
  · rw [flights_insert rfl, lookup_insert_eq_update]
    exact h₁.inFlight.add (e := ⟨hash, now, state.nBlocksInFlight⟩) hflight
      (next_notMem htidy.madeInFlight) hflying
  · intro k
    by_cases hk : k = hash
    · subst hk
      exact .inl hqueued
    · rw [Finmap.lookup_insert_of_ne _ hk]
      exact h₁.apart k
  · refine tidy_insert h₁.tidy (Nat.le_succ _)
      ⟨htidy.countToDownload, ?_, ?_, made_append htidy.madeInFlight _⟩
    · rw [List.length_append, List.length_singleton]
      push_cast
      omega
    · exact fun p hp ↦ (htidy.madeToDownload p hp).trans (Nat.lt_succ_self _)

theorem markBlockAsInFlight_unknown (now : Int) {nodeid : NodeId} (hash : Uint256)
    (h : s.mapNodeState.lookup nodeid = none) :
    s.markBlockAsInFlight now nodeid hash = .error .nullState := by
  rw [BlockDownload.markBlockAsInFlight, BlockDownload.state, h]
  rfl

/-- The block at the front of the peer's own queue is not in flight anywhere, so its request
raises the peer's count of blocks in flight. -/
theorem Booked.markBlockAsInFlight_front (h : s.Booked) (now : Int) {pto : NodeId}
    {state : CNodeState} (hstate : s.mapNodeState.lookup pto = some state) {it : Nat}
    {rest : List (Nat × Uint256)} (hfront : state.vBlocksToDownload = (it, hash) :: rest)
    (hs : s.markBlockAsInFlight now pto hash = .ok s') :
    ∃ state', s'.mapNodeState.lookup pto = some state' ∧
      state'.nBlocksInFlight = state.nBlocksInFlight + 1 := by
  obtain ⟨hqueue, -⟩ := lists_of_lookup hstate
  have hmem : (it, hash) ∈ state.vBlocksToDownload := by
    rw [hfront]
    exact List.mem_cons_self
  have hqueued : s.mapBlocksToDownload.lookup hash = some (pto, it) :=
    (h.toDownload.index_iff hash pto it).mpr ⟨_, hqueue, hash, hmem, rfl⟩
  have hflying : s.mapBlocksInFlight.lookup hash = none := by
    refine (h.apart hash).resolve_left ?_
    rw [hqueued]
    exact Option.some_ne_none _
  simp only [BlockDownload.markBlockAsInFlight, BlockDownload.markBlockAsReceived,
    BlockDownload.receiveQueued, BlockDownload.receiveInFlight, BlockDownload.state, hstate, hqueued,
    eraseIterator_eq_ok hmem, hflying, bind, Except.bind, Finmap.lookup_insert] at hs
  obtain rfl := Except.ok.inj hs
  exact ⟨_, Finmap.lookup_insert _, rfl⟩

/-- `SendMessages` goes on requesting while this holds. -/
def Requesting (s : BlockDownload) (pto : NodeId) : Prop :=
  ∃ state, s.mapNodeState.lookup pto = some state ∧ state.nBlocksToDownload ≠ 0 ∧
    state.nBlocksInFlight < maxBlocksInTransitPerPeer

/-- The loop takes the front of a list that is not empty, and it ends by its own condition when the
rounds are as many as the peer may have blocks in flight. -/
theorem Booked.requestBlocks (h : s.Booked) (pto : NodeId) (fuel : Nat) (now : Nat → Int)
    {state : CNodeState} (hstate : s.mapNodeState.lookup pto = some state)
    (hfuel : maxBlocksInTransitPerPeer ≤ state.nBlocksInFlight + fuel) :
    ∃ s' hashes, s.requestBlocks pto fuel now = .ok (s', hashes) ∧ s'.Booked ∧
      ¬s'.Requesting pto := by
  induction fuel generalizing s now state with
  | zero =>
    refine ⟨s, [], rfl, h, ?_⟩
    rintro ⟨state', hstate', -, hlt⟩
    obtain rfl := Option.some.inj (hstate.symm.trans hstate')
    push_cast at hfuel
    omega
  | succ fuel ih =>
    by_cases hmore : state.nBlocksToDownload ≠ 0 ∧ state.nBlocksInFlight < maxBlocksInTransitPerPeer
    · have hcount := (h.tidy pto state hstate).countToDownload
      cases hlist : state.vBlocksToDownload with
      | nil =>
        rw [hlist] at hcount
        exact absurd hcount hmore.1
      | cons front rest =>
        obtain ⟨it, hash⟩ := front
        obtain ⟨s₁, hs₁, h₁, -⟩ := h.markBlockAsInFlight (now 0) hash (by rw [hstate]; rfl)
        obtain ⟨state₁, hstate₁, hflying₁⟩ := h.markBlockAsInFlight_front (now 0) hstate hlist hs₁
        obtain ⟨s₂, hashes, hs₂, h₂, hdone⟩ :=
          ih h₁ (fun i ↦ now (i + 1)) hstate₁ (by push_cast at hfuel; omega)
        refine ⟨s₂, hash :: hashes, ?_, h₂, hdone⟩
        rw [BlockDownload.requestBlocks]
        simp only [state_eq_ok hstate, if_pos hmore, hlist, hs₁, hs₂, bind, Except.bind]
    · refine ⟨s, [], ?_, h, ?_⟩
      · rw [BlockDownload.requestBlocks]
        simp only [state_eq_ok hstate, if_neg hmore, bind, Except.bind]
      · rintro ⟨state', hstate', hmore'⟩
        obtain rfl := Option.some.inj (hstate.symm.trans hstate')
        exact hmore hmore'

/-- A call goes wrong at nothing but an unknown peer. -/
def FaultOf (s : BlockDownload) (op : DownloadOp) (fault : ListFault) : Prop :=
  fault = .nullState ∧ ∃ node, op.dereferences = some node ∧ s.mapNodeState.lookup node = none

/-- Step lemma. -/
theorem Booked.step (h : s.Booked) (op : DownloadOp) :
    (∃ s', s.step op = .ok s' ∧ s'.Booked) ∨ ∃ fault, s.step op = .error fault ∧ s.FaultOf op fault := by
  cases op with
  | initializeNode nodeid addrName => exact .inl ⟨_, rfl, h.initializeNode nodeid addrName⟩
  | addBlockToQueue banscore nodeid hash => exact .inl ⟨_, rfl, h.addBlockToQueue banscore nodeid hash⟩
  | markBlockAsReceived now hash nodeFrom =>
    obtain ⟨s', hs', h', -⟩ := h.markBlockAsReceived now hash nodeFrom
    exact .inl ⟨s', hs', h'⟩
  | finalizeNode nodeid =>
    cases hlookup : s.mapNodeState.lookup nodeid with
    | none =>
      refine .inr ⟨.nullState, ?_, rfl, nodeid, rfl, hlookup⟩
      rw [BlockDownload.step, BlockDownload.finalizeNode, BlockDownload.state, hlookup]
      rfl
    | some state =>
      have hs' : ∃ s', s.finalizeNode nodeid = .ok s' := by
        rw [BlockDownload.finalizeNode, state_eq_ok hlookup]
        exact ⟨_, rfl⟩
      obtain ⟨s', hs'⟩ := hs'
      exact .inl ⟨s', hs', h.finalizeNode hs'⟩
  | markBlockAsInFlight now nodeid hash =>
    cases hlookup : s.mapNodeState.lookup nodeid with
    | none =>
      exact .inr ⟨.nullState, markBlockAsInFlight_unknown now hash hlookup, rfl, nodeid, rfl, hlookup⟩
    | some state =>
      obtain ⟨s', hs', h', -⟩ := h.markBlockAsInFlight now hash (by rw [hlookup]; rfl)
      exact .inl ⟨s', hs', h'⟩
  | requestBlocks now pto =>
    cases hlookup : s.mapNodeState.lookup pto with
    | none =>
      refine .inr ⟨.nullState, ?_, rfl, pto, rfl, hlookup⟩
      rw [BlockDownload.step, maxBlocksInTransitPerPeer, BlockDownload.requestBlocks,
        BlockDownload.state, hlookup]
      rfl
    | some state =>
      have hcount := (h.tidy pto state hlookup).countInFlight
      obtain ⟨s', hashes, hs', h', -⟩ :=
        h.requestBlocks pto maxBlocksInTransitPerPeer now hlookup (by omega)
      exact .inl ⟨s', by rw [BlockDownload.step, hs']; rfl, h'⟩

theorem Booked.run (h : s.Booked) {ops : List DownloadOp} (hs : s.run ops = .ok s') : s'.Booked := by
  induction ops generalizing s with
  | nil =>
    obtain rfl := Except.ok.inj hs
    exact h
  | cons op ops ih =>
    rw [BlockDownload.run, List.foldlM_cons] at hs
    rcases h.step op with ⟨s₁, hs₁, h₁⟩ | ⟨fault, hfault, -⟩
    · rw [hs₁] at hs
      exact ih h₁ hs
    · rw [hfault] at hs
      cases hs

/-! ### The bookkeeping in the source's own terms -/

/-- Each block is in at most one map, each map entry leads to a live list element of the named peer
that holds the block, each list element has its map entry, and the counters are the lengths. -/
structure Consistent (s : BlockDownload) : Prop where
  one_map : ∀ hash, hash ∉ s.mapBlocksToDownload ∨ hash ∉ s.mapBlocksInFlight
  toDownload_live : ∀ hash node it, s.mapBlocksToDownload.lookup hash = some (node, it) →
    ∃ state, s.mapNodeState.lookup node = some state ∧ (it, hash) ∈ state.vBlocksToDownload
  inFlight_live : ∀ hash node it, s.mapBlocksInFlight.lookup hash = some (node, it) →
    ∃ state, s.mapNodeState.lookup node = some state ∧
      ∃ entry, (it, entry) ∈ state.vBlocksInFlight ∧ entry.hash = hash
  toDownload_listed : ∀ node state, s.mapNodeState.lookup node = some state →
    ∀ it hash, (it, hash) ∈ state.vBlocksToDownload →
      s.mapBlocksToDownload.lookup hash = some (node, it)
  inFlight_listed : ∀ node state, s.mapNodeState.lookup node = some state →
    ∀ it entry, (it, entry) ∈ state.vBlocksInFlight →
      s.mapBlocksInFlight.lookup entry.hash = some (node, it)
  toDownload_nodup : ∀ node state, s.mapNodeState.lookup node = some state →
    (state.vBlocksToDownload.map Prod.fst).Nodup
  inFlight_nodup : ∀ node state, s.mapNodeState.lookup node = some state →
    (state.vBlocksInFlight.map Prod.fst).Nodup
  countToDownload : ∀ node state, s.mapNodeState.lookup node = some state →
    state.nBlocksToDownload = state.vBlocksToDownload.length
  countInFlight : ∀ node state, s.mapNodeState.lookup node = some state →
    state.nBlocksInFlight = state.vBlocksInFlight.length

theorem Booked.consistent (h : s.Booked) : s.Consistent where
  one_map := by
    intro hash
    rw [← Finmap.lookup_eq_none, ← Finmap.lookup_eq_none]
    exact h.apart hash
  toDownload_live := by
    intro hash node it hlookup
    obtain ⟨l, hl, e, hmem, rfl⟩ := (h.toDownload.index_iff hash node it).mp hlookup
    obtain ⟨state, hstate, rfl⟩ := Option.map_eq_some_iff.mp hl
    exact ⟨state, hstate, hmem⟩
  inFlight_live := by
    intro hash node it hlookup
    obtain ⟨l, hl, e, hmem, rfl⟩ := (h.inFlight.index_iff hash node it).mp hlookup
    obtain ⟨state, hstate, rfl⟩ := Option.map_eq_some_iff.mp hl
    exact ⟨state, hstate, e, hmem, rfl⟩
  toDownload_listed := by
    intro node state hstate it hash hmem
    exact (h.toDownload.index_iff hash node it).mpr ⟨_, (lists_of_lookup hstate).1, hash, hmem, rfl⟩
  inFlight_listed := by
    intro node state hstate it entry hmem
    exact (h.inFlight.index_iff _ node it).mpr ⟨_, (lists_of_lookup hstate).2, entry, hmem, rfl⟩
  toDownload_nodup := fun node _ hstate ↦ h.toDownload.refs_nodup node _ (lists_of_lookup hstate).1
  inFlight_nodup := fun node _ hstate ↦ h.inFlight.refs_nodup node _ (lists_of_lookup hstate).2
  countToDownload := fun node state hstate ↦ (h.tidy node state hstate).countToDownload
  countInFlight := fun node state hstate ↦ (h.tidy node state hstate).countInFlight

/-- In every interleaving of the calls the bookkeeping stays consistent, and a call goes wrong only
where it uses the state of a peer that is not known. -/
theorem consistent_run (ops : List DownloadOp) :
    (∀ s, run empty ops = .ok s → s.Consistent) ∧
      ∀ s, run empty ops = .ok s → ∀ op fault, s.step op = .error fault → s.FaultOf op fault := by
  constructor
  · intro s hs
    exact (booked_empty.run hs).consistent
  · intro s hs op fault hfault
    rcases (booked_empty.run hs).step op with ⟨s', hs', -⟩ | ⟨fault', hfault', h⟩
    · rw [hs'] at hfault
      cases hfault
    · rw [hfault'] at hfault
      cases hfault
      exact h

/-- Two peers: the second asks for a block that waits in the first one's queue. -/
def twoPeers : List DownloadOp :=
  [.initializeNode 1 "", .initializeNode 2 "", .addBlockToQueue 100 1 7, .markBlockAsInFlight 0 2 7]

theorem consistent_run_twoPeers :
    ∃ s, run empty twoPeers = .ok s ∧ s.Consistent ∧
      ∃ fault, s.step (.finalizeNode 3) = .error fault ∧ s.FaultOf (.finalizeNode 3) fault :=
  ⟨_, rfl, (consistent_run twoPeers).1 _ rfl, _, rfl, (consistent_run twoPeers).2 _ rfl _ _ rfl⟩

end BlockDownload

end Bitmark

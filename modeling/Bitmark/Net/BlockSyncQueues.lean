import Bitmark.Net.BlockDownload
import Bitmark.Net.BlockSyncRuns

/-!
# The queues of a download in the bookkeeping

The node of `SyncClient` has one peer. What it does with its two lists is what the calls of
`BlockDownload` do with the lists of that peer.
-/

namespace Bitmark

namespace BlockDownload

/-- The only peer that is known, with the blocks that wait and those in flight. -/
structure OnlyPeer (s : BlockDownload) (node : NodeId) (queue flight : List Uint256) : Prop where
  booked : s.Booked
  queue : ∃ l, s.queues = Function.update (fun _ ↦ none) node (some l) ∧ l.map (·.2) = queue
  flight : ∃ l, s.flights = Function.update (fun _ ↦ none) node (some l) ∧
    l.map (·.2.hash) = flight

variable {s : BlockDownload} {node : NodeId} {hash : Uint256} {queue flight : List Uint256}

/-- The state of the peer. -/
theorem OnlyPeer.exists_state (h : s.OnlyPeer node queue flight) :
    ∃ state, s.mapNodeState.lookup node = some state ∧ state.vBlocksToDownload.map (·.2) = queue ∧
      state.vBlocksInFlight.map (·.2.hash) = flight := by
  obtain ⟨l, hl, hqueue⟩ := h.queue
  obtain ⟨l', hl', hflight⟩ := h.flight
  have hq := congrFun hl node
  have hf := congrFun hl' node
  rw [Function.update_self] at hq hf
  obtain ⟨state, hstate, rfl⟩ := Option.map_eq_some_iff.mp hq
  obtain ⟨state', hstate', rfl⟩ := Option.map_eq_some_iff.mp hf
  obtain rfl := Option.some.inj (hstate.symm.trans hstate')
  exact ⟨state, hstate, hqueue, hflight⟩

/-- The two maps have the listed blocks. -/
theorem OnlyPeer.lookup_queued (h : s.OnlyPeer node queue flight) :
    (s.mapBlocksToDownload.lookup hash).isSome ↔ hash ∈ queue := by
  obtain ⟨l, hl, rfl⟩ := h.queue
  exact h.booked.toDownload.isSome_iff hl

theorem OnlyPeer.lookup_flying (h : s.OnlyPeer node queue flight) :
    (s.mapBlocksInFlight.lookup hash).isSome ↔ hash ∈ flight := by
  obtain ⟨l, hl, rfl⟩ := h.flight
  exact h.booked.inFlight.isSome_iff hl

/-- A penalty leaves the lists. -/
theorem misbehaving_lists (banscore : Int) (pnode : NodeId) (howmuch : Int) :
    (s.misbehaving banscore pnode howmuch).queues = s.queues ∧
      (s.misbehaving banscore pnode howmuch).flights = s.flights := by
  unfold BlockDownload.misbehaving
  split
  · exact ⟨rfl, rfl⟩
  · next state hstate =>
    split
    · exact ⟨rfl, rfl⟩
    · exact ⟨queues_insert_same hstate rfl rfl, flights_insert_same hstate rfl rfl⟩

/-- A block is queued when it is in neither list. -/
theorem OnlyPeer.addBlockToQueue (h : s.OnlyPeer node queue flight) (banscore : Int)
    (hash : Uint256) :
    (s.addBlockToQueue banscore node hash).1.OnlyPeer node
      (if hash ∈ queue ∨ hash ∈ flight then queue else queue ++ [hash]) flight := by
  have hbooked := h.booked.addBlockToQueue banscore node hash
  have hlisted : hash ∈ s.mapBlocksToDownload ∨ hash ∈ s.mapBlocksInFlight ↔
      hash ∈ queue ∨ hash ∈ flight := by
    rw [← Finmap.lookup_isSome, ← Finmap.lookup_isSome, h.lookup_queued, h.lookup_flying]
  obtain ⟨state, hstate, hqueue, hflight⟩ := h.exists_state
  obtain ⟨l, hl, -⟩ := h.queue
  obtain ⟨l', hl', hmap'⟩ := h.flight
  by_cases hin : hash ∈ queue ∨ hash ∈ flight
  · have hsame : (s.addBlockToQueue banscore node hash).1 = s := by
      rw [BlockDownload.addBlockToQueue, if_pos (hlisted.mpr hin)]
    rw [if_pos hin, hsame]
    exact h
  · have hlists : (s.addBlockToQueue banscore node hash).1.queues = Function.update s.queues node
          (some (state.vBlocksToDownload ++ [(s.nextIterator, hash)])) ∧
        (s.addBlockToQueue banscore node hash).1.flights = s.flights := by
      rw [BlockDownload.addBlockToQueue, if_neg (mt hlisted.mp hin), hstate]
      dsimp only
      split
      · refine ⟨(misbehaving_lists banscore node 10).1.trans ?_,
          (misbehaving_lists banscore node 10).2.trans (flights_insert_same hstate rfl rfl)⟩
        rw [queues_insert rfl]
      · refine ⟨?_, flights_insert_same hstate rfl rfl⟩
        rw [queues_insert rfl]
    rw [if_neg hin]
    refine ⟨hbooked, ⟨state.vBlocksToDownload ++ [(s.nextIterator, hash)], ?_, ?_⟩,
      ⟨l', hlists.2.trans hl', hmap'⟩⟩
    · rw [hlists.1, hl, Function.update_idem]
    · rw [List.map_append, hqueue]
      rfl

/-- A block that waited is taken out of its list. -/
theorem OnlyPeer.receiveQueued (h : s.OnlyPeer node queue flight) (hash : Uint256) :
    ∃ s', s.receiveQueued hash = .ok s' ∧ s'.OnlyPeer node (queue.erase hash) flight := by
  obtain ⟨s', hs', hbooked, -⟩ := h.booked.receiveQueued hash
  refine ⟨s', hs', ?_⟩
  cases hlookup : s.mapBlocksToDownload.lookup hash with
  | none =>
    rw [BlockDownload.receiveQueued, hlookup] at hs'
    obtain rfl := Except.ok.inj hs'
    have hnot : hash ∉ queue := by
      rw [← h.lookup_queued, hlookup]
      exact Bool.false_ne_true
    rw [List.erase_of_not_mem hnot]
    exact h
  | some entry =>
    obtain ⟨o, it⟩ := entry
    obtain ⟨l, hl, rfl⟩ := h.queue
    obtain ⟨l', hl', hmap'⟩ := h.flight
    obtain ⟨l₀, hl₀, e, hmem, -⟩ := (h.booked.toDownload.index_iff hash o it).mp hlookup
    obtain rfl := h.booked.toDownload.owner_eq hl hlookup
    have hlist := congrFun hl o
    rw [Function.update_self] at hlist
    obtain rfl := Option.some.inj (hl₀.symm.trans hlist)
    obtain ⟨state, hstate, hstatelist⟩ := Option.map_eq_some_iff.mp hlist
    subst hstatelist
    simp only [BlockDownload.receiveQueued, hlookup, state_eq_ok hstate, eraseIterator_eq_ok hmem,
      bind, Except.bind] at hs'
    obtain rfl := Except.ok.inj hs'
    refine ⟨hbooked, ⟨_, ?_, Registry.map_eraseRef id
      (h.booked.toDownload.ref_iff hlookup hlist)⟩, ⟨l', ?_, hmap'⟩⟩
    · rw [queues_insert rfl, hl, Function.update_idem]
    · rw [flights_insert_same hstate (by rfl) (by rfl), hl']

/-- So is a block in flight. -/
theorem OnlyPeer.receiveInFlight (h : s.OnlyPeer node queue flight) (now : Int) (hash : Uint256)
    (nodeFrom : NodeId) :
    ∃ s', s.receiveInFlight now hash nodeFrom = .ok s' ∧
      s'.OnlyPeer node queue (flight.erase hash) := by
  obtain ⟨s', hs', hbooked, -⟩ := h.booked.receiveInFlight now hash nodeFrom
  refine ⟨s', hs', ?_⟩
  cases hlookup : s.mapBlocksInFlight.lookup hash with
  | none =>
    rw [BlockDownload.receiveInFlight, hlookup] at hs'
    obtain rfl := Except.ok.inj hs'
    have hnot : hash ∉ flight := by
      rw [← h.lookup_flying, hlookup]
      exact Bool.false_ne_true
    rw [List.erase_of_not_mem hnot]
    exact h
  | some entry =>
    obtain ⟨o, it⟩ := entry
    obtain ⟨l, hl, hmap⟩ := h.queue
    obtain ⟨l', hl', rfl⟩ := h.flight
    obtain ⟨l₀, hl₀, e, hmem, -⟩ := (h.booked.inFlight.index_iff hash o it).mp hlookup
    obtain rfl := h.booked.inFlight.owner_eq hl' hlookup
    have hlist := congrFun hl' o
    rw [Function.update_self] at hlist
    obtain rfl := Option.some.inj (hl₀.symm.trans hlist)
    obtain ⟨state, hstate, hstatelist⟩ := Option.map_eq_some_iff.mp hlist
    subst hstatelist
    simp only [BlockDownload.receiveInFlight, hlookup, state_eq_ok hstate, eraseIterator_eq_ok hmem,
      bind, Except.bind] at hs'
    obtain rfl := Except.ok.inj hs'
    refine ⟨hbooked, ⟨l, ?_, hmap⟩, ⟨_, ?_, Registry.map_eraseRef QueuedBlock.hash
      (h.booked.inFlight.ref_iff hlookup hlist)⟩⟩
    · rw [queues_insert_same hstate (by rfl) (by rfl), hl]
    · rw [flights_insert rfl, hl', Function.update_idem]

/-- A block that has arrived is in neither list. -/
theorem OnlyPeer.markBlockAsReceived (h : s.OnlyPeer node queue flight) (now : Int)
    (hash : Uint256) (nodeFrom : NodeId) :
    ∃ s', s.markBlockAsReceived now hash nodeFrom = .ok s' ∧
      s'.OnlyPeer node (queue.erase hash) (flight.erase hash) := by
  obtain ⟨s₁, hs₁, h₁⟩ := h.receiveQueued hash
  obtain ⟨s₂, hs₂, h₂⟩ := h₁.receiveInFlight now hash nodeFrom
  refine ⟨s₂, ?_, h₂⟩
  rw [BlockDownload.markBlockAsReceived, hs₁]
  exact hs₂

/-- A requested block is the last one in flight. -/
theorem OnlyPeer.markBlockAsInFlight (h : s.OnlyPeer node queue flight) (now : Int)
    (hash : Uint256) :
    ∃ s', s.markBlockAsInFlight now node hash = .ok s' ∧
      s'.OnlyPeer node (queue.erase hash) (flight.erase hash ++ [hash]) := by
  obtain ⟨state₀, hstate₀, -⟩ := h.exists_state
  obtain ⟨s', hs', hbooked, -⟩ := h.booked.markBlockAsInFlight now hash (by rw [hstate₀]; rfl)
  refine ⟨s', hs', ?_⟩
  obtain ⟨s₁, hs₁, h₁⟩ := h.markBlockAsReceived now hash (-1)
  obtain ⟨state, hstate, -, hflight⟩ := h₁.exists_state
  obtain ⟨l, hl, hmap⟩ := h₁.queue
  obtain ⟨l', hl', -⟩ := h₁.flight
  simp only [BlockDownload.markBlockAsInFlight, state_eq_ok hstate₀, hs₁, state_eq_ok hstate, bind,
    Except.bind] at hs'
  obtain rfl := Except.ok.inj hs'
  refine ⟨hbooked, ⟨l, ?_, hmap⟩, ⟨state.vBlocksInFlight ++
    [(s₁.nextIterator, ⟨hash, now, state.nBlocksInFlight⟩)], ?_, ?_⟩⟩
  · rw [queues_insert_same hstate (by rfl) (by rfl), hl]
  · rw [flights_insert rfl, hl', Function.update_idem]
  · rw [List.map_append, hflight]
    rfl

/-- The loop of `SendMessages` requests what `SyncClient` requests. -/
theorem OnlyPeer.requestBlocks (h : s.OnlyPeer node queue flight) (fuel : ℕ) (now : ℕ → Int)
    (hfuel : 128 ≤ flight.length + fuel) :
    ∃ s', s.requestBlocks node fuel now = .ok (s', (SyncClient.requestLoop queue flight).2.2) ∧
      s'.OnlyPeer node (SyncClient.requestLoop queue flight).1
        (SyncClient.requestLoop queue flight).2.1 := by
  induction fuel generalizing s queue flight now with
  | zero =>
    have hstop : SyncClient.requestLoop queue flight = (queue, flight, []) := by
      cases queue with
      | nil => rfl
      | cons hash queue =>
        rw [SyncClient.requestLoop]
        exact if_neg (by omega)
    rw [hstop]
    exact ⟨s, rfl, h⟩
  | succ fuel ih =>
    obtain ⟨state, hstate, hqueue, hflight⟩ := h.exists_state
    have htidy := h.booked.tidy node state hstate
    have hcount : state.nBlocksToDownload = queue.length := by
      rw [htidy.countToDownload, ← hqueue, List.length_map]
    have hflying : state.nBlocksInFlight = flight.length := by
      rw [htidy.countInFlight, ← hflight, List.length_map]
    rw [BlockDownload.requestBlocks]
    simp only [state_eq_ok hstate, hcount, hflying, bind, Except.bind]
    cases queue with
    | nil => exact ⟨s, rfl, h⟩
    | cons hash queue =>
      rw [SyncClient.requestLoop]
      by_cases hroom : flight.length < 128
      · have hmore : (((hash :: queue).length : ℕ) : Int) ≠ 0 ∧
            (flight.length : Int) < (maxBlocksInTransitPerPeer : ℕ) := by
          rw [maxBlocksInTransitPerPeer, List.length_cons]
          omega
        have hnot : hash ∉ flight := by
          rw [← h.lookup_flying]
          rcases h.booked.apart hash with hnone | hnone
          · have hsome := h.lookup_queued.mpr (List.mem_cons_self (a := hash) (l := queue))
            rw [hnone] at hsome
            cases hsome
          · rw [hnone]
            exact Bool.false_ne_true
        obtain ⟨s₁, hs₁, h₁⟩ := h.markBlockAsInFlight (now 0) hash
        rw [List.erase_cons_head] at h₁
        have hlength : (flight.erase hash ++ [hash]).length = flight.length + 1 := by
          rw [List.erase_of_not_mem hnot, List.length_append, List.length_singleton]
        obtain ⟨s₂, hs₂, h₂⟩ := ih h₁ (fun i ↦ now (i + 1)) (by omega)
        obtain ⟨front, rest, hlist, hfront, -⟩ := List.map_eq_cons_iff.mp hqueue
        rw [if_pos hmore, if_pos hroom, hlist]
        obtain ⟨it, hash'⟩ := front
        obtain rfl : hash' = hash := hfront
        simp only [hs₁, hs₂]
        exact ⟨s₂, rfl, h₂⟩
      · have hless : ¬((((hash :: queue).length : ℕ) : Int) ≠ 0 ∧
            (flight.length : Int) < (maxBlocksInTransitPerPeer : ℕ)) := by
          rw [maxBlocksInTransitPerPeer]
          omega
        rw [if_neg hless, if_neg hroom]
        exact ⟨s, rfl, h⟩

theorem run_append {s' s'' : BlockDownload} {ops ops' : List DownloadOp} (h : s.run ops = .ok s')
    (h' : s'.run ops' = .ok s'') : s.run (ops ++ ops') = .ok s'' := by
  rw [BlockDownload.run] at h
  rw [BlockDownload.run, List.foldlM_append, h]
  exact h'

theorem run_singleton {s' : BlockDownload} {op : DownloadOp} (h : s.step op = .ok s') :
    s.run [op] = .ok s' := by
  rw [BlockDownload.run, List.foldlM_cons, h]
  rfl

/-- The only peer when it has just connected. -/
theorem onlyPeer_initializeNode (node : NodeId) (addrName : String) :
    (empty.initializeNode node addrName).OnlyPeer node [] [] := by
  have hlookup : empty.mapNodeState.lookup node = none := Finmap.lookup_empty node
  have hinsert : (empty.initializeNode node addrName).mapNodeState =
      empty.mapNodeState.insert node { name := addrName } := by
    rw [BlockDownload.initializeNode, hlookup]
    rfl
  have hqueues : empty.queues = fun _ ↦ none := by
    ext1 n
    rw [queues, empty, Finmap.lookup_empty, Option.map_none]
  have hflights : empty.flights = fun _ ↦ none := by
    ext1 n
    rw [flights, empty, Finmap.lookup_empty, Option.map_none]
  refine ⟨booked_empty.initializeNode node addrName, ⟨[], ?_, rfl⟩, ⟨[], ?_, rfl⟩⟩
  · rw [queues_insert hinsert, hqueues]
  · rw [flights_insert hinsert, hflights]

end BlockDownload

/-! ### The calls of a run -/

variable {β : Type} [DecidableEq β] {T : BlockTree β Uint256}

/-- The calls that the entries of an inventory lead to. -/
def SyncClient.invCalls (banscore : Int) (node : NodeId) :
    SyncClient T → List Uint256 → List DownloadOp
  | _, [] => []
  | c, hash :: vInv =>
    let alreadyHave := c.mapOrphanBlocks.any (T.getBlockHash · = hash) ||
      c.mapBlockIndex.any (T.getBlockHash · = hash)
    (if alreadyHave then [] else [.addBlockToQueue banscore node hash]) ++
      invCalls banscore node (c.receiveInv hash).1 vInv

/-- The calls that a step leads to; `now` gives the times of its calls. -/
def SyncNet.calls (banscore : Int) (node : NodeId) (now : ℕ → Int) (net : SyncNet T) :
    SyncAction → List DownloadOp
  | .clientReceives =>
    match net.toClient with
    | .inv vInv :: _ => net.client.invCalls banscore node vInv
    | .block b :: _ => [.markBlockAsReceived (now 0) (T.getBlockHash b) node]
    | _ => []
  | .request => [.requestBlocks now node]
  | .startSync | .serverReceives | .serve | .announce => []

/-- The calls of a run. -/
def SyncNet.runCalls (banscore : Int) (node : NodeId) :
    (ℕ → ℕ → Int) → SyncNet T → List SyncAction → List DownloadOp
  | _, _, [] => []
  | now, net, a :: actions =>
    net.calls banscore node (now 0) a ++
      match net.step a with
      | none => []
      | some net' => runCalls banscore node (fun i ↦ now (i + 1)) net' actions

namespace SyncClient

variable {c c' : SyncClient T} {s : BlockDownload} {node : NodeId}

/-- The lists of the client are those of its only peer. -/
def Books (c : SyncClient T) (node : NodeId) (s : BlockDownload) : Prop :=
  s.OnlyPeer node c.vBlocksToDownload c.vBlocksInFlight

/-- Both lists stay. -/
def SameLists (c c' : SyncClient T) : Prop :=
  c'.vBlocksToDownload = c.vBlocksToDownload ∧ c'.vBlocksInFlight = c.vBlocksInFlight

omit [DecidableEq β] in
theorem SameLists.books (h : SameLists c c') (hbooks : c.Books node s) : c'.Books node s := by
  rw [Books, h.1, h.2]
  exact hbooks

theorem sameLists_pushGetBlocks (pindexBegin : Option β) (hashEnd : Uint256) :
    SameLists c (c.pushGetBlocks pindexBegin hashEnd).1 := by
  unfold pushGetBlocks
  split <;> exact ⟨rfl, rfl⟩

theorem sameLists_foldl (orphans : List β) : SameLists c (orphans.foldl addToBlockIndex c) := by
  induction orphans generalizing c with
  | nil => exact ⟨rfl, rfl⟩
  | cons b orphans ih => exact ih

theorem sameLists_connectOrphans (fuel : ℕ) (vWorkQueue : List β) :
    SameLists c (connectOrphans fuel vWorkQueue c) := by
  induction fuel generalizing vWorkQueue c with
  | zero => exact ⟨rfl, rfl⟩
  | succ fuel ih =>
    cases vWorkQueue with
    | nil => exact ⟨rfl, rfl⟩
    | cons hashPrev vWorkQueue =>
      have hfold := sameLists_foldl
        (c := { c with mapOrphanBlocks := c.mapOrphanBlocks.filter (T.pprev · ≠ some hashPrev) })
        (c.mapOrphanBlocks.filter (T.pprev · = some hashPrev))
      rw [connectOrphans]
      exact ⟨ih _ |>.1.trans hfold.1, ih _ |>.2.trans hfold.2⟩

theorem sameLists_processBlock (b : β) : SameLists c (c.processBlock b).1 := by
  unfold processBlock
  split
  · exact ⟨rfl, rfl⟩
  split
  · exact sameLists_connectOrphans (c := c.addToBlockIndex b) _ _
  · exact sameLists_pushGetBlocks (c := { c with mapOrphanBlocks := c.mapOrphanBlocks ++ [b] }) _ _

omit [DecidableEq β] in
theorem Books.addBlockToQueue (h : c.Books node s) (banscore : Int) (hash : Uint256) :
    (c.addBlockToQueue hash).Books node (s.addBlockToQueue banscore node hash).1 := by
  have hadd := BlockDownload.OnlyPeer.addBlockToQueue h banscore hash
  unfold SyncClient.addBlockToQueue
  split
  case isTrue hin =>
    rw [if_pos hin] at hadd
    exact hadd
  case isFalse hin =>
    rw [if_neg hin] at hadd
    exact hadd

/-- One entry of an inventory. -/
theorem Books.receiveInv (h : c.Books node s) (banscore : Int) (hash : Uint256) :
    ∃ s', s.run (if c.mapOrphanBlocks.any (T.getBlockHash · = hash) ||
        c.mapBlockIndex.any (T.getBlockHash · = hash) then []
        else [.addBlockToQueue banscore node hash]) = .ok s' ∧
      (c.receiveInv hash).1.Books node s' := by
  unfold SyncClient.receiveInv
  cases hfind : c.mapOrphanBlocks.find? (T.getBlockHash · = hash) with
  | some b =>
    have horphan : c.mapOrphanBlocks.any (T.getBlockHash · = hash) = true := by
      rw [List.any_eq_true, ← List.find?_isSome, hfind]
      rfl
    rw [horphan, Bool.true_or]
    exact ⟨s, rfl, (sameLists_pushGetBlocks _ _).books h⟩
  | none =>
    have horphan : c.mapOrphanBlocks.any (T.getBlockHash · = hash) = false := by
      rw [← Bool.not_eq_true, List.any_eq_true, ← List.find?_isSome, hfind]
      exact Bool.false_ne_true
    rw [horphan, Bool.false_or]
    dsimp only
    split
    · exact ⟨s, rfl, h⟩
    · exact ⟨_, BlockDownload.run_singleton rfl, h.addBlockToQueue banscore hash⟩

theorem Books.receiveInvs (h : c.Books node s) (banscore : Int) (vInv : List Uint256) :
    ∃ s', s.run (c.invCalls banscore node vInv) = .ok s' ∧
      (c.receiveInvs vInv).1.Books node s' := by
  induction vInv generalizing c s with
  | nil => exact ⟨s, rfl, h⟩
  | cons hash vInv ih =>
    obtain ⟨s₁, hs₁, h₁⟩ := h.receiveInv banscore hash
    obtain ⟨s₂, hs₂, h₂⟩ := ih h₁
    exact ⟨s₂, BlockDownload.run_append hs₁ hs₂, h₂⟩

theorem Books.receiveBlock (h : c.Books node s) (now : Int) (b : β) :
    ∃ s', s.run [.markBlockAsReceived now (T.getBlockHash b) node] = .ok s' ∧
      (c.receiveBlock b).1.Books node s' := by
  obtain ⟨s', hs', honly⟩ :=
    BlockDownload.OnlyPeer.markBlockAsReceived h now (T.getBlockHash b) node
  exact ⟨s', BlockDownload.run_singleton hs', (sameLists_processBlock b).books honly⟩

omit [DecidableEq β] in
theorem Books.request (h : c.Books node s) (now : ℕ → Int) :
    ∃ s', s.run [.requestBlocks now node] = .ok s' ∧ c.request.1.Books node s' := by
  obtain ⟨s', hs', honly⟩ :=
    BlockDownload.OnlyPeer.requestBlocks h maxBlocksInTransitPerPeer now (Nat.le_add_left _ _)
  have hstep : s.step (.requestBlocks now node) = .ok s' := by
    rw [BlockDownload.step, hs']
    rfl
  exact ⟨s', BlockDownload.run_singleton hstep, honly⟩

end SyncClient

namespace SyncNet

variable {net net' : SyncNet T} {s : BlockDownload} {node : NodeId}

/-- Step lemma. -/
theorem books_step {a : SyncAction} (h : net.client.Books node s) (hstep : net.step a = some net')
    (banscore : Int) (now : ℕ → Int) :
    ∃ s', s.run (net.calls banscore node now a) = .ok s' ∧ net'.client.Books node s' := by
  obtain ⟨rfl, -, rfl⟩ | ⟨rfl, message, rest, hmessages, rfl⟩ | ⟨rfl, -, rfl⟩ |
    ⟨rfl, -, message, rest, -, rfl⟩ | ⟨rfl, hash, rest, -, rfl⟩ | ⟨rfl, -, rfl⟩ :=
    step_cases hstep
  · exact ⟨s, rfl, (SyncClient.sameLists_pushGetBlocks
      (c := { net.client with fStartSync := false }) _ _).books h⟩
  · rw [calls, hmessages]
    cases message with
    | inv vInv => exact h.receiveInvs banscore vInv
    | block b => exact h.receiveBlock (now 0) b
    | getblocks | getdata => exact ⟨s, rfl, h⟩
  · exact h.request now
  · cases message <;> exact ⟨s, rfl, h⟩
  · exact ⟨s, rfl, h⟩
  · exact ⟨s, rfl, h⟩

/-- Run lemma. -/
theorem books_run {actions : List SyncAction} (h : net.client.Books node s)
    (hrun : net.run actions = some net') (banscore : Int) (now : ℕ → ℕ → Int) :
    ∃ s', s.run (runCalls banscore node now net actions) = .ok s' ∧
      net'.client.Books node s' := by
  induction actions generalizing net s now with
  | nil =>
    obtain rfl := Option.some.inj hrun
    exact ⟨s, rfl, h⟩
  | cons a actions ih =>
    obtain ⟨middle, hstep, hrest⟩ := Option.bind_eq_some_iff.mp hrun
    obtain ⟨s₁, hs₁, h₁⟩ := books_step h hstep banscore (now 0)
    obtain ⟨s₂, hs₂, h₂⟩ := ih h₁ hrest fun i ↦ now (i + 1)
    refine ⟨s₂, ?_, h₂⟩
    rw [runCalls, hstep]
    exact BlockDownload.run_append hs₁ hs₂

/-- Every run of the two nodes is a run of the bookkeeping, which meets no fault and has the same
blocks in its lists. -/
theorem refines_bookkeeping {nChainWork : β → ℕ} {ours theirs : CChain T} {mapBlockIndex : List β}
    {theirIndex : Uint256 → Option β} {lastCheckpoint : Option ℕ} {nMaxSize : ℕ}
    {actions : List SyncAction} (node : NodeId) (banscore : Int) (now : ℕ → ℕ → Int)
    (addrName : String)
    (hrun : (connected nChainWork ours theirs mapBlockIndex theirIndex lastCheckpoint
      nMaxSize).run actions = some net) :
    ∃ s, BlockDownload.empty.run (.initializeNode node addrName ::
        runCalls banscore node now (connected nChainWork ours theirs mapBlockIndex theirIndex
          lastCheckpoint nMaxSize) actions) = .ok s ∧
      s.OnlyPeer node net.client.vBlocksToDownload net.client.vBlocksInFlight := by
  have hstart : (connected nChainWork ours theirs mapBlockIndex theirIndex lastCheckpoint
      nMaxSize).client.Books node (BlockDownload.empty.initializeNode node addrName) :=
    BlockDownload.onlyPeer_initializeNode node addrName
  obtain ⟨s, hs, honly⟩ := books_run hstart hrun banscore now
  exact ⟨s, BlockDownload.run_append (BlockDownload.run_singleton rfl) hs, honly⟩

/-- At the end of the run that fetches the 700 blocks the bookkeeping has none. -/
theorem refines_bookkeeping_sample : ∃ (actions : List SyncAction) (s : BlockDownload),
    BlockDownload.empty.run (.initializeNode 1 "peer" ::
      runCalls 100 1 (fun _ _ ↦ 0) fetchNet actions) = .ok s ∧ s.OnlyPeer 1 [] [] := by
  obtain ⟨actions, net, hrun, hquiet⟩ := progress_fetchNet.exists_quiet getBlockHash_fetchTree
  obtain ⟨cost, hprogress, -⟩ := progress_fetchNet.run getBlockHash_fetchTree hrun
  obtain ⟨-, hqueue, hflight⟩ := hprogress.quiet hquiet
  obtain ⟨s, hs, honly⟩ := refines_bookkeeping 1 100 (fun _ _ ↦ 0) "peer" hrun
  rw [hqueue, hflight] at honly
  exact ⟨actions, s, hs, honly⟩

end SyncNet

end Bitmark

import Bitmark.Wallet.Rescan

/-!
# Fetching the blocks of a peer

A node asks a peer for the blocks after its tip (`PushGetBlocks`, `src/main.cpp:3027`), gets the
hashes of up to 500 of them (`src/main.cpp:4143`), requests the blocks (`src/main.cpp:4854`) and is
sent them one after the other (`ProcessGetData`, `src/main.cpp:3747`). Behind the last block of a
full batch the peer announces its tip. The tip then arrives as an orphan, and the node asks for
more.
-/

namespace Bitmark

/-- `mruset`, `src/mruset.h:13`: the set has the elements of the queue. -/
structure Mruset (α : Type) where
  queue : List α := []
  nMaxSize : ℕ := 0

/-- `insert`. -/
def Mruset.insert {α : Type} [DecidableEq α] (s : Mruset α) (x : α) : Mruset α :=
  if x ∈ s.queue then s
  else if s.nMaxSize ≠ 0 ∧ s.queue.length = s.nMaxSize then { s with queue := s.queue.tail ++ [x] }
  else { s with queue := s.queue ++ [x] }

theorem Mruset.mem_of_mem_insert {α : Type} [DecidableEq α] {s : Mruset α} {x y : α}
    (h : y ∈ (s.insert x).queue) : y = x ∨ y ∈ s.queue := by
  unfold Mruset.insert at h
  split at h
  · exact .inr h
  split at h
  · rcases List.mem_append.mp h with h | h
    · exact .inr (List.mem_of_mem_tail h)
    · exact .inl (List.mem_singleton.mp h)
  · rcases List.mem_append.mp h with h | h
    · exact .inr h
    · exact .inl (List.mem_singleton.mp h)

/-- The messages of a download. -/
inductive SyncMessage (β Hash : Type) where
  | getblocks (locator : List Hash) (hashStop : Hash)
  | inv (vInv : List Hash)
  | getdata (vInv : List Hash)
  | block (b : β)
deriving DecidableEq

variable {β Hash : Type} [DecidableEq β]

variable [DecidableEq Hash] [Zero Hash]

/-! ### The node that has the blocks -/

/-- The node that is asked, with its `CNode` for the other one. `lastCheckpoint` is the height of
the last checkpoint in its index. -/
structure SyncServer {β Hash : Type} [Zero Hash] (T : BlockTree β Hash) where
  chainActive : CChain T
  mapBlockIndex : Hash → Option β
  lastCheckpoint : Option ℕ := none
  setInventoryKnown : Mruset Hash := {}
  vInventoryToSend : List Hash := []
  hashContinue : Hash := 0
  vRecvGetData : List Hash := []

namespace SyncServer

variable {T : BlockTree β Hash}

/-- `PushInventory`, `src/net.h:424`. -/
def pushInventory (s : SyncServer T) (hash : Hash) : SyncServer T :=
  if hash ∈ s.setInventoryKnown.queue then s
  else { s with vInventoryToSend := s.vInventoryToSend ++ [hash] }

/-- The loop for `getblocks`, with so many blocks left of its limit. -/
def getBlocksLoop (hashStop : Hash) : ℕ → Option β → SyncServer T → SyncServer T
  | 0, _, s => s
  | _ + 1, none, s => s
  | nLimit + 1, some pindex, s =>
    if T.getBlockHash pindex = hashStop then s
    else
      let s := s.pushInventory (T.getBlockHash pindex)
      if nLimit = 0 then { s with hashContinue := T.getBlockHash pindex }
      else getBlocksLoop hashStop nLimit (s.chainActive.next pindex) s

/-- The message `getblocks`, `src/main.cpp:4143`. -/
def getBlocks (s : SyncServer T) (locator : List Hash) (hashStop : Hash) : SyncServer T :=
  getBlocksLoop hashStop 500
    ((s.chainActive.findFork s.mapBlockIndex locator).bind s.chainActive.next) s

/-- A block below the last checkpoint is sent only from the chain. -/
def sends (s : SyncServer T) (pindex : β) : Bool :=
  match s.lastCheckpoint with
  | some nHeight => !decide (T.nHeight pindex < nHeight) || s.chainActive.contains pindex
  | none => true

/-- One round of `ProcessGetData`. The tip is announced right behind `hashContinue`. -/
def serve (s : SyncServer T) (hash : Hash) : SyncServer T × List (SyncMessage β Hash) :=
  match s.mapBlockIndex hash with
  | none => (s, [])
  | some pindex =>
    if s.sends pindex then
      if hash = s.hashContinue then
        ({ s with hashContinue := 0 },
          .block pindex :: (s.chainActive.tip.map fun t ↦ .inv [T.getBlockHash t]).toList)
      else (s, [.block pindex])
    else (s, [])

/-- The loop of `SendMessages` over the inventory, `src/main.cpp:4797`, with the entries of the
message it is at. -/
def inventoryLoop : List Hash → Mruset Hash → List Hash → Mruset Hash × List (SyncMessage β Hash)
  | [], setInventoryKnown, vInv =>
    (setInventoryKnown, if vInv.isEmpty then [] else [.inv vInv])
  | hash :: vInventoryToSend, setInventoryKnown, vInv =>
    if hash ∈ setInventoryKnown.queue then inventoryLoop vInventoryToSend setInventoryKnown vInv
    else if 1000 ≤ (vInv ++ [hash]).length then
      let (known, sent) := inventoryLoop vInventoryToSend (setInventoryKnown.insert hash) []
      (known, .inv (vInv ++ [hash]) :: sent)
    else inventoryLoop vInventoryToSend (setInventoryKnown.insert hash) (vInv ++ [hash])

/-- The inventory that `SendMessages` sends. -/
def sendInventory (s : SyncServer T) : SyncServer T × List (SyncMessage β Hash) :=
  let (setInventoryKnown, sent) := inventoryLoop s.vInventoryToSend s.setInventoryKnown []
  ({ s with setInventoryKnown, vInventoryToSend := [] }, sent)

end SyncServer

/-! ### The node that fetches them -/

/-- The node that asks, with its `CNode` and its `CNodeState` for the other one. The blocks are
valid, it has no other peer, and no more orphans than `PruneOrphanBlocks` leaves. Those that wait
for one block are in the order in which they came. -/
structure SyncClient {β Hash : Type} [Zero Hash] (T : BlockTree β Hash) where
  nChainWork : β → ℕ
  chainActive : CChain T
  mapBlockIndex : List β
  mapOrphanBlocks : List β := []
  fStartSync : Bool := true
  pindexLastGetBlocksBegin : Option β := none
  hashLastGetBlocksEnd : Hash := 0
  vBlocksToDownload : List Hash := []
  vBlocksInFlight : List Hash := []

/-- `GetOrphanRoot` of an orphan, `src/main.cpp:1161`. -/
def getOrphanRoot (T : BlockTree β Hash) (mapOrphanBlocks : List β) (b : β) : β :=
  match _h : T.pprev b with
  | none => b
  | some p => if p ∈ mapOrphanBlocks then getOrphanRoot T mapOrphanBlocks p else b
termination_by T.nHeight b
decreasing_by
  rw [T.nHeight_pprev _h]
  exact Nat.lt_succ_self _

namespace SyncClient

variable {T : BlockTree β Hash}

/-- `PushGetBlocks`, `src/main.cpp:3027`. -/
def pushGetBlocks (c : SyncClient T) (pindexBegin : Option β) (hashEnd : Hash) :
    SyncClient T × List (SyncMessage β Hash) :=
  if pindexBegin = c.pindexLastGetBlocksBegin ∧ hashEnd = c.hashLastGetBlocksEnd then (c, [])
  else
    ({ c with pindexLastGetBlocksBegin := pindexBegin, hashLastGetBlocksEnd := hashEnd },
      ((c.chainActive.getLocator (2 ^ 31) pindexBegin).map (.getblocks · hashEnd)).toList)

/-- The start of the download in `SendMessages`, `src/main.cpp:4776`. -/
def startSync (c : SyncClient T) : SyncClient T × List (SyncMessage β Hash) :=
  { c with fStartSync := false }.pushGetBlocks c.chainActive.tip 0

/-- `AddBlockToQueue`, `src/main.cpp:290`. -/
def addBlockToQueue (c : SyncClient T) (hash : Hash) : SyncClient T :=
  if hash ∈ c.vBlocksToDownload ∨ hash ∈ c.vBlocksInFlight then c
  else { c with vBlocksToDownload := c.vBlocksToDownload ++ [hash] }

/-- One entry of an inventory, `src/main.cpp:4091`. -/
def receiveInv (c : SyncClient T) (hash : Hash) : SyncClient T × List (SyncMessage β Hash) :=
  match c.mapOrphanBlocks.find? (T.getBlockHash · = hash) with
  | some b =>
    c.pushGetBlocks c.chainActive.tip (T.getBlockHash (getOrphanRoot T c.mapOrphanBlocks b))
  | none =>
    if c.mapBlockIndex.any (T.getBlockHash · = hash) then (c, []) else (c.addBlockToQueue hash, [])

/-- The message `inv`. -/
def receiveInvs (c : SyncClient T) : List Hash → SyncClient T × List (SyncMessage β Hash)
  | [] => (c, [])
  | hash :: vInv =>
    let (c, sent) := c.receiveInv hash
    let (c, more) := c.receiveInvs vInv
    (c, sent ++ more)

/-- `AddToBlockIndex` with `ActivateBestChain`: a block with more work than the tip has becomes the
tip. -/
def addToBlockIndex (c : SyncClient T) (b : β) : SyncClient T :=
  { c with
    mapBlockIndex := b :: c.mapBlockIndex
    chainActive :=
      if c.chainActive.tip.all fun t ↦ decide (c.nChainWork t < c.nChainWork b) then
        (c.chainActive.setTip (some b)).1
      else c.chainActive }

/-- The loop of `ProcessBlock` over the orphans of its work queue. It comes to each orphan once at
most, so it makes one turn more than there are orphans at most. -/
def connectOrphans : ℕ → List β → SyncClient T → SyncClient T
  | 0, _, c => c
  | _ + 1, [], c => c
  | fuel + 1, hashPrev :: vWorkQueue, c =>
    let orphans := c.mapOrphanBlocks.filter (T.pprev · = some hashPrev)
    let rest := c.mapOrphanBlocks.filter (T.pprev · ≠ some hashPrev)
    connectOrphans fuel (vWorkQueue ++ orphans)
      (orphans.foldl addToBlockIndex { c with mapOrphanBlocks := rest })

/-- `ProcessBlock`, `src/main.cpp:3039`, for a valid block. -/
def processBlock (c : SyncClient T) (b : β) : SyncClient T × List (SyncMessage β Hash) :=
  if b ∈ c.mapBlockIndex ∨ b ∈ c.mapOrphanBlocks then (c, [])
  else if (T.pprev b).all (· ∈ c.mapBlockIndex) then
    (connectOrphans (c.mapOrphanBlocks.length + 1) [b] (c.addToBlockIndex b), [])
  else
    let mapOrphanBlocks := c.mapOrphanBlocks ++ [b]
    { c with mapOrphanBlocks }.pushGetBlocks c.chainActive.tip
      (T.getBlockHash (getOrphanRoot T mapOrphanBlocks b))

/-- The message `block`, `src/main.cpp:4318`, with `MarkBlockAsReceived`. -/
def receiveBlock (c : SyncClient T) (b : β) : SyncClient T × List (SyncMessage β Hash) :=
  { c with
    vBlocksToDownload := c.vBlocksToDownload.erase (T.getBlockHash b)
    vBlocksInFlight := c.vBlocksInFlight.erase (T.getBlockHash b) }.processBlock b

/-- The loop of `SendMessages` over the blocks to download: what it leaves of them, the blocks in
flight, and what it requests. -/
def requestLoop : List Hash → List Hash → List Hash × List Hash × List Hash
  | [], vBlocksInFlight => ([], vBlocksInFlight, [])
  | hash :: vBlocksToDownload, vBlocksInFlight =>
    if vBlocksInFlight.length < 128 then
      let (queued, flight, vGetData) :=
        requestLoop vBlocksToDownload (vBlocksInFlight.erase hash ++ [hash])
      (queued, flight, hash :: vGetData)
    else (hash :: vBlocksToDownload, vBlocksInFlight, [])

/-- The blocks that `SendMessages` requests, `src/main.cpp:4854`. -/
def request (c : SyncClient T) : SyncClient T × List (SyncMessage β Hash) :=
  let (vBlocksToDownload, vBlocksInFlight, vGetData) :=
    requestLoop c.vBlocksToDownload c.vBlocksInFlight
  ({ c with vBlocksToDownload, vBlocksInFlight },
    if vGetData.isEmpty then [] else [.getdata vGetData])

end SyncClient

/-! ### Both of them -/

/-- The two nodes and what is on the way between them. -/
structure SyncNet {β Hash : Type} [Zero Hash] (T : BlockTree β Hash) where
  client : SyncClient T
  server : SyncServer T
  toServer : List (SyncMessage β Hash) := []
  toClient : List (SyncMessage β Hash) := []

/-- What the message threads of the two nodes do. -/
inductive SyncAction where
  | startSync
  | clientReceives
  | request
  | serverReceives
  | serve
  | announce
deriving DecidableEq

namespace SyncNet

variable {T : BlockTree β Hash}

/-- The client handles a message; it sends none that is for a client. -/
def clientReceives (net : SyncNet T) (message : SyncMessage β Hash) : SyncNet T :=
  match message with
  | .inv vInv =>
    let (client, sent) := net.client.receiveInvs vInv
    { net with client, toServer := net.toServer ++ sent }
  | .block b =>
    let (client, sent) := net.client.receiveBlock b
    { net with client, toServer := net.toServer ++ sent }
  | .getblocks _ _ | .getdata _ => net

/-- The server handles a message. It answers a request for blocks in `serve`. -/
def serverReceives (net : SyncNet T) (message : SyncMessage β Hash) : SyncNet T :=
  match message with
  | .getblocks locator hashStop => { net with server := net.server.getBlocks locator hashStop }
  | .getdata vInv =>
    { net with
      server := { net.server with vRecvGetData := net.server.vRecvGetData ++ vInv } }
  | .inv _ | .block _ => net

/-- A step, or `none` where there is nothing to do. New messages wait until the server has answered
the last request. -/
def step (net : SyncNet T) : SyncAction → Option (SyncNet T)
  | .startSync =>
    if net.client.fStartSync then
      let (client, sent) := net.client.startSync
      some { net with client, toServer := net.toServer ++ sent }
    else none
  | .clientReceives =>
    match net.toClient with
    | [] => none
    | message :: toClient => some ({ net with toClient }.clientReceives message)
  | .request =>
    let (client, sent) := net.client.request
    if sent.isEmpty then none else some { net with client, toServer := net.toServer ++ sent }
  | .serverReceives =>
    match net.server.vRecvGetData, net.toServer with
    | [], message :: toServer => some ({ net with toServer }.serverReceives message)
    | _, _ => none
  | .serve =>
    match net.server.vRecvGetData with
    | [] => none
    | hash :: vRecvGetData =>
      let (server, sent) := { net.server with vRecvGetData }.serve hash
      some { net with server, toClient := net.toClient ++ sent }
  | .announce =>
    if net.server.vInventoryToSend.isEmpty then none
    else
      let (server, sent) := net.server.sendInventory
      some { net with server, toClient := net.toClient ++ sent }

/-- The two nodes when they have just connected. -/
def connected (nChainWork : β → ℕ) (ours theirs : CChain T) (mapBlockIndex : List β)
    (theirIndex : Hash → Option β) (lastCheckpoint : Option ℕ) (nMaxSize : ℕ) : SyncNet T where
  client := { nChainWork, chainActive := ours, mapBlockIndex }
  server :=
    { chainActive := theirs, mapBlockIndex := theirIndex, lastCheckpoint
      setInventoryKnown := { nMaxSize } }

/-- The state after these steps. -/
def run (net : SyncNet T) : List SyncAction → Option (SyncNet T)
  | [] => some net
  | a :: actions => (net.step a).bind (·.run actions)

/-- What a step can do. -/
theorem step_cases {net net' : SyncNet T} {a : SyncAction} (h : net.step a = some net') :
    (a = .startSync ∧ net.client.fStartSync = true ∧
      net' = { net with
        client := net.client.startSync.1, toServer := net.toServer ++ net.client.startSync.2 }) ∨
    (a = .clientReceives ∧ ∃ message toClient, net.toClient = message :: toClient ∧
      net' = { net with toClient }.clientReceives message) ∨
    (a = .request ∧ net.client.request.2 ≠ [] ∧
      net' = { net with
        client := net.client.request.1, toServer := net.toServer ++ net.client.request.2 }) ∨
    (a = .serverReceives ∧ net.server.vRecvGetData = [] ∧
      ∃ message toServer, net.toServer = message :: toServer ∧
        net' = { net with toServer }.serverReceives message) ∨
    (a = .serve ∧ ∃ hash vRecvGetData, net.server.vRecvGetData = hash :: vRecvGetData ∧
      net' = { net with
        server := ({ net.server with vRecvGetData }.serve hash).1
        toClient := net.toClient ++ ({ net.server with vRecvGetData }.serve hash).2 }) ∨
    (a = .announce ∧ net.server.vInventoryToSend ≠ [] ∧
      net' = { net with
        server := net.server.sendInventory.1
        toClient := net.toClient ++ net.server.sendInventory.2 }) := by
  cases a with
  | startSync =>
    unfold step at h
    dsimp only at h
    split at h
    case isTrue hstart => exact .inl ⟨rfl, hstart, (Option.some.inj h).symm⟩
    case isFalse => cases h
  | clientReceives =>
    unfold step at h
    dsimp only at h
    split at h
    case h_1 => cases h
    case h_2 message toClient hmessages =>
      exact .inr (.inl ⟨rfl, message, toClient, hmessages, (Option.some.inj h).symm⟩)
  | request =>
    unfold step at h
    dsimp only at h
    split at h
    case isTrue => cases h
    case isFalse hsome =>
      exact .inr (.inr (.inl ⟨rfl, mt List.isEmpty_iff.mpr hsome, (Option.some.inj h).symm⟩))
  | serverReceives =>
    unfold step at h
    dsimp only at h
    split at h
    case h_1 message toServer hdata hmessages =>
      exact .inr (.inr (.inr (.inl
        ⟨rfl, hdata, message, toServer, hmessages, (Option.some.inj h).symm⟩)))
    case h_2 => cases h
  | serve =>
    unfold step at h
    dsimp only at h
    split at h
    case h_1 => cases h
    case h_2 hash vRecvGetData hdata =>
      exact .inr (.inr (.inr (.inr (.inl
        ⟨rfl, hash, vRecvGetData, hdata, (Option.some.inj h).symm⟩))))
  | announce =>
    unfold step at h
    dsimp only at h
    split at h
    case isTrue => cases h
    case isFalse hsome =>
      exact .inr (.inr (.inr (.inr (.inr
        ⟨rfl, mt List.isEmpty_iff.mpr hsome, (Option.some.inj h).symm⟩))))

end SyncNet

end Bitmark

import Bitmark.Net.BlockSyncNodes

/-!
# A node gets all blocks of its peer

However the message threads of the two nodes alternate, the node that fetches has the chain of its
peer when neither has anything left to do, and it comes to that after a bounded number of steps.
-/

namespace Bitmark

/-! ### The blocks on the way -/

/-- The client has the blocks up to `n` and asked for more at `asked`. It is to get those up to `m`,
and after them the announcement of the tip if there are `more`. -/
structure Batch (H asked n m : ℕ) (orphan more : Bool) : Prop where
  le : n ≤ m
  top : m ≤ H
  lt_of_orphan : orphan = true → m < H
  lt_of_more : more = true → asked < m
  rest : more = false → if orphan = true then m + 1 = H else m = H

/-- The heights of the blocks that are on the way: a batch, or the tip alone. -/
inductive Wanted (H asked n : ℕ) : Bool → Bool → ℕ → ℕ → List ℕ → Prop
  | batch {m : ℕ} {orphan more : Bool} (h : Batch H asked n m orphan more) :
    Wanted H asked n orphan more m (if more then 100 else 10) (List.range' (n + 1) (m - n))
  | tip (h : n + 1 < H) : Wanted H asked n false false n 80 [H]

namespace Wanted

variable {H asked n top control k : ℕ} {orphan more : Bool} {ks before after : List ℕ}

theorem bounds (h : Wanted H asked n orphan more top control ks) (hk : k ∈ ks) : n < k ∧ k ≤ H := by
  cases h with
  | batch hbatch =>
    have hle := hbatch.le
    have htop := hbatch.top
    rw [List.mem_range'_1] at hk
    omega
  | tip hlt =>
    obtain rfl := List.mem_singleton.mp hk
    omega

theorem nodup (h : Wanted H asked n orphan more top control ks) : ks.Nodup := by
  cases h with
  | batch => exact List.nodup_range'
  | tip => exact List.nodup_singleton _

theorem top_le (h : Wanted H asked n orphan more top control ks) : top ≤ H := by
  cases h with
  | batch hbatch => exact hbatch.top
  | tip hlt => omega

/-- The tip is announced behind the last block. -/
theorem eq_top_iff (h : Wanted H asked n orphan more top control (before ++ k :: after))
    (hmore : more = true) : k = top ↔ after = [] := by
  generalize hks : before ++ k :: after = ks at h
  cases h with
  | tip => cases hmore
  | batch hbatch =>
    have hle := hbatch.le
    have hsorted : (before ++ k :: after).Pairwise (· < ·) := hks ▸ List.pairwise_lt_range'
    have hmem : ∀ i, i ∈ before ++ k :: after ↔ n < i ∧ i ≤ top := by
      intro i
      rw [hks, List.mem_range'_1]
      omega
    rw [List.pairwise_append, List.pairwise_cons] at hsorted
    have hk := (hmem k).mp (by simp)
    constructor
    · rintro rfl
      rw [List.eq_nil_iff_forall_not_mem]
      intro i hi
      have hlt := hsorted.2.1.1 i hi
      have hbound := (hmem i).mp (by simp [hi])
      omega
    · rintro rfl
      have hlast := (hmem top).mpr (by omega)
      rcases List.mem_append.mp hlast with hin | hin
      · have hlt := hsorted.2.2 top hin k List.mem_cons_self
        omega
      · exact (List.mem_singleton.mp hin).symm

end Wanted

variable {β Hash : Type} [DecidableEq β] [DecidableEq Hash] [Zero Hash] {T : BlockTree β Hash}
  {t : β}

/-- The blocks that are on the way have been sent, are about to be sent, are requested or wait to be
requested. -/
structure Fetching (t : β) (net : SyncNet T) (asked n : ℕ) (orphan more : Bool) (top control : ℕ)
    (sent recv : List ℕ) (requests : List (List ℕ)) (queued : List ℕ) : Prop where
  client : net.client.Waits t asked n orphan
  server : net.server.Serves t top
  wanted : Wanted (T.nHeight t) asked n orphan more top control
    (sent ++ (recv ++ (requests.flatten ++ queued)))
  nonempty : ∀ r ∈ requests, r ≠ []
  toClient : net.toClient = sent.map (fun k ↦ .block (blockAt T t k)) ++
    if more = true ∧ recv ++ (requests.flatten ++ queued) = [] then
      [.inv [hashAt T t (T.nHeight t)]] else []
  toServer : net.toServer = requests.map fun r ↦ .getdata (hashesAt T t r)
  queue : net.client.vBlocksToDownload = hashesAt T t queued
  flight : net.client.vBlocksInFlight = hashesAt T t (sent ++ (recv ++ requests.flatten))
  inventory : net.server.vInventoryToSend = []
  getdata : net.server.vRecvGetData = hashesAt T t recv
  hashContinue : net.server.hashContinue =
    if more = true ∧ recv ++ (requests.flatten ++ queued) ≠ [] then hashAt T t top else 0

/-- Where a download stands, and a bound for the steps that it will still take. -/
inductive SyncProgress (t : β) : SyncNet T → ℕ → Prop
  | start {net : SyncNet T} {n : ℕ} (client : net.client.Stands t n false)
    (started : net.client.fStartSync = true)
    (first : net.client.pindexLastGetBlocksBegin = none)
    (queue : net.client.vBlocksToDownload = []) (flight : net.client.vBlocksInFlight = [])
    (server : net.server.Serves t n) (inventory : net.server.vInventoryToSend = [])
    (getdata : net.server.vRecvGetData = []) (hashContinue : net.server.hashContinue = 0)
    (toServer : net.toServer = []) (toClient : net.toClient = []) :
    SyncProgress t net (10 * (T.nHeight t - n) + 70)
  | asked {net : SyncNet T} {n : ℕ} {orphan : Bool} {locator : List Hash}
    (client : net.client.Waits t n n orphan) (finds : SyncClient.Finds T locator (blockAt T t n))
    (queue : net.client.vBlocksToDownload = []) (flight : net.client.vBlocksInFlight = [])
    (server : net.server.Serves t n) (inventory : net.server.vInventoryToSend = [])
    (getdata : net.server.vRecvGetData = []) (hashContinue : net.server.hashContinue = 0)
    (toServer : net.toServer =
      [.getblocks locator (if orphan then hashAt T t (T.nHeight t) else 0)])
    (toClient : net.toClient = []) :
    SyncProgress t net (10 * (T.nHeight t - n) + 60)
  | answered {net : SyncNet T} {n m : ℕ} {orphan more : Bool}
    (client : net.client.Waits t n n orphan)
    (batch : Batch (T.nHeight t) n n m orphan more) (limit : m ≤ n + 500)
    (queue : net.client.vBlocksToDownload = []) (flight : net.client.vBlocksInFlight = [])
    (server : net.server.Serves t n)
    (inventory : net.server.vInventoryToSend = hashesAt T t (List.range' (n + 1) (m - n)))
    (getdata : net.server.vRecvGetData = [])
    (hashContinue : net.server.hashContinue = if more then hashAt T t m else 0)
    (toServer : net.toServer = []) (toClient : net.toClient = []) :
    SyncProgress t net (10 * (T.nHeight t - m) + 6 * (m - n) + if more then 100 else 10)
  | announced {net : SyncNet T} {n m : ℕ} {orphan more : Bool}
    (client : net.client.Waits t n n orphan)
    (batch : Batch (T.nHeight t) n n m orphan more) (nonempty : n < m)
    (queue : net.client.vBlocksToDownload = []) (flight : net.client.vBlocksInFlight = [])
    (server : net.server.Serves t m) (inventory : net.server.vInventoryToSend = [])
    (getdata : net.server.vRecvGetData = [])
    (hashContinue : net.server.hashContinue = if more then hashAt T t m else 0)
    (toServer : net.toServer = [])
    (toClient : net.toClient = [.inv (hashesAt T t (List.range' (n + 1) (m - n)))]) :
    SyncProgress t net (10 * (T.nHeight t - m) + 5 * (m - n) + if more then 100 else 10)
  | fetching {net : SyncNet T} {asked n top control : ℕ} {orphan more : Bool}
    {sent recv queued : List ℕ} {requests : List (List ℕ)}
    (fetching : Fetching t net asked n orphan more top control sent recv requests queued) :
    SyncProgress t net (10 * (T.nHeight t - top) + control + 4 * queued.length +
      3 * requests.flatten.length + 2 * recv.length + sent.length)

section Steps

variable {net net' : SyncNet T} {a : SyncAction} {asked n m top control k : ℕ}
  {orphan more : Bool} {sent recv queued : List ℕ} {requests : List (List ℕ)}

omit [DecidableEq Hash] in
theorem SyncServer.Serves.mono {s : SyncServer T} (h : s.Serves t n) (hnm : n ≤ m) :
    s.Serves t m where
  tip := h.tip
  knows := h.knows
  known hash hmem := by
    obtain ⟨k, hk, heq⟩ := h.known hash hmem
    exact ⟨k, hk.trans hnm, heq⟩

omit [DecidableEq β] in
/-- Nothing waits to be requested. -/
theorem request_eq_nil {c : SyncClient T} (h : c.vBlocksToDownload = []) : c.request.2 = [] := by
  rw [SyncClient.request, h]
  rfl

/-- The first request. -/
theorem SyncProgress.ofStart (client : net.client.Stands t n false)
    (first : net.client.pindexLastGetBlocksBegin = none)
    (queue : net.client.vBlocksToDownload = []) (flight : net.client.vBlocksInFlight = [])
    (server : net.server.Serves t n) (inventory : net.server.vInventoryToSend = [])
    (getdata : net.server.vRecvGetData = []) (hashContinue : net.server.hashContinue = 0)
    (toServer : net.toServer = []) (toClient : net.toClient = [])
    (hstep : net.step a = some net') :
    SyncProgress t net' (10 * (T.nHeight t - n) + 60) := by
  obtain ⟨rfl, -, rfl⟩ | ⟨-, message, rest, hmessages, -⟩ | ⟨-, hsome, -⟩ |
    ⟨-, -, message, rest, hmessages, -⟩ | ⟨-, hash, rest, hdata, -⟩ | ⟨-, hsome, -⟩ :=
    SyncNet.step_cases hstep
  · have hstands : ({ net.client with fStartSync := false } : SyncClient T).Stands t n false :=
      ⟨client.toHas.congr rfl rfl rfl, client.orphans, client.orphan_lt⟩
    have hother : net.client.pindexLastGetBlocksBegin ≠ some (blockAt T t n) := by
      rw [first]
      exact Option.some_ne_none _ |>.symm
    obtain ⟨c', locator, hask, hwaits, hfinds, hqueue, hflight⟩ :=
      hstands.ask rfl rfl (.inl hother)
    have hstart : net.client.startSync = (c', [.getblocks locator 0]) := by
      rw [SyncClient.startSync, client.tip]
      exact hask
    rw [hstart]
    exact .asked hwaits hfinds (hqueue.trans queue) (hflight.trans flight) server inventory getdata
      hashContinue (by simp [toServer]) toClient
  · rw [toClient] at hmessages
    cases hmessages
  · exact absurd (request_eq_nil queue) hsome
  · rw [toServer] at hmessages
    cases hmessages
  · rw [getdata] at hdata
    cases hdata
  · exact absurd inventory hsome

/-- The answer to a request. -/
theorem SyncProgress.ofAsked (hnull : ∀ b, T.getBlockHash b ≠ 0) {locator : List Hash}
    (client : net.client.Waits t n n orphan) (finds : SyncClient.Finds T locator (blockAt T t n))
    (queue : net.client.vBlocksToDownload = []) (flight : net.client.vBlocksInFlight = [])
    (server : net.server.Serves t n) (inventory : net.server.vInventoryToSend = [])
    (getdata : net.server.vRecvGetData = []) (hashContinue : net.server.hashContinue = 0)
    (toServer : net.toServer =
      [.getblocks locator (if orphan then hashAt T t (T.nHeight t) else 0)])
    (toClient : net.toClient = []) (hstep : net.step a = some net') :
    ∃ cost < 10 * (T.nHeight t - n) + 60, SyncProgress t net' cost := by
  obtain ⟨-, hstart, -⟩ | ⟨-, message, rest, hmessages, -⟩ | ⟨-, hsome, -⟩ |
    ⟨rfl, -, message, rest, hmessages, rfl⟩ | ⟨-, hash, rest, hdata, -⟩ | ⟨-, hsome, -⟩ :=
    SyncNet.step_cases hstep
  · rw [client.started] at hstart
    cases hstart
  · rw [toClient] at hmessages
    cases hmessages
  · exact absurd (request_eq_nil queue) hsome
  · rw [toServer] at hmessages
    obtain ⟨rfl, rfl⟩ := List.cons.inj hmessages
    have hle := client.le
    -- the blocks up to the tip, or up to the one before it
    obtain ⟨e, hne, heH, hbefore, hstop, hrest⟩ : ∃ e, n ≤ e ∧ e ≤ T.nHeight t ∧
        (∀ i, n < i → i ≤ e → hashAt T t i ≠ if orphan then hashAt T t (T.nHeight t) else 0) ∧
        (e < T.nHeight t → hashAt T t (e + 1) = if orphan then hashAt T t (T.nHeight t) else 0) ∧
        if orphan = true then e + 1 = T.nHeight t else e = T.nHeight t := by
      cases orphan with
      | false =>
        exact ⟨T.nHeight t, hle, le_rfl, fun i _ _ ↦ hnull _, fun h ↦ absurd h (Nat.lt_irrefl _),
          rfl⟩
      | true =>
        have hlt := client.orphan_lt rfl
        refine ⟨T.nHeight t - 1, by omega, by omega, fun i _ hi ↦ ?_, fun _ ↦ ?_, ?_⟩
        · intro heq
          have hsame := (hashAt_inj (by omega) le_rfl).mp heq
          omega
        · rw [Nat.sub_add_cancel (by omega)]
          rfl
        · rw [if_pos rfl]
          omega
    have hloop := server.getBlocksLoop le_rfl hne heH hbefore hstop (show 0 < 500 by decide)
    have hanswer : net.server.getBlocks locator
        (if orphan then hashAt T t (T.nHeight t) else 0) =
        SyncServer.getBlocksLoop (if orphan then hashAt T t (T.nHeight t) else 0) 500
          (if n < T.nHeight t then some (blockAt T t (n + 1)) else none) net.server := by
      rw [SyncServer.getBlocks, finds _ _ server.knows (server.contains n), Option.bind_some,
        server.next hle]
    rw [hloop] at hanswer
    have hbatch : Batch (T.nHeight t) n n (min e (n + 500)) orphan (decide (n + 500 ≤ e)) := by
      refine ⟨by omega, by omega, fun ho ↦ ?_, fun hmore ↦ ?_, fun hless ↦ ?_⟩
      · rw [if_pos ho] at hrest
        omega
      · have := of_decide_eq_true hmore
        omega
      · have hend : min e (n + 500) = e := by
          have := of_decide_eq_false hless
          omega
        rw [hend]
        exact hrest
    refine ⟨_, ?_, .answered client hbatch (by omega) queue flight ?_ ?_ ?_ ?_ rfl toClient⟩
    · by_cases hfull : n + 500 ≤ e
      · rw [decide_eq_true hfull, if_pos rfl]
        omega
      · rw [decide_eq_false hfull, if_neg Bool.false_ne_true]
        omega
    · dsimp only [SyncNet.serverReceives]
      rw [hanswer]
      exact ⟨server.tip, server.knows, server.known⟩
    · dsimp only [SyncNet.serverReceives]
      rw [hanswer, inventory]
      rfl
    · dsimp only [SyncNet.serverReceives]
      rw [hanswer]
      exact getdata
    · dsimp only [SyncNet.serverReceives]
      rw [hanswer, hashContinue]
      dsimp only
      by_cases hfull : n + 500 ≤ e
      · rw [if_pos hfull, decide_eq_true hfull, if_pos rfl, Nat.min_eq_right hfull]
      · rw [if_neg hfull, decide_eq_false hfull, if_neg Bool.false_ne_true]
  · rw [getdata] at hdata
    cases hdata
  · exact absurd inventory hsome

/-- The batch is announced. -/
theorem SyncProgress.ofAnswered (client : net.client.Waits t n n orphan)
    (batch : Batch (T.nHeight t) n n m orphan more) (limit : m ≤ n + 500)
    (queue : net.client.vBlocksToDownload = []) (flight : net.client.vBlocksInFlight = [])
    (server : net.server.Serves t n)
    (inventory : net.server.vInventoryToSend = hashesAt T t (List.range' (n + 1) (m - n)))
    (getdata : net.server.vRecvGetData = [])
    (hashContinue : net.server.hashContinue = if more then hashAt T t m else 0)
    (toServer : net.toServer = []) (toClient : net.toClient = [])
    (hstep : net.step a = some net') :
    n < m ∧ SyncProgress t net'
      (10 * (T.nHeight t - m) + 5 * (m - n) + if more then 100 else 10) := by
  have hbounds : ∀ k ∈ List.range' (n + 1) (m - n), n < k ∧ k ≤ m := by
    intro k hk
    rw [List.mem_range'_1] at hk
    have hle := batch.le
    omega
  obtain ⟨-, hstart, -⟩ | ⟨-, message, rest, hmessages, -⟩ | ⟨-, hsome, -⟩ |
    ⟨-, -, message, rest, hmessages, -⟩ | ⟨-, hash, rest, hdata, -⟩ | ⟨rfl, hsome, rfl⟩ :=
    SyncNet.step_cases hstep
  · rw [client.started] at hstart
    cases hstart
  · rw [toClient] at hmessages
    cases hmessages
  · exact absurd (request_eq_nil queue) hsome
  · rw [toServer] at hmessages
    cases hmessages
  · rw [getdata] at hdata
    cases hdata
  · have hnew : ∀ hash ∈ hashesAt T t (List.range' (n + 1) (m - n)),
        hash ∉ net.server.setInventoryKnown.queue := by
      intro hash hmem
      obtain ⟨k, hk, rfl⟩ := List.mem_map.mp hmem
      exact server.not_known (hbounds k hk).1 ((hbounds k hk).2.trans batch.top)
    have hnodup := nodup_hashesAt (T := T) (t := t) (List.nodup_range' (s := n + 1) (n := m - n))
      fun k hk ↦ (hbounds k hk).2.trans batch.top
    have hlength : ([] : List Hash).length +
        (hashesAt T t (List.range' (n + 1) (m - n))).length < 1000 := by
      rw [List.length_map, List.length_range', List.length_nil]
      omega
    obtain ⟨known, hloop, hknown⟩ :=
      SyncServer.inventoryLoop_eq (β := β) hnodup hnew hlength
    have hlt : n < m := by
      by_contra hge
      rw [inventory, show m - n = 0 by omega] at hsome
      exact hsome rfl
    obtain ⟨j, hj⟩ : ∃ j, m - n = j + 1 := ⟨m - n - 1, by omega⟩
    have hsend : net.server.sendInventory =
        ({ net.server with setInventoryKnown := known, vInventoryToSend := [] },
          [.inv (hashesAt T t (List.range' (n + 1) (m - n)))]) := by
      rw [SyncServer.sendInventory, inventory, hloop, List.nil_append, hj, List.range'_succ]
      rfl
    rw [hsend]
    refine ⟨hlt, .announced client batch hlt queue flight ⟨server.tip, server.knows, ?_⟩ rfl getdata
      hashContinue toServer ?_⟩
    · intro hash hmem
      rcases hknown hash hmem with hin | hin
      · obtain ⟨k, hk, rfl⟩ := List.mem_map.mp hin
        exact ⟨k, (hbounds k hk).2, rfl⟩
      · obtain ⟨k, hk, heq⟩ := server.known hash hin
        exact ⟨k, hk.trans hlt.le, heq⟩
    · change net.toClient ++ _ = _
      rw [toClient, List.nil_append]

/-- The batch goes into the queue of the client. -/
theorem SyncProgress.ofAnnounced (client : net.client.Waits t n n orphan)
    (batch : Batch (T.nHeight t) n n m orphan more) (nonempty : n < m)
    (queue : net.client.vBlocksToDownload = []) (flight : net.client.vBlocksInFlight = [])
    (server : net.server.Serves t m) (inventory : net.server.vInventoryToSend = [])
    (getdata : net.server.vRecvGetData = [])
    (hashContinue : net.server.hashContinue = if more then hashAt T t m else 0)
    (toServer : net.toServer = [])
    (toClient : net.toClient = [.inv (hashesAt T t (List.range' (n + 1) (m - n)))])
    (hstep : net.step a = some net') :
    Fetching t net' n n orphan more m (if more then 100 else 10) [] [] []
      (List.range' (n + 1) (m - n)) := by
  have hbounds : ∀ k ∈ List.range' (n + 1) (m - n), n < k ∧ k ≤ m := by
    intro k hk
    rw [List.mem_range'_1] at hk
    omega
  have hsome : List.range' (n + 1) (m - n) ≠ [] := by
    rw [Ne, List.range'_eq_nil_iff]
    omega
  obtain ⟨-, hstart, -⟩ | ⟨rfl, message, rest, hmessages, rfl⟩ | ⟨-, hrequest, -⟩ |
    ⟨-, -, message, rest, hmessages, -⟩ | ⟨-, hash, rest, hdata, -⟩ | ⟨-, hannounce, -⟩ :=
    SyncNet.step_cases hstep
  · rw [client.started] at hstart
    cases hstart
  · have hnew : ∀ hash ∈ hashesAt T t (List.range' (n + 1) (m - n)), ∀ queue,
        { net.client with vBlocksToDownload := queue }.receiveInv hash =
          ({ net.client with vBlocksToDownload := queue }.addBlockToQueue hash, []) := by
      intro hash hmem queue
      obtain ⟨k, hk, rfl⟩ := List.mem_map.mp hmem
      have hstands : ({ net.client with vBlocksToDownload := queue } : SyncClient T).Stands t n
          orphan := ⟨client.toHas.congr rfl rfl rfl, client.orphans, client.orphan_lt⟩
      refine hstands.receiveInv_new (hbounds k hk).1 ((hbounds k hk).2.trans batch.top) ?_
      intro ho heq
      have hlt := batch.lt_of_orphan ho
      have hle := (hbounds k hk).2
      omega
    have hnodup := nodup_hashesAt (T := T) (t := t) (List.nodup_range' (s := n + 1) (n := m - n))
      fun k hk ↦ (hbounds k hk).2.trans batch.top
    have hreceive := SyncClient.receiveInvs_eq hnew hnodup flight (fun hash _ ↦ List.not_mem_nil)
    have hself : { net.client with vBlocksToDownload := [] } = net.client := by rw [← queue]
    rw [hself] at hreceive
    rw [toClient] at hmessages
    obtain ⟨rfl, rfl⟩ := List.cons.inj hmessages
    dsimp only [SyncNet.clientReceives]
    rw [hreceive]
    refine ⟨⟨⟨client.toHas.congr rfl rfl rfl, client.orphans, client.orphan_lt⟩, client.started,
      client.first, client.last, client.asked_le⟩, server, .batch batch, ?_, ?_, ?_, rfl, flight,
      inventory, getdata, ?_⟩
    · exact List.forall_mem_nil _
    · simp [hsome]
    · simp [toServer]
    · simp [hashContinue, hsome]
  · exact absurd (request_eq_nil queue) hrequest
  · rw [toServer] at hmessages
    cases hmessages
  · rw [getdata] at hdata
    cases hdata
  · exact absurd inventory hannounce

omit [DecidableEq Hash] in
theorem Fetching.requests_eq_nil
    (h : Fetching t net asked n orphan more top control sent recv requests queued)
    (hnil : requests.flatten = []) : requests = [] := by
  rw [List.eq_nil_iff_forall_not_mem]
  intro r hr
  exact h.nonempty r hr (List.flatten_eq_nil_iff.mp hnil r hr)

/-- Blocks of the queue are requested. -/
theorem Fetching.request
    (h : Fetching t net asked n orphan more top control sent recv requests queued)
    (hstep : net.step .request = some net') : ∃ i, queued.take i ≠ [] ∧
      Fetching t net' asked n orphan more top control sent recv (requests ++ [queued.take i])
        (queued.drop i) := by
  have hnodup : (net.client.vBlocksInFlight ++ net.client.vBlocksToDownload).Nodup := by
    rw [h.flight, h.queue, ← List.map_append, List.append_assoc, List.append_assoc]
    exact nodup_hashesAt h.wanted.nodup fun k hk ↦ (h.wanted.bounds hk).2
  obtain ⟨i, hloop, -⟩ := SyncClient.requestLoop_eq hnodup
  have hsplit : (requests ++ [queued.take i]).flatten ++ queued.drop i =
      requests.flatten ++ queued := by
    rw [List.flatten_append, List.flatten_singleton, List.append_assoc, List.take_append_drop]
  have hrequest : net.client.request =
      ({ net.client with
        vBlocksToDownload := net.client.vBlocksToDownload.drop i
        vBlocksInFlight := net.client.vBlocksInFlight ++ net.client.vBlocksToDownload.take i },
        if (net.client.vBlocksToDownload.take i).isEmpty then []
        else [.getdata (net.client.vBlocksToDownload.take i)]) := by
    rw [SyncClient.request, hloop]
  have htake : net.client.vBlocksToDownload.take i = hashesAt T t (queued.take i) := by
    rw [h.queue]
    exact List.map_take.symm
  rw [SyncNet.step, hrequest] at hstep
  dsimp only at hstep
  cases hempty : queued.take i with
  | nil =>
    rw [htake, hempty] at hstep
    cases hstep
  | cons k ks =>
    rw [htake, hempty] at hstep
    obtain rfl := Option.some.inj hstep
    rw [hempty] at hsplit
    refine ⟨i, by rw [hempty]; exact List.cons_ne_nil _ _, ?_⟩
    rw [hempty]
    refine ⟨⟨⟨h.client.toHas.congr rfl rfl rfl, h.client.orphans, h.client.orphan_lt⟩,
      h.client.started, h.client.first, h.client.last, h.client.asked_le⟩, h.server, ?_, ?_, ?_, ?_,
      ?_, ?_, h.inventory, h.getdata, ?_⟩
    · rw [hsplit]
      exact h.wanted
    · rw [List.forall_mem_append, List.forall_mem_singleton]
      exact ⟨h.nonempty, List.cons_ne_nil _ _⟩
    · rw [hsplit]
      exact h.toClient
    · change net.toServer ++ _ = _
      rw [h.toServer, List.map_append]
      rfl
    · change net.client.vBlocksToDownload.drop i = _
      rw [h.queue]
      exact List.map_drop.symm
    · change net.client.vBlocksInFlight ++ _ = _
      rw [h.flight, ← List.map_append, List.flatten_append, List.flatten_singleton]
      simp only [List.append_assoc]
    · rw [hsplit]
      exact h.hashContinue

/-- The server takes in a request. -/
theorem Fetching.serverReceives
    (h : Fetching t net asked n orphan more top control sent recv requests queued)
    (hstep : net.step .serverReceives = some net') :
    ∃ r rest, requests = r :: rest ∧ recv = [] ∧ r ≠ [] ∧
      Fetching t net' asked n orphan more top control sent r rest queued := by
  cases recv with
  | cons k ks =>
    rw [SyncNet.step, h.getdata] at hstep
    cases hstep
  | nil =>
    cases requests with
    | nil =>
      rw [SyncNet.step, h.getdata, h.toServer] at hstep
      cases hstep
    | cons r rest =>
      have hnonempty := h.nonempty
      rw [List.forall_mem_cons] at hnonempty
      have hsplit : r ++ (rest.flatten ++ queued) = [] ++ ((r :: rest).flatten ++ queued) := by
        rw [List.flatten_cons, List.nil_append, List.append_assoc]
      refine ⟨r, rest, rfl, rfl, hnonempty.1, ?_⟩
      rw [SyncNet.step, h.getdata, h.toServer] at hstep
      obtain rfl := Option.some.inj hstep
      refine ⟨h.client, ⟨h.server.tip, h.server.knows, h.server.known⟩, ?_, hnonempty.2, ?_, rfl,
        h.queue, ?_, h.inventory, ?_, ?_⟩
      · rw [hsplit]
        exact h.wanted
      · rw [hsplit]
        exact h.toClient
      · change net.client.vBlocksInFlight = _
        rw [h.flight, List.flatten_cons, List.nil_append]
      · change net.server.vRecvGetData ++ hashesAt T t r = _
        rw [h.getdata]
        rfl
      · rw [hsplit]
        exact h.hashContinue

/-- A block is sent, and the tip announced behind the last one of a full batch. -/
theorem Fetching.serve (hnull : ∀ b, T.getBlockHash b ≠ 0)
    (h : Fetching t net asked n orphan more top control sent recv requests queued)
    (hstep : net.step .serve = some net') :
    ∃ k rest, recv = k :: rest ∧
      Fetching t net' asked n orphan more top control (sent ++ [k]) rest requests queued := by
  cases recv with
  | nil =>
    rw [SyncNet.step, h.getdata] at hstep
    cases hstep
  | cons k recv =>
    refine ⟨k, recv, rfl, ?_⟩
    have hwanted := h.wanted
    rw [List.cons_append] at hwanted
    have hbound := hwanted.bounds (List.mem_append_right sent List.mem_cons_self)
    have hserves : SyncServer.Serves
        { net.server with vRecvGetData := hashesAt T t recv } t top :=
      ⟨h.server.tip, h.server.knows, h.server.known⟩
    have hserve := hserves.serve k
    have hcontinue := h.hashContinue
    simp only [List.cons_append, ne_eq, reduceCtorEq, not_false_eq_true, and_true] at hcontinue
    have hsplit : sent ++ [k] ++ (recv ++ (requests.flatten ++ queued)) =
        sent ++ (k :: recv ++ (requests.flatten ++ queued)) := by
      rw [List.append_assoc, List.singleton_append, List.cons_append]
    have hbefore : net.toClient = sent.map fun k ↦ .block (blockAt T t k) := by
      rw [h.toClient, if_neg, List.append_nil]
      simp
    -- the hash of this block is the one behind which the tip is announced
    have hlast : hashAt T t k = net.server.hashContinue ↔
        more = true ∧ recv ++ (requests.flatten ++ queued) = [] := by
      rw [hcontinue]
      cases more with
      | false => simp [hnull, hashAt]
      | true =>
        rw [if_pos rfl, hashAt_inj hbound.2 h.wanted.top_le, hwanted.eq_top_iff rfl]
        simp
    have hrecv : net.server.vRecvGetData = hashAt T t k :: hashesAt T t recv := h.getdata
    rw [SyncNet.step, hrecv] at hstep
    dsimp only at hstep
    rw [hserve] at hstep
    by_cases hend : more = true ∧ recv ++ (requests.flatten ++ queued) = []
    · rw [if_pos (hlast.mpr hend)] at hstep
      obtain rfl := Option.some.inj hstep
      refine ⟨h.client, ⟨h.server.tip, h.server.knows, h.server.known⟩, hsplit ▸ h.wanted,
        h.nonempty, ?_, h.toServer, h.queue, ?_, h.inventory, rfl, ?_⟩
      · change net.toClient ++ _ = _
        rw [hbefore, if_pos hend, List.map_append, List.append_assoc]
        rfl
      · change net.client.vBlocksInFlight = _
        rw [h.flight]
        simp
      · rw [if_neg fun hand ↦ hand.2 hend.2]
    · rw [if_neg (mt hlast.mp hend)] at hstep
      obtain rfl := Option.some.inj hstep
      refine ⟨h.client, ⟨h.server.tip, h.server.knows, h.server.known⟩, hsplit ▸ h.wanted,
        h.nonempty, ?_, h.toServer, h.queue, ?_, h.inventory, rfl, ?_⟩
      · change net.toClient ++ _ = _
        rw [hbefore, if_neg hend, List.map_append, List.append_nil]
        rfl
      · change net.client.vBlocksInFlight = _
        rw [h.flight]
        simp
      · change net.server.hashContinue = _
        rw [hcontinue]
        by_cases hmore : more = true
        · rw [if_pos hmore, if_pos ⟨hmore, fun hnil ↦ hend ⟨hmore, hnil⟩⟩]
        · rw [if_neg hmore, if_neg fun hand ↦ hmore hand.1]

omit [DecidableEq β] [DecidableEq Hash] in
theorem SyncClient.Waits.withRequests {c : SyncClient T} (h : c.Waits t asked n orphan)
    (queue flight : List Hash) :
    ({ c with vBlocksToDownload := queue, vBlocksInFlight := flight } : SyncClient T).Waits
      t asked n orphan :=
  ⟨⟨h.toHas.congr rfl rfl rfl, h.orphans, h.orphan_lt⟩, h.started, h.first, h.last, h.asked_le⟩

/-- A block of a batch arrives. -/
theorem Fetching.receiveNext
    (h : Fetching t net asked n orphan more top control (k :: sent) recv requests queued)
    (hbatch : Batch (T.nHeight t) asked n top orphan more)
    (hks : k :: sent ++ (recv ++ (requests.flatten ++ queued)) = List.range' (n + 1) (top - n))
    {client : SyncClient T} (hclient : client =
      { net.client with
        vBlocksToDownload := hashesAt T t queued
        vBlocksInFlight := hashesAt T t (sent ++ (recv ++ requests.flatten)) }) :
    ∃ c', client.processBlock (blockAt T t k) = (c', []) ∧ ∃ n' orphan' top', top ≤ top' ∧
      top' ≤ T.nHeight t ∧ Fetching t { net with
        client := c'
        toClient := sent.map (fun k ↦ .block (blockAt T t k)) ++
          if more = true ∧ recv ++ (requests.flatten ++ queued) = [] then
            [.inv [hashAt T t (T.nHeight t)]] else [] }
        asked n' orphan' more top' (if more then 100 else 10) sent recv requests queued := by
  have hle := hbatch.le
  obtain ⟨j, hj⟩ : ∃ j, top - n = j + 1 := by
    cases hsub : top - n with
    | zero =>
      rw [hsub] at hks
      cases hks
    | succ j => exact ⟨j, rfl⟩
  rw [hj, List.range'_succ, List.cons_append] at hks
  obtain ⟨rfl, hrest⟩ := List.cons.inj hks
  have htop := hbatch.top
  have hwaits : client.Waits t asked n orphan := by
    rw [hclient]
    exact h.client.withRequests _ _
  obtain ⟨c', hprocess, ⟨chain, index, orphans, rfl⟩, hstands⟩ :=
    hwaits.processNext (show n < T.nHeight t by omega)
  refine ⟨_, hprocess, ?_⟩
  by_cases hend : orphan = true ∧ n + 2 = T.nHeight t
  · -- the orphan is connected as well, and nothing is left of the batch
    rw [if_pos hend] at hstands
    have hlt := hbatch.lt_of_orphan hend.1
    have hnil : sent ++ (recv ++ (requests.flatten ++ queued)) = [] := by
      rw [hrest, show j = 0 by omega, List.range'_zero]
    have hlast : recv ++ (requests.flatten ++ queued) = [] := (List.append_eq_nil_iff.mp hnil).2
    have hwanted : Wanted (T.nHeight t) asked (T.nHeight t) false more (T.nHeight t)
        (if more then 100 else 10) (sent ++ (recv ++ (requests.flatten ++ queued))) := by
      have hall : Batch (T.nHeight t) asked (T.nHeight t) (T.nHeight t) false more := by
        have hasked := h.client.asked_le
        exact ⟨le_rfl, le_rfl, fun ho ↦ absurd ho Bool.false_ne_true, fun _ ↦ by omega, fun _ ↦ rfl⟩
      have hempty := Wanted.batch hall
      rw [Nat.sub_self, List.range'_zero] at hempty
      rw [hnil]
      exact hempty
    refine ⟨T.nHeight t, false, T.nHeight t, htop, le_rfl, ?_⟩
    refine ⟨⟨hstands, hwaits.started, hwaits.first, fun hno ↦ absurd hno (Nat.lt_irrefl _), ?_⟩,
      h.server.mono htop, hwanted, h.nonempty, rfl, h.toServer, ?_, ?_, h.inventory, h.getdata, ?_⟩
    · exact h.client.asked_le.trans h.client.le
    · rw [hclient]
    · rw [hclient]
    · have hcontinue := h.hashContinue
      rw [if_neg fun hand ↦ hand.2 hlast] at hcontinue
      exact hcontinue.trans (if_neg fun hand ↦ hand.2 hlast).symm
  · rw [if_neg hend] at hstands
    have hnext : Batch (T.nHeight t) asked (n + 1) top orphan more :=
      ⟨by omega, htop, hbatch.lt_of_orphan, hbatch.lt_of_more, hbatch.rest⟩
    have hwanted := Wanted.batch hnext
    rw [show top - (n + 1) = j by omega, ← hrest] at hwanted
    refine ⟨n + 1, orphan, top, le_rfl, htop, ?_⟩
    refine ⟨⟨hstands, hwaits.started, hwaits.first, fun hlt ↦ hwaits.last (by omega), ?_⟩,
      h.server, hwanted, h.nonempty, rfl, h.toServer, ?_, ?_, h.inventory, h.getdata,
      h.hashContinue⟩
    · exact h.client.asked_le.trans (Nat.le_succ n)
    · rw [hclient]
    · rw [hclient]

/-- The tip is announced behind a full batch. -/
theorem Fetching.receiveTip
    (h : Fetching t net asked n orphan true top control [] recv requests queued)
    (hnil : recv ++ (requests.flatten ++ queued) = []) :
    ∃ cost < 10 * (T.nHeight t - top) + control, SyncProgress t
      (SyncNet.clientReceives { net with toClient := [] } (.inv [hashAt T t (T.nHeight t)]))
      cost := by
  have hwanted := h.wanted
  have hcontinue := h.hashContinue
  rw [if_neg fun hand ↦ hand.2 hnil] at hcontinue
  simp only [List.append_eq_nil_iff] at hnil
  obtain ⟨rfl, hflat, rfl⟩ := hnil
  obtain rfl := h.requests_eq_nil hflat
  generalize hks : ([] ++ ([] ++ (([] : List (List ℕ)).flatten ++ [])) : List ℕ) = ks at hwanted
  generalize hmore : true = more at hwanted
  cases hwanted with
  | tip => cases hmore
  | batch hbatch =>
    subst hmore
    have htop : top = n := by
      have hlen := congrArg List.length hks
      rw [List.length_range'] at hlen
      have hle := hbatch.le
      simp at hlen
      omega
    subst htop
    have hless := hbatch.lt_of_more rfl
    have hclient := h.client
    have hle := hclient.le
    rw [if_pos rfl]
    by_cases hall : top = T.nHeight t
    · -- the client has the tip already
      have hno : orphan = false := by
        cases orphan with
        | false => rfl
        | true =>
          have hlt := hbatch.lt_of_orphan rfl
          omega
      subst hno
      have hdone : Batch (T.nHeight t) asked top top false false :=
        ⟨le_rfl, hall.le, fun ho ↦ absurd ho Bool.false_ne_true,
          fun hmore ↦ absurd hmore Bool.false_ne_true, fun _ ↦ hall⟩
      have hwanted := Wanted.batch hdone
      rw [Nat.sub_self, List.range'_zero] at hwanted
      have hstands : net.client.Stands t (T.nHeight t) false := hall ▸ hclient.toStands
      refine ⟨10 * (T.nHeight t - top) + 10, by omega, ?_⟩
      rw [SyncNet.clientReceives]
      dsimp only
      rw [SyncClient.receiveInvs, hstands.receiveInv_tip]
      have hfetching : Fetching t
          { net with toServer := net.toServer ++ ([] ++ []), toClient := [] }
          asked top false false top 10 [] [] [] [] :=
        ⟨hclient, h.server, hwanted, List.forall_mem_nil _, rfl, by simp [h.toServer], h.queue,
          h.flight, h.inventory, h.getdata, hcontinue⟩
      exact .fetching hfetching
    cases orphan with
    | true =>
      -- the client asks for the blocks up to its orphan again
      have hother : net.client.pindexLastGetBlocksBegin ≠ some (blockAt T t top) := by
        rw [hclient.first, Ne, Option.some_inj, blockAt_inj (by omega) hclient.le]
        omega
      obtain ⟨c', locator, hask, hwaits, hfinds, hqueue, hflight⟩ :=
        hclient.toStands.ask hclient.started rfl (.inl hother)
      have hreceive := hclient.toStands.receiveInv_orphan.trans hask
      refine ⟨10 * (T.nHeight t - top) + 60, by omega, ?_⟩
      rw [SyncNet.clientReceives]
      dsimp only
      rw [SyncClient.receiveInvs, hreceive]
      exact .asked hwaits hfinds (hqueue.trans h.queue) (hflight.trans h.flight) h.server
        h.inventory h.getdata hcontinue (by simp [h.toServer, SyncClient.receiveInvs]) rfl
    | false =>
      -- the tip is requested
      have hreceive := hclient.toStands.receiveInv_new (k := T.nHeight t) (by omega) le_rfl
        fun ho ↦ absurd ho Bool.false_ne_true
      have hqueue : net.client.vBlocksToDownload = [] := h.queue
      have hflight : net.client.vBlocksInFlight = [] := h.flight
      have hadd : net.client.addBlockToQueue (hashAt T t (T.nHeight t)) =
          { net.client with vBlocksToDownload := [hashAt T t (T.nHeight t)] } := by
        simp [SyncClient.addBlockToQueue, hqueue, hflight]
      rw [hadd] at hreceive
      obtain ⟨top', control', hwanted, hle', hcost⟩ : ∃ top' control',
          Wanted (T.nHeight t) asked top false false top' control' [T.nHeight t] ∧ top ≤ top' ∧
          10 * (T.nHeight t - top') + control' + 4 < 10 * (T.nHeight t - top) + 100 := by
        by_cases hlt : top + 1 < T.nHeight t
        · exact ⟨top, 80, .tip hlt, le_rfl, by omega⟩
        · have hlast : Batch (T.nHeight t) asked top (T.nHeight t) false false :=
            ⟨hle, le_rfl, fun ho ↦ absurd ho Bool.false_ne_true,
              fun hmore ↦ absurd hmore Bool.false_ne_true, fun _ ↦ rfl⟩
          have hwanted := Wanted.batch hlast
          rw [show T.nHeight t - top = 1 by omega, List.range'_one,
            show top + 1 = T.nHeight t by omega] at hwanted
          exact ⟨T.nHeight t, 10, hwanted, hle, by omega⟩
      refine ⟨10 * (T.nHeight t - top') + control' + 4, hcost, ?_⟩
      rw [SyncNet.clientReceives]
      dsimp only
      rw [SyncClient.receiveInvs, hreceive]
      have hfetching : Fetching t
          { net with
            client := { net.client with vBlocksToDownload := [hashAt T t (T.nHeight t)] }
            toServer := net.toServer ++ ([] ++ [])
            toClient := [] }
          asked top false false top' control' [] [] [] [T.nHeight t] :=
        ⟨⟨⟨hclient.toHas.congr rfl rfl rfl, hclient.orphans, hclient.orphan_lt⟩, hclient.started,
          hclient.first, hclient.last, hclient.asked_le⟩, h.server.mono hle', hwanted,
          List.forall_mem_nil _, rfl, by simp [h.toServer], rfl, hflight, h.inventory, h.getdata,
          hcontinue⟩
      exact .fetching hfetching

/-- A message arrives at the client. -/
theorem Fetching.clientReceives (hnull : ∀ b, T.getBlockHash b ≠ 0)
    (h : Fetching t net asked n orphan more top control sent recv requests queued)
    (hstep : net.step .clientReceives = some net') :
    ∃ cost < 10 * (T.nHeight t - top) + control + 4 * queued.length +
      3 * requests.flatten.length + 2 * recv.length + sent.length, SyncProgress t net' cost := by
  cases sent with
  | cons k sent =>
    have hnodup := h.wanted.nodup
    have hbounds := fun i (hi : i ∈ k :: sent ++ (recv ++ (requests.flatten ++ queued))) ↦
      (h.wanted.bounds hi).2
    have hnotin : hashAt T t k ∉ hashesAt T t queued := by
      rw [hashAt_mem_hashesAt (hbounds k (by simp)) fun i hi ↦ hbounds i (by simp [hi])]
      intro hmem
      rw [List.cons_append, List.nodup_cons] at hnodup
      exact hnodup.1 (by simp [hmem])
    have hflight : net.client.vBlocksInFlight =
        hashAt T t k :: hashesAt T t (sent ++ (recv ++ requests.flatten)) := h.flight
    have hreceive : net.client.receiveBlock (blockAt T t k) =
        ({ net.client with
          vBlocksToDownload := hashesAt T t queued
          vBlocksInFlight := hashesAt T t (sent ++ (recv ++ requests.flatten)) } :
            SyncClient T).processBlock (blockAt T t k) := by
      have hhash : T.getBlockHash (blockAt T t k) = hashAt T t k := rfl
      rw [SyncClient.receiveBlock, hhash, h.queue, hflight, List.erase_cons_head,
        List.erase_of_not_mem hnotin]
    rw [SyncNet.step, h.toClient, List.map_cons, List.cons_append] at hstep
    obtain rfl := Option.some.inj hstep
    dsimp only [SyncNet.clientReceives]
    rw [hreceive]
    have hwanted := h.wanted
    generalize hks : k :: sent ++ (recv ++ (requests.flatten ++ queued)) = ks at hwanted
    cases hwanted with
    | batch hbatch =>
      obtain ⟨c', hprocess, n', orphan', top', hle, hle', hfetching⟩ := h.receiveNext hbatch hks rfl
      rw [hprocess]
      dsimp only
      rw [List.append_nil]
      refine ⟨_, ?_, .fetching hfetching⟩
      rw [List.length_cons]
      omega
    | tip hlt =>
      rw [List.cons_append] at hks
      obtain ⟨rfl, hnil⟩ := List.cons.inj hks
      simp only [List.append_eq_nil_iff] at hnil
      obtain ⟨rfl, rfl, hflat, rfl⟩ := hnil
      obtain rfl := h.requests_eq_nil hflat
      rw [blockAt_top]
      have hwaits := h.client.withRequests [] []
      have hcontinue := h.hashContinue
      rw [if_neg fun hand ↦ Bool.false_ne_true hand.1] at hcontinue
      have hlast := hwaits.last (by omega)
      rw [if_neg Bool.false_ne_true] at hlast
      have hstands : ({ net.client with
          vBlocksToDownload := [], vBlocksInFlight := [], mapOrphanBlocks := [t] } :
            SyncClient T).Stands t n true :=
        ⟨hwaits.toHas.congr rfl rfl rfl, rfl, fun _ ↦ hlt⟩
      obtain ⟨c', locator, hask, hclient, hfinds, hqueue, hflight⟩ :=
        hstands.ask hwaits.started rfl (.inr (hlast ▸ (hnull _).symm))
      have hprocess := (hwaits.toStands.processTip hlt).trans hask
      refine ⟨10 * (T.nHeight t - n) + 60, by omega, ?_⟩
      change SyncProgress t { net with
        client := (SyncClient.processBlock { net.client with
          vBlocksToDownload := [], vBlocksInFlight := [] } t).1
        toServer := net.toServer ++ (SyncClient.processBlock { net.client with
          vBlocksToDownload := [], vBlocksInFlight := [] } t).2
        toClient := [] ++ if false = true ∧ _ then _ else _ } _
      rw [hprocess]
      refine .asked hclient hfinds hqueue hflight h.server h.inventory h.getdata hcontinue ?_ rfl
      change net.toServer ++ _ = _
      rw [h.toServer]
      rfl
  | nil =>
    have hsent := h.toClient
    rw [List.map_nil, List.nil_append] at hsent
    by_cases hend : more = true ∧ recv ++ (requests.flatten ++ queued) = []
    case neg =>
      rw [SyncNet.step, hsent, if_neg hend] at hstep
      cases hstep
    obtain ⟨rfl, hnil⟩ := hend
    rw [if_pos ⟨rfl, hnil⟩] at hsent
    rw [SyncNet.step, hsent] at hstep
    obtain rfl := Option.some.inj hstep
    obtain ⟨cost, hcost, hprogress⟩ := h.receiveTip hnil
    exact ⟨cost, by omega, hprogress⟩

/-- Every step brings the download nearer to its end. -/
theorem SyncProgress.step (hnull : ∀ b, T.getBlockHash b ≠ 0) {cost : ℕ}
    (h : SyncProgress t net cost) (hstep : net.step a = some net') :
    ∃ cost' < cost, SyncProgress t net' cost' := by
  cases h with
  | start client _ first queue flight server inventory getdata hashContinue toServer toClient =>
    exact ⟨_, by omega, .ofStart client first queue flight server inventory getdata hashContinue
      toServer toClient hstep⟩
  | asked client finds queue flight server inventory getdata hashContinue toServer toClient =>
    exact SyncProgress.ofAsked hnull client finds queue flight server inventory getdata hashContinue
      toServer toClient hstep
  | answered client batch limit queue flight server inventory getdata hashContinue toServer
      toClient =>
    obtain ⟨hlt, hprogress⟩ := SyncProgress.ofAnswered client batch limit queue flight server
      inventory getdata hashContinue toServer toClient hstep
    exact ⟨_, by omega, hprogress⟩
  | announced client batch nonempty queue flight server inventory getdata hashContinue toServer
      toClient =>
    have hfetching := SyncProgress.ofAnnounced client batch nonempty queue flight server inventory
      getdata hashContinue toServer toClient hstep
    refine ⟨_, ?_, .fetching hfetching⟩
    rw [List.length_range']
    simp only [List.flatten_nil, List.length_nil]
    omega
  | @fetching asked n top control orphan more sent recv queued requests h =>
    cases a with
    | startSync =>
      rw [SyncNet.step, h.client.started] at hstep
      cases hstep
    | announce =>
      rw [SyncNet.step, h.inventory] at hstep
      cases hstep
    | clientReceives => exact h.clientReceives hnull hstep
    | request =>
      obtain ⟨i, hsome, hfetching⟩ := h.request hstep
      refine ⟨_, ?_, .fetching hfetching⟩
      have hpos := List.length_pos_iff.mpr hsome
      have hsplit := congrArg List.length (List.take_append_drop i queued)
      rw [List.length_append] at hsplit
      rw [List.flatten_append, List.flatten_singleton, List.length_append]
      omega
    | serverReceives =>
      obtain ⟨r, rest, rfl, rfl, hsome, hfetching⟩ := h.serverReceives hstep
      refine ⟨_, ?_, .fetching hfetching⟩
      have hpos := List.length_pos_iff.mpr hsome
      rw [List.flatten_cons, List.length_append, List.length_nil]
      omega
    | serve =>
      obtain ⟨k, rest, rfl, hfetching⟩ := h.serve hnull hstep
      refine ⟨_, ?_, .fetching hfetching⟩
      rw [List.length_append, List.length_singleton, List.length_cons]
      omega

/-- So a run is no longer than the bound. -/
theorem SyncProgress.run (hnull : ∀ b, T.getBlockHash b ≠ 0) {actions : List SyncAction} {cost : ℕ}
    (h : SyncProgress t net cost) (hrun : net.run actions = some net') :
    ∃ cost', SyncProgress t net' cost' ∧ actions.length + cost' ≤ cost := by
  induction actions generalizing net cost with
  | nil =>
    obtain rfl := Option.some.inj hrun
    exact ⟨cost, h, by rw [List.length_nil, Nat.zero_add]⟩
  | cons a actions ih =>
    obtain ⟨middle, hstep, hrest⟩ := Option.bind_eq_some_iff.mp hrun
    obtain ⟨cost', hlt, hprogress⟩ := h.step hnull hstep
    obtain ⟨cost'', hend, hle⟩ := ih hprogress hrest
    exact ⟨cost'', hend, by rw [List.length_cons]; omega⟩

omit [DecidableEq β] [DecidableEq Hash] in
/-- A batch of no blocks that is the last one is empty because the client has them all. -/
theorem Batch.eq_top (h : Batch (T.nHeight t) asked n n orphan more) {c : SyncClient T}
    (hstands : c.Stands t n orphan) (hmore : more = false) : n = T.nHeight t := by
  have hrest := h.rest hmore
  cases orphan with
  | false => exact hrest
  | true =>
    have hlt := hstands.orphan_lt rfl
    rw [if_pos rfl] at hrest
    omega

/-- A node with nothing left to request has no block on the way. -/
theorem Fetching.quiet
    (h : Fetching t net asked n orphan more top control sent recv requests queued)
    (hquiet : ∀ a, net.step a = none) :
    n = T.nHeight t ∧ queued = [] ∧ sent ++ (recv ++ requests.flatten) = [] := by
  have hclient := hquiet .clientReceives
  have hserve := hquiet .serve
  have hserver := hquiet .serverReceives
  have hrequest := hquiet .request
  obtain rfl : recv = [] := by
    cases recv with
    | nil => rfl
    | cons k recv =>
      rw [SyncNet.step, h.getdata] at hserve
      cases hserve
  obtain rfl : requests = [] := by
    cases requests with
    | nil => rfl
    | cons r requests =>
      rw [SyncNet.step, h.getdata, h.toServer] at hserver
      cases hserver
  obtain rfl : sent = [] := by
    cases sent with
    | nil => rfl
    | cons k sent =>
      rw [SyncNet.step, h.toClient] at hclient
      cases hclient
  have hflight : net.client.vBlocksInFlight = [] := h.flight
  obtain rfl : queued = [] := by
    have hnodup : (net.client.vBlocksInFlight ++ net.client.vBlocksToDownload).Nodup := by
      rw [hflight, h.queue]
      exact nodup_hashesAt h.wanted.nodup fun k hk ↦ (h.wanted.bounds hk).2
    obtain ⟨i, hloop, hroom⟩ := SyncClient.requestLoop_eq hnodup
    cases hqueued : queued with
    | nil => rfl
    | cons k ks =>
      have hqueue : net.client.vBlocksToDownload = hashAt T t k :: hashesAt T t ks := by
        rw [h.queue, hqueued]
        rfl
      have hsome : net.client.vBlocksToDownload ≠ [] := by
        rw [hqueue]
        exact List.cons_ne_nil _ _
      have hfree : net.client.vBlocksInFlight.length < 128 := by
        rw [hflight]
        exact Nat.succ_pos _
      have hpos := hroom hsome hfree
      obtain ⟨j, rfl⟩ := Nat.exists_eq_succ_of_ne_zero hpos.ne'
      rw [SyncNet.step, SyncClient.request, hloop, hqueue] at hrequest
      cases hrequest
  have hmore : more = false := by
    cases more with
    | false => rfl
    | true =>
      rw [SyncNet.step, h.toClient] at hclient
      cases hclient
  refine ⟨?_, rfl, rfl⟩
  have hwanted := h.wanted
  generalize hks : ([] ++ ([] ++ (([] : List (List ℕ)).flatten ++ [])) : List ℕ) = ks at hwanted
  cases hwanted with
  | tip => cases hks
  | batch hbatch =>
    have htop : top = n := by
      have hlen := congrArg List.length hks
      rw [List.length_range'] at hlen
      have hle := hbatch.le
      simp at hlen
      omega
    subst htop
    exact hbatch.eq_top h.client.toStands hmore

/-- Where nothing is left to do, the client has all blocks. -/
theorem SyncProgress.quiet {cost : ℕ} (h : SyncProgress t net cost)
    (hquiet : ∀ a, net.step a = none) :
    net.client.Stands t (T.nHeight t) false ∧ net.client.vBlocksToDownload = [] ∧
      net.client.vBlocksInFlight = [] := by
  have hfull : ∀ {n orphan}, net.client.Stands t n orphan → n = T.nHeight t →
      net.client.Stands t (T.nHeight t) false := by
    rintro n orphan hstands rfl
    cases orphan with
    | false => exact hstands
    | true =>
      have hlt := hstands.orphan_lt rfl
      omega
  cases h with
  | start _ started =>
    have hnone := hquiet .startSync
    rw [SyncNet.step, started] at hnone
    cases hnone
  | asked _ _ _ _ _ _ getdata _ toServer =>
    have hnone := hquiet .serverReceives
    rw [SyncNet.step, getdata, toServer] at hnone
    cases hnone
  | @answered n m orphan more client batch _ queue flight _ inventory =>
    have hnone := hquiet .announce
    obtain rfl : n = m := by
      have hle := batch.le
      by_contra hne
      obtain ⟨j, hj⟩ : ∃ j, m - n = j + 1 := ⟨m - n - 1, by omega⟩
      rw [SyncNet.step, inventory, hj, List.range'_succ] at hnone
      cases hnone
    have hmore : more = false := by
      cases more with
      | false => rfl
      | true => exact absurd (batch.lt_of_more rfl) (Nat.lt_irrefl n)
    exact ⟨hfull client.toStands (batch.eq_top client.toStands hmore), queue, flight⟩
  | announced _ _ _ _ _ _ _ _ _ _ toClient =>
    have hnone := hquiet .clientReceives
    rw [SyncNet.step, toClient] at hnone
    cases hnone
  | fetching h =>
    obtain ⟨htop, rfl, hnil⟩ := h.quiet hquiet
    refine ⟨hfull h.client.toStands htop, h.queue, ?_⟩
    rw [h.flight, hnil]
    rfl

/-- From every state a download comes to its end. -/
theorem SyncProgress.exists_quiet (hnull : ∀ b, T.getBlockHash b ≠ 0) {cost : ℕ}
    (h : SyncProgress t net cost) :
    ∃ actions net', net.run actions = some net' ∧ ∀ a, net'.step a = none := by
  induction cost using Nat.strong_induction_on generalizing net with
  | _ cost ih =>
    by_cases hquiet : ∀ a, net.step a = none
    · exact ⟨[], net, rfl, hquiet⟩
    · rw [not_forall] at hquiet
      obtain ⟨a, ha⟩ := hquiet
      obtain ⟨middle, hstep⟩ := Option.ne_none_iff_exists'.mp ha
      obtain ⟨cost', hlt, hprogress⟩ := h.step hnull hstep
      obtain ⟨actions, net', hrun, hend⟩ := ih cost' hlt hprogress
      refine ⟨a :: actions, net', ?_, hend⟩
      rw [SyncNet.run, hstep]
      exact hrun

end Steps

/-! ### The download -/

variable {nChainWork : β → ℕ} {ours theirs : CChain T} {mapBlockIndex : List β}
  {theirIndex : Hash → Option β} {lastCheckpoint : Option ℕ} {nMaxSize : ℕ} {c : β}

omit [DecidableEq Hash] in
/-- A client that has of the peer's chain the beginning stands at its own tip. -/
theorem SyncProgress.ofConnected (hwork : ∀ {b p}, T.pprev b = some p → nChainWork p < nChainWork b)
    (hours : ours.tip = some c) (htheirs : theirs.tip = some t) (hbehind : T.tree.IsAncestor c t)
    (hindex : ∀ b, theirs.contains b = true → (b ∈ mapBlockIndex ↔ ours.contains b = true))
    (hknows : theirs.Knows theirIndex) :
    SyncProgress t (.connected nChainWork ours theirs mapBlockIndex theirIndex lastCheckpoint
      nMaxSize) (10 * (T.nHeight t - T.nHeight c) + 70) := by
  have htip : blockAt T t (T.nHeight c) = c := hbehind.ancestorAt_eq
  have hhave : ∀ k ≤ T.nHeight t, blockAt T t k ∈ mapBlockIndex ↔ k ≤ T.nHeight c := by
    intro k hk
    have hin : theirs.contains (blockAt T t k) = true :=
      theirs.contains_iff.mpr ⟨t, htheirs, isAncestor_blockAt T t k⟩
    rw [hindex _ hin, ours.contains_iff]
    constructor
    · rintro ⟨c', hc', hanc⟩
      obtain rfl := Option.some.inj (hours.symm.trans hc')
      have hle : T.nHeight (blockAt T t k) ≤ T.nHeight c := hanc.height_le
      rwa [nHeight_blockAt hk] at hle
    · intro hle
      refine ⟨c, hours, (isAncestor_blockAt T t k).of_height_le hbehind ?_⟩
      change T.nHeight (blockAt T t k) ≤ T.nHeight c
      rwa [nHeight_blockAt hk]
  refine .start ⟨⟨hbehind.height_le, ?_, hhave, hwork⟩, rfl, fun ho ↦ absurd ho Bool.false_ne_true⟩
    rfl rfl rfl rfl ⟨htheirs, hknows, List.forall_mem_nil _⟩ rfl rfl rfl rfl rfl
  rw [htip]
  exact hours

/-- However the two nodes alternate, the download ends, and then the client has the chain of its
peer, no orphan and nothing left to request. -/
theorem SyncNet.chain_of_run (hnull : ∀ b, T.getBlockHash b ≠ 0)
    (hwork : ∀ {b p}, T.pprev b = some p → nChainWork p < nChainWork b)
    (hours : ours.tip = some c) (htheirs : theirs.tip = some t) (hbehind : T.tree.IsAncestor c t)
    (hindex : ∀ b, theirs.contains b = true → (b ∈ mapBlockIndex ↔ ours.contains b = true))
    (hknows : theirs.Knows theirIndex) {actions : List SyncAction} {net : SyncNet T}
    (hrun : (SyncNet.connected nChainWork ours theirs mapBlockIndex theirIndex lastCheckpoint
      nMaxSize).run actions = some net) :
    actions.length ≤ 10 * (T.nHeight t - T.nHeight c) + 70 ∧
      ((∀ a, net.step a = none) → net.client.chainActive.vChain = theirs.vChain ∧
        net.client.mapOrphanBlocks = [] ∧ net.client.vBlocksToDownload = [] ∧
        net.client.vBlocksInFlight = []) ∧
      ∃ more net', net.run more = some net' ∧ ∀ a, net'.step a = none := by
  have hstart : SyncProgress t (.connected nChainWork ours theirs mapBlockIndex theirIndex
      lastCheckpoint nMaxSize) (10 * (T.nHeight t - T.nHeight c) + 70) :=
    .ofConnected hwork hours htheirs hbehind hindex hknows
  obtain ⟨cost, hprogress, hle⟩ := hstart.run hnull hrun
  refine ⟨(Nat.le_add_right _ _).trans hle, fun hquiet ↦ ?_, hprogress.exists_quiet hnull⟩
  obtain ⟨hstands, hqueue, hflight⟩ := hprogress.quiet hquiet
  refine ⟨?_, hstands.orphans, hqueue, hflight⟩
  rw [CChain.eq_branch_tip, hstands.tip, blockAt_top, theirs.eq_branch_tip, htheirs]

/-- Genesis and 700 blocks after it, which take two batches. -/
def fetchTree : BlockTree (Fin 701) Uint256 where
  pprev b := if b.val = 0 then none else some ⟨b.val - 1, (b.val.sub_le 1).trans_lt b.isLt⟩
  nHeight b := b
  getBlockHash b := BitVec.ofNat 256 (b + 1)
  genesis := 0
  nHeight_genesis := rfl
  eq_genesis := by
    intro b h
    split at h
    case isTrue hzero => exact Fin.ext hzero
    case isFalse => cases h
  nHeight_pprev := by
    intro b p h
    split at h
    case isTrue => cases h
    case isFalse hpos =>
      obtain rfl := Option.some.inj h
      exact (Nat.succ_pred_eq_of_ne_zero hpos).symm
  nHeight_lt b := by omega
  getBlockHash_injective := by
    intro a b h
    have hvalue := congrArg BitVec.toNat h
    rw [BitVec.toNat_ofNat, BitVec.toNat_ofNat, Nat.mod_eq_of_lt (by omega),
      Nat.mod_eq_of_lt (by omega)] at hvalue
    exact Fin.ext (Nat.succ_injective hvalue)

theorem getBlockHash_fetchTree (b : Fin 701) : fetchTree.getBlockHash b ≠ 0 := by
  intro h
  have hvalue := congrArg BitVec.toNat h
  change (b.val + 1) % 2 ^ 256 = 0 at hvalue
  omega

theorem pprev_fetchTree {b p : Fin 701} (h : fetchTree.pprev b = some p) : (p : ℕ) < b := by
  have hheight : (b : ℕ) = p + 1 := fetchTree.nHeight_pprev h
  omega

/-- The chain up to a block, and where a node finds a hash. -/
def fetchChain (tip : Fin 701) : CChain fetchTree := ⟨fetchTree.branch (some tip), some tip, rfl⟩

def fetchIndex (hash : Uint256) : Option (Fin 701) :=
  (List.finRange 701).find? (fetchTree.getBlockHash · = hash)

theorem tip_fetchChain (tip : Fin 701) : (fetchChain tip).tip = some tip :=
  CChain.getLast?_branch fetchTree (some tip)

theorem contains_fetchChain (b : Fin 701) (_ : (fetchChain 700).contains b = true) :
    b ∈ [(0 : Fin 701)] ↔ (fetchChain 0).contains b = true := by
  rw [List.mem_singleton, CChain.contains_iff, tip_fetchChain]
  constructor
  · rintro rfl
    exact ⟨0, rfl, .refl 0⟩
  · rintro ⟨t, ht, hanc⟩
    obtain rfl := Option.some.inj ht
    exact Fin.ext (Nat.le_zero.mp hanc.height_le)

theorem knows_fetchIndex : (fetchChain 700).Knows fetchIndex where
  getBlockHash := by
    intro hash b h
    exact of_decide_eq_true (List.find?_some h :)
  chain := by
    intro b _
    cases hfind : fetchIndex (fetchTree.getBlockHash b) with
    | none =>
      have hmiss := List.find?_eq_none.mp hfind b (List.mem_finRange b)
      exact absurd (decide_eq_true rfl) hmiss
    | some b' =>
      have hhash : fetchTree.getBlockHash b' = fetchTree.getBlockHash b :=
        of_decide_eq_true (List.find?_some hfind :)
      rw [fetchTree.getBlockHash_injective hhash]

/-- A node that has genesis only, and a peer with the 700 blocks. -/
def fetchNet : SyncNet fetchTree :=
  .connected (fun b ↦ b) (fetchChain 0) (fetchChain 700) [0] fetchIndex none 0

theorem progress_fetchNet : SyncProgress 700 fetchNet 7070 :=
  .ofConnected pprev_fetchTree (tip_fetchChain 0) (tip_fetchChain 700)
    (fetchTree.tree.isAncestor_root 700) contains_fetchChain knows_fetchIndex

/-- The node gets them all. -/
theorem SyncNet.chain_of_run_sample : ∃ (actions : List SyncAction) (net : SyncNet fetchTree),
    fetchNet.run actions = some net ∧ actions.length ≤ 7070 ∧
      net.client.chainActive.vChain = (fetchChain 700).vChain := by
  obtain ⟨actions, net, hrun, hquiet⟩ := progress_fetchNet.exists_quiet getBlockHash_fetchTree
  obtain ⟨hle, hend, -⟩ := SyncNet.chain_of_run getBlockHash_fetchTree pprev_fetchTree
    (tip_fetchChain 0) (tip_fetchChain 700) (fetchTree.tree.isAncestor_root 700)
    contains_fetchChain knows_fetchIndex hrun
  have hbound : 10 * (fetchTree.nHeight 700 - fetchTree.nHeight 0) + 70 = 7070 := by decide
  exact ⟨actions, net, hrun, hle.trans hbound.le, (hend hquiet).1⟩

end Bitmark

import Bitmark.Net.Framing

/-!
# What the receiver delivers

After some bytes of a frame the receiver has a message that depends on these bytes alone, not on the
chunks they came in. So whatever the cuts, it completes the messages of the stream in their order,
and `ProcessMessages` finds nothing wrong with any of them.
-/

namespace Bitmark

open Framing

variable (hash : Bytes → Uint256) (start : MessageStart)

/-- The message that is received when `n` bytes of its frame have arrived. -/
def collected (m : Bytes × Bytes) (n : Nat) : CNetMessage :=
  if n < CMessageHeader.headerSize then
    { CNetMessage.new start with
      hdrbuf := (frame hash start m).take n ++ List.replicate (CMessageHeader.headerSize - n) 0
      nHdrPos := n }
  else
    { in_data := true
      hdrbuf := []
      hdr := header hash start m
      nHdrPos := CMessageHeader.headerSize
      vRecv := m.2.take (n - CMessageHeader.headerSize) ++
        List.replicate (m.2.length - (n - CMessageHeader.headerSize)) 0
      nDataPos := n - CMessageHeader.headerSize }

variable {hash start} {m : Bytes × Bytes} {n : Nat}

theorem collected_of_lt (h : n < CMessageHeader.headerSize) :
    collected hash start m n =
      { CNetMessage.new start with
        hdrbuf := (frame hash start m).take n ++ List.replicate (CMessageHeader.headerSize - n) 0
        nHdrPos := n } := if_pos h

theorem collected_of_le (h : CMessageHeader.headerSize ≤ n) :
    collected hash start m n =
      { in_data := true
        hdrbuf := []
        hdr := header hash start m
        nHdrPos := CMessageHeader.headerSize
        vRecv := m.2.take (n - CMessageHeader.headerSize) ++
          List.replicate (m.2.length - (n - CMessageHeader.headerSize)) 0
        nDataPos := n - CMessageHeader.headerSize } := if_neg (Nat.not_lt.mpr h)

theorem collected_zero : collected hash start m 0 = CNetMessage.new start := rfl

/-- A message is complete when its whole frame has arrived, not before. -/
theorem Sendable.complete_iff (h : Sendable m) :
    (collected hash start m n).complete = true ↔ n = (frame hash start m).length := by
  rw [length_frame]
  by_cases hlt : n < CMessageHeader.headerSize
  · rw [collected_of_lt hlt]
    exact iff_of_false (by simp [CNetMessage.complete, CNetMessage.new]) (by omega)
  · rw [collected_of_le (Nat.not_lt.mp hlt), CNetMessage.complete, h.toNat_nMessageSize]
    simp only [Bool.true_and, beq_iff_eq]
    omega

/-- Writing the next bytes behind those that are there. -/
theorem memcpy_take {bs : Bytes} {n k : Nat} (size : Nat) (hle : n + k ≤ bs.length) :
    memcpy (bs.take n ++ List.replicate (size - n) 0) n ((bs.drop n).take k) =
      bs.take (n + k) ++ List.replicate (size - (n + k)) 0 := by
  have hn : (bs.take n).length = n := List.length_take_of_le (by omega)
  have hk : ((bs.drop n).take k).length = k := by
    rw [List.length_take, List.length_drop]
    omega
  have hrest : (bs.take n ++ List.replicate (size - n) (0 : UInt8)).drop (n + k) =
      List.replicate (size - (n + k)) 0 := by
    rw [← List.drop_drop, List.drop_left' hn, List.drop_replicate]
    congr 1
    omega
  rw [memcpy, List.take_left' hn, hk, hrest, ← List.take_add]

/-- Bytes of the header are taken in. -/
theorem Sendable.readHeader (h : Sendable m) (hn : n < CMessageHeader.headerSize) {pch : Bytes}
    {k : Nat} (hk : k = min (CMessageHeader.headerSize - n) pch.length)
    (hpch : pch.take k = ((frame hash start m).drop n).take k) :
    (collected hash start m n).readHeader pch = some (collected hash start m (n + k), k) := by
  have hframe : (frame hash start m).length = CMessageHeader.headerSize + m.2.length :=
    length_frame
  have hbuf : memcpy ((frame hash start m).take n ++
        List.replicate (CMessageHeader.headerSize - n) 0) n (pch.take k) =
      (frame hash start m).take (n + k) ++
        List.replicate (CMessageHeader.headerSize - (n + k)) 0 := by
    rw [hpch]
    exact memcpy_take _ (by omega)
  rw [collected_of_lt hn, CNetMessage.readHeader]
  simp only [show 24 - n = CMessageHeader.headerSize - n from rfl, ← hk, hbuf]
  by_cases hfull : n + k < CMessageHeader.headerSize
  · rw [if_pos (show n + k < 24 from hfull), collected_of_lt hfull]
  · have hall : n + k = CMessageHeader.headerSize := by omega
    have hread : CMessageHeader.read ((frame hash start m).take (n + k) ++
        List.replicate (CMessageHeader.headerSize - (n + k)) 0) =
          some (header hash start m, []) := by
      rw [hall, Nat.sub_self, List.replicate_zero, frame, List.take_left' length_header]
      exact CMessageHeader.reads_serialize start.length_eq (CMessageHeader.length_strncpy m.1) []
    rw [if_neg (show ¬ n + k < 24 from hfull), hread]
    dsimp only
    rw [h.toNat_nMessageSize, if_neg (Nat.not_lt.mpr h.payload_length),
      collected_of_le (Nat.le_of_eq hall.symm), hall]
    simp [CNetMessage.new]

/-- Bytes of the payload are taken in. -/
theorem Sendable.readData (h : Sendable m) (hn : CMessageHeader.headerSize ≤ n)
    (hlt : n < (frame hash start m).length) {pch : Bytes} {k : Nat}
    (hk : k = min ((frame hash start m).length - n) pch.length)
    (hpch : pch.take k = ((frame hash start m).drop n).take k) :
    (collected hash start m n).readData pch = (collected hash start m (n + k), k) := by
  have hframe : (frame hash start m).length = CMessageHeader.headerSize + m.2.length :=
    length_frame
  obtain ⟨j, rfl⟩ := Nat.exists_eq_add_of_le hn
  have hdrop : (frame hash start m).drop (CMessageHeader.headerSize + j) = m.2.drop j := by
    rw [← List.drop_drop, frame, List.drop_left' length_header]
  have hremaining : m.2.length - j = (frame hash start m).length -
      (CMessageHeader.headerSize + j) := by omega
  have hbuf : memcpy (m.2.take j ++ List.replicate (m.2.length - j) 0) j (pch.take k) =
      m.2.take (j + k) ++ List.replicate (m.2.length - (j + k)) 0 := by
    rw [hpch, hdrop]
    exact memcpy_take _ (by omega)
  rw [collected_of_le hn, collected_of_le (Nat.le_add_right_of_le hn), CNetMessage.readData]
  simp only [h.toNat_nMessageSize, Nat.add_sub_cancel_left, hremaining, ← hk]
  rw [← hremaining, hbuf, Nat.add_assoc, Nat.add_sub_cancel_left]

/-- A round of `ReceiveMsgBytes` takes in at least one byte, and none of the next frame. -/
theorem Sendable.absorb (h : Sendable m) (hn : n < (frame hash start m).length) {pch : Bytes}
    (hne : pch ≠ [])
    (hpch : ∀ k ≤ min ((frame hash start m).length - n) pch.length,
      pch.take k = ((frame hash start m).drop n).take k) :
    ∃ k, (collected hash start m n).absorb pch = some (collected hash start m (n + k), k) ∧
      0 < k ∧ k ≤ (frame hash start m).length - n ∧ k ≤ pch.length := by
  have hframe : (frame hash start m).length = CMessageHeader.headerSize + m.2.length :=
    length_frame
  have hpos := List.length_pos_iff.mpr hne
  by_cases hheader : n < CMessageHeader.headerSize
  · refine ⟨min (CMessageHeader.headerSize - n) pch.length, ?_, by omega, by omega, by omega⟩
    rw [CNetMessage.absorb, if_neg (by simp [collected_of_lt hheader, CNetMessage.new])]
    exact h.readHeader hheader rfl (hpch _ (by omega))
  · have hdata := Nat.not_lt.mp hheader
    refine ⟨min ((frame hash start m).length - n) pch.length, ?_, by omega, by omega, by omega⟩
    rw [CNetMessage.absorb, if_pos (by rw [collected_of_le hdata])]
    exact congrArg some (h.readData hdata hn rfl (hpch _ (Nat.le_refl _)))

theorem frames_ne_nil {msgs : List (Bytes × Bytes)} :
    ∀ f ∈ msgs.map (frame hash start), f ≠ [] := by
  intro f hf
  obtain ⟨m, -, rfl⟩ := List.mem_map.mp hf
  exact frame_ne_nil

/-! ### The receiver -/

/-- The incomplete message at the back of `vRecvMsg`, if any byte of it has arrived. -/
def partialMessage (hash : Bytes → Uint256) (start : MessageStart) (n : Nat) :
    List (Bytes × Bytes) → List CNetMessage
  | [] => []
  | m :: _ => if n = 0 then [] else [collected hash start m n]

theorem partialMessage_zero (rest : List (Bytes × Bytes)) :
    partialMessage hash start 0 rest = [] := by
  cases rest <;> rfl

theorem partialMessage_append {rest : List (Bytes × Bytes)}
    (hcursor : Cursor n (rest.map (frame hash start))) (m : Bytes × Bytes) :
    partialMessage hash start n (rest ++ [m]) = partialMessage hash start n rest := by
  cases rest with
  | nil =>
    have hzero : n = 0 := hcursor
    rw [hzero, partialMessage_zero, partialMessage_zero]
  | cons w rest => rfl

/-- The message whose frame has arrived. -/
def arrived (hash : Bytes → Uint256) (start : MessageStart) (m : Bytes × Bytes) : CNetMessage :=
  collected hash start m (frame hash start m).length

theorem Sendable.arrived_complete (h : Sendable m) : (arrived hash start m).complete = true :=
  h.complete_iff.mpr rfl

namespace CNode

theorem getLast?_partialMessage {waiting rest : List (Bytes × Bytes)} (hn : n ≠ 0) :
    (waiting.map (arrived hash start) ++ partialMessage hash start n (m :: rest)).getLast? =
      some (collected hash start m n) := by
  rw [partialMessage, if_neg hn, List.getLast?_concat]

/-- `ReceiveMsgBytes` goes on with the incomplete message, or with a new one. -/
theorem current_eq {waiting rest : List (Bytes × Bytes)} (hwaiting : ∀ w ∈ waiting, Sendable w)
    (h : Sendable m) (hn : n < (frame hash start m).length) :
    current start (waiting.map (arrived hash start) ++ partialMessage hash start n (m :: rest)) =
      (waiting.map (arrived hash start), collected hash start m n) := by
  by_cases hzero : n = 0
  · subst hzero
    rw [partialMessage, if_pos rfl, List.append_nil, current, collected_zero]
    cases hlast : (waiting.map (arrived hash start)).getLast? with
    | none => rfl
    | some msg =>
      obtain ⟨w, hw, rfl⟩ := List.mem_map.mp (List.mem_of_getLast? hlast)
      dsimp only
      rw [if_pos (hwaiting w hw).arrived_complete]
  · have hincomplete : ¬ (collected hash start m n).complete = true := fun hc ↦
      Nat.ne_of_lt hn (h.complete_iff.mp hc)
    rw [current, getLast?_partialMessage hzero]
    dsimp only
    rw [if_neg hincomplete, partialMessage, if_neg hzero, List.dropLast_concat]

theorem receiveLoop_succ {nBytes : Nat} {vRecvMsg : List CNetMessage} {pch : Bytes}
    (h : pch ≠ []) : receiveLoop start (nBytes + 1) vRecvMsg pch =
      match (current start vRecvMsg).2.absorb pch with
      | none => none
      | some (msg, handled) =>
        receiveLoop start nBytes ((current start vRecvMsg).1 ++ [msg]) (pch.drop handled) := by
  cases pch with
  | nil => exact absurd rfl h
  | cons b pch => rfl

/-- `ReceiveMsgBytes` goes on in the sequence of frames, whatever bytes of it the chunk has. -/
theorem receiveLoop_eq_some {nBytes : Nat} {pch future : Bytes} {waiting rest : List (Bytes × Bytes)}
    (hwaiting : ∀ w ∈ waiting, Sendable w) (hrest : ∀ m ∈ rest, Sendable m)
    (hcursor : Cursor n (rest.map (frame hash start))) (hlength : pch.length ≤ nBytes)
    (hbytes : pch ++ future = remaining n (rest.map (frame hash start))) :
    ∃ got rest' n', rest = got ++ rest' ∧ Cursor n' (rest'.map (frame hash start)) ∧
      receiveLoop start nBytes
          (waiting.map (arrived hash start) ++ partialMessage hash start n rest) pch =
        some ((waiting ++ got).map (arrived hash start) ++ partialMessage hash start n' rest') ∧
      future = remaining n' (rest'.map (frame hash start)) := by
  induction nBytes generalizing n pch waiting rest with
  | zero =>
    rw [List.length_eq_zero_iff.mp (Nat.le_zero.mp hlength)] at hbytes ⊢
    refine ⟨[], rest, n, rfl, hcursor, ?_, hbytes⟩
    rw [receiveLoop, List.append_nil]
  | succ nBytes ih =>
    by_cases hnil : pch = []
    · subst hnil
      refine ⟨[], rest, n, rfl, hcursor, ?_, hbytes⟩
      rw [receiveLoop, List.append_nil]
    · cases rest with
      | nil =>
        rw [List.map_nil, remaining_nil, List.append_eq_nil_iff] at hbytes
        exact absurd hbytes.1 hnil
      | cons m rest =>
        have h := hrest m List.mem_cons_self
        have hn : n < (frame hash start m).length := hcursor
        have hstream : pch ++ future = (frame hash start m).drop n ++
            (rest.map (frame hash start)).flatten := by
          rw [hbytes, List.map_cons, remaining_cons hn.le]
        have hpch : ∀ k ≤ min ((frame hash start m).length - n) pch.length,
            pch.take k = ((frame hash start m).drop n).take k := by
          intro k hk
          have hleft : (pch ++ future).take k = pch.take k :=
            List.take_append_of_le_length (by omega)
          rw [← hleft, hstream, List.take_append_of_le_length]
          rw [List.length_drop]
          omega
        obtain ⟨k, habsorb, hpos, hframe, hk⟩ := h.absorb hn hnil hpch
        have hdrop : pch.drop k ++ future =
            remaining (n + k) ((m :: rest).map (frame hash start)) := by
          rw [remaining_add, ← hbytes, List.drop_append_of_le_length hk]
        have hless : (pch.drop k).length ≤ nBytes := by
          rw [List.length_drop]
          omega
        rw [receiveLoop_succ hnil, current_eq hwaiting h hn]
        simp only [habsorb]
        by_cases hend : n + k = (frame hash start m).length
        · -- the message is complete
          have hwaiting' : ∀ w ∈ waiting ++ [m], Sendable w := by
            intro w hw
            rcases List.mem_append.mp hw with hw | hw
            · exact hwaiting w hw
            · exact List.mem_singleton.mp hw ▸ h
          have hfront : waiting.map (arrived hash start) ++ [collected hash start m (n + k)] =
              (waiting ++ [m]).map (arrived hash start) ++ partialMessage hash start 0 rest := by
            rw [hend, List.map_append, partialMessage_zero, List.append_nil]
            rfl
          rw [hend, List.map_cons, remaining_length] at hdrop
          obtain ⟨got, rest', n', rfl, hcursor', hloop, hfuture⟩ := ih hwaiting'
            (fun w hw ↦ hrest w (List.mem_cons_of_mem m hw))
            (cursor_zero frames_ne_nil) hless hdrop
          refine ⟨m :: got, rest', n', rfl, hcursor', ?_, hfuture⟩
          rw [hfront, hloop, List.append_assoc, List.singleton_append]
        · have hpart : waiting.map (arrived hash start) ++ [collected hash start m (n + k)] =
              waiting.map (arrived hash start) ++ partialMessage hash start (n + k) (m :: rest) := by
            rw [partialMessage, if_neg (by omega)]
          rw [hpart]
          exact ih hwaiting hrest (show n + k < _ by omega) hless hdrop

/-- Nothing is wrong with a message that has arrived. -/
theorem processLoop_arrived (h : Sendable m) (sendFull : Bool) (vRecvMsg : List CNetMessage) :
    processLoop hash start sendFull (arrived hash start m :: vRecvMsg) =
      if sendFull then ⟨true, arrived hash start m :: vRecvMsg, none⟩
      else ⟨true, vRecvMsg, some m⟩ := by
  have hframe : (frame hash start m).length = CMessageHeader.headerSize + m.2.length :=
    length_frame
  have hle : CMessageHeader.headerSize ≤ (frame hash start m).length := by omega
  have hhdr : (arrived hash start m).hdr = header hash start m := by
    rw [arrived, collected_of_le hle]
  have hrecv : (arrived hash start m).vRecv = m.2 := by
    rw [arrived, collected_of_le hle, hframe]
    simp
  have hcommand : (header hash start m).getCommand = m.1 :=
    CMessageHeader.getCommand_strncpy rfl h.command_length h.command_chars
  rw [processLoop, h.arrived_complete, hhdr, hrecv, h.toNat_nMessageSize, h.isValid, hcommand,
    List.take_length]
  cases sendFull <;> simp [header]

/-- An incomplete message is left where it is. -/
theorem processLoop_partialMessage {rest : List (Bytes × Bytes)} (hrest : ∀ m ∈ rest, Sendable m)
    (hcursor : Cursor n (rest.map (frame hash start))) (sendFull : Bool) :
    processLoop hash start sendFull (partialMessage hash start n rest) =
      ⟨true, partialMessage hash start n rest, none⟩ := by
  cases rest with
  | nil => rfl
  | cons m rest =>
    have hincomplete : (collected hash start m n).complete = false := by
      refine Bool.eq_false_of_not_eq_true fun hc ↦ ?_
      exact absurd ((hrest m List.mem_cons_self).complete_iff.mp hc) (Nat.ne_of_lt hcursor)
    rw [partialMessage]
    split
    · rfl
    · rw [processLoop, hincomplete, Bool.not_false, Bool.or_true, if_pos rfl]

end CNode

namespace Connection

/-- The receiver has processed the first of the messages, others are complete and wait, and of the
next one some bytes have arrived; the bytes in flight and those to be sent are what follows. -/
structure InStep (hash : Bytes → Uint256) (start : MessageStart) (c : Connection)
    (msgs waiting rest : List (Bytes × Bytes)) (n : Nat) : Prop where
  split : msgs = c.delivered ++ waiting ++ rest
  vRecvMsg : c.receiver.vRecvMsg =
    waiting.map (arrived hash start) ++ partialMessage hash start n rest
  cursor : Cursor n (rest.map (frame hash start))
  bytes : c.inFlight ++ c.sender.pending = remaining n (rest.map (frame hash start))

/-- What holds of a connection over which `msgs` have been pushed. -/
structure Inv (hash : Bytes → Uint256) (start : MessageStart) (c : Connection)
    (msgs : List (Bytes × Bytes)) : Prop where
  sender : c.sender.SendInv hash start msgs
  delivered : c.delivered <+: msgs
  inStep : c.receiver.fDisconnect = false → ∃ waiting rest n, c.InStep hash start msgs waiting rest n

variable {c : Connection} {msgs : List (Bytes × Bytes)}

theorem inv_start : Inv hash start {} [] where
  sender := ⟨rfl, ⟨rfl, rfl⟩, List.nil_suffix⟩
  delivered := List.prefix_refl _
  inStep := fun _ ↦ ⟨[], [], 0, rfl, rfl, rfl, rfl⟩

/-- A message is pushed. -/
theorem Inv.push (h : Inv hash start c msgs) (m : Bytes × Bytes) (results : List SendResult) :
    ∃ c', c.step hash start (.push m.1 m.2 results) = some c' ∧ Inv hash start c' (msgs ++ [m]) := by
  obtain ⟨sender, bytes, hpush, hsender, hpending⟩ := h.sender.pushMessage m results
  refine ⟨{ c with sender := sender, inFlight := c.inFlight ++ bytes }, ?_, hsender,
    h.delivered.trans (List.prefix_append _ _), ?_⟩
  · rw [step, hpush]
    rfl
  · intro hconnected
    obtain ⟨waiting, rest, n, hsplit, hrecv, hcursor, hbytes⟩ := h.inStep hconnected
    refine ⟨waiting, rest ++ [m], n, ?_, ?_, ?_, ?_⟩
    · rw [hsplit, List.append_assoc]
    · rw [partialMessage_append hcursor]
      exact hrecv
    · rw [List.map_append]
      exact hcursor.append frame_ne_nil
    · show c.inFlight ++ bytes ++ sender.pending = _
      rw [List.append_assoc, hpending, ← List.append_assoc, hbytes, List.map_append]
      exact hcursor.remaining_append.symm

/-- The socket accepts some bytes. -/
theorem Inv.send (h : Inv hash start c msgs) (results : List SendResult) :
    ∃ c', c.step hash start (.send results) = some c' ∧ Inv hash start c' msgs := by
  obtain ⟨sender, bytes, hsend, hsender, hpending⟩ := h.sender.socketSendData results
  refine ⟨{ c with sender := sender, inFlight := c.inFlight ++ bytes }, ?_, hsender,
    h.delivered, ?_⟩
  · rw [step, hsend]
    rfl
  · intro hconnected
    obtain ⟨waiting, rest, n, hsplit, hrecv, hcursor, hbytes⟩ := h.inStep hconnected
    refine ⟨waiting, rest, n, hsplit, hrecv, hcursor, ?_⟩
    show c.inFlight ++ bytes ++ sender.pending = _
    rw [List.append_assoc, hpending, hbytes]

/-- A chunk arrives. -/
theorem Inv.receive (h : Inv hash start c msgs) (hmsgs : ∀ m ∈ msgs, Sendable m) (k : Nat) :
    ∃ c', c.step hash start (.receive k) = some c' ∧ Inv hash start c' msgs ∧
      c'.receiver.fDisconnect = c.receiver.fDisconnect ∧ c'.sender = c.sender ∧
      (c.receiver.fDisconnect = false → c'.inFlight = c.inFlight.drop k) := by
  by_cases hclosed : c.receiver.fDisconnect = true
  · refine ⟨c, ?_, h, rfl, rfl, fun hf ↦ absurd hclosed (by simp [hf])⟩
    rw [step, if_pos hclosed]
  · obtain ⟨waiting, rest, n, hsplit, hrecv, hcursor, hbytes⟩ :=
      h.inStep (Bool.eq_false_of_not_eq_true hclosed)
    have hwaiting : ∀ w ∈ waiting, Sendable w := fun w hw ↦
      hmsgs w (by rw [hsplit]; simp [hw])
    have hrest : ∀ m ∈ rest, Sendable m := fun m hm ↦ hmsgs m (by rw [hsplit]; simp [hm])
    have hstream : c.inFlight.take k ++ (c.inFlight.drop k ++ c.sender.pending) =
        remaining n (rest.map (frame hash start)) := by
      rw [← hbytes, ← List.append_assoc, List.take_append_drop]
    obtain ⟨got, rest', n', rfl, hcursor', hloop, hfuture⟩ :=
      CNode.receiveLoop_eq_some hwaiting hrest hcursor (Nat.le_refl _) hstream
    let vRecvMsg := (waiting ++ got).map (arrived hash start) ++
      partialMessage hash start n' rest'
    refine ⟨{ c with inFlight := c.inFlight.drop k,
                     receiver := { c.receiver with vRecvMsg := vRecvMsg } }, ?_,
      ⟨h.sender, h.delivered, fun _ ↦ ⟨waiting ++ got, rest', n', ?_, rfl, hcursor', hfuture⟩⟩,
      rfl, rfl, fun _ ↦ rfl⟩
    · rw [step, if_neg hclosed, CNode.receiveMsgBytes, hrecv, hloop]
    · rw [hsplit]
      simp only [List.append_assoc]

/-- `ProcessMessages` does nothing when no message is complete. -/
theorem InStep.processMessages_nil {rest : List (Bytes × Bytes)} {n : Nat}
    (h : c.InStep hash start msgs [] rest n) (hmsgs : ∀ m ∈ msgs, Sendable m)
    (cs : CNode.Circumstances) :
    c.receiver.processMessages hash start cs = (c.receiver, none) := by
  have hrest : ∀ m ∈ rest, Sendable m := fun m hm ↦ hmsgs m (by rw [h.split]; simp [hm])
  have hrecv : c.receiver.vRecvMsg = partialMessage hash start n rest := h.vRecvMsg
  rw [CNode.processMessages]
  split
  · rfl
  · rw [hrecv, CNode.processLoop_partialMessage hrest h.cursor]
    simp [← hrecv]

/-- `ProcessMessages` takes the next complete message, if nothing stands in the way. -/
theorem InStep.processMessages_cons {waiting rest : List (Bytes × Bytes)} {n : Nat}
    (h : c.InStep hash start msgs (m :: waiting) rest n) (hmsgs : ∀ m ∈ msgs, Sendable m)
    (hconnected : c.receiver.fDisconnect = false) (cs : CNode.Circumstances) :
    c.receiver.processMessages hash start cs =
      if cs.getData = true ∨ cs.sendFull = true then (c.receiver, none)
      else if cs.disconnects = true then ({ c.receiver with fDisconnect := true }, some m)
      else
        let vRecvMsg := waiting.map (arrived hash start) ++ partialMessage hash start n rest
        ({ c.receiver with vRecvMsg := vRecvMsg }, some m) := by
  have hm : Sendable m := hmsgs m (by rw [h.split]; simp)
  have hrecv : c.receiver.vRecvMsg = arrived hash start m ::
      (waiting.map (arrived hash start) ++ partialMessage hash start n rest) := h.vRecvMsg
  have hgate : (cs.getData || c.receiver.fDisconnect) = cs.getData := by
    rw [hconnected, Bool.or_false]
  rw [CNode.processMessages, hgate, hrecv, CNode.processLoop_arrived hm]
  rcases cs with ⟨getData, sendFull, disconnects⟩
  cases getData <;> cases sendFull <;> cases disconnects <;> simp [← hrecv]

theorem step_process (cs : CNode.Circumstances) :
    c.step hash start (.process cs) =
      some { c with receiver := (c.receiver.processMessages hash start cs).1,
                    delivered := c.delivered ++
                      (c.receiver.processMessages hash start cs).2.toList } := rfl

/-- A call of `ProcessMessages`. -/
theorem Inv.process (h : Inv hash start c msgs) (hmsgs : ∀ m ∈ msgs, Sendable m)
    (cs : CNode.Circumstances) :
    ∃ c', c.step hash start (.process cs) = some c' ∧ Inv hash start c' msgs ∧
      (cs.disconnects = false → c'.receiver.fDisconnect = c.receiver.fDisconnect) := by
  rw [step_process]
  refine ⟨_, rfl, ?_⟩
  by_cases hclosed : c.receiver.fDisconnect = true
  · have hidle : c.receiver.processMessages hash start cs = (c.receiver, none) := by
      rw [CNode.processMessages, hclosed, Bool.or_true, if_pos rfl]
    rw [hidle, Option.toList_none, List.append_nil]
    exact ⟨h, fun _ ↦ rfl⟩
  · have hconnected := Bool.eq_false_of_not_eq_true hclosed
    obtain ⟨waiting, rest, n, hstep⟩ := h.inStep hconnected
    cases waiting with
    | nil =>
      rw [hstep.processMessages_nil hmsgs, Option.toList_none, List.append_nil]
      exact ⟨h, fun _ ↦ rfl⟩
    | cons m waiting =>
      have hsplit : msgs = (c.delivered ++ [m]) ++ waiting ++ rest := by
        rw [hstep.split]
        simp
      rw [hstep.processMessages_cons hmsgs hconnected]
      split
      · rw [Option.toList_none, List.append_nil]
        exact ⟨h, fun _ ↦ rfl⟩
      · have hdelivered : c.delivered ++ [m] <+: msgs := by
          rw [hsplit, List.append_assoc]
          exact List.prefix_append _ _
        split
        · next hdisconnects =>
          exact ⟨⟨h.sender, hdelivered, nofun⟩, fun hf ↦ absurd hdisconnects (by simp [hf])⟩
        · exact ⟨⟨h.sender, hdelivered, fun _ ↦ ⟨waiting, rest, n, hsplit, rfl, hstep.cursor,
            hstep.bytes⟩⟩, fun _ ↦ rfl⟩

theorem Inv.hangUp (h : Inv hash start c msgs) :
    Inv hash start { c with receiver := c.receiver.closeSocketDisconnect } msgs where
  sender := h.sender
  delivered := h.delivered
  inStep := nofun

/-- The receiver hangs up by itself or because of a message it processes. -/
def Action.HangsUp : Action → Prop
  | .process cs => cs.disconnects = true
  | .hangUp => True
  | _ => False

/-- One action: no assertion fails, and the receiver does not lose the connection to the framing. -/
theorem Inv.step (h : Inv hash start c msgs) (a : Action)
    (hmsgs : ∀ m ∈ msgs, Sendable m) :
    ∃ c', c.step hash start a = some c' ∧ Inv hash start c' (msgs ++ pushed [a]) ∧
      (¬ a.HangsUp → c'.receiver.fDisconnect = c.receiver.fDisconnect) := by
  cases a with
  | push pszCommand payload results =>
    obtain ⟨c', hstep, hinv⟩ := h.push (pszCommand, payload) results
    refine ⟨c', hstep, hinv, fun _ ↦ ?_⟩
    obtain ⟨p, -, rfl⟩ := Option.map_eq_some_iff.mp hstep
    rfl
  | send results =>
    obtain ⟨c', hstep, hinv⟩ := h.send results
    refine ⟨c', hstep, (List.append_nil msgs).symm ▸ hinv, fun _ ↦ ?_⟩
    obtain ⟨p, -, rfl⟩ := Option.map_eq_some_iff.mp hstep
    rfl
  | receive k =>
    obtain ⟨c', hstep, hinv, hsame, -, -⟩ := h.receive hmsgs k
    exact ⟨c', hstep, (List.append_nil msgs).symm ▸ hinv, fun _ ↦ hsame⟩
  | process cs =>
    obtain ⟨c', hstep, hinv, hsame⟩ := h.process hmsgs cs
    exact ⟨c', hstep, (List.append_nil msgs).symm ▸ hinv, fun hnot ↦
      hsame (Bool.eq_false_of_not_eq_true hnot)⟩
  | hangUp =>
    exact ⟨_, rfl, (List.append_nil msgs).symm ▸ h.hangUp, fun hnot ↦ absurd trivial hnot⟩

theorem pushed_cons (a : Action) (actions : List Action) :
    pushed (a :: actions) = pushed [a] ++ pushed actions := by
  cases a <;> rfl

/-- A whole run. -/
theorem Inv.run (h : Inv hash start c msgs) (actions : List Action)
    (hmsgs : ∀ m ∈ msgs ++ pushed actions, Sendable m) :
    ∃ c', run hash start c actions = some c' ∧ Inv hash start c' (msgs ++ pushed actions) ∧
      ((∀ a ∈ actions, ¬ a.HangsUp) → c'.receiver.fDisconnect = c.receiver.fDisconnect) := by
  induction actions generalizing c msgs with
  | nil => exact ⟨c, rfl, (List.append_nil msgs).symm ▸ h, fun _ ↦ rfl⟩
  | cons a actions ih =>
    rw [pushed_cons, ← List.append_assoc] at hmsgs ⊢
    obtain ⟨c₁, hstep, hinv, hsame⟩ := h.step a fun m hm ↦ hmsgs m (by simp [hm])
    obtain ⟨c₂, hrun, hinv', hsame'⟩ := ih hinv hmsgs
    refine ⟨c₂, ?_, hinv', fun hnot ↦ ?_⟩
    · rw [Connection.run, hstep]
      exact hrun
    · rw [hsame' fun b hb ↦ hnot b (List.mem_cons_of_mem a hb)]
      exact hsame (hnot a List.mem_cons_self)

/-! ### Everything arrives -/

/-- Nothing stands in the way of processing a message. -/
def free : CNode.Circumstances := ⟨false, false, false⟩

/-- When everything has been sent and received, `ProcessMessages` delivers the rest one by one. -/
theorem InStep.run_process {waiting : List (Bytes × Bytes)}
    (h : c.InStep hash start msgs waiting [] 0) (hmsgs : ∀ m ∈ msgs, Sendable m)
    (hconnected : c.receiver.fDisconnect = false) :
    ∃ c', run hash start c (List.replicate waiting.length (.process free)) = some c' ∧
      c'.delivered = msgs := by
  induction waiting generalizing c with
  | nil =>
    refine ⟨c, rfl, ?_⟩
    rw [h.split, List.append_nil, List.append_nil]
  | cons m waiting ih =>
    have hprocess := h.processMessages_cons hmsgs hconnected free
    rw [if_neg (by simp [free]), if_neg (by simp [free])] at hprocess
    have hnext : InStep hash start { c with
        receiver := (c.receiver.processMessages hash start free).1
        delivered := c.delivered ++ (c.receiver.processMessages hash start free).2.toList }
        msgs waiting [] 0 := by
      rw [hprocess]
      refine ⟨?_, rfl, rfl, h.bytes⟩
      rw [h.split]
      simp
    have hconnected' : (c.receiver.processMessages hash start free).1.fDisconnect = false := by
      rw [hprocess]
      exact hconnected
    obtain ⟨c', hrun, hdelivered⟩ := ih hnext hconnected'
    refine ⟨c', ?_, hdelivered⟩
    rw [List.length_cons, List.replicate_succ, Connection.run, step_process]
    exact hrun

/-- Once everything is sent and received, only complete messages are left. -/
theorem InStep.eq_nil {waiting rest : List (Bytes × Bytes)} {n : Nat}
    (h : c.InStep hash start msgs waiting rest n) (hinFlight : c.inFlight = [])
    (hqueue : c.sender.vSendMsg = []) : rest = [] ∧ n = 0 := by
  have hbytes := h.bytes
  rw [hinFlight, CNode.pending, hqueue, remaining_nil, List.append_nil] at hbytes
  have hrest := List.map_eq_nil_iff.mp (h.cursor.eq_nil hbytes.symm)
  have hcursor := h.cursor
  rw [hrest] at hcursor
  exact ⟨hrest, hcursor⟩

/-- As long as both ends are connected, whatever is still under way can be delivered. -/
theorem Inv.exists_run (h : Inv hash start c msgs) (hmsgs : ∀ m ∈ msgs, Sendable m)
    (hsender : c.sender.fDisconnect = false) (hreceiver : c.receiver.fDisconnect = false) :
    ∃ more c', pushed more = [] ∧ Connection.run hash start c more = some c' ∧
      c'.delivered = msgs := by
  -- the sender empties its queue
  obtain ⟨sender, bytes, hsend, hqueue, -⟩ := h.sender.socketSendData_all hsender
  obtain ⟨c₁, hstep₁, hinv₁⟩ := h.send (c.sender.vSendMsg.map fun d ↦ .sent d.length)
  have hc₁ : { c with sender := sender, inFlight := c.inFlight ++ bytes } = c₁ := by
    rw [Connection.step, hsend] at hstep₁
    exact Option.some.inj hstep₁
  -- the receiver takes what is in flight
  obtain ⟨c₂, hstep₂, hinv₂, hsame, hsender₂, hinFlight⟩ :=
    hinv₁.receive hmsgs c₁.inFlight.length
  have hconnected₁ : c₁.receiver.fDisconnect = false := by
    rw [← hc₁]
    exact hreceiver
  have hconnected₂ := hsame.trans hconnected₁
  have hempty : c₂.inFlight = [] := by rw [hinFlight hconnected₁, List.drop_length]
  have hqueue₂ : c₂.sender.vSendMsg = [] := by
    rw [hsender₂, ← hc₁]
    exact hqueue
  -- and it processes what has arrived
  obtain ⟨waiting, rest, n, hwaiting⟩ := hinv₂.inStep hconnected₂
  obtain ⟨rfl, rfl⟩ := hwaiting.eq_nil hempty hqueue₂
  obtain ⟨c₃, hrun, hdelivered⟩ := hwaiting.run_process hmsgs hconnected₂
  refine ⟨.send (c.sender.vSendMsg.map fun d ↦ .sent d.length) :: .receive c₁.inFlight.length ::
    List.replicate waiting.length (.process free), c₃, ?_, ?_, hdelivered⟩
  · have hnone : ∀ k, pushed (List.replicate k (.process free)) = [] := by
      intro k
      induction k with
      | zero => rfl
      | succ k ih => exact ih
    exact hnone _
  · rw [Connection.run, hstep₁, Option.bind_some, Connection.run, hstep₂]
    exact hrun

/-- Message framing, end to end. Whatever messages are pushed, however the socket takes and returns
their bytes and whenever the receiver processes, no assertion fails; what is delivered is at any time
the first of the messages that were pushed, with their commands and payloads, and nothing but the
receiver itself hangs up; as long as both ends stay connected the rest can be delivered too. -/
theorem messages_delivered (actions : List Action) (h : ∀ m ∈ pushed actions, Sendable m) :
    ∃ c, run hash start {} actions = some c ∧ c.delivered <+: pushed actions ∧
      (c.sender.nSendSize = (c.sender.vSendMsg.map List.length).sum ∧
        Cursor c.sender.nSendOffset c.sender.vSendMsg ∧
        c.sender.vSendMsg <:+ (pushed actions).map (frame hash start)) ∧
      ((∀ a ∈ actions, ¬ a.HangsUp) → c.receiver.fDisconnect = false) ∧
      (c.receiver.fDisconnect = false → c.sender.vSendMsg = [] → c.inFlight = [] →
        c.receiver.vRecvMsg = [] → c.delivered = pushed actions) ∧
      (c.sender.fDisconnect = false → c.receiver.fDisconnect = false →
        ∃ more c', pushed more = [] ∧ run hash start c more = some c' ∧
          c'.delivered = pushed actions) := by
  obtain ⟨c, hrun, hinv, hsame⟩ := inv_start.run actions h
  rw [List.nil_append] at hinv
  refine ⟨c, hrun, hinv.delivered, ⟨hinv.sender.queued.size, hinv.sender.queued.cursor,
    hinv.sender.frames⟩, hsame, ?_, hinv.exists_run h⟩
  intro hconnected hqueue hinFlight hrecv
  obtain ⟨waiting, rest, n, hstep⟩ := hinv.inStep hconnected
  obtain ⟨rfl, rfl⟩ := hstep.eq_nil hinFlight hqueue
  have hwaiting : waiting = [] := by
    have hall := hstep.vRecvMsg
    rw [hrecv, partialMessage_zero, List.append_nil] at hall
    exact List.map_eq_nil_iff.mp hall.symm
  rw [hstep.split, hwaiting, List.append_nil, List.append_nil]

/-- Two messages, the second with an empty payload; the socket stops inside the first header, and the
receiver gets the stream cut inside the headers. -/
def cutUp : List Action :=
  [.push [0x70, 0x69, 0x6e, 0x67] [1, 2, 3] [.sent 10], .receive 7,
    .push [0x76, 0x65, 0x72, 0x61, 0x63, 0x6b] [] [], .send [.sent 17, .sent 5, .wouldBlock],
    .receive 30, .process free, .send [.sent 24], .receive 100, .process free]

theorem messages_delivered_cutUp :
    ∃ c, run (fun _ ↦ 0) ⟨[0xf9, 0xbe, 0xb4, 0xd9], rfl⟩ {} cutUp = some c ∧
      c.delivered <+: [([0x70, 0x69, 0x6e, 0x67], [1, 2, 3]),
        ([0x76, 0x65, 0x72, 0x61, 0x63, 0x6b], [])] := by
  have hsendable : ∀ m ∈ pushed cutUp, Sendable m := by
    intro m hm
    have hm' : m = ([0x70, 0x69, 0x6e, 0x67], [1, 2, 3]) ∨
        m = ([0x76, 0x65, 0x72, 0x61, 0x63, 0x6b], []) := by
      simpa [cutUp, pushed] using hm
    rcases hm' with rfl | rfl
    all_goals exact ⟨by decide, by simp [UInt8.le_iff_toNat_le], by decide⟩
  obtain ⟨c, hrun, hdelivered, -⟩ := messages_delivered cutUp hsendable
  exact ⟨c, hrun, hdelivered⟩

end Connection

end Bitmark

import TradingGateway.Client.Receiving
import TradingGateway.Client.Sending

/-!
# A client and its acknowledgements

The whole way of a request and back: a method of `TradingClient` packs a message,
the gateway parses and handles it and serializes an acknowledgement, and
`_receive_loop` finds it again in the stream of what the gateway sends to this
client. Between two messages of the client anything may happen in the gateway,
trades may be sent between the acknowledgements, and TCP may cut what is sent as
it likes.

* `reply`: what a request is answered.
* `rstripNul_reason`: the reason of an acknowledgement survives `strncpy`, the NULs
  that fill the field, and `rstrip`.
* `acks_arrive`: the client gets one acknowledgement for each of its calls, in
  the order of the calls.
-/

namespace TradingGateway.Gateway.GatewayServer

open Common Message Engine Queue

/-- Whether a request is accepted, and the reason given if it is not. -/
def reply (g : GatewayServer) (env : Env) (request : Request) : Bool × Bytes :=
  match env.heap, request with
  | none, _ => (false, env.what)
  | some _, .newOrder _ => (true, [])
  | some raw, .cancelOrder order =>
    let ok := (g.orderQueue.push (some (cancelCommand raw order.orderId))).1
    (ok, if ok then [] else "Cancel request rejected (queue full)".toUTF8.toList)
  | some raw, .modifyOrder order =>
    let ok := (g.orderQueue.push
      (some (modifyCommand raw order.orderId order.newQuantity order.newPrice))).1
    (ok, if ok then [] else "Modify request rejected (queue full)".toUTF8.toList)

theorem handle_snd (g : GatewayServer) (env : Env) (clientFd : SocketFd) (request : Request) :
    (g.handle env clientFd request).2 =
      orderAck env request.orderId (g.reply env request).1 (g.reply env request).2 := by
  unfold reply
  cases hheap : env.heap with
  | none =>
    cases request <;>
      simp [handle, handleNewOrder, handleCancelOrder, handleModifyOrder, acknowledge, addOrder,
        cancelOrder, modifyOrder, hheap, Request.orderId]
  | some raw =>
    cases request <;>
      simp [handle, handleNewOrder, handleCancelOrder, handleModifyOrder, acknowledge, addOrder,
        cancelOrder, modifyOrder, hheap, Request.orderId]

/-- The texts of the gateway's own are ASCII. -/
theorem ascii_reply {g : GatewayServer} {env : Env} (h : ∀ b ∈ env.what, b < 128)
    (request : Request) : ∀ b ∈ (g.reply env request).2, b < 128 := by
  unfold reply
  split
  · exact h
  · simp
  · dsimp only
    split_ifs
    · simp
    · decide +kernel
  · dsimp only
    split_ifs
    · simp
    · decide +kernel

end TradingGateway.Gateway.GatewayServer

namespace TradingGateway.Client

open Common Python Message Network Gateway

/-! ## The reason -/

/-- What `strncpy` writes: the string, cut or filled up with NULs. -/
theorem toList_strncpy_take (n : ℕ) (src : Bytes) :
    (strncpy n src).toList =
      (cString src).take n ++ List.replicate (n - (cString src).length) 0 := by
  apply List.ext_getElem
  · simp only [Vector.length_toList, List.length_append, List.length_take, List.length_replicate]
    omega
  · intro i hi hi'
    simp only [Vector.length_toList] at hi
    simp only [strncpy, Vector.getElem_toList, Vector.getElem_ofFn]
    rcases Nat.lt_or_ge i (cString src).length with hlt | hge
    · rw [List.getElem_append_left (by rw [List.length_take]; omega), List.getElem_take,
        List.getD_eq_getElem _ _ hlt]
    · rw [List.getElem_append_right (by rw [List.length_take]; omega), List.getElem_replicate,
        List.getD_eq_default _ _ hge]

theorem char_ofNat_toNat_eq_nul {b : UInt8} (hb : b < 128) (h : Char.ofNat b.toNat = '\x00') :
    b = 0 := by
  have hlt : b.toNat < 128 := UInt8.lt_iff_toNat_lt.mp hb
  have hval : (Char.ofNat b.toNat).toNat = b.toNat := by
    rw [Char.toNat_ofNat, if_pos (.inl (by omega))]
  rw [h] at hval
  exact UInt8.toNat_inj.mp hval.symm

/-- `rstrip` takes the NULs off that fill a field up, and nothing else. -/
theorem rstripNul_append_zeros {bs : Bytes} (hascii : ∀ b ∈ bs, b < 128) (h0 : 0 ∉ bs) (k : ℕ) :
    rstripNul (asciiString (bs ++ List.replicate k 0)) = asciiString bs := by
  have hdrop : ∀ cs : List Char, (cs ++ List.replicate k '\x00').rdropWhile (· = '\x00') =
      cs.rdropWhile (· = '\x00') := by
    intro cs
    induction k with
    | zero => simp
    | succ k ih =>
      rw [List.replicate_succ', ← List.append_assoc, List.rdropWhile_concat_pos _ _ _ (by simp),
        ih]
  have hkeep : (bs.map fun b => Char.ofNat b.toNat).rdropWhile (· = '\x00') =
      bs.map fun b => Char.ofNat b.toNat := by
    rw [List.rdropWhile_eq_self_iff]
    intro hne hlast
    have hmem := List.getLast_mem hne
    obtain ⟨b, hb, hchar⟩ := List.mem_map.mp hmem
    rw [← hchar] at hlast
    exact h0 (char_ofNat_toNat_eq_nul (hascii b hb) (by simpa using hlast) ▸ hb)
  unfold rstripNul asciiString
  rw [String.toList_ofList, List.map_append, List.map_replicate]
  congr 1
  exact (hdrop _).trans hkeep

theorem mem_of_mem_take_cString {n : ℕ} {src : Bytes} {b : UInt8}
    (h : b ∈ (cString src).take n) : b ∈ src :=
  (List.takeWhile_sublist _).subset (List.mem_of_mem_take h)

/-- The reason field of an acknowledgement. -/
theorem toList_reason (text : Bytes) :
    ∃ k, ((strncpy 63 text).push 0).toList = (cString text).take 63 ++ List.replicate k 0 := by
  refine ⟨63 - (cString text).length + 1, ?_⟩
  rw [Vector.toList_push, toList_strncpy_take, List.append_assoc, List.replicate_succ']

/-- The client reads the reason up to its first NUL, at most 63 characters. -/
theorem rstripNul_reason {text : Bytes} (h : ∀ b ∈ text, b < 128) :
    rstripNul (asciiString ((strncpy 63 text).push 0).toList) =
      asciiString ((cString text).take 63) := by
  obtain ⟨k, hk⟩ := toList_reason text
  rw [hk]
  refine rstripNul_append_zeros (fun b hb => h b (mem_of_mem_take_cString hb)) ?_ k
  intro h0
  exact not_mem_cString text (List.mem_of_mem_take h0)

theorem ascii_reason {text : Bytes} (h : ∀ b ∈ text, b < 128) :
    ∀ b ∈ ((strncpy 63 text).push 0).toList, b < 128 := by
  obtain ⟨k, hk⟩ := toList_reason text
  rw [hk]
  intro b hb
  rcases List.mem_append.mp hb with hb | hb
  · exact h b (mem_of_mem_take_cString hb)
  · rw [List.eq_of_mem_replicate hb]
    decide

/-! ## The way to the gateway -/

/-- The `order_id` of a call. -/
def Call.orderId : Call → ℤ
  | newOrder orderId _ _ _ _ => orderId
  | cancelOrder orderId => orderId
  | modifyOrder orderId _ _ => orderId

theorem Call.toNat_orderId {call : Call} (h : call.InRange) :
    (call.request.orderId.toNat : ℤ) = call.orderId := by
  cases call with
  | newOrder orderId price quantity symbol side => exact h.1.toNat_uint64
  | cancelOrder orderId => exact Fits.toNat_uint64 h
  | modifyOrder orderId newPrice newQuantity => exact h.1.toNat_uint64

/-- One message of the client: what happens in the gateway before it arrives, the
    call and its time, and the surroundings of the handler. `beyond` is what
    stands in the buffer of `handle_client` behind the message. -/
structure Exchange where
  before : List Event
  now : UInt64
  call : Call
  env : Env
  beyond : Memory

/-- The request that the message handler finds in the bytes of the call, which
    arrive in one chunk. -/
def Exchange.request (x : Exchange) : Option Request := do
  let bytes ← x.call.send x.now
  (messageHandler bytes.length).value (Memory.overlay bytes x.beyond)

theorem Exchange.request_eq {x : Exchange} (h : x.call.InRange) :
    x.request = some x.call.request := by
  rw [Exchange.request, send_eq x.now h, Option.bind_eq_bind, Option.bind_some,
    ClientMessage.length_bytes]
  exact messageHandler_of_has (Memory.has_zero fun _ hi => Memory.overlay_of_lt _ hi)

/-- The gateway when the message arrives. -/
def Exchange.gateway (x : Exchange) (g : GatewayServer) : GatewayServer :=
  x.before.foldl GatewayServer.step g

/-- The acknowledgements that the gateway sends to the client on `fd`. -/
def answers (fd : SocketFd) : GatewayServer → List Exchange → List OrderAck
  | _, [] => []
  | g, x :: xs =>
    match x.request with
    | some request =>
      ((x.gateway g).handle x.env fd request).2 ::
        answers fd ((x.gateway g).handle x.env fd request).1 xs
    | none => answers fd (x.gateway g) xs

/-! ## The way back -/

/-- What the client is to find: the id of its call, whether the gateway has
    accepted it, and why not. -/
def expected (fd : SocketFd) : GatewayServer → List Exchange → List Handled
  | _, [] => []
  | g, x :: xs =>
    let reply := (x.gateway g).reply x.env x.call.request
    .orderAck x.call.orderId (if reply.1 then 1 else 0) x.env.now.toNat
        (asciiString ((cString reply.2).take 63)) true ::
      expected fd ((x.gateway g).handle x.env fd x.call.request).1 xs

/-- The acknowledgement in a message. -/
def ackOf (m : ServerMessage) : Option OrderAck :=
  match m.out with
  | .orderAck ack => some ack
  | .trade _ => none

/-- What a call of `_handle_message` has found, if that is an acknowledgement. -/
def handledAck (c : ℤ × Bytes × ℤ) : Option Handled :=
  match handleMessage c.1 c.2.1 c.2.2 with
  | .ok (.orderAck orderId accepted ts reason checksumOk) =>
    some (.orderAck orderId accepted ts reason checksumOk)
  | _ => none

theorem handledAck_callOf {m : ServerMessage} (h : HasAsciiText m.out) :
    handledAck (callOf m) = (ackOf m).map fun ack => handledOf (.orderAck ack) := by
  unfold handledAck
  rw [handleMessage_callOf, if_pos h, ackOf]
  cases m.out with
  | orderAck ack => rfl
  | trade t => rfl

section Answers

variable {xs : List Exchange} (hrange : ∀ x ∈ xs, x.call.InRange)
  (hwhat : ∀ x ∈ xs, ∀ b ∈ x.env.what, b < 128)

include hrange hwhat

theorem ascii_answers (fd : SocketFd) (g : GatewayServer) :
    ∀ ack ∈ answers fd g xs, HasAsciiText (.orderAck ack) := by
  induction xs generalizing g with
  | nil => simp [answers]
  | cons x xs ih =>
    rw [List.forall_mem_cons] at hrange hwhat
    rw [answers, Exchange.request_eq hrange.1]
    intro ack hack
    rcases List.mem_cons.mp hack with rfl | hack
    · rw [GatewayServer.handle_snd]
      exact ascii_reason (GatewayServer.ascii_reply hwhat.1 _)
    · exact ih hrange.2 hwhat.2 _ ack hack

theorem handledOf_answers (fd : SocketFd) (g : GatewayServer) :
    (answers fd g xs).map (fun ack => handledOf (.orderAck ack)) = expected fd g xs := by
  induction xs generalizing g with
  | nil => rfl
  | cons x xs ih =>
    rw [List.forall_mem_cons] at hrange hwhat
    rw [answers, Exchange.request_eq hrange.1, expected]
    dsimp only
    rw [List.map_cons, ih hrange.2 hwhat.2, GatewayServer.handle_snd]
    congr 1
    rw [← rstripNul_reason (GatewayServer.ascii_reply hwhat.1 _), ← Call.toNat_orderId hrange.1]
    rfl

end Answers

/-- **A client hears from every call, in order.** Let a client make any calls with
    arguments that their fields can hold, each of which arrives as one chunk, in
    any state of the gateway and with anything else happening in between. Let the
    gateway send the acknowledgements, with any trades in between, and let TCP cut
    this into chunks that are not empty. Then the receiving thread of the client
    ends with an empty buffer and no exception, and it has found exactly one
    acknowledgement for each call, in the order of the calls, with the id of the
    call, the answer of the gateway, its reason up to 63 characters, and a correct
    checksum. The texts of exceptions and the symbols of trades have to be ASCII. -/
theorem acks_arrive (g : GatewayServer) (fd : SocketFd) (xs : List Exchange)
    (hrange : ∀ x ∈ xs, x.call.InRange) (hwhat : ∀ x ∈ xs, ∀ b ∈ x.env.what, b < 128)
    (msgs : List ServerMessage) (hacks : msgs.filterMap ackOf = answers fd g xs)
    (htrades : ∀ m ∈ msgs, ackOf m = none → HasAsciiText m.out)
    (chunks : List Bytes) (hflat : chunks.flatten = stream msgs)
    (hne : ∀ data ∈ chunks, data ≠ []) :
    ∃ fuel r, receiveLoop fuel .new chunks = some r ∧ r.raised = none ∧ r.buffer = [] ∧
      r.calls.filterMap handledAck = expected fd g xs := by
  have hascii : ∀ m ∈ msgs, HasAsciiText m.out := by
    intro m hm
    cases hack : ackOf m with
    | none => exact htrades m hm hack
    | some ack =>
      have hout : m.out = .orderAck ack := by
        unfold ackOf at hack
        split at hack
        · next ack' hout => rw [hout, Option.some.inj hack]
        · cases hack
      have hmem : ack ∈ answers fd g xs := by
        rw [← hacks]
        exact List.mem_filterMap.mpr ⟨m, hm, hack⟩
      rw [hout]
      exact ascii_answers hrange hwhat fd g ack hmem
  have hprefix : [] ++ chunks.flatten <+: stream msgs := by rw [List.nil_append, hflat]
  obtain ⟨htotal, hcases⟩ := receiveLoop_received hne (received_new msgs) hprefix
  obtain ⟨r, hr⟩ := htotal (Nat.lt_succ_self _)
  refine ⟨_, r, hr, ?_⟩
  rcases hcases hr with ⟨done, rest, hmsgs, -, hcalls, hbuffer, hwaits, hraised⟩ |
    ⟨-, -, m, hm, hnot⟩
  · -- a message that is left would be complete
    rw [List.nil_append, hflat, hmsgs, stream_append, List.append_cancel_left_eq] at hbuffer
    obtain rfl : rest = [] := by
      cases rest with
      | nil => rfl
      | cons m rest =>
        have hlt := hwaits m rfl
        rw [← hbuffer, stream, List.flatMap_cons, List.length_append] at hlt
        omega
    rw [List.append_nil] at hmsgs
    refine ⟨hraised, hbuffer.symm, ?_⟩
    rw [hcalls, ← hmsgs, List.filterMap_map, ← handledOf_answers hrange hwhat, ← hacks,
      List.map_filterMap]
    apply List.filterMap_congr
    intro m hm
    exact handledAck_callOf (hascii m hm)
  · exact absurd (hascii m hm) hnot

/-- The calls of the client's `simple` mode (lines 231–235). -/
def simpleMode : List Exchange :=
  [.newOrder 101 50000 10 "BTCUSD" "B", .newOrder 201 50000 4 "BTCUSD" "S", .cancelOrder 101].map
    fun call => ⟨[.work .insertion], 0, call, GatewayServer.plainEnv, fun _ => 0⟩

/-- The acknowledgements of these calls, each as one message. -/
def simpleAcks : List ServerMessage :=
  (answers 4 .new simpleMode).map fun ack => ⟨.orderAck ack, 0, fun _ => 0⟩

theorem inRange_simpleMode : ∀ x ∈ simpleMode, x.call.InRange := by
  simp [simpleMode, Call.InRange, Fits, IsAscii]

theorem simpleAcks_arrive :
    ∃ fuel r, receiveLoop fuel .new [stream simpleAcks] = some r ∧ r.raised = none ∧
      r.buffer = [] ∧ r.calls.filterMap handledAck = expected 4 .new simpleMode := by
  refine acks_arrive .new 4 simpleMode inRange_simpleMode ?_ simpleAcks ?_ ?_ _ (by simp) ?_
  · simp [simpleMode, GatewayServer.plainEnv]
  · rw [simpleAcks, List.filterMap_map]
    exact List.filterMap_some
  · simp [simpleAcks, ackOf]
  · rw [List.forall_mem_singleton]
    intro hnil
    have hacks := stream_eq_nil hnil
    rw [simpleAcks, List.map_eq_nil_iff, simpleMode, List.map_cons, answers,
      Exchange.request_eq (inRange_simpleMode _ (by simp [simpleMode]))] at hacks
    cases hacks

end TradingGateway.Client

import TradingGateway.Client.Model
import TradingGateway.Gateway.Acks
import TradingGateway.Gateway.Routing
import TradingGateway.Gateway.Segmentation

/-!
# From the client to the engine

What a user of `TradingClient` asks for is what the engine is told to do: the
layouts that the client and the gateway write down independently of each other
agree, and so do their checksums.

* `send_eq`: the bytes of a call are those of a well-formed message.
* `client_command_queued`: the command that such a message leads to.
-/

namespace TradingGateway.Client

open Common Python Message Network Book Engine Gateway Queue

/-- A call of one of the three methods of `TradingClient`. -/
inductive Call
  | newOrder (orderId price quantity : ℤ) (symbol side : String)
  | cancelOrder (orderId : ℤ)
  | modifyOrder (orderId newPrice newQuantity : ℤ)

/-- An unsigned integer of `bits` bits. -/
def Fits (bits : ℕ) (x : ℤ) : Prop := 0 ≤ x ∧ x < 2 ^ bits

namespace Call

/-- The bytes that are sent. -/
def send (now : UInt64) : Call → Option Bytes
  | newOrder orderId price quantity symbol side =>
    sendNewOrder now orderId price quantity symbol side
  | cancelOrder orderId => sendCancelOrder now orderId
  | modifyOrder orderId newPrice newQuantity => sendModifyOrder now orderId newPrice newQuantity

/-- Integers that the fields can hold, a symbol in ASCII, and one ASCII character
    for the side. -/
def InRange : Call → Prop
  | newOrder orderId price quantity symbol side =>
    Fits 64 orderId ∧ Fits 64 price ∧ Fits 32 quantity ∧ IsAscii symbol ∧
      IsAscii side ∧ side.toList.length = 1
  | cancelOrder orderId => Fits 64 orderId
  | modifyOrder orderId newPrice newQuantity =>
    Fits 64 orderId ∧ Fits 64 newPrice ∧ Fits 32 newQuantity

/-- The command is the one that the call asks for. -/
def Describes : Call → Order → Prop
  | newOrder orderId price quantity symbol side, order =>
    order.command = .add ∧ order.id.toNat = orderId ∧ order.price.toNat = price ∧
      order.quantity.toNat = quantity ∧ (order.isBuy = true ↔ side = "B") ∧
      order.symbol = strncpy 8 ((asciiBytes symbol).take 8)
  | cancelOrder orderId, order => order.command = .cancel ∧ order.id.toNat = orderId
  | modifyOrder orderId newPrice newQuantity, order =>
    order.command = .modify ∧ order.id.toNat = orderId ∧ order.quantity.toNat = newQuantity ∧
      order.price.toNat = newPrice

/-- The symbol field of a new order. -/
def symbolField (symbol : String) : Vector UInt8 8 :=
  Vector.ofFn fun i => (ljust 8 ((asciiBytes symbol).take 8)).getD i 0

/-- The request that the call makes. -/
def request : Call → Request
  | newOrder orderId price quantity symbol side =>
    .newOrder ⟨.ofNat orderId.toNat, .ofNat price.toNat, .ofNat quantity.toNat,
      symbolField symbol, (asciiBytes side).headD 0⟩
  | cancelOrder orderId => .cancelOrder ⟨.ofNat orderId.toNat⟩
  | modifyOrder orderId newPrice newQuantity =>
    .modifyOrder ⟨.ofNat orderId.toNat, .ofNat newPrice.toNat, .ofNat newQuantity.toNat⟩

end Call

/-! ## Packing -/

theorem Fits.pack_Q {x : ℤ} (h : Fits 64 x) :
    Q.pack (.int x) = some (toLE 8 (UInt64.ofNat x.toNat).toNat) := by
  obtain ⟨h0, hlt⟩ := h
  have hnat : x.toNat < 2 ^ 64 := by omega
  rw [pack_uint h0 (by norm_num; exact hlt), UInt64.toNat_ofNat_of_lt' hnat]

theorem Fits.pack_I {x : ℤ} (h : Fits 32 x) :
    I.pack (.int x) = some (toLE 4 (UInt32.ofNat x.toNat).toNat) := by
  obtain ⟨h0, hlt⟩ := h
  have hnat : x.toNat < 2 ^ 32 := by omega
  rw [pack_uint h0 (by norm_num; exact hlt), UInt32.toNat_ofNat_of_lt' hnat]

/-- The client's header is that of a well-formed message. -/
theorem sendMessage_request (now : UInt64) (request : Request) {msgType : ℤ}
    (htype : msgType = request.type.toByte.toNat) :
    sendMessage now msgType request.bytes = some (ClientMessage.bytes ⟨now, request⟩) := by
  set m : ClientMessage := ⟨now, request⟩
  have hlength : ((headerSize : ℤ) + request.bytes.length) = m.header.length.toNat := by
    rw [Request.length_bytes]
    show _ = ((UInt64.ofNat (Message.headerSize + payloadSize request.type)).toNat : ℤ)
    generalize request.type = type
    cases type <;> decide
  have hbyte : B.pack (.int msgType) = some [m.header.type] := by
    rw [htype, pack_nat request.type.toByte.toNat_lt]
    simp [toLE, m, ClientMessage.header]
  have hheader : pack headerFmt [.int msgType, .int (headerSize + request.bytes.length),
      .int now.toNat, .int (calculateChecksum request.bytes)] = some m.header.bytes := by
    rw [hlength, calculateChecksum_eq]
    refine (pack_cons hbyte (pack_cons (pack_nat m.header.length.toNat_lt)
      (pack_cons (pack_nat now.toNat_lt) (pack_cons (pack_nat (UInt32.toNat_lt _)) rfl)))).trans ?_
    simp [MessageHeader.bytes, m, ClientMessage.header]
  rw [sendMessage]
  simp only [Nat.cast_add, hheader]
  rfl

theorem toList_symbolField (symbol : String) :
    (Call.symbolField symbol).toList = ljust 8 ((asciiBytes symbol).take 8) := by
  have hlength : (ljust 8 ((asciiBytes symbol).take 8)).length = 8 :=
    length_ljust (by rw [List.length_take]; omega)
  apply List.ext_getElem
  · rw [Vector.length_toList, hlength]
  · intro i hi hi'
    simp only [Call.symbolField, Vector.getElem_toList, Vector.getElem_ofFn]
    exact List.getD_eq_getElem _ _ hi'

/-- The payload of a new order is the record that the gateway copies. -/
theorem pack_newOrder {orderId price quantity : ℤ} {symbol side : String}
    (h : (Call.newOrder orderId price quantity symbol side).InRange) :
    pack newOrderFmt [.int orderId, .int price, .int quantity,
        .bytes (ljust 8 ((asciiBytes symbol).take 8)), .bytes (asciiBytes side)] =
      some (Call.newOrder orderId price quantity symbol side).request.bytes := by
  obtain ⟨hid, hprice, hquantity, -, -, hside⟩ := h
  have hlength : (ljust 8 ((asciiBytes symbol).take 8)).length = 8 :=
    length_ljust (by rw [List.length_take]; omega)
  have hsymbol : (Code.str 8).pack (.bytes (ljust 8 ((asciiBytes symbol).take 8))) =
      some (Call.symbolField symbol).toList := by
    rw [toList_symbolField, Code.pack, List.take_of_length_le hlength.le, ljust, hlength]
    simp
  have hchar : Code.char.pack (.bytes (asciiBytes side)) = some [(asciiBytes side).headD 0] := by
    obtain ⟨b, hb⟩ := List.length_eq_one_iff.mp (show (asciiBytes side).length = 1 by
      rw [asciiBytes, List.length_map, hside])
    rw [hb]
    rfl
  refine (pack_cons hid.pack_Q (pack_cons hprice.pack_Q (pack_cons hquantity.pack_I
    (pack_cons hsymbol (pack_cons hchar rfl))))).trans ?_
  simp [Call.request, Request.bytes, NewOrder.bytes]

/-- **Sent bytes.** The bytes of a call are those of a well-formed message. -/
theorem send_eq (now : UInt64) {call : Call} (h : call.InRange) :
    call.send now = some (ClientMessage.bytes ⟨now, call.request⟩) := by
  cases call with
  | newOrder orderId price quantity symbol side =>
    have hpack := pack_newOrder h
    obtain ⟨-, -, -, hsymbol, hside, -⟩ := h
    have hsymbol' : encodeAscii symbol = some (asciiBytes symbol) := if_pos hsymbol
    have hside' : encodeAscii side = some (asciiBytes side) := if_pos hside
    rw [Call.send, sendNewOrder, hsymbol', Option.bind_eq_bind, Option.bind_some, hside',
      Option.bind_some, hpack, Option.bind_some]
    exact sendMessage_request now (Call.newOrder orderId price quantity symbol side).request rfl
  | cancelOrder orderId =>
    have hpack : pack cancelOrderFmt [.int orderId] =
        some (Call.cancelOrder orderId).request.bytes := by
      refine (pack_cons (Fits.pack_Q h) rfl).trans ?_
      simp [Call.request, Request.bytes, CancelOrder.bytes]
    rw [Call.send, sendCancelOrder, hpack, Option.bind_eq_bind, Option.bind_some]
    exact sendMessage_request now (Call.cancelOrder orderId).request rfl
  | modifyOrder orderId newPrice newQuantity =>
    obtain ⟨hid, hprice, hquantity⟩ := h
    have hpack : pack modifyOrderFmt [.int orderId, .int newPrice, .int newQuantity] =
        some (Call.modifyOrder orderId newPrice newQuantity).request.bytes := by
      refine (pack_cons hid.pack_Q (pack_cons hprice.pack_Q (pack_cons hquantity.pack_I
        rfl))).trans ?_
      simp [Call.request, Request.bytes, ModifyOrder.bytes]
    rw [Call.send, sendModifyOrder, hpack, Option.bind_eq_bind, Option.bind_some]
    exact sendMessage_request now (Call.modifyOrder orderId newPrice newQuantity).request rfl

/-! ## The command -/

theorem Fits.toNat_uint64 {x : ℤ} (h : Fits 64 x) : ((UInt64.ofNat x.toNat).toNat : ℤ) = x := by
  obtain ⟨h0, hlt⟩ := h
  rw [UInt64.toNat_ofNat']
  omega

theorem Fits.toNat_uint32 {x : ℤ} (h : Fits 32 x) :
    ((UInt32.ofNat x.toNat).toUInt64.toNat : ℤ) = x := by
  obtain ⟨h0, hlt⟩ := h
  rw [UInt32.toNat_toUInt64, UInt32.toNat_ofNat']
  omega

/-- The byte of the side is that of `B` for that letter alone. -/
theorem headD_asciiBytes_eq_iff {side : String} (hascii : IsAscii side)
    (hlength : side.toList.length = 1) :
    (asciiBytes side).headD 0 = 'B'.toUInt8 ↔ side = "B" := by
  obtain ⟨ch, hch⟩ := List.length_eq_one_iff.mp hlength
  have hlt : ch.val < 128 := hascii ch (by simp [hch])
  have hside : side = "B" ↔ ch = 'B' := by
    rw [← String.toList_inj, hch]
    simp
  rw [hside, asciiBytes, hch]
  show ch.val.toUInt8 = 66 ↔ _
  constructor
  · intro h
    have hmod := congrArg UInt8.toNat h
    rw [UInt32.toNat_toUInt8] at hmod
    have hnat : ch.val.toNat = 66 := by
      rw [UInt32.lt_iff_toNat_lt] at hlt
      change ch.val.toNat < 128 at hlt
      change ch.val.toNat % 2 ^ 8 = 66 at hmod
      omega
    exact Char.ext (UInt32.toNat_inj.mp hnat)
  · rintro rfl
    rfl

/-- The command of the request is what the call asks for. -/
theorem describes_command (env : Env) (raw : Order) {call : Call} (h : call.InRange) :
    call.Describes (GatewayServer.command env raw call.request) := by
  cases call with
  | newOrder orderId price quantity symbol side =>
    obtain ⟨hid, hprice, hquantity, -, hascii, hside⟩ := h
    refine ⟨rfl, hid.toNat_uint64, hprice.toNat_uint64, hquantity.toNat_uint32, ?_, ?_⟩
    · show decide (_ = 'B'.toUInt8) = true ↔ _
      rw [decide_eq_true_eq]
      exact headD_asciiBytes_eq_iff hascii hside
    · refine (coreOrder_symbol env _).trans ?_
      rw [toList_symbolField, ljust, strncpy_append_zeros]
  | cancelOrder orderId => exact ⟨rfl, Fits.toNat_uint64 h⟩
  | modifyOrder orderId newPrice newQuantity =>
    exact ⟨rfl, h.1.toNat_uint64, h.2.2.toNat_uint32, h.2.1.toNat_uint64⟩

theorem validAt_of_handled {n : ℕ} (hn : Message.headerSize ≤ n) {mem : Memory}
    {request : Request} (h : (messageHandler n).value mem = some request) : ValidAt mem := by
  rw [value_messageHandler hn] at h
  by_contra hinvalid
  rw [ValidAt] at hinvalid
  rw [if_neg hinvalid] at h
  cases h

/-- **From the client to the queue.** The bytes of a call, as one chunk in front
    of any memory, are valid and lead to one `push`, in every state of the
    gateway, of the command that the call asks for; if the queue accepts it, it
    waits behind those that waited before. On every byte string the two programs
    compute the same checksum. -/
theorem client_command_queued (now : UInt64) (call : Call) (hcall : call.InRange)
    (events : List Event) (env : Env) (raw : Order) (hheap : env.heap = some raw)
    (clientFd : SocketFd) :
    (∃ bytes, call.send now = some bytes ∧ ∀ mem : Memory, mem.Has 0 bytes →
      ValidAt mem ∧ ∃ request, (messageHandler bytes.length).value mem = some request ∧
        ∃ order, call.Describes order ∧
          let g := GatewayServer.machine.after events
          let g' := (g.handle env clientFd request).1
          g'.orderQueue = (g.orderQueue.push (some order)).2 ∧
            ((g.orderQueue.push (some order)).1 = true →
              g'.orderQueue.waiting = g.orderQueue.waiting ++ [order])) ∧
      ∀ (mem : Memory) (data : ℕ) (length : UInt64),
        (((Network.calculateChecksum data length).value mem).toNat : ℤ) =
          calculateChecksum ((List.range' data length.toNat).map mem) := by
  constructor
  · refine ⟨_, send_eq now hcall, fun mem hmem => ?_⟩
    rw [ClientMessage.length_bytes]
    have hhandled := messageHandler_of_has hmem
    refine ⟨validAt_of_handled (Nat.le_add_right _ _) hhandled, call.request, hhandled,
      _, describes_command env raw hcall, ?_⟩
    set g := GatewayServer.machine.after events
    obtain ⟨s, hs⟩ := GatewayServer.queueOk_after events
    obtain ⟨hok, hwaiting⟩ := hs.push_waiting (GatewayServer.command env raw call.request)
    have hqueue : (g.handle env clientFd call.request).1.orderQueue =
        (g.orderQueue.push (some (GatewayServer.command env raw call.request))).2 := by
      rw [(g.handle_of_heap_some clientFd call.request hheap).1]
    refine ⟨hqueue, fun haccepted => ?_⟩
    rw [hok, decide_eq_true_eq] at haccepted
    rw [hqueue, hwaiting, if_pos haccepted]
  · intro mem data length
    rw [value_calculateChecksum, calculateChecksum_eq]

/-- The first order that the client's `simple` mode sends (line 231). -/
def simpleOrder : Call := .newOrder 101 50000 10 "BTCUSD" "B"

theorem simpleOrder_queued :
    ∃ bytes, simpleOrder.send 0 = some bytes ∧ ∀ mem : Memory, mem.Has 0 bytes →
      ValidAt mem ∧ ∃ request, (messageHandler bytes.length).value mem = some request ∧
        ∃ order, simpleOrder.Describes order ∧
          let queue := (GatewayServer.new.handle GatewayServer.plainEnv 5 request).1.orderQueue
          queue = (GatewayServer.new.orderQueue.push (some order)).2 ∧
            (GatewayServer.new.orderQueue.push (some order)).1 = true ∧
            queue.waiting = [order] := by
  have hrange : simpleOrder.InRange := by
    refine ⟨⟨?_, ?_⟩, ⟨?_, ?_⟩, ⟨?_, ?_⟩, by simp [IsAscii], by simp [IsAscii],
      by decide⟩ <;> norm_num
  obtain ⟨bytes, hsend, hall⟩ :=
    (client_command_queued 0 simpleOrder hrange [] GatewayServer.plainEnv .zeroed rfl 5).1
  refine ⟨bytes, hsend, fun mem hmem => ?_⟩
  obtain ⟨hvalid, request, hhandled, order, hdescribes, hqueue, hwaiting⟩ := hall mem hmem
  have haccepted : (GatewayServer.new.orderQueue.push (some order)).1 = true := rfl
  exact ⟨hvalid, request, hhandled, order, hdescribes, hqueue, haccepted, hwaiting haccepted⟩

end TradingGateway.Client

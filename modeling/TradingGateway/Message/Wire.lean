import TradingGateway.Message.Types

/-!
# Wire records

The packed records of `cpp-core/network/message_parser.h` (lines 9–52) and the
bytes that make them up on a little-endian machine. `MessageHeader.type` is the
stored byte: `memcpy` can put any value there.
-/

namespace TradingGateway.Message

open Common

/-- `enum class MessageType : uint8_t` (lines 10–16). -/
inductive MessageType
  | newOrder
  | cancelOrder
  | modifyOrder
  | orderAck
  | trade
  deriving DecidableEq, Repr

/-- The value of an enumerator. -/
def MessageType.toByte : MessageType → UInt8
  | .newOrder => 1
  | .cancelOrder => 2
  | .modifyOrder => 3
  | .orderAck => 4
  | .trade => 5

/-- `struct MessageHeader` (lines 20–25). -/
structure MessageHeader where
  type : UInt8
  length : UInt64
  timestamp : UInt64
  checksum : UInt32
  deriving DecidableEq

/-- `struct NewOrder` (lines 27–33). -/
structure NewOrder where
  orderId : UInt64
  price : UInt64
  quantity : UInt32
  symbol : Vector UInt8 8
  side : UInt8
  deriving DecidableEq

/-- `struct CancelOrder` (lines 35–37). -/
structure CancelOrder where
  orderId : UInt64
  deriving DecidableEq

/-- `struct ModifyOrder` (lines 39–43). -/
structure ModifyOrder where
  orderId : UInt64
  newPrice : UInt64
  newQuantity : UInt32
  deriving DecidableEq

/-- `struct OrderAck` (lines 45–50). -/
structure OrderAck where
  orderId : UInt64
  accepted : Bool
  timestamp : UInt64
  reason : Vector UInt8 64
  deriving DecidableEq

/-- What a client can ask for. -/
inductive Request
  | newOrder (order : NewOrder)
  | cancelOrder (order : CancelOrder)
  | modifyOrder (order : ModifyOrder)
  deriving DecidableEq

/-- The id of the order that a request is about. -/
def Request.orderId : Request → UInt64
  | .newOrder order => order.orderId
  | .cancelOrder order => order.orderId
  | .modifyOrder order => order.orderId

/-! ## Bytes of the records -/

/-- `sizeof(MessageHeader)` -/
abbrev headerSize : ℕ := 21

/-- The type under which a request is sent. -/
def Request.type : Request → MessageType
  | .newOrder _ => .newOrder
  | .cancelOrder _ => .cancelOrder
  | .modifyOrder _ => .modifyOrder

/-- The `sizeof` of the payload of a message type. -/
def payloadSize : MessageType → ℕ
  | .newOrder => 29
  | .cancelOrder => 8
  | .modifyOrder => 20
  | .orderAck => 81
  | .trade => 48

theorem payloadSize_le (type : MessageType) : payloadSize type ≤ 81 := by
  cases type <;> decide

def MessageHeader.bytes (h : MessageHeader) : Bytes :=
  h.type :: (toLE 8 h.length.toNat ++ toLE 8 h.timestamp.toNat ++ toLE 4 h.checksum.toNat)

def NewOrder.bytes (o : NewOrder) : Bytes :=
  toLE 8 o.orderId.toNat ++ toLE 8 o.price.toNat ++ toLE 4 o.quantity.toNat ++ o.symbol.toList ++
    [o.side]

def CancelOrder.bytes (o : CancelOrder) : Bytes := toLE 8 o.orderId.toNat

def ModifyOrder.bytes (o : ModifyOrder) : Bytes :=
  toLE 8 o.orderId.toNat ++ toLE 8 o.newPrice.toNat ++ toLE 4 o.newQuantity.toNat

def OrderAck.bytes (a : OrderAck) : Bytes :=
  toLE 8 a.orderId.toNat ++ [if a.accepted then 1 else 0] ++ toLE 8 a.timestamp.toNat ++
    a.reason.toList

/-- The bytes of a `Trade`, which is not packed and has no padding either. -/
def Trade.bytes (t : Trade) : Bytes :=
  toLE 8 t.buyOrderId.toNat ++ toLE 8 t.sellOrderId.toNat ++ toLE 8 t.price.toNat ++
    toLE 8 t.quantity.toNat ++ t.symbol.toList ++ toLE 8 t.timestamp.toNat

def Request.bytes : Request → Bytes
  | .newOrder o => o.bytes
  | .cancelOrder o => o.bytes
  | .modifyOrder o => o.bytes

theorem MessageHeader.length_bytes (h : MessageHeader) : h.bytes.length = headerSize := by
  simp [bytes]

theorem Request.length_bytes (r : Request) : r.bytes.length = payloadSize r.type := by
  cases r <;>
    simp [bytes, NewOrder.bytes, CancelOrder.bytes, ModifyOrder.bytes, payloadSize, type]

end TradingGateway.Message

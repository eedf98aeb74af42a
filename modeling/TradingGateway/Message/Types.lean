import TradingGateway.Common.Bytes

/-!
# Orders and trades

The in-memory records of `cpp-core/network/message_parser.h` (lines 54–93):
`OrderCommand`, `Order` and `Trade`.

`Order` is not packed. On the x86-64 ABI its `symbol` stands at offset 24,
`is_buy` at 32, seven bytes of padding at 33, `timestamp` at 40 and `command`
at 48; the padding is part of the model because a C-string read of a full
eight-byte `symbol` runs on into these bytes (`Order.symbolString`).
-/

namespace TradingGateway.Message

open Common

/-- The key type of the engine's maps, `using Symbol = std::string`. -/
abbrev Symbol := Bytes

/-- `enum class OrderCommand : uint8_t { ADD, CANCEL, MODIFY }` (lines 54–58). -/
inductive OrderCommand
  | add
  | cancel
  | modify
  deriving DecidableEq, Repr

/-- The byte that stores an `OrderCommand`. -/
def OrderCommand.toByte : OrderCommand → UInt8
  | .add => 0
  | .cancel => 1
  | .modify => 2

/-- `struct Order` (lines 60–76); `padding` is bytes 33–39 of its storage. -/
structure Order where
  id : UInt64
  price : UInt64
  quantity : UInt64
  symbol : Vector UInt8 8
  isBuy : Bool
  padding : Vector UInt8 7
  timestamp : UInt64
  command : OrderCommand
  deriving DecidableEq

namespace Order

/-- An `Order` in storage filled with zero bytes. -/
def zeroed : Order where
  id := 0
  price := 0
  quantity := 0
  symbol := Vector.replicate 8 0
  isBuy := false
  padding := Vector.replicate 7 0
  timestamp := 0
  command := .add

/-- `Order()` (line 69) on storage that holds `raw`: only `command` is
    initialised. -/
def default (raw : Order) : Order := { raw with command := .add }

/-- `Order(id_, price_, qty_, sym_, buy_)` (lines 71–75) on storage that
    holds `raw`; constructing an object does not write its padding. -/
def make (raw : Order) (id price qty : UInt64) (sym : Symbol) (buy : Bool) : Order where
  id := id
  price := price
  quantity := qty
  symbol := strncpy 8 sym
  isBuy := buy
  padding := raw.padding
  timestamp := 0
  command := .add

/-- The implicit copy constructor on storage that holds `raw`. -/
def copy (raw : Order) (o : Order) : Order := { o with padding := raw.padding }

/-- The bytes of an `Order` from `symbol` (offset 24) to `command` (offset 48). -/
def symbolTail (o : Order) : Bytes :=
  o.symbol.toList ++ [if o.isBuy then 1 else 0] ++ o.padding.toList ++ toLE 8 o.timestamp.toNat ++
    [o.command.toByte]

/-- `Symbol symbol(order->symbol)` (`matching_engine.cpp`, line 84). The read
    stops at the first NUL after the start of `symbol`; for an `ADD` the
    `command` byte is one, so it stays inside the object. -/
def symbolString (o : Order) : Symbol := cString o.symbolTail

end Order

/-- `struct Trade` (lines 78–93). -/
structure Trade where
  buyOrderId : UInt64
  sellOrderId : UInt64
  price : UInt64
  quantity : UInt64
  symbol : Vector UInt8 8
  timestamp : UInt64
  deriving DecidableEq

/-- `Trade(b_id, s_id, p, q, sym)` (lines 88–92). -/
def Trade.make (bId sId p q : UInt64) (sym : Symbol) : Trade where
  buyOrderId := bId
  sellOrderId := sId
  price := p
  quantity := q
  symbol := strncpy 8 sym
  timestamp := 0

end TradingGateway.Message

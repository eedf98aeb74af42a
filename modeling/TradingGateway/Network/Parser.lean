import TradingGateway.Common.Reads
import TradingGateway.Message.Wire

/-!
# Parsing messages

Model of the parsing half of `MessageParser`
(`cpp-core/network/message_parser.cpp`, lines 7–44 and 94–121). A `const char*` is an index
into a memory without end; the functions are told nothing about where the data
that were received stop. `size_t` is `UInt64`.
-/

namespace TradingGateway.Network

open Common Message

/-! ## Records from bytes -/

/-- The unsigned integer in the `len` bytes from `off` on. -/
def field (bs : Bytes) (off len : ℕ) : ℕ := ofLE ((bs.drop off).take len)

def headerOfBytes (bs : Bytes) : MessageHeader where
  type := bs.getD 0 0
  length := .ofNat (field bs 1 8)
  timestamp := .ofNat (field bs 9 8)
  checksum := .ofNat (field bs 17 4)

def newOrderOfBytes (bs : Bytes) : NewOrder where
  orderId := .ofNat (field bs 0 8)
  price := .ofNat (field bs 8 8)
  quantity := .ofNat (field bs 16 4)
  symbol := Vector.ofFn fun i => bs.getD (20 + i) 0
  side := bs.getD 28 0

def cancelOrderOfBytes (bs : Bytes) : CancelOrder where
  orderId := .ofNat (field bs 0 8)

def modifyOrderOfBytes (bs : Bytes) : ModifyOrder where
  orderId := .ofNat (field bs 0 8)
  newPrice := .ofNat (field bs 8 8)
  newQuantity := .ofNat (field bs 16 4)

/-! ## Checksum -/

/-- `static_cast<uint32_t>(data[i])`: `char` is signed. -/
def charToUInt32 (c : UInt8) : UInt32 := c.toInt8.toInt32.toUInt32

/-- The body of the loop (line 10). -/
def checksumStep (checksum : UInt32) (i : ℕ) (c : UInt8) : UInt32 :=
  checksum ^^^ charToUInt32 c <<< UInt32.ofNat (i % 4 * 8)

/-- The loop (lines 9–11) with `left` iterations to go. -/
def checksumLoop (data : ℕ) : (left i : ℕ) → (checksum : UInt32) → Reads UInt32
  | 0, _, checksum => pure checksum
  | left + 1, i, checksum => do
    let c ← Reads.load (data + i)
    checksumLoop data left (i + 1) (checksumStep checksum i c)

/-- `calculate_checksum` (lines 7–13). -/
def calculateChecksum (data : ℕ) (length : UInt64) : Reads UInt32 :=
  checksumLoop data length.toNat 0 0

/-- `validate_message` (lines 15–18). The subtraction is that of `size_t`. -/
def validateMessage (header : MessageHeader) (payload : ℕ) : Reads Bool := do
  let expectedChecksum ← calculateChecksum payload (header.length - UInt64.ofNat headerSize)
  return header.checksum = expectedChecksum

/-! ## Parsers -/

/-- `parse_header` (lines 20–26). -/
def parseHeader (data length : ℕ) : Reads MessageHeader :=
  if length ≥ headerSize then headerOfBytes <$> Reads.memcpy data headerSize
  else pure ⟨0, 0, 0, 0⟩

/-- `parse_new_order` (lines 28–32). -/
def parseNewOrder (data : ℕ) : Reads NewOrder :=
  newOrderOfBytes <$> Reads.memcpy data (payloadSize .newOrder)

/-- `parse_cancel_order` (lines 34–38). -/
def parseCancelOrder (data : ℕ) : Reads CancelOrder :=
  cancelOrderOfBytes <$> Reads.memcpy data (payloadSize .cancelOrder)

/-- `parse_modify_order` (lines 40–44). -/
def parseModifyOrder (data : ℕ) : Reads ModifyOrder :=
  modifyOrderOfBytes <$> Reads.memcpy data (payloadSize .modifyOrder)

/-! ## `parse` -/

/-- The local `struct WireNewOrder` (lines 96–105). -/
structure WireNewOrder where
  type : UInt8
  orderId : UInt64
  price : UInt64
  quantity : UInt32
  symbol : Vector UInt8 8
  side : UInt8
  deriving DecidableEq

/-- `sizeof(WireNewOrder)` -/
abbrev wireNewOrderSize : ℕ := 30

def wireNewOrderOfBytes (bs : Bytes) : WireNewOrder where
  type := bs.getD 0 0
  orderId := .ofNat (field bs 1 8)
  price := .ofNat (field bs 9 8)
  quantity := .ofNat (field bs 17 4)
  symbol := Vector.ofFn fun i => bs.getD (21 + i) 0
  side := bs.getD 29 0

/-- `strnlen(s, n)` of a field of at least `n` bytes. -/
def strnlen (s : Bytes) (n : ℕ) : ℕ := (cString (s.take n)).length

/-- `parse` (lines 94–121); the `Order` is made in storage that holds `raw`. -/
def parse (raw : Order) (data len : ℕ) : Reads (Option Order) :=
  if len < wireNewOrderSize then pure none
  else do
    let msg ← wireNewOrderOfBytes <$> Reads.memcpy data wireNewOrderSize
    if msg.type ≠ MessageType.newOrder.toByte then return none
    let symbolStr := msg.symbol.toList.take (strnlen msg.symbol.toList 8)
    let isBuy := decide (msg.side = 'B'.toUInt8)
    return some (Order.make raw msg.orderId msg.price msg.quantity.toUInt64 symbolStr isBuy)

/-! ## What they read -/

@[simp] theorem indices_checksumLoop (data left i : ℕ) (checksum : UInt32) (mem : Memory) :
    (checksumLoop data left i checksum).indices mem = List.range' (data + i) left := by
  induction left generalizing i checksum with
  | zero => rfl
  | succ left ih =>
    rw [checksumLoop, Reads.indices_bind, ih, List.range'_succ]
    rfl

@[simp] theorem indices_calculateChecksum (data : ℕ) (length : UInt64) (mem : Memory) :
    (calculateChecksum data length).indices mem = List.range' data length.toNat :=
  indices_checksumLoop data length.toNat 0 0 mem

@[simp] theorem indices_validateMessage (header : MessageHeader) (payload : ℕ) (mem : Memory) :
    (validateMessage header payload).indices mem =
      List.range' payload (header.length - UInt64.ofNat headerSize).toNat := by
  simp [validateMessage]

/-! ## The checksum of a byte string -/

/-- The loop of `calculate_checksum` on a list of bytes, from the index `i` on. -/
def checksumOf (i : ℕ) (checksum : UInt32) : Bytes → UInt32
  | [] => checksum
  | c :: cs => checksumOf (i + 1) (checksumStep checksum i c) cs

theorem value_checksumLoop (data left i : ℕ) (checksum : UInt32) (mem : Memory) :
    (checksumLoop data left i checksum).value mem =
      checksumOf i checksum ((List.range' (data + i) left).map mem) := by
  induction left generalizing i checksum with
  | zero => rfl
  | succ left ih =>
    rw [checksumLoop, Reads.value_bind, ih, List.range'_succ, List.map_cons, checksumOf]
    rfl

theorem value_calculateChecksum (data : ℕ) (length : UInt64) (mem : Memory) :
    (calculateChecksum data length).value mem =
      checksumOf 0 0 ((List.range' data length.toNat).map mem) :=
  value_checksumLoop data length.toNat 0 0 mem

theorem value_validateMessage (header : MessageHeader) (payload : ℕ) (mem : Memory) :
    (validateMessage header payload).value mem =
      decide (header.checksum = checksumOf 0 0 ((List.range' payload
        (header.length - UInt64.ofNat headerSize).toNat).map mem)) := by
  rw [validateMessage, Reads.value_bind, value_calculateChecksum, Reads.value_pure]

end TradingGateway.Network

import TradingGateway.Network.ClientMessage

/-!
# Serializing messages

Model of the other half of `MessageParser`
(`cpp-core/network/message_parser.cpp`, lines 46–92): the gateway's messages are
written into a local buffer, header first, and the header again when the
checksum is known.

* `serializeMessage_eq`: what a call that succeeds writes, and what it leaves.
* `serialize_all_or_nothing`: a call writes nothing, or a message that the
  parsers accept.
* `ServerMessage.bytes_eq`: what is sent is the header with the checksum of the
  payload, and the payload.
-/

namespace TradingGateway.Network

open Common Message

/-- The `switch` (lines 54–63): the size of the payload of a type. A
    `MessageType` can hold any byte. -/
def serializedSize (type : UInt8) : Option ℕ :=
  if type = MessageType.orderAck.toByte then some (payloadSize .orderAck)
  else if type = MessageType.trade.toByte then some (payloadSize .trade)
  else none

/-- `serialize_message` (lines 46–82): the size of the message and the buffer.
    `now` is the time of the clock; `payload` is what the pointer points to. -/
def serializeMessage (now : UInt64) (type : UInt8) (payload : Memory) (buffer : Memory)
    (bufferSize : ℕ) : ℕ × Memory :=
  match serializedSize type with
  | none => (0, buffer)
  | some size =>
    let header : MessageHeader :=
      { type := type, length := .ofNat (headerSize + size), timestamp := now, checksum := 0 }
    if bufferSize < header.length.toNat then (0, buffer)
    else
      let buffer := buffer.write 0 header.bytes
      let buffer := buffer.write headerSize ((Reads.memcpy 0 size).value payload)
      let checksum := (calculateChecksum headerSize (.ofNat size)).value buffer
      let header := { header with checksum := checksum }
      (header.length.toNat, buffer.write 0 header.bytes)

/-- `&object`; nothing behind the object is read. -/
def addressOf (bs : Bytes) : Memory := Memory.overlay bs fun _ => 0

/-- `serialize_order_ack` (lines 84–87). -/
def serializeOrderAck (now : UInt64) (ack : OrderAck) (buffer : Memory) : ℕ × Memory :=
  serializeMessage now MessageType.orderAck.toByte (addressOf ack.bytes) buffer
    (headerSize + payloadSize .orderAck)

/-- `serialize_trade` (lines 89–92). -/
def serializeTrade (now : UInt64) (trade : Trade) (buffer : Memory) : ℕ × Memory :=
  serializeMessage now MessageType.trade.toByte (addressOf trade.bytes) buffer
    (headerSize + payloadSize .trade)

/-! ## What is written -/

theorem toNat_messageLength (type : MessageType) :
    (UInt64.ofNat (headerSize + payloadSize type)).toNat = headerSize + payloadSize type := by
  cases type <;> decide

theorem serializedSize_cases {type : UInt8} {size : ℕ} (h : serializedSize type = some size) :
    size = payloadSize .orderAck ∨ size = payloadSize .trade := by
  unfold serializedSize at h
  split_ifs at h
  · exact .inl (Option.some.inj h).symm
  · exact .inr (Option.some.inj h).symm

/-- No size overflows its integer type. -/
theorem toNat_serializedSize {type : UInt8} {size : ℕ} (h : serializedSize type = some size) :
    (UInt64.ofNat size).toNat = size ∧
      (UInt64.ofNat (headerSize + size)).toNat = headerSize + size := by
  rcases serializedSize_cases h with rfl | rfl <;> decide

/-- The header that belongs to a payload. -/
def headerOf (now : UInt64) (type : UInt8) (payload : Bytes) : MessageHeader :=
  ⟨type, .ofNat (headerSize + payload.length), now, checksumOf 0 0 payload⟩

/-- A call that succeeds puts the header with the checksum and the payload at the
    start of the buffer: the second pass over the header leaves the payload alone.
    It writes nothing behind them. -/
theorem serializeMessage_eq (now : UInt64) {type : UInt8} {size bufferSize : ℕ}
    (hsize : serializedSize type = some size) (payload buffer : Memory)
    (hbuffer : headerSize + size ≤ bufferSize) :
    (serializeMessage now type payload buffer bufferSize).1 = headerSize + size ∧
      (serializeMessage now type payload buffer bufferSize).2.Has 0
        ((headerOf now type ((Reads.memcpy 0 size).value payload)).bytes ++
          (Reads.memcpy 0 size).value payload) ∧
      ∀ i, headerSize + size ≤ i →
        (serializeMessage now type payload buffer bufferSize).2 i = buffer i := by
  obtain ⟨hsmall, hlarge⟩ := toNat_serializedSize hsize
  set bytes := (Reads.memcpy 0 size).value payload with hbytes
  have hlength : bytes.length = size := by simp [hbytes]
  set header : MessageHeader := ⟨type, .ofNat (headerSize + size), now, 0⟩ with hheader
  set filled := (buffer.write 0 header.bytes).write headerSize bytes with hfilled
  have hpayload : filled.Has headerSize bytes := Memory.has_write _ _ _
  have hchecksum : (calculateChecksum headerSize (.ofNat size)).value filled =
      checksumOf 0 0 bytes := by
    rw [value_calculateChecksum, hsmall, ← hlength,
      show (List.range' headerSize bytes.length).map filled = bytes from hpayload]
  have heq : serializeMessage now type payload buffer bufferSize =
      (headerSize + size, filled.write 0 (headerOf now type bytes).bytes) := by
    unfold serializeMessage
    rw [hsize]
    dsimp only
    rw [if_neg (by rw [hlarge]; omega), hlarge, ← hbytes, ← hheader, ← hfilled, hchecksum,
      headerOf, hlength]
  rw [heq]
  refine ⟨rfl, Memory.has_append.mpr ⟨Memory.has_write _ _ _, ?_⟩, ?_⟩
  · rw [MessageHeader.length_bytes, Nat.zero_add]
    exact hpayload.write (by rw [MessageHeader.length_bytes, Nat.zero_add])
  · intro i hi
    dsimp only
    rw [Memory.write_of_ge _ (by rw [MessageHeader.length_bytes]; omega), hfilled,
      Memory.write_of_ge _ (by rw [hlength]; exact hi),
      Memory.write_of_ge _ (by rw [MessageHeader.length_bytes]; omega)]

/-- A call that fails writes nothing. It fails if the type has no payload, or the
    message does not fit. -/
theorem serializeMessage_cases (now : UInt64) (type : UInt8) (payload buffer : Memory)
    (bufferSize : ℕ) :
    serializeMessage now type payload buffer bufferSize = (0, buffer) ∧
        (∀ size, serializedSize type = some size → bufferSize < headerSize + size) ∨
      ∃ size, serializedSize type = some size ∧ headerSize + size ≤ bufferSize := by
  cases hsize : serializedSize type with
  | none =>
    refine .inl ⟨?_, nofun⟩
    unfold serializeMessage
    rw [hsize]
  | some size =>
    by_cases hbuffer : headerSize + size ≤ bufferSize
    · exact .inr ⟨size, rfl, hbuffer⟩
    · refine .inl ⟨?_, ?_⟩
      · unfold serializeMessage
        rw [hsize]
        dsimp only
        rw [if_pos (by rw [(toNat_serializedSize hsize).2]; omega)]
      · rintro _ ⟨⟩
        exact not_le.mp hbuffer

/-- **Serialization is all or nothing.** Whatever the type, the payload, the
    buffer and its size, `serialize_message` returns 0 and leaves the buffer as
    it was, because the type is not one that is serialized or the message does not
    fit, or it returns the size of the message, which fits, changes nothing
    behind it, and leaves a message there whose header `parse_header` reads back
    with this type and length, whose checksum `validate_message` accepts, and
    whose payload is the one given. -/
theorem serialize_all_or_nothing (now : UInt64) (type : UInt8) (payload buffer : Memory)
    (bufferSize : ℕ) :
    serializeMessage now type payload buffer bufferSize = (0, buffer) ∧
      (∀ size, serializedSize type = some size → bufferSize < headerSize + size) ∨
    ∃ size length written,
      serializedSize type = some size ∧
      serializeMessage now type payload buffer bufferSize = (length, written) ∧
      length = headerSize + size ∧ length ≤ bufferSize ∧
      (∀ i, length ≤ i → written i = buffer i) ∧
      ((parseHeader 0 length).value written).type = type ∧
      ((parseHeader 0 length).value written).length.toNat = length ∧
      (validateMessage ((parseHeader 0 length).value written) headerSize).value written = true ∧
      (Reads.memcpy headerSize size).value written = (Reads.memcpy 0 size).value payload := by
  rcases serializeMessage_cases now type payload buffer bufferSize with
    hfail | ⟨size, hsize, hbuffer⟩
  · exact .inl hfail
  · right
    obtain ⟨hlength, hhas, hrest⟩ := serializeMessage_eq now hsize payload buffer hbuffer
    obtain ⟨-, hlarge⟩ := toNat_serializedSize hsize
    set bytes := (Reads.memcpy 0 size).value payload with hbytes
    have hcount : bytes.length = size := by simp [hbytes]
    set written := (serializeMessage now type payload buffer bufferSize).2
    obtain ⟨hhead, htail⟩ := Memory.has_append.mp hhas
    rw [Memory.Has, MessageHeader.length_bytes] at hhead
    rw [MessageHeader.length_bytes, Nat.zero_add, Memory.Has, hcount] at htail
    have hparse : (parseHeader 0 (headerSize + size)).value written = headerOf now type bytes := by
      rw [parseHeader, if_pos (Nat.le_add_right _ _), Reads.value_map, Reads.value_memcpy, hhead,
        headerOfBytes_bytes]
    refine ⟨size, headerSize + size, written, hsize, Prod.ext hlength rfl, rfl, hbuffer, hrest, ?_,
      ?_, ?_, htail⟩
    · rw [hparse]
      rfl
    · rw [hparse, headerOf, hcount, hlarge]
    · have hsub : ((headerOf now type bytes).length - UInt64.ofNat headerSize).toNat = size := by
        rw [headerOf, hcount, UInt64.toNat_sub_of_le]
        · rw [hlarge]
          exact Nat.add_sub_cancel_left _ _
        · rw [UInt64.le_iff_toNat_le, hlarge]
          exact Nat.le_add_right _ _
      rw [hparse, value_validateMessage, hsub, htail, decide_eq_true_eq]
      rfl

theorem orderAck_serialized :
    ∃ written,
      serializeOrderAck 5 ⟨7, true, 5, .replicate 64 0⟩ (fun _ => 255) = (102, written) ∧
      (validateMessage ((parseHeader 0 102).value written) headerSize).value written = true ∧
      (Reads.memcpy headerSize 8).value written = toLE 8 7 := by
  rcases serialize_all_or_nothing 5 MessageType.orderAck.toByte
    (addressOf (OrderAck.bytes ⟨7, true, 5, .replicate 64 0⟩)) (fun _ => 255) 102 with
    ⟨-, hsmall⟩ | ⟨size, length, written, hsize, heq, rfl, -, -, -, -, hvalid, hpayload⟩
  · exact absurd (hsmall 81 rfl) (lt_irrefl 102)
  · obtain rfl : 81 = size := Option.some.inj hsize
    refine ⟨written, heq, hvalid, ?_⟩
    have hid := congrArg (List.take 8) hpayload
    exact hid

/-! ## What is sent -/

/-- What the gateway sends. -/
inductive Outgoing
  | orderAck (ack : OrderAck)
  | trade (trade : Trade)
  deriving DecidableEq

namespace Outgoing

def type : Outgoing → MessageType
  | .orderAck _ => .orderAck
  | .trade _ => .trade

def bytes : Outgoing → Bytes
  | .orderAck a => a.bytes
  | .trade t => t.bytes

theorem length_bytes (out : Outgoing) : out.bytes.length = payloadSize out.type := by
  cases out <;> simp [bytes, OrderAck.bytes, Trade.bytes, payloadSize, type]

def serialize (now : UInt64) (buffer : Memory) : Outgoing → ℕ × Memory
  | .orderAck a => serializeOrderAck now a buffer
  | .trade t => serializeTrade now t buffer

theorem serialize_eq (now : UInt64) (buffer : Memory) (out : Outgoing) :
    out.serialize now buffer = serializeMessage now out.type.toByte (addressOf out.bytes) buffer
      (headerSize + payloadSize out.type) := by
  cases out <;> rfl

theorem serializedSize_type (out : Outgoing) :
    serializedSize out.type.toByte = some (payloadSize out.type) := by
  cases out <;> rfl

end Outgoing

/-- One message: what is sent, the time, and what stood in the local buffer
    before. -/
structure ServerMessage where
  out : Outgoing
  now : UInt64
  stack : Memory

theorem memcpy_addressOf (bs : Bytes) :
    (Reads.memcpy 0 bs.length).value (addressOf bs) = bs :=
  Memory.has_zero fun _ hi => Memory.overlay_of_lt _ hi

namespace ServerMessage

/-- The bytes given to `send` (`gateway_server.cpp`, lines 207 and 216). -/
def bytes (m : ServerMessage) : Bytes :=
  let (size, buffer) := m.out.serialize m.now m.stack
  (List.range' 0 size).map buffer

def header (m : ServerMessage) : MessageHeader where
  type := m.out.type.toByte
  length := .ofNat (headerSize + payloadSize m.out.type)
  timestamp := m.now
  checksum := checksumOf 0 0 m.out.bytes

/-- **Sent bytes.** A message consists of its header, with the checksum of the
    payload, and the payload. -/
theorem bytes_eq (m : ServerMessage) : m.bytes = m.header.bytes ++ m.out.bytes := by
  have hobject : (Reads.memcpy 0 (payloadSize m.out.type)).value (addressOf m.out.bytes) =
      m.out.bytes := by
    rw [← m.out.length_bytes]
    exact memcpy_addressOf m.out.bytes
  have hheader : headerOf m.now m.out.type.toByte m.out.bytes = m.header := by
    rw [headerOf, m.out.length_bytes]
    rfl
  obtain ⟨hsize, hhas, -⟩ := serializeMessage_eq m.now m.out.serializedSize_type
    (addressOf m.out.bytes) m.stack le_rfl
  rw [hobject, hheader, Memory.Has, List.length_append, MessageHeader.length_bytes,
    Outgoing.length_bytes] at hhas
  unfold bytes
  rw [Outgoing.serialize_eq]
  dsimp only
  rw [hsize]
  exact hhas

theorem length_bytes (m : ServerMessage) :
    m.bytes.length = headerSize + m.out.bytes.length := by
  rw [bytes_eq, List.length_append, MessageHeader.length_bytes]

theorem toNat_header_length (m : ServerMessage) : m.header.length.toNat = m.bytes.length := by
  rw [length_bytes, Outgoing.length_bytes]
  exact toNat_messageLength m.out.type

end ServerMessage

end TradingGateway.Network

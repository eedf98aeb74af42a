import TradingGateway.Network.Parser

/-!
# Well-formed client messages

A request with the header that belongs to it: the true length, and the checksum
of the payload. The parsers recover from its bytes what was put in.
-/

namespace TradingGateway.Network

open Common Message

/-! ## Records and their bytes -/

theorem drop_toLE {k m : ℕ} (x : ℕ) (h : k ≤ m) : (toLE k x).drop m = [] :=
  List.drop_eq_nil_of_le (by simpa using h)

theorem take_toLE (k x : ℕ) : (toLE k x).take k = toLE k x :=
  List.take_of_length_le (by simp)

theorem ofNat_ofLE_toLE_uint64 (x : UInt64) : UInt64.ofNat (ofLE (toLE 8 x.toNat)) = x := by
  rw [ofLE_toLE_of_lt x.toNat_lt, UInt64.ofNat_toNat]

theorem ofNat_ofLE_toLE_uint32 (x : UInt32) : UInt32.ofNat (ofLE (toLE 4 x.toNat)) = x := by
  rw [ofLE_toLE_of_lt x.toNat_lt, UInt32.ofNat_toNat]

theorem headerOfBytes_bytes (h : MessageHeader) : headerOfBytes h.bytes = h := by
  simp [headerOfBytes, MessageHeader.bytes, field, List.drop_append, drop_toLE, take_toLE,
    ofNat_ofLE_toLE_uint64, ofNat_ofLE_toLE_uint32]

theorem newOrderOfBytes_bytes (o : NewOrder) : newOrderOfBytes o.bytes = o := by
  have hsymbol : (Vector.ofFn fun i : Fin 8 => o.bytes.getD (20 + i) 0) = o.symbol := by
    ext i hi
    have hget : o.bytes[20 + i]? = o.symbol.toList[i]? := by
      rw [NewOrder.bytes, List.getElem?_append_left (by simp; omega), List.getElem?_append_right]
      · simp
      · simp
    simp [hget, hi]
  simp only [newOrderOfBytes, hsymbol]
  simp [NewOrder.bytes, field, List.drop_append, drop_toLE, ofNat_ofLE_toLE_uint64,
    ofNat_ofLE_toLE_uint32]

theorem cancelOrderOfBytes_bytes (o : CancelOrder) : cancelOrderOfBytes o.bytes = o := by
  simp [cancelOrderOfBytes, CancelOrder.bytes, field, take_toLE, ofNat_ofLE_toLE_uint64]

theorem modifyOrderOfBytes_bytes (o : ModifyOrder) : modifyOrderOfBytes o.bytes = o := by
  simp [modifyOrderOfBytes, ModifyOrder.bytes, field, List.drop_append, drop_toLE, take_toLE,
    ofNat_ofLE_toLE_uint64, ofNat_ofLE_toLE_uint32]

/-! ## Messages -/

/-- A request and the time at which it was sent. -/
structure ClientMessage where
  timestamp : UInt64
  request : Request
  deriving DecidableEq

namespace ClientMessage

/-- The length of the message. -/
def size (m : ClientMessage) : ℕ := headerSize + payloadSize m.request.type

def header (m : ClientMessage) : MessageHeader where
  type := m.request.type.toByte
  length := .ofNat m.size
  timestamp := m.timestamp
  checksum := checksumOf 0 0 m.request.bytes

def bytes (m : ClientMessage) : Bytes := m.header.bytes ++ m.request.bytes

@[simp] theorem length_bytes (m : ClientMessage) : m.bytes.length = m.size := by
  rw [bytes, List.length_append, MessageHeader.length_bytes, Request.length_bytes, size]

/-- The length that `validate_message` computes for a message is that of its
    payload. -/
theorem header_length_sub (m : ClientMessage) :
    (m.header.length - UInt64.ofNat headerSize).toNat = payloadSize m.request.type := by
  simp only [header, size]
  generalize m.request.type = type
  cases type <;> decide

end ClientMessage

end TradingGateway.Network

import TradingGateway.Common.Python
import TradingGateway.Network.Parser

/-!
# The Python client

Model of `TradingClient` (`cpp-core/matching_engine/simple_client.py`,
lines 8–181): the messages that it builds, and the loop in which it receives
those of the gateway. What it prints and its latency statistics are left out.

* `calculateChecksum_eq`: its checksum is that of the gateway.
-/

namespace TradingGateway.Client

open Common Python

/-! ## Formats -/

abbrev msgNewOrder : ℤ := 1
abbrev msgCancelOrder : ℤ := 2
abbrev msgModifyOrder : ℤ := 3
abbrev msgOrderAck : ℤ := 4
abbrev msgTrade : ℤ := 5

/-- `HEADER_FMT = '<BQQI'` -/
def headerFmt : List Code := [B, Q, Q, I]

/-- `HEADER_SIZE` -/
def headerSize : ℕ := calcsize headerFmt

/-- `NEW_ORDER_FMT = '<QQI8sc'` -/
def newOrderFmt : List Code := [Q, Q, I, .str 8, .char]

/-- `CANCEL_ORDER_FMT = '<Q'` -/
def cancelOrderFmt : List Code := [Q]

/-- `MODIFY_ORDER_FMT = '<QQI'` -/
def modifyOrderFmt : List Code := [Q, Q, I]

/-- `ORDER_ACK_FMT = '<QBQ64s'` -/
def orderAckFmt : List Code := [Q, B, Q, .str 64]

/-- `TRADE_FMT = '<QQQQ8sQ'` -/
def tradeFmt : List Code := [Q, Q, Q, Q, .str 8, Q]

/-! ## Checksum -/

/-- The body of the loop of `calculate_checksum` (lines 46–53). -/
def checksumStep (checksum : ℤ) (byte : UInt8) (i : ℕ) : ℤ :=
  let sByte : ℤ := if byte < 128 then byte.toNat else byte.toNat - 256
  let val := Int.land sByte 0xFFFFFFFF
  let shift := i % 4 * 8
  let term := Int.land (val <<< (shift : ℤ)) 0xFFFFFFFF
  Int.xor checksum term

/-- `calculate_checksum` (lines 36–54). -/
def calculateChecksum (data : Bytes) : ℤ :=
  data.zipIdx.foldl (fun checksum (byte, i) => checksumStep checksum byte i) 0

/-! ## Sending -/

/-- `_send_message` (lines 106–116): the bytes given to `sendall`. `now` is the
    result of `time.time_ns()`. -/
def sendMessage (now : UInt64) (msgType : ℤ) (payload : Bytes) : Option Bytes := do
  let length := headerSize + payload.length
  let checksum := calculateChecksum payload
  let header ← pack headerFmt [.int msgType, .int length, .int now.toNat, .int checksum]
  return header ++ payload

/-- `send_new_order` (lines 89–96). -/
def sendNewOrder (now : UInt64) (orderId price quantity : ℤ) (symbol side : String) :
    Option Bytes := do
  let symbolBytes ← encodeAscii symbol
  let sideByte ← encodeAscii side
  let payload ← pack newOrderFmt [.int orderId, .int price, .int quantity,
    .bytes (ljust 8 (symbolBytes.take 8)), .bytes sideByte]
  sendMessage now msgNewOrder payload

/-- `send_cancel_order` (lines 98–100). -/
def sendCancelOrder (now : UInt64) (orderId : ℤ) : Option Bytes := do
  let payload ← pack cancelOrderFmt [.int orderId]
  sendMessage now msgCancelOrder payload

/-- `send_modify_order` (lines 102–104). -/
def sendModifyOrder (now : UInt64) (orderId newPrice newQuantity : ℤ) : Option Bytes := do
  let payload ← pack modifyOrderFmt [.int orderId, .int newPrice, .int newQuantity]
  sendMessage now msgModifyOrder payload

/-! ## Receiving -/

/-- The exceptions that `_handle_message` does not catch, nor `_receive_loop`,
    which expects an `OSError`. -/
inductive Raised
  | structError
  | unicodeDecodeError
  deriving DecidableEq

/-- What `_handle_message` has found in a message. -/
inductive Handled
  | orderAck (orderId accepted ts : ℤ) (reason : String) (checksumOk : Bool)
  | trade (buyId sellId price qty : ℤ) (symbol : String) (ts : ℤ) (checksumOk : Bool)
  | unknown (msgType : ℤ)

/-- `_handle_message` (lines 152–181). -/
def handleMessage (msgType : ℤ) (payload : Bytes) (checksum : ℤ) : Except Raised Handled :=
  let checksumOk : Bool := calculateChecksum payload = checksum
  if msgType = msgOrderAck then
    match unpack orderAckFmt payload with
    | some [.int orderId, .int accepted, .int ts, .bytes reasonBytes] =>
      match decodeAscii reasonBytes with
      | some reason => .ok (.orderAck orderId accepted ts (rstripNul reason) checksumOk)
      | none => .error .unicodeDecodeError
    | _ => .error .structError
  else if msgType = msgTrade then
    match unpack tradeFmt payload with
    | some [.int buyId, .int sellId, .int price, .int qty, .bytes symBytes, .int ts] =>
      match decodeAscii symBytes with
      | some symbol => .ok (.trade buyId sellId price qty (rstripNul symbol) ts checksumOk)
      | none => .error .unicodeDecodeError
    | _ => .error .structError
  else .ok (.unknown msgType)

/-- The receiving thread: its buffer, the calls of `_handle_message` so far, and
    the exception that has ended it. -/
structure Receiver where
  buffer : Bytes
  calls : List (ℤ × Bytes × ℤ)
  raised : Option Raised
  deriving DecidableEq

/-- The inner loop (lines 134–146) with at most `fuel` tests of its condition;
    `none` if these are not enough. -/
def drain : (fuel : ℕ) → Receiver → Option Receiver
  | 0, _ => none
  | fuel + 1, r =>
    if r.buffer.length < headerSize then some r
    else
      match unpack headerFmt (r.buffer.take headerSize) with
      | some [.int msgType, .int length, .int _, .int checksum] =>
        if (r.buffer.length : ℤ) < length then some r
        else
          let payload := (r.buffer.take length.toNat).drop headerSize
          let calls := r.calls ++ [(msgType, payload, checksum)]
          match handleMessage msgType payload checksum with
          | .ok _ => drain fuel { r with buffer := r.buffer.drop length.toNat, calls := calls }
          | .error e => some { r with calls := calls, raised := some e }
      | _ => some { r with raised := some .structError }

/-- `_receive_loop` (lines 124–150) when the calls of `recv` return the given
    chunks; an empty one means that the server has closed the connection. -/
def receiveLoop (fuel : ℕ) : Receiver → List Bytes → Option Receiver
  | r, [] => some r
  | r, data :: chunks =>
    if data = [] then some r
    else do
      let r ← drain fuel { r with buffer := r.buffer ++ data }
      if r.raised.isSome then some r else receiveLoop fuel r chunks

/-- The thread when it starts. -/
def Receiver.new : Receiver := ⟨[], [], none⟩

/-! ## The two checksums -/

/-- Sign extension is what the mask makes of the signed byte. -/
theorem toNat_charToUInt32 (byte : UInt8) :
    Int.land (if byte < 128 then byte.toNat else byte.toNat - 256) 0xFFFFFFFF =
      (Network.charToUInt32 byte).toNat := by
  have hsigned : (if byte < 128 then (byte.toNat : ℤ) else byte.toNat - 256) =
      byte.toInt8.toInt32.toInt := by
    rw [Int8.toInt_toInt32]
    show _ = byte.toBitVec.toInt
    rw [BitVec.toInt_eq_toNat_cond]
    simp only [UInt8.lt_iff_toNat_lt]
    show (if byte.toNat < 128 then _ else _) =
      if 2 * byte.toNat < 2 ^ 8 then (byte.toNat : ℤ) else byte.toNat - (2 ^ 8 : ℕ)
    split_ifs <;> omega
  rw [hsigned]
  refine (land_mask _ 32).trans ?_
  show byte.toInt8.toInt32.toBitVec.toInt % _ = (byte.toInt8.toInt32.toBitVec.toNat : ℤ)
  rw [BitVec.toInt_eq_toNat_bmod, Int.bmod_emod]
  have hlt := byte.toInt8.toInt32.toBitVec.isLt
  omega

theorem checksumStep_eq (checksum : UInt32) (byte : UInt8) (i : ℕ) :
    checksumStep checksum.toNat byte i = (Network.checksumStep checksum i byte).toNat := by
  have hshift : (UInt32.ofNat (i % 4 * 8)).toNat % 32 = i % 4 * 8 := by
    rw [UInt32.toNat_ofNat']
    omega
  have hterm : Int.land (((Network.charToUInt32 byte).toNat : ℤ) <<< ((i % 4 * 8 : ℕ) : ℤ))
      0xFFFFFFFF = ((Network.charToUInt32 byte <<< UInt32.ofNat (i % 4 * 8)).toNat : ℤ) := by
    refine (land_mask _ 32).trans ?_
    rw [Int.shiftLeft_eq_mul_pow, UInt32.toNat_shiftLeft, hshift, Nat.shiftLeft_eq]
    norm_cast
  rw [checksumStep, Network.checksumStep, toNat_charToUInt32, hterm, UInt32.toNat_xor]
  rfl

/-- **Checksums.** Both programs compute the same checksum of a byte string. -/
theorem calculateChecksum_eq (data : Bytes) :
    calculateChecksum data = (Network.checksumOf 0 0 data).toNat := by
  have hloop : ∀ (i : ℕ) (checksum : UInt32),
      (data.zipIdx i).foldl (fun checksum (byte, i) => checksumStep checksum byte i)
        (checksum.toNat : ℤ) = (Network.checksumOf i checksum data).toNat := by
    induction data with
    | nil =>
      intro i checksum
      rfl
    | cons byte data ih =>
      intro i checksum
      rw [List.zipIdx_cons, List.foldl_cons, Network.checksumOf, ← ih, ← checksumStep_eq]
  exact hloop 0 0

end TradingGateway.Client

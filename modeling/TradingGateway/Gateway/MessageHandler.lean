import TradingGateway.Network.Parser

/-!
# The message handler

The handler that the gateway installs in its TCP server
(`cpp-core/order_gateway/gateway_server.cpp`, lines 31–66). It is called with a
pointer to the bytes of one `recv` and their number `length`; of that number it
uses only that a header fits.

* `readsInside_iff`: when everything it reads has been received.
* `declared_length_overruns`: a chunk of 21 bytes on which it reads a 22nd.
* `actsOnChecked_iff`: when the checksum covers what it acts on.
* `unchecked_payload_dispatched`: a cancel request whose order id is not covered.
-/

namespace TradingGateway.Gateway

open Common Message Network

/-- The `switch` on the message type (lines 46–65): the request handed to its
    handler, if any. -/
def dispatch (type : UInt8) (payload : ℕ) : Reads (Option Request) :=
  if type = MessageType.newOrder.toByte then
    (some ∘ .newOrder) <$> parseNewOrder payload
  else if type = MessageType.cancelOrder.toByte then
    (some ∘ .cancelOrder) <$> parseCancelOrder payload
  else if type = MessageType.modifyOrder.toByte then
    (some ∘ .modifyOrder) <$> parseModifyOrder payload
  else pure none

/-- The message handler (lines 31–66) on `length` bytes from index 0 on. -/
def messageHandler (length : ℕ) : Reads (Option Request) :=
  if length < headerSize then pure none
  else do
    let header ← parseHeader 0 length
    let valid ← validateMessage header headerSize
    if valid then dispatch header.type headerSize else pure none

/-- The byte selects a case of the `switch` in the message handler. -/
def isRequestByte (b : UInt8) : Bool :=
  b = MessageType.newOrder.toByte ∨ b = MessageType.cancelOrder.toByte ∨
    b = MessageType.modifyOrder.toByte

/-! ## What the handler reads -/

/-- The header at the start of the data. -/
def headerAt (mem : Memory) : MessageHeader := headerOfBytes ((List.range' 0 headerSize).map mem)

/-- The message at the start of the data has the checksum that its header
    says. -/
def ValidAt (mem : Memory) : Prop := (validateMessage (headerAt mem) headerSize).value mem = true

/-- The number of payload bytes that `dispatch` reads. -/
def dispatchSize (type : UInt8) : ℕ :=
  if type = MessageType.newOrder.toByte then payloadSize .newOrder
  else if type = MessageType.cancelOrder.toByte then payloadSize .cancelOrder
  else if type = MessageType.modifyOrder.toByte then payloadSize .modifyOrder
  else 0

theorem indices_dispatch (type : UInt8) (payload : ℕ) (mem : Memory) :
    (dispatch type payload).indices mem = List.range' payload (dispatchSize type) := by
  unfold dispatch dispatchSize
  split_ifs <;> simp [parseNewOrder, parseCancelOrder, parseModifyOrder]

theorem dispatch_of_not_isRequestByte {type : UInt8} (h : isRequestByte type = false) (p : ℕ) :
    dispatch type p = pure none := by
  simp only [isRequestByte, decide_eq_false_iff_not, not_or] at h
  rw [dispatch, if_neg h.1, if_neg h.2.1, if_neg h.2.2]

theorem dispatch_of_isRequestByte {type : UInt8} (h : isRequestByte type = true) (p : ℕ)
    (mem : Memory) : ∃ request, (dispatch type p).value mem = some request := by
  simp only [isRequestByte, decide_eq_true_eq] at h
  unfold dispatch
  rcases h with rfl | rfl | rfl
  · exact ⟨_, rfl⟩
  · exact ⟨_, rfl⟩
  · exact ⟨_, rfl⟩

/-- What is dispatched has the type that the header says. -/
theorem type_of_dispatch {type : UInt8} {p : ℕ} {mem : Memory} {request : Request}
    (h : (dispatch type p).value mem = some request) : type = request.type.toByte := by
  unfold dispatch at h
  split_ifs at h with h1 h2 h3
  · obtain rfl := Option.some.inj h
    exact h1
  · obtain rfl := Option.some.inj h
    exact h2
  · obtain rfl := Option.some.inj h
    exact h3
  · cases h

theorem dispatchSize_toByte (request : Request) :
    dispatchSize request.type.toByte = payloadSize request.type := by
  cases request <;> rfl

theorem parseHeader_of_le {length : ℕ} (h : headerSize ≤ length) :
    parseHeader 0 length = headerOfBytes <$> Reads.memcpy 0 headerSize :=
  if_pos h

theorem value_messageHandler {length : ℕ} (h : headerSize ≤ length) (mem : Memory) :
    (messageHandler length).value mem =
      if (validateMessage (headerAt mem) headerSize).value mem then
        (dispatch (headerAt mem).type headerSize).value mem
      else none := by
  rw [messageHandler, if_neg (by omega), parseHeader_of_le h]
  simp only [Reads.value_bind, Reads.value_map, Reads.value_memcpy]
  rw [← headerAt]
  split_ifs <;> rfl

/-- The handler reads the header, the payload of the declared length, and, if
    the checksum fits, the record of the message's type. -/
theorem indices_messageHandler {length : ℕ} (h : headerSize ≤ length) (mem : Memory) :
    (messageHandler length).indices mem =
      List.range' 0 headerSize ++
        (List.range' headerSize ((headerAt mem).length - UInt64.ofNat headerSize).toNat ++
          if (validateMessage (headerAt mem) headerSize).value mem then
            List.range' headerSize (dispatchSize (headerAt mem).type)
          else []) := by
  rw [messageHandler, if_neg (by omega), parseHeader_of_le h]
  simp only [Reads.indices_bind, Reads.indices_map, Reads.indices_memcpy, Reads.value_map,
    Reads.value_memcpy, indices_validateMessage]
  rw [← headerAt]
  split_ifs
  · rw [indices_dispatch]
  · rfl

/-! ## Reads inside the received data -/

/-- On a chunk of `n` bytes, the first `n` of `mem`, the handler reads nothing
    else, and the length that it passes to `calculate_checksum` is the difference
    that was meant. -/
def ReadsInside (n : ℕ) (mem : Memory) : Prop :=
  (∀ i ∈ (messageHandler n).indices mem, i < n) ∧
    (headerSize ≤ n → headerSize ≤ (headerAt mem).length.toNat)

theorem forall_mem_range'_lt {p len n : ℕ} (hp : p ≤ n) :
    (∀ i ∈ List.range' p len, i < n) ↔ p + len ≤ n := by
  simp only [List.mem_range'_1]
  constructor
  · intro h
    by_contra hlt
    have := h n ⟨hp, by omega⟩
    omega
  · intro h i hi
    omega

/-- **Reads of the message handler.** The handler stays inside the chunk, and
    the length it checks does not wrap, if and only if the chunk is shorter than
    a header, or the declared length is at least that of a header and at most
    that of the chunk and, should the checksum fit, the chunk has room for the
    record of its type. -/
theorem readsInside_iff (n : ℕ) (mem : Memory) :
    ReadsInside n mem ↔
      n < headerSize ∨
        headerSize ≤ (headerAt mem).length.toNat ∧ (headerAt mem).length.toNat ≤ n ∧
          (ValidAt mem → headerSize + dispatchSize (headerAt mem).type ≤ n) := by
  rcases Nat.lt_or_ge n headerSize with hshort | hn
  · refine ⟨fun _ => .inl hshort, fun _ => ⟨?_, fun h => by omega⟩⟩
    rw [messageHandler, if_pos hshort]
    simp
  · have hnot : ¬ n < headerSize := by omega
    rw [ReadsInside, indices_messageHandler hn]
    simp only [hnot, false_or, hn, true_implies, List.forall_mem_append]
    rw [forall_mem_range'_lt (Nat.zero_le n), forall_mem_range'_lt hn]
    by_cases hlen : headerSize ≤ (headerAt mem).length.toNat
    · -- without wrapping the checksum covers the rest of the declared length
      have hsub : ((headerAt mem).length - UInt64.ofNat headerSize).toNat =
          (headerAt mem).length.toNat - headerSize :=
        UInt64.toNat_sub_of_le _ _ (UInt64.le_iff_toNat_le.mpr hlen)
      have hdispatch : (∀ i ∈ (if (validateMessage (headerAt mem) headerSize).value mem then
            List.range' headerSize (dispatchSize (headerAt mem).type) else []), i < n) ↔
          (ValidAt mem → headerSize + dispatchSize (headerAt mem).type ≤ n) := by
        rw [ValidAt]
        split_ifs with hvalid
        · rw [forall_mem_range'_lt hn]
          simp [hvalid]
        · simp [hvalid]
      rw [hdispatch, hsub, Nat.add_sub_cancel' hlen]
      simp only [Nat.zero_add, hn, hlen, true_and, and_true]
    · simp [hlen]

/-- A header alone, which declares one more byte than there is. -/
def overrun : Memory := fun i => if i = 1 then 22 else 0

theorem declared_length_overruns :
    ¬ ReadsInside 21 overrun ∧ 21 ∈ (messageHandler 21).indices overrun := by
  have hmem : 21 ∈ (messageHandler 21).indices overrun := by decide +kernel
  exact ⟨fun h => absurd (h.1 21 hmem) (lt_irrefl 21), hmem⟩

/-! ## What the checksum covers -/

/-- If the handler hands a request on, the declared length of the payload is
    that of the record of its type, and the record was decoded from bytes that
    the checksum covered. -/
def ActsOnChecked (n : ℕ) (mem : Memory) : Prop :=
  ∀ request, (messageHandler n).value mem = some request →
    ((headerAt mem).length - UInt64.ofNat headerSize).toNat = payloadSize request.type ∧
      ∀ i ∈ (dispatch (headerAt mem).type headerSize).indices mem,
        i ∈ (validateMessage (headerAt mem) headerSize).indices mem

/-- No length but the right one leaves the size of a record after the
    subtraction. -/
theorem sub_headerSize_eq_iff {length : UInt64} {size : ℕ} (hsize : size ≤ 81) :
    (length - UInt64.ofNat headerSize).toNat = size ↔ length.toNat = headerSize + size := by
  have hlt := length.toNat_lt
  rcases Nat.lt_or_ge length.toNat headerSize with hwrap | hle
  · rw [UInt64.toNat_sub]
    simp only [UInt64.toNat_ofNat', headerSize] at hwrap ⊢
    omega
  · have hle' : UInt64.ofNat headerSize ≤ length := UInt64.le_iff_toNat_le.mpr hle
    rw [UInt64.toNat_sub_of_le _ _ hle']
    simp only [UInt64.toNat_ofNat', headerSize] at hle ⊢
    omega

/-- **What the handler acts on.** Only checksummed bytes are acted upon if and
    only if the chunk is shorter than a header, or its checksum does not fit, or
    its type is none of the three, or the declared length is that of a header
    and the record of the type. -/
theorem actsOnChecked_iff (n : ℕ) (mem : Memory) :
    ActsOnChecked n mem ↔
      n < headerSize ∨ ¬ ValidAt mem ∨ isRequestByte (headerAt mem).type = false ∨
        (headerAt mem).length.toNat = headerSize + dispatchSize (headerAt mem).type := by
  rcases Nat.lt_or_ge n headerSize with hshort | hn
  · refine ⟨fun _ => .inl hshort, fun _ request h => ?_⟩
    rw [messageHandler, if_pos hshort] at h
    cases h
  have hnot : ¬ n < headerSize := by omega
  rw [ActsOnChecked, value_messageHandler hn, ValidAt]
  simp only [hnot, false_or]
  by_cases hvalid : (validateMessage (headerAt mem) headerSize).value mem = true
  · simp only [hvalid, if_true, not_true_eq_false, false_or]
    cases hbyte : isRequestByte (headerAt mem).type with
    | false => simp [dispatch_of_not_isRequestByte hbyte]
    | true =>
      obtain ⟨request, hrequest⟩ := dispatch_of_isRequestByte hbyte headerSize mem
      have hsize : dispatchSize (headerAt mem).type = payloadSize request.type := by
        rw [type_of_dispatch hrequest, dispatchSize_toByte]
      rw [hrequest, indices_dispatch, indices_validateMessage, hsize]
      have hiff : ((headerAt mem).length - UInt64.ofNat headerSize).toNat =
            payloadSize request.type ↔ _ :=
        sub_headerSize_eq_iff (payloadSize_le request.type)
      constructor
      · intro h
        exact .inr (hiff.mp (h request rfl).1)
      · rintro (h | h) _ heq
        · cases h
        · obtain rfl := Option.some.inj heq
          rw [hiff.mpr h]
          exact ⟨rfl, fun i hi => hi⟩
  · simp [hvalid]

/-- A request to cancel the order 42 that declares an empty payload. -/
def uncheckedCancel : Memory :=
  fun i => if i = 0 then 2 else if i = 1 then 21 else if i = 21 then 42 else 0

theorem unchecked_payload_dispatched :
    (messageHandler 29).value uncheckedCancel = some (.cancelOrder ⟨42⟩) ∧
      (validateMessage (headerAt uncheckedCancel) headerSize).indices uncheckedCancel = [] ∧
      ¬ ActsOnChecked 29 uncheckedCancel := by
  have hvalue : (messageHandler 29).value uncheckedCancel = some (.cancelOrder ⟨42⟩) := by
    decide +kernel
  refine ⟨hvalue, by decide +kernel, fun h => ?_⟩
  exact absurd (h _ hvalue).1 (by decide +kernel)

end TradingGateway.Gateway

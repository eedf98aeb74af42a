import TradingGateway.Client.Model
import TradingGateway.Network.Serializer

/-!
# From the gateway to the client

The client puts together again what TCP has cut: however the stream of the
gateway's messages arrives, `_receive_loop` finds the messages one by one. It is
`_handle_message` that it does not survive if a text in a message is not ASCII:
`decode` then raises an exception that is not an `OSError`.

* `unpack_orderAck`, `unpack_trade`: the formats fit the records.
* `drain_cons`: one pass through the inner loop.
* `decodes_iff`: when all messages are decoded.
* `foreign_symbol_ends_thread`: a trade whose symbol ends the thread.
-/

namespace TradingGateway.Client

open Common Python Message Network

/-! ## Unpacking -/

/-- The fields of a format, each in its own bytes. -/
theorem unpack_of_fields {fmt : List Code} {bs : Bytes} {vs : List Value}
    (hlength : bs.length = calcsize fmt) (hfields : fields fmt bs = vs) :
    unpack fmt bs = some vs := by
  rw [unpack, if_pos hlength, hfields]

theorem unpack_uint64 (x : UInt64) : Q.unpack (toLE 8 x.toNat) = .int x.toNat := by
  rw [Code.unpack, ofLE_toLE_of_lt x.toNat_lt]

theorem unpack_uint32 (x : UInt32) : I.unpack (toLE 4 x.toNat) = .int x.toNat := by
  rw [Code.unpack, ofLE_toLE_of_lt x.toNat_lt]

theorem unpack_header (h : MessageHeader) :
    unpack headerFmt h.bytes = some [.int h.type.toNat, .int h.length.toNat,
      .int h.timestamp.toNat, .int h.checksum.toNat] := by
  have hbytes : h.bytes = [h.type] ++ (toLE 8 h.length.toNat ++ (toLE 8 h.timestamp.toNat ++
      (toLE 4 h.checksum.toNat ++ []))) := by
    simp [MessageHeader.bytes]
  refine unpack_of_fields (by simp [hbytes, calcsize, headerFmt, Code.size]) ?_
  rw [hbytes, headerFmt, fields_append _ _ rfl, fields_append _ _ (length_toLE 8 _),
    fields_append _ _ (length_toLE 8 _), fields_append _ _ (length_toLE 4 _), unpack_uint64,
    unpack_uint64, unpack_uint32]
  simp [fields, Code.unpack, ofLE]

theorem unpack_orderAck (a : OrderAck) :
    unpack orderAckFmt a.bytes = some [.int a.orderId.toNat, .int (if a.accepted then 1 else 0),
      .int a.timestamp.toNat, .bytes a.reason.toList] := by
  have hbytes : a.bytes = toLE 8 a.orderId.toNat ++ ([if a.accepted then 1 else 0] ++
      (toLE 8 a.timestamp.toNat ++ (a.reason.toList ++ []))) := by
    simp [OrderAck.bytes]
  have hreason : a.reason.toList.length = (Code.str 64).size := Vector.length_toList ..
  refine unpack_of_fields (by simp [hbytes, calcsize, orderAckFmt, Code.size]) ?_
  rw [hbytes, orderAckFmt, fields_append _ _ (length_toLE 8 _), fields_append _ _ rfl,
    fields_append _ _ (length_toLE 8 _), fields_append _ _ hreason, unpack_uint64, unpack_uint64]
  cases a.accepted <;> simp [fields, Code.unpack, ofLE]

theorem unpack_trade (t : Trade) :
    unpack tradeFmt t.bytes = some [.int t.buyOrderId.toNat, .int t.sellOrderId.toNat,
      .int t.price.toNat, .int t.quantity.toNat, .bytes t.symbol.toList,
      .int t.timestamp.toNat] := by
  have hbytes : t.bytes = toLE 8 t.buyOrderId.toNat ++ (toLE 8 t.sellOrderId.toNat ++
      (toLE 8 t.price.toNat ++ (toLE 8 t.quantity.toNat ++ (t.symbol.toList ++
        (toLE 8 t.timestamp.toNat ++ []))))) := by
    simp [Trade.bytes]
  have hsymbol : t.symbol.toList.length = (Code.str 8).size := Vector.length_toList ..
  refine unpack_of_fields (by simp [hbytes, calcsize, tradeFmt, Code.size]) ?_
  rw [hbytes, tradeFmt, fields_append _ _ (length_toLE 8 _), fields_append _ _ (length_toLE 8 _),
    fields_append _ _ (length_toLE 8 _), fields_append _ _ (length_toLE 8 _),
    fields_append _ _ hsymbol, fields_append _ _ (length_toLE 8 _), unpack_uint64, unpack_uint64,
    unpack_uint64, unpack_uint64, unpack_uint64]
  simp [fields, Code.unpack]

/-! ## One message -/

/-- The format of a payload. -/
def format : Outgoing → List Code
  | .orderAck _ => orderAckFmt
  | .trade _ => tradeFmt

/-- The values of its fields. -/
def fieldValues : Outgoing → List Value
  | .orderAck a => [.int a.orderId.toNat, .int (if a.accepted then 1 else 0),
      .int a.timestamp.toNat, .bytes a.reason.toList]
  | .trade t => [.int t.buyOrderId.toNat, .int t.sellOrderId.toNat, .int t.price.toNat,
      .int t.quantity.toNat, .bytes t.symbol.toList, .int t.timestamp.toNat]

/-- The text in it. -/
def text : Outgoing → Bytes
  | .orderAck a => a.reason.toList
  | .trade t => t.symbol.toList

/-- The text is ASCII. -/
def HasAsciiText (out : Outgoing) : Prop := ∀ b ∈ text out, b < 128

instance (out : Outgoing) : Decidable (HasAsciiText out) :=
  inferInstanceAs (Decidable (∀ b ∈ text out, b < 128))

theorem unpack_format (out : Outgoing) :
    unpack (format out) out.bytes = some (fieldValues out) := by
  cases out with
  | orderAck a => exact unpack_orderAck a
  | trade t => exact unpack_trade t

/-- The arguments of the call of `_handle_message` for a message. -/
def callOf (m : ServerMessage) : ℤ × Bytes × ℤ :=
  (m.out.type.toByte.toNat, m.out.bytes, m.header.checksum.toNat)

/-- What `_handle_message` finds in it. -/
def handledOf : Outgoing → Handled
  | .orderAck a => .orderAck a.orderId.toNat (if a.accepted then 1 else 0) a.timestamp.toNat
      (rstripNul (asciiString a.reason.toList)) true
  | .trade t => .trade t.buyOrderId.toNat t.sellOrderId.toNat t.price.toNat t.quantity.toNat
      (rstripNul (asciiString t.symbol.toList)) t.timestamp.toNat true

/-- The call succeeds if the text is ASCII. -/
theorem handleMessage_callOf (m : ServerMessage) :
    handleMessage (callOf m).1 (callOf m).2.1 (callOf m).2.2 =
      if HasAsciiText m.out then .ok (handledOf m.out) else .error .unicodeDecodeError := by
  have hok : decide (calculateChecksum m.out.bytes = m.header.checksum.toNat) = true :=
    decide_eq_true (calculateChecksum_eq m.out.bytes)
  rcases m with ⟨out, now, stack⟩
  cases out with
  | orderAck a =>
    show handleMessage msgOrderAck a.bytes _ = _
    by_cases hascii : HasAsciiText (.orderAck a)
    · have hdecode : decodeAscii a.reason.toList = some (asciiString a.reason.toList) :=
        if_pos hascii
      rw [if_pos hascii, handleMessage, if_pos rfl, unpack_orderAck]
      simp only [hdecode]
      exact congrArg (fun ok => Except.ok (Handled.orderAck _ _ _ _ ok)) hok
    · have hdecode : decodeAscii a.reason.toList = none := if_neg hascii
      rw [if_neg hascii, handleMessage, if_pos rfl, unpack_orderAck]
      simp only [hdecode]
  | trade t =>
    show handleMessage msgTrade t.bytes _ = _
    have hne : msgTrade ≠ msgOrderAck := by decide
    by_cases hascii : HasAsciiText (.trade t)
    · have hdecode : decodeAscii t.symbol.toList = some (asciiString t.symbol.toList) :=
        if_pos hascii
      rw [if_pos hascii, handleMessage, if_neg hne, if_pos rfl, unpack_trade]
      simp only [hdecode]
      exact congrArg (fun ok => Except.ok (Handled.trade _ _ _ _ _ _ ok)) hok
    · have hdecode : decodeAscii t.symbol.toList = none := if_neg hascii
      rw [if_neg hascii, handleMessage, if_neg hne, if_pos rfl, unpack_trade]
      simp only [hdecode]

/-! ## One pass through the inner loop -/

/-- The stream of messages. -/
def stream (msgs : List ServerMessage) : Bytes := msgs.flatMap ServerMessage.bytes

theorem take_header {m : ServerMessage} {buffer tail : Bytes} (h : buffer ++ tail = m.bytes)
    (hlength : headerSize ≤ buffer.length) : buffer.take headerSize = m.header.bytes := by
  have htake : (buffer ++ tail).take headerSize = buffer.take headerSize :=
    List.take_append_of_le_length hlength
  rw [← htake, h, ServerMessage.bytes_eq]
  exact List.take_left' m.header.length_bytes

/-- A part of a message waits for the rest. -/
theorem drain_of_lt {m : ServerMessage} {r : Receiver} {tail : Bytes}
    (h : r.buffer ++ tail = m.bytes) (hlt : r.buffer.length < m.bytes.length) (fuel : ℕ) :
    drain (fuel + 1) r = some r := by
  rw [drain]
  split_ifs with hshort
  · rfl
  · rw [take_header h (by omega), unpack_header]
    simp only [ServerMessage.toNat_header_length]
    rw [if_pos (by exact_mod_cast hlt)]

/-- A whole message is handled, and taken off the buffer if that succeeds. -/
theorem drain_of_append {m : ServerMessage} {r : Receiver} {rest : Bytes}
    (h : r.buffer = m.bytes ++ rest) (fuel : ℕ) :
    drain (fuel + 1) r =
      if HasAsciiText m.out then
        drain fuel { r with buffer := rest, calls := r.calls ++ [callOf m] }
      else some { r with calls := r.calls ++ [callOf m], raised := some .unicodeDecodeError } := by
  have hlength := m.length_bytes
  have hbuffer : r.buffer.length = m.bytes.length + rest.length := by
    rw [h, List.length_append]
  have hheader : r.buffer.take headerSize = m.header.bytes := by
    rw [h, ServerMessage.bytes_eq, List.append_assoc]
    exact List.take_left' m.header.length_bytes
  have hpayload : (r.buffer.take m.bytes.length).drop headerSize = m.out.bytes := by
    rw [h, List.take_left, ServerMessage.bytes_eq]
    exact List.drop_left' m.header.length_bytes
  have hhandle := handleMessage_callOf m
  rw [drain, if_neg (show ¬ r.buffer.length < headerSize by
    rw [hbuffer, hlength]; show ¬ _ < Message.headerSize; omega), hheader, unpack_header]
  simp only [ServerMessage.toNat_header_length, Int.toNat_natCast, hpayload]
  rw [if_neg (by rw [hbuffer]; push_cast; omega)]
  change handleMessage m.header.type.toNat m.out.bytes m.header.checksum.toNat = _ at hhandle
  rw [hhandle]
  split_ifs
  · simp only [h, List.drop_left]
    rfl
  · rfl

/-- The two cases, for a buffer at the start of which a message is due. -/
theorem drain_cons {m : ServerMessage} {ms : List ServerMessage} {r : Receiver}
    (h : r.buffer <+: stream (m :: ms)) :
    (r.buffer.length < m.bytes.length ∧ ∀ fuel, drain (fuel + 1) r = some r) ∨
      ∃ rest, r.buffer = m.bytes ++ rest ∧ rest <+: stream ms ∧ ∀ fuel, drain (fuel + 1) r =
        if HasAsciiText m.out then
          drain fuel { r with buffer := rest, calls := r.calls ++ [callOf m] }
        else
          some { r with calls := r.calls ++ [callOf m], raised := some .unicodeDecodeError } := by
  have hstream : m.bytes <+: stream (m :: ms) := by
    rw [stream, List.flatMap_cons]
    exact List.prefix_append _ _
  rcases Nat.lt_or_ge r.buffer.length m.bytes.length with hlt | hge
  · obtain ⟨tail, htail⟩ := List.prefix_of_prefix_length_le h hstream hlt.le
    exact .inl ⟨hlt, drain_of_lt htail hlt⟩
  · obtain ⟨rest, hrest⟩ := List.prefix_of_prefix_length_le hstream h hge
    refine .inr ⟨rest, hrest.symm, ?_, drain_of_append hrest.symm⟩
    rw [← hrest, stream, List.flatMap_cons] at h
    exact (List.prefix_append_right_inj _).mp h

theorem drain_nil {r : Receiver} (h : r.buffer <+: stream []) (fuel : ℕ) :
    drain (fuel + 1) r = some r := by
  have hnil : r.buffer = [] := List.prefix_nil.mp h
  rw [drain, hnil, if_pos]
  decide

/-! ## The receiving thread -/

/-- The thread has received `received` of the stream of `msgs`: it has handled
    the messages that were complete, without an exception, and has the rest in
    its buffer. -/
def Received (msgs : List ServerMessage) (received : Bytes) (r : Receiver) : Prop :=
  ∃ done rest, msgs = done ++ rest ∧ (∀ m ∈ done, HasAsciiText m.out) ∧
    r.calls = done.map callOf ∧ received = stream done ++ r.buffer ∧
    (∀ m ∈ rest.head?, r.buffer.length < m.bytes.length) ∧ r.raised = none

/-- An exception has ended the thread, with the message still in the buffer. -/
def Ended (msgs : List ServerMessage) (r : Receiver) : Prop :=
  r.raised ≠ none ∧ r.buffer ≠ [] ∧ ∃ m ∈ msgs, ¬ HasAsciiText m.out

theorem stream_append (ms ms' : List ServerMessage) :
    stream (ms ++ ms') = stream ms ++ stream ms' :=
  List.flatMap_append

theorem bytes_ne_nil (m : ServerMessage) : m.bytes ≠ [] := by
  rw [ServerMessage.bytes_eq, MessageHeader.bytes]
  exact List.cons_ne_nil _ _

/-- The inner loop comes to its end. -/
theorem drain_total {ms : List ServerMessage} {r : Receiver} (h : r.buffer <+: stream ms)
    {fuel : ℕ} (hfuel : ms.length < fuel) : ∃ r', drain fuel r = some r' := by
  induction ms generalizing r fuel with
  | nil =>
    obtain ⟨fuel, rfl⟩ : ∃ k, fuel = k + 1 := ⟨fuel - 1, by omega⟩
    exact ⟨r, drain_nil h fuel⟩
  | cons m ms ih =>
    rw [List.length_cons] at hfuel
    obtain ⟨fuel, rfl⟩ : ∃ k, fuel = k + 1 := ⟨fuel - 1, by omega⟩
    rcases drain_cons h with ⟨-, hdrain⟩ | ⟨rest, -, hrest, hdrain⟩
    · exact ⟨r, hdrain fuel⟩
    · rw [hdrain]
      split_ifs
      · exact ih hrest (by omega)
      · exact ⟨_, rfl⟩

/-- What the inner loop leaves behind. -/
theorem drain_received {ms : List ServerMessage} {r : Receiver} (h : r.buffer <+: stream ms)
    {done : List ServerMessage} (hdone : ∀ m ∈ done, HasAsciiText m.out)
    (hcalls : r.calls = done.map callOf) (hraised : r.raised = none) {fuel : ℕ} {r' : Receiver}
    (hdrain : drain fuel r = some r') :
    Received (done ++ ms) (stream done ++ r.buffer) r' ∨ Ended (done ++ ms) r' := by
  induction ms generalizing r done fuel with
  | nil =>
    cases fuel with
    | zero => cases hdrain
    | succ fuel =>
      rw [drain_nil h] at hdrain
      obtain rfl := Option.some.inj hdrain
      exact .inl ⟨done, [], rfl, hdone, hcalls, rfl, by simp, hraised⟩
  | cons m ms ih =>
    cases fuel with
    | zero => cases hdrain
    | succ fuel =>
      rcases drain_cons h with ⟨hlt, heq⟩ | ⟨rest, hbuffer, hrest, heq⟩
      · rw [heq] at hdrain
        obtain rfl := Option.some.inj hdrain
        exact .inl ⟨done, m :: ms, rfl, hdone, hcalls, rfl, by simpa using hlt, hraised⟩
      · rw [heq] at hdrain
        split_ifs at hdrain with hascii
        · -- the message joins those that are done
          have hdone' : ∀ x ∈ done ++ [m], HasAsciiText x.out := by
            simpa [or_imp, forall_and] using ⟨hdone, hascii⟩
          have hcalls' : r.calls ++ [callOf m] = (done ++ [m]).map callOf := by
            rw [hcalls, List.map_append, List.map_singleton]
          have hnext := ih (r := ⟨rest, r.calls ++ [callOf m], r.raised⟩) hrest hdone' hcalls'
            hraised hdrain
          rw [List.append_assoc, stream_append, List.append_assoc] at hnext
          simpa [stream, hbuffer] using hnext
        · obtain rfl := Option.some.inj hdrain
          refine .inr ⟨by simp, ?_, m, by simp, hascii⟩
          simp [hbuffer, bytes_ne_nil]

/-- One `recv` in a thread that is still running. -/
theorem Received.drain {msgs : List ServerMessage} {received data : Bytes} {r : Receiver}
    (h : Received msgs received r) (hdata : received ++ data <+: stream msgs) :
    (∀ {fuel}, msgs.length < fuel → ∃ r', Client.drain fuel
      { r with buffer := r.buffer ++ data } = some r') ∧
    ∀ {fuel r'}, Client.drain fuel { r with buffer := r.buffer ++ data } = some r' →
      Received msgs (received ++ data) r' ∨ Ended msgs r' := by
  obtain ⟨done, rest, rfl, hdone, hcalls, rfl, -, hraised⟩ := h
  rw [stream_append, List.append_assoc] at hdata
  have hbuffer : r.buffer ++ data <+: stream rest := (List.prefix_append_right_inj _).mp hdata
  constructor
  · intro fuel hfuel
    rw [List.length_append] at hfuel
    exact drain_total hbuffer (by omega)
  · intro fuel r' hdrain
    rw [List.append_assoc]
    exact drain_received (r := { r with buffer := r.buffer ++ data }) hbuffer hdone hcalls hraised
      hdrain

theorem receiveLoop_received {msgs : List ServerMessage} {chunks : List Bytes}
    (hne : ∀ data ∈ chunks, data ≠ []) {received : Bytes} {r : Receiver}
    (h : Received msgs received r) (hchunks : received ++ chunks.flatten <+: stream msgs) :
    (∀ {fuel}, msgs.length < fuel → ∃ r', receiveLoop fuel r chunks = some r') ∧
    ∀ {fuel r'}, receiveLoop fuel r chunks = some r' →
      Received msgs (received ++ chunks.flatten) r' ∨ Ended msgs r' := by
  induction chunks generalizing received r with
  | nil =>
    refine ⟨fun _ => ⟨r, rfl⟩, fun {fuel r'} hloop => ?_⟩
    obtain rfl := Option.some.inj hloop
    rw [List.flatten_nil, List.append_nil]
    exact .inl h
  | cons data chunks ih =>
    rw [List.forall_mem_cons] at hne
    rw [List.flatten_cons, ← List.append_assoc] at hchunks ⊢
    obtain ⟨htotal, hcases⟩ := h.drain ((List.prefix_append _ _).trans hchunks)
    have hloop : ∀ fuel, receiveLoop fuel r (data :: chunks) =
        (Client.drain fuel { r with buffer := r.buffer ++ data }).bind fun r₁ =>
          if r₁.raised.isSome then some r₁ else receiveLoop fuel r₁ chunks := by
      intro fuel
      rw [receiveLoop, if_neg hne.1]
      rfl
    have hended : ∀ {r₁}, Ended msgs r₁ → r₁.raised.isSome = true := fun hr₁ =>
      Option.isSome_iff_ne_none.mpr hr₁.1
    have hrunning : ∀ {r₁}, Received msgs (received ++ data) r₁ → r₁.raised.isSome = false := by
      rintro r₁ ⟨_, _, -, -, -, -, -, hraised⟩
      rw [hraised]
      rfl
    constructor
    · intro fuel hfuel
      obtain ⟨r₁, hr₁⟩ := htotal hfuel
      rw [hloop, hr₁, Option.bind_some]
      rcases hcases hr₁ with hreceived | hend
      · rw [hrunning hreceived]
        exact (ih hne.2 hreceived hchunks).1 hfuel
      · rw [hended hend]
        exact ⟨r₁, rfl⟩
    · intro fuel r' hr'
      rw [hloop] at hr'
      obtain ⟨r₁, hr₁, hr'⟩ := Option.bind_eq_some_iff.mp hr'
      rcases hcases hr₁ with hreceived | hend
      · rw [hrunning hreceived] at hr'
        exact (ih hne.2 hreceived hchunks).2 hr'
      · rw [hended hend] at hr'
        obtain rfl := Option.some.inj hr'
        exact .inr hend

/-! ## Decoding -/

/-- After each `recv` `_handle_message` has been called once for each message
    that has arrived completely, in order, with its type, payload and checksum,
    and the buffer holds what is left; in the end nothing is. The checksums are
    those that the client computes, and the formats recover the fields. -/
def Decodes (msgs : List ServerMessage) (chunks : List Bytes) : Prop :=
  (∃ fuel, ∀ pre, pre <+: chunks → ∃ r, receiveLoop fuel .new pre = some r ∧
    ∃ done rest, msgs = done ++ rest ∧ r.calls = done.map callOf ∧
      pre.flatten = stream done ++ r.buffer ∧
      (∀ m ∈ rest.head?, r.buffer.length < m.bytes.length) ∧ (pre = chunks → rest = [])) ∧
  ∀ m ∈ msgs, (callOf m).2.2 = calculateChecksum (callOf m).2.1 ∧
    unpack (format m.out) (callOf m).2.1 = some (fieldValues m.out)

theorem received_new (msgs : List ServerMessage) : Received msgs [] .new := by
  refine ⟨[], msgs, rfl, by simp, rfl, rfl, ?_, rfl⟩
  intro m _
  exact List.length_pos_iff.mpr (bytes_ne_nil m)

theorem stream_eq_nil {ms : List ServerMessage} (h : stream ms = []) : ms = [] := by
  cases ms with
  | nil => rfl
  | cons m ms =>
    rw [stream, List.flatMap_cons, List.append_eq_nil_iff] at h
    exact absurd h.1 (bytes_ne_nil m)

section Cut

variable {msgs : List ServerMessage} {chunks : List Bytes}
  (hflat : chunks.flatten = stream msgs) (hne : ∀ data ∈ chunks, data ≠ [])

include hflat hne

theorem ascii_of_decodes (h : Decodes msgs chunks) : ∀ m ∈ msgs, HasAsciiText m.out := by
  obtain ⟨⟨fuel, hall⟩, -⟩ := h
  obtain ⟨r, hr, done, rest, hmsgs, -, hbuffer, -, hrest⟩ := hall chunks List.prefix_rfl
  obtain rfl := hrest rfl
  rw [List.append_nil] at hmsgs
  have hempty : r.buffer = [] := by
    rw [hflat, hmsgs] at hbuffer
    exact List.append_right_eq_self.mp hbuffer.symm
  have hchunks : [] ++ chunks.flatten <+: stream msgs := by
    rw [List.nil_append, hflat]
  rcases (receiveLoop_received hne (received_new msgs) hchunks).2 hr with
    ⟨done', rest', hmsgs', hascii, -, hbuffer', -, -⟩ | ⟨-, hbuffer', -⟩
  · -- nothing is left, so all messages are done
    rw [hempty, List.append_nil, List.nil_append, hflat, hmsgs', stream_append] at hbuffer'
    obtain rfl := stream_eq_nil (List.append_right_eq_self.mp hbuffer')
    rwa [hmsgs', List.append_nil]
  · exact absurd hempty hbuffer'

theorem decodes_of_ascii (h : ∀ m ∈ msgs, HasAsciiText m.out) : Decodes msgs chunks := by
  refine ⟨⟨msgs.length + 1, fun pre hpre => ?_⟩, fun m _ => ⟨?_, unpack_format m.out⟩⟩
  · have hne' : ∀ data ∈ pre, data ≠ [] := fun data hdata => hne data (hpre.subset hdata)
    have hprefix : [] ++ pre.flatten <+: stream msgs := by
      obtain ⟨post, rfl⟩ := hpre
      rw [List.nil_append, ← hflat, List.flatten_append]
      exact List.prefix_append _ _
    obtain ⟨htotal, hcases⟩ := receiveLoop_received hne' (received_new msgs) hprefix
    obtain ⟨r, hr⟩ := htotal (Nat.lt_succ_self _)
    rcases hcases hr with ⟨done, rest, hmsgs, -, hcalls, hbuffer, hwaits, -⟩ | ⟨-, -, m, hm, hnot⟩
    · refine ⟨r, hr, done, rest, hmsgs, hcalls, hbuffer, hwaits, ?_⟩
      rintro rfl
      -- a message that is left would be complete
      rw [List.nil_append, hflat, hmsgs, stream_append, List.append_cancel_left_eq] at hbuffer
      cases rest with
      | nil => rfl
      | cons m rest =>
        have hlt := hwaits m rfl
        rw [← hbuffer, stream, List.flatMap_cons, List.length_append] at hlt
        omega
    · exact absurd (h m hm) hnot
  · exact (calculateChecksum_eq m.out.bytes).symm

end Cut

/-- **Decoding.** However the stream of a sequence of messages is cut into
    chunks that are not empty, the client decodes it if and only if the reasons
    and symbols in the messages are ASCII. -/
theorem decodes_iff (msgs : List ServerMessage) (chunks : List Bytes)
    (hflat : chunks.flatten = stream msgs) (hne : ∀ data ∈ chunks, data ≠ []) :
    Decodes msgs chunks ↔ ∀ m ∈ msgs, HasAsciiText m.out :=
  ⟨ascii_of_decodes hflat hne, decodes_of_ascii hflat hne⟩

/-- The acknowledgement of the order 101. -/
def ackMessage : ServerMessage :=
  ⟨.orderAck ⟨101, true, 7, Vector.replicate 64 0⟩, 8, fun _ => 0⟩

theorem cutAck_decodes :
    Decodes [ackMessage] [ackMessage.bytes.take 10, ackMessage.bytes.drop 10] :=
  (decodes_iff [ackMessage] [ackMessage.bytes.take 10, ackMessage.bytes.drop 10]
    (by simp [stream]) (by decide +kernel)).mpr (by decide +kernel)

/-- A trade in a symbol that ends with the two bytes of `Ü`. -/
def foreignTrade : ServerMessage :=
  ⟨.trade ⟨2, 1, 100, 5, #v[66, 84, 67, 0xC3, 0x9C, 0, 0, 0], 0⟩, 9, fun _ => 0⟩

theorem foreign_symbol_ends_thread :
    (receiveLoop 3 .new [stream [foreignTrade, ackMessage]]).map
        (fun r => (r.calls.length, r.raised, r.buffer.length)) =
      some (1, some .unicodeDecodeError, 171) ∧
      ¬ Decodes [foreignTrade, ackMessage] [stream [foreignTrade, ackMessage]] := by
  refine ⟨by decide +kernel, fun h => ?_⟩
  have hascii := ascii_of_decodes (by simp) (by decide +kernel) h foreignTrade (by simp)
  exact absurd hascii (by decide +kernel)

end TradingGateway.Client

import TradingGateway.Gateway.MessageHandler
import TradingGateway.Network.ClientMessage

/-!
# TCP segmentation

`TCPServer::handle_client` (`cpp-core/network/tcp_server.cpp`, lines 126–159)
calls the message handler once for each `recv`, with whatever bytes that
returned. The handler takes them for one message and nothing puts a message
together again or takes two apart.

* `messageHandler_of_has`: a chunk that is one message is handled.
* `segmentation_iff`: cutting a stream of messages at given places is harmless,
  whatever the messages contain, exactly when it is cut between the messages.
* `split_message_dropped`: one order in two chunks.
-/

namespace TradingGateway.Gateway

open Common Message Network

/-! ## Model -/

/-- `char buffer[4096]` -/
abbrev bufferSize : ℕ := 4096

/-- The bytes that a `recv` returns, and what stands behind the buffer when the
    handler is called. -/
structure Recv where
  chunk : Bytes
  beyond : Memory

/-- The loop of `handle_client` (lines 133–152): the requests handed to their
    handlers. `recv` overwrites the start of `buffer`; the rest keeps the bytes
    of earlier chunks. -/
def handleClient : (buffer : Memory) → List Recv → List Request
  | _, [] => []
  | buffer, r :: rs =>
    let buffer := Memory.overlay r.chunk buffer
    let data : Memory := fun i => if i < bufferSize then buffer i else r.beyond i
    ((messageHandler r.chunk.length).value data).toList ++ handleClient buffer rs

/-- The memory that the handler sees for the chunk of `r`. -/
def Recv.data (r : Recv) (buffer : Memory) : Memory :=
  fun i => if i < bufferSize then Memory.overlay r.chunk buffer i else r.beyond i

theorem handleClient_cons (buffer : Memory) (r : Recv) (rs : List Recv) :
    handleClient buffer (r :: rs) =
      ((messageHandler r.chunk.length).value (r.data buffer)).toList ++
        handleClient (Memory.overlay r.chunk buffer) rs := rfl

theorem Recv.data_of_lt {r : Recv} (buffer : Memory) {i : ℕ} (hi : i < r.chunk.length)
    (hr : r.chunk.length ≤ bufferSize) : r.data buffer i = r.chunk.getD i 0 := by
  rw [Recv.data, if_pos (by omega), Memory.overlay_of_lt _ hi]

/-! ## Whole messages -/

theorem headerAt_of_has {m : ClientMessage} {mem : Memory} (h : mem.Has 0 m.bytes) :
    headerAt mem = m.header := by
  have hheader : mem.Has 0 m.header.bytes := (Memory.has_append.mp h).1
  rw [Memory.Has, MessageHeader.length_bytes] at hheader
  rw [headerAt, hheader, headerOfBytes_bytes]

theorem dispatch_of_has {r : Request} {mem : Memory} {p : ℕ} (h : mem.Has p r.bytes) :
    (dispatch r.type.toByte p).value mem = some r := by
  rw [Memory.Has, Request.length_bytes] at h
  cases r with
  | newOrder o =>
    show some (Request.newOrder (newOrderOfBytes ((List.range' p 29).map mem))) = _
    rw [show (List.range' p 29).map mem = o.bytes from h, newOrderOfBytes_bytes]
  | cancelOrder o =>
    show some (Request.cancelOrder (cancelOrderOfBytes ((List.range' p 8).map mem))) = _
    rw [show (List.range' p 8).map mem = o.bytes from h, cancelOrderOfBytes_bytes]
  | modifyOrder o =>
    show some (Request.modifyOrder (modifyOrderOfBytes ((List.range' p 20).map mem))) = _
    rw [show (List.range' p 20).map mem = o.bytes from h, modifyOrderOfBytes_bytes]

/-- The handler recognises a message that fills its chunk. -/
theorem messageHandler_of_has {m : ClientMessage} {mem : Memory} (h : mem.Has 0 m.bytes) :
    (messageHandler m.size).value mem = some m.request := by
  have hpayload : mem.Has headerSize m.request.bytes := by
    have := (Memory.has_append.mp h).2
    rwa [MessageHeader.length_bytes, Nat.zero_add] at this
  have hle : headerSize ≤ m.size := Nat.le_add_right _ _
  rw [value_messageHandler hle, headerAt_of_has h, value_validateMessage, m.header_length_sub,
    ← Request.length_bytes, show (List.range' _ _).map mem = _ from hpayload]
  simp only [ClientMessage.header, decide_true, if_true]
  exact dispatch_of_has hpayload

theorem size_le_bufferSize (m : ClientMessage) : m.size ≤ bufferSize := by
  rw [ClientMessage.size]
  generalize m.request.type = type
  cases type <;> decide

/-- Chunks that are the messages lead to one call for each. -/
theorem handleClient_of_messages (msgs : List ClientMessage) (recvs : List Recv)
    (h : recvs.map Recv.chunk = msgs.map ClientMessage.bytes) (buffer : Memory) :
    handleClient buffer recvs = msgs.map ClientMessage.request := by
  induction msgs generalizing recvs buffer with
  | nil =>
    rw [List.map_nil, List.map_eq_nil_iff] at h
    rw [h]
    rfl
  | cons m msgs ih =>
    obtain ⟨r, rs, rfl, hr, hrs⟩ := List.map_eq_cons_iff.mp h
    have hsize : r.chunk.length = m.size := by rw [hr, m.length_bytes]
    have hhas : (r.data buffer).Has 0 m.bytes := by
      rw [← hr]
      exact Memory.has_zero fun i hi =>
        Recv.data_of_lt buffer hi (hsize ▸ size_le_bufferSize m)
    rw [handleClient_cons, hsize, messageHandler_of_has hhas, ih rs hrs]
    rfl

/-! ## Counting calls -/

/-- A chunk leads to a call only if it starts with the byte of a request. -/
theorem length_messageHandler_le (r : Recv) (buffer : Memory) (hr : r.chunk.length ≤ bufferSize) :
    ((messageHandler r.chunk.length).value (r.data buffer)).toList.length ≤
      r.chunk.countP isRequestByte := by
  rcases Nat.lt_or_ge r.chunk.length headerSize with hshort | hlen
  · rw [messageHandler, if_pos hshort]
    simp
  · have h0 : 0 < r.chunk.length := Nat.lt_of_lt_of_le (by decide) hlen
    have htype : (headerAt (r.data buffer)).type = r.chunk.getD 0 0 := by
      rw [← Recv.data_of_lt buffer h0 hr]
      rfl
    cases hbyte : isRequestByte (r.chunk.getD 0 0) with
    | false =>
      rw [value_messageHandler hlen, htype, dispatch_of_not_isRequestByte hbyte]
      simp
    | true =>
      have hpos : 0 < r.chunk.countP isRequestByte := by
        refine List.countP_pos_iff.mpr ⟨_, ?_, hbyte⟩
        rw [List.getD_eq_getElem _ _ h0]
        exact List.getElem_mem h0
      cases (messageHandler r.chunk.length).value (r.data buffer) with
      | none => simp
      | some request => simpa using hpos

theorem length_handleClient_le (recvs : List Recv) (buffer : Memory)
    (h : ∀ r ∈ recvs, r.chunk.length ≤ bufferSize) :
    (handleClient buffer recvs).length ≤ (recvs.map Recv.chunk).flatten.countP isRequestByte := by
  induction recvs generalizing buffer with
  | nil => simp [handleClient]
  | cons r rs ih =>
    have hr := length_messageHandler_le r buffer (h r (by simp))
    have hrs := ih (Memory.overlay r.chunk buffer) fun r hr => h r (by simp [hr])
    rw [handleClient_cons, List.length_append, List.map_cons, List.flatten_cons,
      List.countP_append]
    omega

/-! ## Cutting a stream -/

/-- `recv` calls that return these chunks. -/
def recvsOf (cuts : List ℕ) (bs : Bytes) : List Recv := (cut cuts bs).map (⟨·, fun _ => 0⟩)

theorem map_chunk_recvsOf (cuts : List ℕ) (bs : Bytes) :
    (recvsOf cuts bs).map Recv.chunk = cut cuts bs := by
  simp [recvsOf, Function.comp_def]

theorem length_chunk_le {cuts : List ℕ} {bs : Bytes} (h : cuts.sum = bs.length)
    (hcuts : ∀ l ∈ cuts, l ≤ bufferSize) :
    ∀ r ∈ recvsOf cuts bs, r.chunk.length ≤ bufferSize := by
  intro r hr
  have hmem : r.chunk.length ∈ (cut cuts bs).map List.length := by
    rw [← map_chunk_recvsOf]
    exact List.mem_map_of_mem (List.mem_map_of_mem hr)
  rw [map_length_cut h] at hmem
  exact hcuts _ hmem

/-- If the first chunk leads to fewer calls than it has request bytes, some
    request byte of the stream is not answered by a call. -/
theorem length_handleClient_lt {l : ℕ} {ls : List ℕ} {bs : Bytes} {buffer : Memory}
    (h : (l :: ls).sum = bs.length) (hcuts : ∀ k ∈ l :: ls, k ≤ bufferSize)
    (hfirst : ((messageHandler (bs.take l).length).value
        (Recv.data ⟨bs.take l, fun _ => 0⟩ buffer)).toList.length <
      (bs.take l).countP isRequestByte) :
    (handleClient buffer (recvsOf (l :: ls) bs)).length < bs.countP isRequestByte := by
  rw [List.sum_cons] at h
  have hdrop : ls.sum = (bs.drop l).length := by rw [List.length_drop]; omega
  have hrest := length_handleClient_le (recvsOf ls (bs.drop l))
    (Memory.overlay (bs.take l) buffer)
    (length_chunk_le hdrop fun k hk => hcuts k (List.mem_cons_of_mem l hk))
  rw [map_chunk_recvsOf, flatten_cut hdrop] at hrest
  have hcount : bs.countP isRequestByte =
      (bs.take l).countP isRequestByte + (bs.drop l).countP isRequestByte := by
    rw [← List.countP_append, List.take_append_drop]
  rw [recvsOf, cut, List.map_cons, handleClient_cons, List.length_append, hcount, ← recvsOf]
  dsimp only
  omega

/-! ## Messages that show a wrong cut -/

/-- A request of the given type whose payload is zero but for its last byte. -/
def sample (b : UInt8) : MessageType → Request
  | .newOrder => .newOrder ⟨0, 0, 0, Vector.replicate 8 0, b⟩
  | .cancelOrder => .cancelOrder ⟨b.toUInt64 <<< 56⟩
  | _ => .modifyOrder ⟨0, 0, b.toUInt32 <<< 24⟩

def sampleMessage (b : UInt8) (type : MessageType) : ClientMessage := ⟨0, sample b type⟩

theorem type_sample (b : UInt8) (r : Request) : (sample b r.type).type = r.type := by
  cases r <;> simp [sample, Request.type]

theorem size_sampleMessage (b : UInt8) (m : ClientMessage) :
    (sampleMessage b m.request.type).size = m.size := by
  rw [ClientMessage.size, ClientMessage.size, sampleMessage, type_sample]

/-- Only the first byte of a sample selects a case of the `switch`. -/
theorem countP_sample {b : UInt8} (hb : b = 0 ∨ b = 255) (type : MessageType) :
    (sampleMessage b type).bytes.countP isRequestByte = 1 := by
  rcases hb with rfl | rfl <;> cases type <;> decide +kernel

theorem head_sample {b : UInt8} (hb : b = 0 ∨ b = 255) (type : MessageType) :
    isRequestByte ((sampleMessage b type).bytes.headD 0) = true := by
  rcases hb with rfl | rfl <;> cases type <;> decide +kernel

theorem payload_sample {b : UInt8} (hb : b = 0 ∨ b = 255) (type : MessageType) :
    ∀ i < (sampleMessage b type).size - 1, headerSize ≤ i →
      (sampleMessage b type).bytes.getD i 0 = 0 := by
  rcases hb with rfl | rfl <;> cases type <;> decide +kernel

theorem checksum_sample (type : MessageType) :
    (sampleMessage 255 type).header.checksum ≠
      checksumOf 0 0 (List.replicate (payloadSize (sample 255 type).type) 0) := by
  cases type <;> decide +kernel

/-- Nothing but zeros behind the place of a header. -/
def Quiet (buffer : Memory) : Prop := ∀ i, headerSize ≤ i → buffer i = 0

theorem Quiet.overlay_sample {buffer : Memory} (h : Quiet buffer) (type : MessageType) :
    Quiet (Memory.overlay (sampleMessage 0 type).bytes buffer) := by
  intro i hi
  rcases Nat.lt_or_ge i (sampleMessage 0 type).size with hlt | hge
  · rw [Memory.overlay_of_lt _ (by rwa [ClientMessage.length_bytes])]
    revert i
    cases type <;> decide +kernel
  · rw [Memory.overlay_of_ge _ (by rwa [ClientMessage.length_bytes])]
    exact h i hi

theorem data_take_of_lt {bs : Bytes} (buffer : Memory) {l i : ℕ} (hi : i < l)
    (hl : l ≤ bs.length) (hbs : bs.length ≤ bufferSize) :
    Recv.data ⟨bs.take l, fun _ => 0⟩ buffer i = bs.getD i 0 := by
  have hlen : (bs.take l).length = l := List.length_take_of_le hl
  have hlt : i < (bs.take l).length := by omega
  have hle : (bs.take l).length ≤ bufferSize := by omega
  rw [Recv.data_of_lt buffer hlt hle, List.getD_eq_getElem _ _ hlt,
    List.getD_eq_getElem _ _ (by omega), List.getElem_take]

theorem data_take_of_ge {bs : Bytes} (buffer : Memory) {l i : ℕ} (hi : l ≤ i)
    (hbuf : i < bufferSize) : Recv.data ⟨bs.take l, fun _ => 0⟩ buffer i = buffer i := by
  rw [Recv.data, if_pos hbuf, Memory.overlay_of_ge _ ((List.length_take_le _ _).trans hi)]

/-- A message that is cut short does not pass the check: where its last byte
    should be the buffer has a zero. -/
theorem messageHandler_of_short {buffer : Memory} (h : Quiet buffer) (type : MessageType) {l : ℕ}
    (hl : l < (sampleMessage 255 type).size) :
    (messageHandler l).value
      (Recv.data ⟨(sampleMessage 255 type).bytes.take l, fun _ => 0⟩ buffer) = none := by
  set m := sampleMessage 255 type
  set mem := Recv.data ⟨m.bytes.take l, fun _ => 0⟩ buffer
  rcases Nat.lt_or_ge l headerSize with hshort | hlen
  · rw [messageHandler, if_pos hshort]
    rfl
  · have hbuf : m.bytes.length ≤ bufferSize := m.length_bytes ▸ size_le_bufferSize m
    have hsize := m.length_bytes
    have hin : ∀ i < l, mem i = m.bytes.getD i 0 :=
      fun i hi => data_take_of_lt buffer hi (by omega) hbuf
    have hout : ∀ i, l ≤ i → i < bufferSize → mem i = buffer i :=
      fun i hi hib => data_take_of_ge buffer hi hib
    have hheader : headerAt mem = m.header := by
      have hhas : mem.Has 0 m.header.bytes := by
        apply Memory.has_zero
        intro i hi
        rw [hin i (by rw [MessageHeader.length_bytes] at hi; omega)]
        exact List.getD_append _ _ _ _ hi
      rw [Memory.Has, MessageHeader.length_bytes] at hhas
      rw [headerAt, hhas, headerOfBytes_bytes]
    have hpayload : (List.range' headerSize (payloadSize m.request.type)).map mem =
        List.replicate (payloadSize m.request.type) 0 := by
      refine List.eq_replicate_iff.mpr ⟨by simp, ?_⟩
      intro b hb
      obtain ⟨i, hi, rfl⟩ := List.mem_map.mp hb
      rw [List.mem_range'_1, ← ClientMessage.size] at hi
      rcases Nat.lt_or_ge i l with hil | hil
      · have hlast : i < m.size - 1 := by omega
        rw [hin i hil]
        exact payload_sample (.inr rfl) type i hlast hi.1
      · rw [hout i hil (by omega)]
        exact h i hi.1
    have hwrong : m.header.checksum ≠
        checksumOf 0 0 (List.replicate (payloadSize m.request.type) 0) := checksum_sample type
    rw [value_messageHandler hlen, hheader, value_validateMessage, m.header_length_sub, hpayload,
      decide_eq_false hwrong]
    rfl

/-! ## Where a stream may be cut -/

/-- The stream of bytes that a client sends. -/
def stream (msgs : List ClientMessage) : Bytes := msgs.flatMap ClientMessage.bytes

def types (msgs : List ClientMessage) : List MessageType := msgs.map (·.request.type)

theorem length_stream (msgs : List ClientMessage) :
    (stream msgs).length = (msgs.map ClientMessage.size).sum := by
  simp [stream, List.length_flatMap]

/-- The types of messages determine where they end. -/
theorem sizes_of_types {msgs msgs' : List ClientMessage} (h : types msgs' = types msgs) :
    msgs'.map ClientMessage.size = msgs.map ClientMessage.size := by
  have hsize : ∀ ms : List ClientMessage,
      ms.map ClientMessage.size = (types ms).map (headerSize + payloadSize ·) := by
    intro ms
    rw [types, List.map_map]
    rfl
  rw [hsize, hsize, h]

theorem countP_stream_samples (msgs : List ClientMessage) :
    (stream (msgs.map fun m => sampleMessage 0 m.request.type)).countP isRequestByte =
      msgs.length := by
  induction msgs with
  | nil => rfl
  | cons m msgs ih =>
    rw [stream] at ih ⊢
    rw [List.map_cons, List.flatMap_cons, List.countP_append, ih, countP_sample (.inl rfl),
      List.length_cons, Nat.add_comm]

theorem size_samples (msgs : List ClientMessage) :
    (msgs.map fun m => sampleMessage 0 m.request.type).map ClientMessage.size =
      msgs.map ClientMessage.size := by
  simp only [List.map_map]
  exact List.map_congr_left fun m _ => size_sampleMessage 0 m

theorem types_samples (msgs : List ClientMessage) :
    types (msgs.map fun m => sampleMessage 0 m.request.type) = types msgs := by
  simp only [types, List.map_map]
  exact List.map_congr_left fun m _ => type_sample 0 m.request

theorem countP_take_pos {bs : Bytes} (h : isRequestByte (bs.headD 0) = true) {l : ℕ} (hl : 1 ≤ l) :
    0 < (bs.take l).countP isRequestByte := by
  cases bs with
  | nil => cases h
  | cons b bs =>
    obtain ⟨k, rfl⟩ := Nat.exists_eq_add_of_le' hl
    rw [List.take_succ_cons]
    exact List.countP_pos_iff.mpr ⟨b, by simp, h⟩

/-- The first chunk ends inside a message. -/
theorem mishandled_of_short {m : ClientMessage} {msgs : List ClientMessage} {l : ℕ} {ls : List ℕ}
    (hcuts : ∀ k ∈ l :: ls, 1 ≤ k ∧ k ≤ bufferSize)
    (hsum : (l :: ls).sum = ((m :: msgs).map ClientMessage.size).sum) (hl : l < m.size) :
    ∃ msgs', types msgs' = types (m :: msgs) ∧ ∀ buffer, Quiet buffer →
      handleClient buffer (recvsOf (l :: ls) (stream msgs')) ≠ msgs'.map ClientMessage.request := by
  set loud := sampleMessage 255 m.request.type
  set rest := msgs.map fun m => sampleMessage 0 m.request.type
  have hloud : loud.size = m.size := size_sampleMessage 255 m
  refine ⟨loud :: rest, ?_, fun buffer hquiet heq => ?_⟩
  · show loud.request.type :: types rest = m.request.type :: types msgs
    rw [types_samples]
    exact congrArg (· :: _) (type_sample 255 m.request)
  have hstream : stream (loud :: rest) = loud.bytes ++ stream rest := List.flatMap_cons
  have htake : (stream (loud :: rest)).take l = loud.bytes.take l := by
    rw [hstream, List.take_append_of_le_length (by rw [loud.length_bytes]; omega)]
  have hlen : ((stream (loud :: rest)).take l).length = l := by
    rw [htake, List.length_take, loud.length_bytes]
    omega
  have hlt : (handleClient buffer (recvsOf (l :: ls) (stream (loud :: rest)))).length <
      (stream (loud :: rest)).countP isRequestByte := by
    refine length_handleClient_lt ?_ (fun k hk => (hcuts k hk).2) ?_
    · rw [hsum, length_stream]
      simp only [List.map_cons, hloud]
      rw [size_samples]
    · rw [hlen, htake, messageHandler_of_short hquiet _ (hloud ▸ hl)]
      exact countP_take_pos (head_sample (.inr rfl) _) (hcuts l (by simp)).1
  rw [heq, hstream, List.countP_append, countP_sample (.inr rfl), countP_stream_samples] at hlt
  simp only [List.map_cons, List.length_cons, List.length_map, rest] at hlt
  omega

/-- The first chunk goes on behind the first message. -/
theorem mishandled_of_long {m : ClientMessage} {msgs : List ClientMessage} {l : ℕ} {ls : List ℕ}
    (hcuts : ∀ k ∈ l :: ls, 1 ≤ k ∧ k ≤ bufferSize)
    (hsum : (l :: ls).sum = ((m :: msgs).map ClientMessage.size).sum) (hl : m.size < l) :
    ∃ msgs', types msgs' = types (m :: msgs) ∧ ∀ buffer, Quiet buffer →
      handleClient buffer (recvsOf (l :: ls) (stream msgs')) ≠ msgs'.map ClientMessage.request := by
  set samples := (m :: msgs).map fun m => sampleMessage 0 m.request.type with hsamples
  refine ⟨samples, types_samples _, fun buffer _ heq => ?_⟩
  have hlt : (handleClient buffer (recvsOf (l :: ls) (stream samples))).length <
      (stream samples).countP isRequestByte := by
    refine length_handleClient_lt ?_ (fun k hk => (hcuts k hk).2) ?_
    · rw [hsum, length_stream, size_samples]
    · -- the chunk has the first bytes of two messages, but leads to one call at most
      have htwo : 1 < ((stream samples).take l).countP isRequestByte := by
        cases msgs with
        | nil =>
          simp only [List.map_cons, List.map_nil, List.sum_cons, List.sum_nil] at hsum
          omega
        | cons m' msgs =>
          set first := sampleMessage 0 m.request.type with hfirst
          set rest := stream ((m' :: msgs).map fun m => sampleMessage 0 m.request.type)
          have hsize : first.bytes.length = m.size := by
            rw [first.length_bytes, hfirst, size_sampleMessage]
          have hrest : isRequestByte (rest.headD 0) = true := head_sample (.inl rfl) m'.request.type
          have htake : (stream samples).take l = first.bytes ++ rest.take (l - m.size) := by
            rw [show stream samples = first.bytes ++ rest from List.flatMap_cons, List.take_append,
              hsize, List.take_of_length_le (by omega)]
          have hpos := countP_take_pos hrest (l := l - m.size) (by omega)
          rw [htake, List.countP_append, hfirst, countP_sample (.inl rfl)]
          omega
      refine Nat.lt_of_le_of_lt ?_ htwo
      cases (messageHandler ((stream samples).take l).length).value
        (Recv.data ⟨(stream samples).take l, fun _ => 0⟩ buffer) <;> simp
  rw [heq, countP_stream_samples, hsamples] at hlt
  simp at hlt

/-- Unless a stream is cut between its messages, there are messages of the same
    types for which the calls are wrong. -/
theorem exists_mishandled (msgs : List ClientMessage) (cuts : List ℕ)
    (hcuts : ∀ l ∈ cuts, 1 ≤ l ∧ l ≤ bufferSize)
    (hsum : cuts.sum = (msgs.map ClientMessage.size).sum)
    (hne : cuts ≠ msgs.map ClientMessage.size) :
    ∃ msgs', types msgs' = types msgs ∧ ∀ buffer, Quiet buffer →
      handleClient buffer (recvsOf cuts (stream msgs')) ≠ msgs'.map ClientMessage.request := by
  induction msgs generalizing cuts with
  | nil =>
    cases cuts with
    | nil => exact absurd rfl hne
    | cons l ls =>
      have := (hcuts l (by simp)).1
      simp only [List.sum_cons, List.map_nil, List.sum_nil] at hsum
      omega
  | cons m msgs ih =>
    cases cuts with
    | nil =>
      have : 21 ≤ m.size := Nat.le_add_right _ _
      simp only [List.sum_nil, List.map_cons, List.sum_cons] at hsum
      omega
    | cons l ls =>
      rcases Nat.lt_trichotomy l m.size with hlt | heq | hgt
      · exact mishandled_of_short hcuts hsum hlt
      · -- the first message is handled; the fault is further on
        subst heq
        simp only [List.sum_cons, List.map_cons, List.cons.injEq, true_and, ne_eq] at hsum hne
        obtain ⟨msgs', htypes, hwrong⟩ := ih ls (fun k hk => hcuts k (List.mem_cons_of_mem _ hk))
          (by omega) hne
        set first := sampleMessage 0 m.request.type with hfirst
        have hsize : first.bytes.length = m.size := by
          rw [first.length_bytes, hfirst, size_sampleMessage]
        refine ⟨first :: msgs', ?_, fun buffer hquiet heq => ?_⟩
        · show first.request.type :: types msgs' = m.request.type :: types msgs
          rw [htypes]
          exact congrArg (· :: _) (type_sample 0 m.request)
        · have hstream : stream (first :: msgs') = first.bytes ++ stream msgs' := List.flatMap_cons
          have hhas : (Recv.data ⟨first.bytes, fun _ => 0⟩ buffer).Has 0 first.bytes :=
            Memory.has_zero fun i hi => Recv.data_of_lt buffer hi
              (first.length_bytes ▸ size_le_bufferSize first)
          rw [hstream, recvsOf, cut, List.take_left' hsize, List.drop_left' hsize, List.map_cons,
            handleClient_cons] at heq
          dsimp only at heq
          rw [first.length_bytes, messageHandler_of_has hhas, List.map_cons] at heq
          exact hwrong _ (hquiet.overlay_sample m.request.type) (List.cons.inj heq).2
      · exact mishandled_of_long hcuts hsum hgt

/-- **Segmentation.** Messages are sent one after another and the stream arrives
    in chunks whose lengths are `cuts`. Whatever the messages contain, given
    their types, and whatever stands in the buffer and behind it: there is one
    call for each message, in order, with the fields of that message, if and
    only if every chunk is one whole message. -/
theorem segmentation_iff (msgs : List ClientMessage) (cuts : List ℕ)
    (hcuts : ∀ l ∈ cuts, 1 ≤ l ∧ l ≤ bufferSize)
    (hsum : cuts.sum = (msgs.map ClientMessage.size).sum) :
    (∀ (msgs' : List ClientMessage) (recvs : List Recv) (buffer : Memory),
        types msgs' = types msgs → recvs.map (·.chunk.length) = cuts →
        (recvs.map Recv.chunk).flatten = stream msgs' →
        handleClient buffer recvs = msgs'.map ClientMessage.request) ↔
      cuts = msgs.map ClientMessage.size := by
  constructor
  · intro hall
    by_contra hne
    obtain ⟨msgs', htypes, hwrong⟩ := exists_mishandled msgs cuts hcuts hsum hne
    have hlen : cuts.sum = (stream msgs').length := by
      rw [length_stream, sizes_of_types htypes, hsum]
    refine hwrong (fun _ => 0) (fun _ _ => rfl) (hall msgs' _ _ htypes ?_ ?_)
    · rw [show (fun r : Recv => r.chunk.length) = List.length ∘ Recv.chunk from rfl,
        ← List.map_map, map_chunk_recvsOf, map_length_cut hlen]
    · rw [map_chunk_recvsOf, flatten_cut hlen]
  · rintro rfl msgs' recvs buffer htypes hlens hflat
    refine handleClient_of_messages msgs' recvs ?_ buffer
    refine List.eq_iff_flatten_eq.mpr ⟨hflat, ?_⟩
    calc (recvs.map Recv.chunk).map List.length
        = recvs.map (·.chunk.length) := List.map_map
      _ = msgs'.map ClientMessage.size := by rw [hlens, sizes_of_types htypes]
      _ = (msgs'.map ClientMessage.bytes).map List.length := by
        rw [List.map_map]
        exact List.map_congr_left fun m _ => m.length_bytes.symm

/-- A cancel request and a new order that arrive one at a time. -/
theorem two_messages_handled :
    handleClient (fun _ => 0)
        (recvsOf [29, 50] (stream [sampleMessage 0 .cancelOrder, sampleMessage 0 .newOrder])) =
      [sample 0 .cancelOrder, sample 0 .newOrder] :=
  (segmentation_iff [sampleMessage 0 .cancelOrder, sampleMessage 0 .newOrder] [29, 50]
    (by decide) (by decide)).mpr rfl _ _ _ rfl (by decide +kernel) (by decide +kernel)

/-- A request to cancel the order 42. -/
def cancelRequest : ClientMessage := ⟨0, .cancelOrder ⟨42⟩⟩

/-- Cut into chunks of 20 and 9 bytes it leads to no call. -/
theorem split_message_dropped :
    ((recvsOf [20, 9] (stream [cancelRequest])).map Recv.chunk).flatten = stream [cancelRequest] ∧
      handleClient (fun _ => 0) (recvsOf [20, 9] (stream [cancelRequest])) = [] := by
  decide +kernel

end TradingGateway.Gateway

import TradingGateway.Client.Model
import TradingGateway.Common.Framing

/-!
# The client and any stream

What the receiving thread does with bytes that need not come from the gateway
(`_receive_loop`, `cpp-core/matching_engine/simple_client.py`, lines 124–150).
The header of a message gives its length, which the thread believes: a length of
0 takes nothing off the buffer, and the thread handles the message for ever,
unless its type makes `_handle_message` raise an exception.

* `receiveLoop_eq`: the thread is a reader of messages in a stream.
* `cutting_irrelevant`: only the bytes matter, not how they arrive.
* `hangs_iff`: the streams on which the thread hangs.
-/

namespace TradingGateway.Client

open Common Python

/-! ## The header -/

def msgTypeOf (b : Bytes) : ℕ := ofLE ((b.take headerSize).take 1)

def lengthOf (b : Bytes) : ℕ := ofLE (((b.take headerSize).drop 1).take 8)

def checksumOf (b : Bytes) : ℕ := ofLE (((b.take headerSize).drop 17).take 4)

theorem unpack_headerOf {b : Bytes} (h : headerSize ≤ b.length) :
    ∃ ts : ℤ, unpack headerFmt (b.take headerSize) =
      some [.int (msgTypeOf b), .int (lengthOf b), .int ts, .int (checksumOf b)] := by
  refine ⟨ofLE (((b.take headerSize).drop 9).take 8), ?_⟩
  have hlength : (b.take headerSize).length = calcsize headerFmt := List.length_take_of_le h
  rw [unpack, if_pos hlength]
  simp only [headerFmt, fields, Code.unpack, Code.size, List.drop_drop]
  rfl

/-- The call of `_handle_message` for the message at the start of the buffer. -/
def callAt (b : Bytes) : ℤ × Bytes × ℤ :=
  (msgTypeOf b, (b.take (lengthOf b)).drop headerSize, checksumOf b)

/-- The exception that a call raises. -/
def raisedBy (call : ℤ × Bytes × ℤ) : Option Raised :=
  match handleMessage call.1 call.2.1 call.2.2 with
  | .ok _ => none
  | .error e => some e

/-! ## The thread as a reader -/

def scan (b : Bytes) : Scan (ℤ × Bytes × ℤ) :=
  if b.length < headerSize ∨ b.length < lengthOf b then .wait
  else if raisedBy (callAt b) = none then .take (lengthOf b) (callAt b)
  else .fail (callAt b)

/-- A complete message stays the same when more arrives. -/
theorem scan_append {b : Bytes} (h : scan b ≠ .wait) (e : Bytes) : scan (b ++ e) = scan b := by
  have hcomplete : ¬ (b.length < headerSize ∨ b.length < lengthOf b) := by
    intro hshort
    exact h (if_pos hshort)
  obtain ⟨hheader, hlength⟩ := not_or.mp hcomplete
  have htake : (b ++ e).take headerSize = b.take headerSize :=
    List.take_append_of_le_length (not_lt.mp hheader)
  have hlengthOf : lengthOf (b ++ e) = lengthOf b := by
    rw [lengthOf, htake, lengthOf]
  have hcall : callAt (b ++ e) = callAt b := by
    rw [callAt, hlengthOf, List.take_append_of_le_length (not_lt.mp hlength), msgTypeOf, checksumOf,
      htake]
    rfl
  have hcomplete' : ¬ ((b ++ e).length < headerSize ∨ (b ++ e).length < lengthOf (b ++ e)) := by
    rw [hlengthOf, List.length_append]
    omega
  rw [scan, if_neg hcomplete', hcall, hlengthOf, scan, if_neg hcomplete]

def framing : Framing UInt8 (ℤ × Bytes × ℤ) where
  scan := scan
  le_of_take := by
    intro b n m h
    rw [scan] at h
    split_ifs at h with hshort
    rw [Scan.take.injEq] at h
    obtain ⟨rfl, -⟩ := h
    omega
  take_append := by
    intro b n m e h
    rw [scan_append (by simp [h]), h]
  fail_append := by
    intro b m e h
    rw [scan_append (by simp [h]), h]

/-- One pass through the inner loop. -/
theorem drain_succ (fuel : ℕ) (calls : List (ℤ × Bytes × ℤ)) (b : Bytes) :
    drain (fuel + 1) ⟨b, calls, none⟩ = match scan b with
      | .wait => some ⟨b, calls, none⟩
      | .take n call => drain fuel ⟨b.drop n, calls ++ [call], none⟩
      | .fail call => some ⟨b, calls ++ [call], raisedBy call⟩ := by
  rw [drain, scan]
  by_cases hheader : b.length < headerSize
  · rw [if_pos hheader, if_pos (.inl hheader)]
  · obtain ⟨ts, hunpack⟩ := unpack_headerOf (not_lt.mp hheader)
    rw [if_neg hheader, hunpack]
    dsimp only
    by_cases hlength : b.length < lengthOf b
    · rw [if_pos (by exact_mod_cast hlength), if_pos (.inr hlength)]
    · rw [if_neg (by exact_mod_cast hlength), if_neg (not_or.mpr ⟨hheader, hlength⟩),
        Int.toNat_natCast]
      cases hhandle : handleMessage (msgTypeOf b) ((b.take (lengthOf b)).drop headerSize)
          (checksumOf b) with
      | ok _ =>
        have hraised : raisedBy (callAt b) = none := by
          rw [raisedBy, callAt, hhandle]
        rw [if_pos hraised]
        rfl
      | error e =>
        have hraised : raisedBy (callAt b) = some e := by
          rw [raisedBy, callAt, hhandle]
        rw [if_neg (by simp [hraised])]
        show _ = some (Receiver.mk b _ (raisedBy (callAt b)))
        rw [hraised]
        rfl

/-- The thread where the reader is. -/
def toReceiver (r : Reader UInt8 (ℤ × Bytes × ℤ)) : Receiver where
  buffer := r.buffer
  calls := r.log
  raised := if r.failed then r.log.getLast?.bind raisedBy else none

theorem drain_eq (fuel : ℕ) (log : List (ℤ × Bytes × ℤ)) (b : Bytes) :
    drain fuel ⟨b, log, none⟩ = (framing.drain fuel log b).map toReceiver := by
  induction fuel generalizing log b with
  | zero => rfl
  | succ fuel ih =>
    rw [drain_succ, Framing.drain, show framing.scan b = scan b from rfl]
    cases scan b with
    | wait => rfl
    | take n call => exact ih _ _
    | fail call => simp [toReceiver]

/-- The reader has failed if and only if an exception has ended the thread. -/
theorem isSome_raised {log : List (ℤ × Bytes × ℤ)} {b : Bytes} {r : Reader UInt8 (ℤ × Bytes × ℤ)}
    (h : framing.Drains log b r) : (toReceiver r).raised.isSome = r.failed := by
  induction h with
  | wait _ => rfl
  | take _ _ ih => exact ih
  | fail hscan =>
    change scan _ = _ at hscan
    rw [scan] at hscan
    split_ifs at hscan with _ hraised
    obtain rfl := Scan.fail.inj hscan
    simpa [toReceiver, Option.isSome_iff_ne_none] using hraised

/-- **The thread.** It receives as the reader does. -/
theorem receiveLoop_eq {chunks : List Bytes} (hne : ∀ data ∈ chunks, data ≠ []) (fuel : ℕ)
    {r : Reader UInt8 (ℤ × Bytes × ℤ)} (hr : r.failed = false) :
    receiveLoop fuel (toReceiver r) chunks = (framing.receive fuel r chunks).map toReceiver := by
  induction chunks generalizing r with
  | nil => rfl
  | cons data chunks ih =>
    rw [List.forall_mem_cons] at hne
    have hstart : { toReceiver r with buffer := (toReceiver r).buffer ++ data } =
        Receiver.mk (r.buffer ++ data) r.log none := by
      simp [toReceiver, hr]
    rw [receiveLoop, if_neg hne.1, hstart, drain_eq, Framing.receive, Option.bind_eq_bind]
    cases hdrain : framing.drain fuel r.log (r.buffer ++ data) with
    | none => rfl
    | some r₁ =>
      have hraised := isSome_raised (Framing.drains_of_drain hdrain)
      rw [Option.map_some, Option.bind_some, Option.bind_some, hraised]
      split_ifs with hfailed
      · rfl
      · exact ih hne.2 (by simpa using hfailed)

/-! ## Any stream -/

theorem scan_nil : framing.scan [] = .wait := by
  show scan [] = .wait
  rw [scan, if_pos (.inl (by decide))]

section Stream

variable {chunks : List Bytes} (hne : ∀ data ∈ chunks, data ≠ [])

include hne

/-- What the thread comes to depends on the bytes alone. -/
theorem drains_of_receiveLoop {fuel : ℕ} {r : Receiver}
    (h : receiveLoop fuel .new chunks = some r) :
    ∃ r', framing.Drains [] chunks.flatten r' ∧ r.calls = (toReceiver r').calls ∧
      r.raised = (toReceiver r').raised ∧
      (r.raised = none → r.buffer = (toReceiver r').buffer) := by
  have hloop := receiveLoop_eq hne fuel (r := ⟨[], false, []⟩) rfl
  obtain ⟨r₁, hr₁, rfl⟩ := Option.map_eq_some_iff.mp (hloop.symm.trans h)
  obtain ⟨r', hr', hsame⟩ := (Framing.receives_of_receive hr₁).drains scan_nil rfl
  have hraised : (toReceiver r₁).raised = (toReceiver r').raised := by
    rw [toReceiver, toReceiver, hsame.failed, hsame.log]
  refine ⟨r', hr', hsame.log, hraised, fun hnone => hsame.buffer ?_⟩
  rw [hsame.failed, ← isSome_raised hr', ← hraised, hnone]
  rfl

theorem receiveLoop_of_drains {r' : Reader UInt8 (ℤ × Bytes × ℤ)}
    (h : framing.Drains [] chunks.flatten r') :
    ∃ fuel r, receiveLoop fuel .new chunks = some r := by
  obtain ⟨r, hr, -⟩ := Framing.Drains.receives (r := ⟨[], false, []⟩) scan_nil rfl h
  obtain ⟨fuel, hfuel⟩ := hr.receive
  have hloop := receiveLoop_eq hne (fuel + 0) (r := ⟨[], false, []⟩) rfl
  rw [hfuel 0] at hloop
  exact ⟨fuel + 0, toReceiver r, hloop⟩

theorem receiveLoop_iff_drains : (∃ fuel r, receiveLoop fuel .new chunks = some r) ↔
    ∃ r', framing.Drains [] chunks.flatten r' := by
  constructor
  · rintro ⟨fuel, r, h⟩
    obtain ⟨r', hr', -⟩ := drains_of_receiveLoop hne h
    exact ⟨r', hr'⟩
  · rintro ⟨r', hr'⟩
    exact receiveLoop_of_drains hne hr'

end Stream

/-- **Cutting.** Two runs in which the same bytes arrive in chunks that are not
    empty both come to an end or both do not. If they do, `_handle_message` has
    been called with the same messages and has raised the same exception, if any,
    and what remains in the buffer is the same if it has not. -/
theorem cutting_irrelevant {chunks chunks' : List Bytes} (hflat : chunks.flatten = chunks'.flatten)
    (hne : ∀ data ∈ chunks, data ≠ []) (hne' : ∀ data ∈ chunks', data ≠ []) :
    ((∃ fuel r, receiveLoop fuel .new chunks = some r) ↔
      ∃ fuel r, receiveLoop fuel .new chunks' = some r) ∧
    ∀ {fuel fuel' r r'}, receiveLoop fuel .new chunks = some r →
      receiveLoop fuel' .new chunks' = some r' →
      r.calls = r'.calls ∧ r.raised = r'.raised ∧ (r.raised = none → r.buffer = r'.buffer) := by
  constructor
  · rw [receiveLoop_iff_drains hne, receiveLoop_iff_drains hne', hflat]
  · intro fuel fuel' r r' hr hr'
    obtain ⟨r₁, hr₁, hcalls, hraised, hbuffer⟩ := drains_of_receiveLoop hne hr
    obtain ⟨r₁', hr₁', hcalls', hraised', hbuffer'⟩ := drains_of_receiveLoop hne' hr'
    rw [hflat] at hr₁
    obtain rfl := hr₁.unique hr₁'
    refine ⟨hcalls.trans hcalls'.symm, hraised.trans hraised'.symm, fun hnone => ?_⟩
    rw [hbuffer hnone, hbuffer' (by rw [hraised', ← hraised, hnone])]

/-- A message of a type that the client does not know, without a payload. -/
def unknownMessage : Bytes := 9 :: 21 :: List.replicate 19 0

theorem unknownMessage_cut : ∃ r r', receiveLoop 2 .new [unknownMessage] = some r ∧
    receiveLoop 2 .new [unknownMessage.take 10, unknownMessage.drop 10] = some r' ∧
    r.calls.length = 1 ∧ r.calls = r'.calls ∧ r.raised = r'.raised := by
  have hflat : [unknownMessage].flatten =
      [unknownMessage.take 10, unknownMessage.drop 10].flatten := by
    simp
  have hr : receiveLoop 2 .new [unknownMessage] = some ⟨[], [(9, [], 0)], none⟩ := by
    decide +kernel
  have hr' : receiveLoop 2 .new [unknownMessage.take 10, unknownMessage.drop 10] =
      some ⟨[], [(9, [], 0)], none⟩ := by
    decide +kernel
  obtain ⟨hcalls, hraised, -⟩ :=
    (cutting_irrelevant hflat (by decide +kernel) (by decide +kernel)).2 hr hr'
  exact ⟨_, _, hr, hr', rfl, hcalls, hraised⟩

/-! ## Hanging -/

/-- An empty payload is too short for both formats. -/
theorem raisedBy_nil_iff (msgType checksum : ℤ) : raisedBy (msgType, [], checksum) = none ↔
    msgType ≠ msgOrderAck ∧ msgType ≠ msgTrade := by
  have hack : unpack orderAckFmt [] = none := if_neg (by decide)
  have htrade : unpack tradeFmt [] = none := if_neg (by decide)
  rw [raisedBy, handleMessage]
  dsimp only
  split_ifs with h4 h5
  · simp [hack, h4]
  · simp [htrade, h5]
  · simp [h4, h5]

theorem scan_eq_take_zero_iff {b : Bytes} : (∃ call, framing.scan b = .take 0 call) ↔
    headerSize ≤ b.length ∧ lengthOf b = 0 ∧ (msgTypeOf b : ℤ) ≠ msgOrderAck ∧
      (msgTypeOf b : ℤ) ≠ msgTrade := by
  have hcall : lengthOf b = 0 → callAt b = (↑(msgTypeOf b), [], ↑(checksumOf b)) := by
    intro hzero
    rw [callAt, hzero, List.take_zero, List.drop_nil]
  show (∃ call, scan b = .take 0 call) ↔ _
  rw [scan]
  constructor
  · rintro ⟨call, h⟩
    split_ifs at h with hshort hraised
    obtain ⟨hzero, -⟩ := Scan.take.inj h
    rw [hcall hzero, raisedBy_nil_iff] at hraised
    exact ⟨by omega, hzero, hraised⟩
  · rintro ⟨hheader, hzero, htype⟩
    have hraised : raisedBy (callAt b) = none := by
      rw [hcall hzero, raisedBy_nil_iff]
      exact htype
    rw [if_neg (by omega), if_pos hraised, hzero]
    exact ⟨_, rfl⟩

/-- **Hanging.** The thread handles messages for ever if and only if it gets to
    a header with the length 0, and with a type other than that of an
    acknowledgement or a trade. -/
theorem hangs_iff {chunks : List Bytes} (hne : ∀ data ∈ chunks, data ≠ []) :
    (∀ fuel, receiveLoop fuel .new chunks = none) ↔
      ∃ rest, framing.Taken chunks.flatten rest ∧ headerSize ≤ rest.length ∧ lengthOf rest = 0 ∧
        (msgTypeOf rest : ℤ) ≠ msgOrderAck ∧ (msgTypeOf rest : ℤ) ≠ msgTrade := by
  have hnone : (∀ fuel, receiveLoop fuel .new chunks = none) ↔
      ¬ ∃ fuel r, receiveLoop fuel .new chunks = some r := by
    simp only [not_exists, Option.eq_none_iff_forall_ne_some, ne_eq]
  rw [hnone, receiveLoop_iff_drains hne, Framing.not_drains_iff]
  simp only [exists_and_left, scan_eq_take_zero_iff]

theorem zeros_hang : lengthOf (List.replicate 21 0) = 0 ∧
    ∀ fuel, receiveLoop fuel .new [List.replicate 21 0] = none :=
  ⟨by decide +kernel, (hangs_iff (by decide)).mpr ⟨_, .refl _, by decide +kernel⟩⟩

end TradingGateway.Client

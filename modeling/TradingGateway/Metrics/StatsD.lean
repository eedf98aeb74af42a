import TradingGateway.Common.Python
import TradingGateway.Gateway.Schedule

/-!
# Metrics from the engine to the benchmark

For every command that the worker has processed it sends two datagrams with a
`StatsDClient` (`cpp-core/network/statsd_client.cpp`): how long that took, and
that it was done (`cpp-core/matching_engine/matching_engine.cpp`, lines 123–127).
The `StatsDListener` of the benchmark (`cpp-core/matching_engine/benchmark.py`,
lines 25–71) receives and parses them. Datagrams may be lost and may overtake
each other.

* `receive_metric`: the listener gets out of a datagram what the engine has put in.
* `metrics_arrive`: in every run it holds durations that were measured, each at
  most once, and at most 9999 of them. As everywhere in `Gateway`, handlers put
  their commands on the queue one at a time.
-/

namespace TradingGateway.Metrics

open Common Python Gateway

/-! ## The client -/

/-- The message of `StatsDClient::timing` (line 41). -/
def timing (key : String) (value : UInt64) : String :=
  key ++ ":" ++ toString value.toNat ++ "|ms"

/-- The message of `StatsDClient::increment` (line 45). -/
def increment (key : String) : String := key ++ ":1|c"

/-- `StatsDClient::send_message` (lines 48–58): the datagrams that are sent. There
    are none if the constructor got no socket. -/
def sendMessage (sock : SocketFd) (message : String) : List Bytes :=
  if sock = -1 then [] else [asciiBytes message]

/-- What the engine tells, for every command. -/
inductive Metric
  | latency (us : UInt64)
  | processed
  deriving DecidableEq

/-- The calls of `m_statsd` (`matching_engine.cpp`, lines 126 and 127). The clock
    is steady, so that `duration_us` is not negative. -/
def Metric.message : Metric → String
  | .latency us => timing "engine.process_latency_us" us
  | .processed => increment "engine.orders_processed"

/-! ## The listener -/

/-- What a `StatsDListener` has found. -/
structure StatsDListener where
  latencies : List ℤ
  count : ℕ

namespace StatsDListener

def new : StatsDListener := ⟨[], 0⟩

/-- The body of the loop of `_loop` (lines 42–57) when a datagram arrives.
    Exceptions are caught and printed. -/
def receive (l : StatsDListener) (datagram : Bytes) : StatsDListener :=
  match decodeAscii (datagram.take 4096) with
  | none => l
  | some data =>
    let line := strip data
    if isIn "engine.process_latency_us" line then
      match split ':' line with
      | _ :: part :: _ =>
        match (split '|' part).head?.bind int with
        | some val => { l with latencies := l.latencies ++ [val] }
        | none => l
      | _ => l
    else if isIn "engine.orders_processed" line then { l with count := l.count + 1 }
    else l

/-- What a metric adds. -/
def add (l : StatsDListener) : Metric → StatsDListener
  | .latency us => { l with latencies := l.latencies ++ [(us.toNat : ℤ)] }
  | .processed => { l with count := l.count + 1 }

end StatsDListener

/-! ## One datagram -/

theorem isAscii_toString (n : ℕ) : IsAscii (toString n) := by
  intro ch hch
  have hch : ch ∈ Nat.toDigits 10 n := by rwa [← Nat.toList_repr]
  have hdigit := Nat.isDigit_of_mem_toDigits (by decide) (by decide) hch
  simp only [Char.isDigit, Bool.and_eq_true, decide_eq_true_eq] at hdigit
  have hle := UInt32.le_iff_toNat_le.mp hdigit.2
  rw [UInt32.lt_iff_toNat_lt]
  exact lt_of_le_of_lt hle (by decide)

theorem isAscii_append {s t : String} (hs : IsAscii s) (ht : IsAscii t) : IsAscii (s ++ t) := by
  intro ch hch
  rw [String.toList_append, List.mem_append] at hch
  exact hch.elim (hs ch) (ht ch)

theorem not_mem_toDigits {ch : Char} (h : ch.isDigit = false) (n : ℕ) :
    ch ∉ Nat.toDigits 10 n := by
  intro hmem
  have hdigit := Nat.isDigit_of_mem_toDigits (by decide) (by decide) hmem
  rw [h] at hdigit
  cases hdigit

section Timing

variable (key : String) (us : UInt64)

theorem toList_timing : (timing key us).toList =
    key.toList ++ ':' :: (Nat.toDigits 10 us.toNat ++ ['|', 'm', 's']) := by
  simp [timing]

theorem length_timing_le : (timing key us).toList.length ≤ key.toList.length + 24 := by
  have hdigits : (Nat.toDigits 10 us.toNat).length ≤ 20 :=
    (Nat.length_toDigits_le_iff (by decide) (by decide)).mpr (us.toNat_lt.trans (by norm_num))
  rw [toList_timing, List.length_append, List.length_cons, List.length_append]
  simp
  omega

theorem strip_timing (hkey : ∀ ch ∈ key.toList.head?, ¬ isSpace ch) :
    strip (timing key us) = timing key us := by
  apply stripBy_eq_self
  · rw [toList_timing]
    cases hchars : key.toList with
    | nil => simp [isSpace]
    | cons ch cs =>
      rw [hchars] at hkey
      exact hkey
  · rw [toList_timing, ← List.cons_append, ← List.append_assoc, List.getLast?_append]
    simp [isSpace]

theorem isIn_timing : isIn key (timing key us) = true := by
  rw [isIn, toList_timing, decide_eq_true_eq]
  exact (List.prefix_append _ _).isInfix

theorem split_timing (hkey : ':' ∉ key.toList) :
    split ':' (timing key us) = [key, toString us.toNat ++ "|ms"] := by
  rw [split, toList_timing, List.splitOn_append_cons_self_of_not_mem hkey,
    List.splitOn_eq_singleton (by simp [not_mem_toDigits])]
  simp [Nat.repr_eq_ofList_toDigits]

theorem split_value : split '|' (toString us.toNat ++ "|ms") = [toString us.toNat, "ms"] := by
  have htoList : (toString us.toNat ++ "|ms").toList =
      Nat.toDigits 10 us.toNat ++ '|' :: ['m', 's'] := by
    simp
  rw [split, htoList, List.splitOn_append_cons_self_of_not_mem (not_mem_toDigits rfl _),
    List.splitOn_eq_singleton (by decide)]
  simp [Nat.repr_eq_ofList_toDigits]

end Timing

/-- A short line arrives as it was sent. -/
theorem decodeAscii_take {s : String} (hs : IsAscii s) (hlen : s.toList.length ≤ 4096) :
    decodeAscii ((asciiBytes s).take 4096) = some s := by
  rw [List.take_of_length_le (by rwa [asciiBytes, List.length_map]), decodeAscii_asciiBytes hs]

theorem receive_latency (l : StatsDListener) (us : UInt64) :
    l.receive (asciiBytes (Metric.latency us).message) = l.add (.latency us) := by
  have hascii : IsAscii (timing "engine.process_latency_us" us) :=
    isAscii_append (isAscii_append (by simp [IsAscii]) (isAscii_toString _)) (by simp [IsAscii])
  have hlen := length_timing_le "engine.process_latency_us" us
  unfold StatsDListener.receive Metric.message
  rw [decodeAscii_take hascii (hlen.trans (by simp))]
  dsimp only
  rw [strip_timing _ _ (by simp [isSpace]), if_pos (isIn_timing _ _), split_timing _ _ (by simp)]
  dsimp only
  rw [split_value, List.head?_cons, Option.bind_some, int_toString]
  rfl

theorem receive_processed (l : StatsDListener) :
    l.receive (asciiBytes Metric.processed.message) = l.add .processed := by
  have hascii : IsAscii "engine.orders_processed:1|c" := by simp [IsAscii]
  have hmessage : Metric.processed.message = "engine.orders_processed:1|c" := by
    simp [Metric.message, increment]
  have hstrip : strip "engine.orders_processed:1|c" = "engine.orders_processed:1|c" := by
    apply stripBy_eq_self <;> simp [isSpace]
  have hnot : isIn "engine.process_latency_us" "engine.orders_processed:1|c" = false := by
    rw [isIn, decide_eq_false_iff_not]
    intro hinfix
    have hy : 'y' ∈ "engine.orders_processed:1|c".toList := hinfix.subset (by simp)
    simp at hy
  have hin : isIn "engine.orders_processed" "engine.orders_processed:1|c" = true := by
    rw [isIn, decide_eq_true_eq]
    refine List.IsPrefix.isInfix ⟨[':', '1', '|', 'c'], ?_⟩
    simp
  unfold StatsDListener.receive
  rw [hmessage, decodeAscii_take hascii (by simp)]
  simp only [hstrip, hnot, hin, if_true, Bool.false_eq_true, if_false]
  rfl

/-- **One datagram.** The listener gets out of a datagram what the engine has put
    in. -/
theorem receive_metric (l : StatsDListener) (m : Metric) :
    l.receive (asciiBytes m.message) = l.add m := by
  cases m with
  | latency us => exact receive_latency l us
  | processed => exact receive_processed l

/-! ## Whole runs -/

/-- What the engine has told after a pass of the worker that took `us`, when a
    command was there. -/
def metricsOf (g : GatewayServer) (us : UInt64) : Event → List Metric
  | .work _ => if (g.orderQueue.pop).1.isSome then [.latency us, .processed] else []
  | _ => []

/-- Runs in which every pass of the worker has a duration. -/
def timed : Machine GatewayServer (Event × UInt64) := ⟨.new, fun g e => g.step e.1⟩

/-- All that the engine tells in a run. -/
def metrics (events : List (Event × UInt64)) : List Metric :=
  timed.collect (fun g e => metricsOf g e.2 e.1) events

/-- The duration in a metric. -/
def Metric.duration : Metric → Option UInt64
  | .latency us => some us
  | .processed => none

/-- The durations that were measured in a run. -/
def durations (events : List (Event × UInt64)) : List UInt64 :=
  (metrics events).filterMap Metric.duration

/-- The listener after the metrics that have arrived, each in a datagram. -/
def listen (sock : SocketFd) (arrived : List Metric) : StatsDListener :=
  (arrived.flatMap fun m => sendMessage sock m.message).foldl StatsDListener.receive .new

/-- A duration as a number of Python. -/
def toInt (us : UInt64) : ℤ := us.toNat

theorem listen_eq {sock : SocketFd} (hsock : sock ≠ -1) (arrived : List Metric) :
    listen sock arrived =
      ⟨(arrived.filterMap Metric.duration).map toInt, arrived.count .processed⟩ := by
  unfold listen
  induction arrived using List.reverseRecOn with
  | nil => rfl
  | append_singleton arrived m ih =>
    rw [List.flatMap_append, List.foldl_append, ih, List.flatMap_singleton, sendMessage,
      if_neg hsock]
    show StatsDListener.receive _ _ = _
    rw [receive_metric, List.filterMap_append, List.map_append, List.count_append]
    cases m with
    | latency us => simp [StatsDListener.add, Metric.duration, toInt]
    | processed => simp [StatsDListener.add, Metric.duration]

/-- The engine tells two things about each command. -/
theorem count_processed_metrics (events : List (Event × UInt64)) :
    (metrics events).count .processed = (durations events).length := by
  unfold durations metrics
  induction events using List.reverseRecOn with
  | nil => rfl
  | append_singleton events e ih =>
    rw [Machine.collect_concat, List.count_append, List.filterMap_append, List.length_append, ih]
    congr 1
    rcases e with ⟨event, us⟩
    cases event with
    | connect clientFd sessionId => rfl
    | disconnect clientFd => rfl
    | request env clientFd request => rfl
    | work S =>
      dsimp only [metricsOf]
      split_ifs <;> rfl

theorem timed_after (events : List (Event × UInt64)) :
    timed.after events = (Traced.machine.after (events.map Prod.fst)).server := by
  rw [Traced.server_after, Machine.after, Machine.after, List.foldl_map]
  rfl

/-- A duration was measured for each command that was processed. -/
theorem length_durations (events : List (Event × UInt64)) :
    (durations events).length = (Traced.machine.after (events.map Prod.fst)).processed.length := by
  unfold durations metrics
  induction events using List.reverseRecOn with
  | nil => rfl
  | append_singleton events e ih =>
    rw [Machine.collect_concat, List.filterMap_append, List.length_append, ih, List.map_append,
      List.map_singleton, Machine.after_concat, timed_after]
    set t := Traced.machine.after (events.map Prod.fst)
    have hpop := (Traced.inv_after (events.map Prod.fst)).pop
    rcases e with ⟨event, us⟩
    cases event with
    | connect clientFd sessionId => rfl
    | disconnect clientFd => rfl
    | request env clientFd request => rfl
    | work S =>
      show _ = (t.processed ++ t.pending.head?.toList.map (·, S)).length
      rw [List.length_append]
      congr 1
      dsimp only [metricsOf]
      rw [hpop]
      cases t.pending <;> rfl

/-- The commands for which a duration was measured and those that wait are the
    first 9999. -/
theorem length_durations_add_waiting (events : List (Event × UInt64)) :
    (durations events).length +
        (GatewayServer.machine.after (events.map Prod.fst)).orderQueue.waiting.length =
      min (commands (events.map Prod.fst)).length 9999 := by
  have horders := congrArg List.length (Traced.orders_after (events.map Prod.fst))
  rw [Traced.length_orders, List.length_take, Traced.accepted] at horders
  rw [length_durations, Traced.waiting_after, List.length_map, horders, min_comm]

/-- **Metrics arrive.** Take any run of the gateway in which each pass of the worker
    has a duration, and let some of the datagrams with which the engine reports arrive
    at the listener, in any order. Then the listener holds the durations in the
    datagrams that have arrived, in this order: durations that were measured, each
    at most once. Its count is at most the number of commands processed, which are
    the first 9999 for which a handler got memory, less those that wait. If no
    datagram is lost, the listener holds all durations and has the right count. -/
theorem metrics_arrive (sock : SocketFd) (hsock : sock ≠ -1) (events : List (Event × UInt64))
    (arrived : List Metric) (harrived : arrived.Subperm (metrics events)) :
    let l := listen sock arrived
    l.latencies = (arrived.filterMap Metric.duration).map toInt ∧
      l.latencies.Subperm ((durations events).map toInt) ∧
      l.count ≤ (durations events).length ∧
      (durations events).length +
          (GatewayServer.machine.after (events.map Prod.fst)).orderQueue.waiting.length =
        min (commands (events.map Prod.fst)).length 9999 ∧
      (arrived.Perm (metrics events) →
        l.latencies.Perm ((durations events).map toInt) ∧
          l.count = (durations events).length) := by
  intro l
  have hl : l = _ := listen_eq hsock arrived
  rw [hl, ← count_processed_metrics]
  refine ⟨rfl, ?_, harrived.count_le _, ?_, ?_⟩
  · obtain ⟨kept, hperm, hsublist⟩ := harrived
    exact ⟨_, (hperm.filterMap _).map _, (hsublist.filterMap _).map _⟩
  · rw [count_processed_metrics]
    exact length_durations_add_waiting events
  · intro hperm
    exact ⟨(hperm.filterMap _).map _, hperm.count_eq _⟩

/-- A buy that the worker processes in 42 microseconds. -/
def oneOrder : List (Event × UInt64) :=
  [(.request GatewayServer.plainEnv 4 (.newOrder GatewayServer.buyOrder), 0),
    (.work .insertion, 42)]

theorem metrics_oneOrder : metrics oneOrder = [.latency 42, .processed] := by
  decide +kernel

/-- The second datagram overtakes the first. -/
theorem oneOrder_listened :
    (listen 3 [.processed, .latency 42]).latencies.Perm ((durations oneOrder).map toInt) := by
  have hperm : [.processed, .latency 42].Perm (metrics oneOrder) := by
    rw [metrics_oneOrder]
    exact List.Perm.swap _ _ _
  exact ((metrics_arrive 3 (by decide) oneOrder _ hperm.subperm).2.2.2.2 hperm).1

end TradingGateway.Metrics

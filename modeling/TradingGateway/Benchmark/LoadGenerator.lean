import TradingGateway.Client.Sending
import TradingGateway.Gateway.Routing
import TradingGateway.Metrics.StatsD

/-!
# The load generator

`LoadGenerator.send_orders` (`cpp-core/matching_engine/benchmark.py`,
lines 87–120) sends buy orders for one symbol with a copy of the client's code.
The benchmark then waits until the metrics of all orders have arrived, or until
no more arrive (lines 143–157).

* `orderMessage_eq`: the copy builds the messages that the client builds.
* `load_measured`: however the orders and the passes of the worker are
  interleaved, no order trades, and the metrics of no more than 9999 orders
  arrive.
-/

namespace TradingGateway.Engine

open Common Message Book

/-- Commands that add buy orders for one symbol. -/
def OnlyBuys (key : Symbol) (orders : List Order) : Prop :=
  ∀ order ∈ orders, order.command = .add ∧ order.isBuy = true ∧ order.symbolString = key

namespace MatchingEngine

/-- Only buys make no trades, and all of them stay in the book. -/
theorem after_onlyBuys {key : Symbol} {inputs : List Input}
    (h : OnlyBuys key (inputs.map Input.order)) :
    ((after inputs).book key).asks = [] ∧
      ((after inputs).book key).bids.length = inputs.length ∧
      machine.collect tradesOf inputs = [] := by
  induction inputs using List.reverseRecOn with
  | nil => exact ⟨rfl, rfl, rfl⟩
  | append_singleton inputs i ih =>
    obtain ⟨hasks, hbids, htrades⟩ := ih fun order ho => h order (by simp_all)
    obtain ⟨hadd, hbuy, hkey⟩ := h i.order (by simp)
    set e := after inputs with he
    set p : OrderPtr := ⟨e.allocated, i.order⟩
    have hp : p.isBuy = true := hbuy
    have hside := OrderBook.addOrder_side i.sort (e.book key) p false
    rw [if_neg (by simp [hp])] at hside
    have hnone : ((e.book key).addOrder i.sort p).asks = [] := hside.trans hasks
    have hperm := OrderBook.addOrder_side_perm i.sort (e.book key) p
    rw [hp] at hperm
    have hop : applyOp i.sort (e.book key) (e.opOn i.order key) =
        ([], (e.book key).addOrder i.sort p) := by
      rw [opOn, hadd]
      dsimp only
      rw [if_pos hkey]
      apply OrderBook.runMatch_of_none
      rw [OrderBook.matchStep_eq_none_iff, hnone]
      intro bid hbid ask hask
      cases hask
    rw [after_snoc, book_step, Machine.collect_concat, htrades, ← he, hop]
    refine ⟨hnone, ?_, ?_⟩
    · show (((e.book key).addOrder i.sort p).side true).length = _
      rw [hperm.length_eq]
      simp [OrderBook.side, hbids]
    · show [] ++ (e.processOrder i.sort i.order).2 = []
      rw [trades_processOrder, hkey, hop]
      rfl

end MatchingEngine

end TradingGateway.Engine

namespace TradingGateway.Benchmark

open Common Python Message Engine Gateway Client Metrics

/-! ## Orders -/

/-- The message of iteration `i` (lines 92–109); `now` is the result of
    `time.time_ns()`. -/
def orderMessage (now : UInt64) (i : ℕ) : Option Bytes := do
  let orderId : ℤ := 100000 + i
  let price : ℤ := 50000
  let qty : ℤ := 1
  let symbol := ljust 8 (asciiBytes "BTCUSD")
  let side := asciiBytes "B"
  let payload ← pack newOrderFmt [.int orderId, .int price, .int qty, .bytes symbol, .bytes side]
  let length := Client.headerSize + payload.length
  let checksum := calculateChecksum payload
  let header ← pack headerFmt [.int msgNewOrder, .int length, .int now.toNat, .int checksum]
  return header ++ payload

/-- The call of the client with the same arguments. -/
def orderCall (i : ℕ) : Call := .newOrder (100000 + i) 50000 1 "BTCUSD" "B"

theorem sendNewOrder_of_isAscii (now : UInt64) (orderId price quantity : ℤ) (symbol side : String)
    (hsymbol : IsAscii symbol) (hside : IsAscii side) (hlen : (asciiBytes symbol).length ≤ 8) :
    sendNewOrder now orderId price quantity symbol side =
      (pack newOrderFmt [.int orderId, .int price, .int quantity,
        .bytes (ljust 8 (asciiBytes symbol)), .bytes (asciiBytes side)]).bind
          (Client.sendMessage now msgNewOrder) := by
  have hsymbol' : encodeAscii symbol = some (asciiBytes symbol) := if_pos hsymbol
  have hside' : encodeAscii side = some (asciiBytes side) := if_pos hside
  rw [sendNewOrder, hsymbol', Option.bind_eq_bind, Option.bind_some, hside', Option.bind_some,
    List.take_of_length_le hlen]

/-- The copy of the client's code builds the message that the client builds. -/
theorem orderMessage_eq (now : UInt64) (i : ℕ) : orderMessage now i = (orderCall i).send now := by
  have hsend := sendNewOrder_of_isAscii now (100000 + i) 50000 1 "BTCUSD" "B"
    (by simp [IsAscii]) (by simp [IsAscii]) (by simp [asciiBytes])
  rw [orderCall, Call.send, hsend]
  rfl

theorem toList_symbol :
    (Call.symbolField "BTCUSD").toList = [66, 84, 67, 85, 83, 68, 0, 0] := by
  rw [toList_symbolField]
  simp [asciiBytes, ljust]
  decide

theorem inRange_orderCall {i : ℕ} (h : 100000 + i < 2 ^ 64) : (orderCall i).InRange := by
  refine ⟨⟨by positivity, by exact_mod_cast h⟩, ?_, ?_, ?_, ?_, ?_⟩ <;>
    simp [Fits, IsAscii]

/-- The request that the message handler finds in message `i` when it arrives as
    one chunk; `beyond` is what stands behind it in the buffer. -/
def received (now : UInt64) (beyond : Memory) (i : ℕ) : Option Request := do
  let bytes ← orderMessage now i
  (messageHandler bytes.length).value (Memory.overlay bytes beyond)

theorem received_eq (now : UInt64) (beyond : Memory) {i : ℕ} (h : 100000 + i < 2 ^ 64) :
    received now beyond i = some (orderCall i).request := by
  rw [received, orderMessage_eq, send_eq now (inRange_orderCall h), Option.bind_eq_bind,
    Option.bind_some, Network.ClientMessage.length_bytes]
  exact messageHandler_of_has (Memory.has_zero fun _ hi => Memory.overlay_of_lt _ hi)

/-! ## Runs -/

/-- The request of an event. -/
def requestOf : Event → Option Request
  | .request _ _ request => some request
  | _ => none

/-- A run in which the load generator sends `count` orders, each of which arrives
    as one chunk, and every handler gets memory. Whoever connects and disconnects
    meanwhile, and when the worker runs, is left open. -/
structure Load (count : ℕ) (events : List Event) : Prop where
  requests : ∃ (now : ℕ → UInt64) (beyond : ℕ → Memory),
    events.filterMap requestOf =
      (List.range count).filterMap fun i => received (now i) (beyond i) i
  memory : ∀ env clientFd request, Event.request env clientFd request ∈ events → env.heap ≠ none

section Load

variable {count : ℕ} {events : List Event} (h : Load count events)
  (hcount : 100000 + count ≤ 2 ^ 64)

include h hcount

theorem Load.requests_eq :
    events.filterMap requestOf = (List.range count).map fun i => (orderCall i).request := by
  obtain ⟨now, beyond, hrequests⟩ := h.requests
  rw [hrequests, ← List.filterMap_eq_map]
  apply List.filterMap_congr
  intro i hi
  rw [List.mem_range] at hi
  exact received_eq _ _ (by omega)

theorem Load.length_commands : (commands events).length = count := by
  have hlength := congrArg List.length (h.requests_eq hcount)
  rw [List.length_map, List.length_range, List.length_filterMap_eq_countP] at hlength
  rw [commands, List.length_filterMap_eq_countP]
  refine Eq.trans (List.countP_congr fun event hevent => ?_) hlength
  cases event with
  | connect clientFd sessionId => rfl
  | disconnect clientFd => rfl
  | work S => rfl
  | request env clientFd request =>
    have hheap := h.memory env clientFd request hevent
    simp [Event.command, requestOf, Option.isSome_iff_ne_none, hheap]

theorem Load.onlyBuys : OnlyBuys (asciiBytes "BTCUSD") (commands events) := by
  intro order horder
  obtain ⟨event, hevent, hcommand⟩ := List.mem_filterMap.mp horder
  cases event with
  | connect clientFd sessionId => cases hcommand
  | disconnect clientFd => cases hcommand
  | work S => cases hcommand
  | request env clientFd request =>
    obtain ⟨raw, -, rfl⟩ := Option.map_eq_some_iff.mp hcommand
    have hmem : request ∈ events.filterMap requestOf := List.mem_filterMap.mpr ⟨_, hevent, rfl⟩
    rw [h.requests_eq hcount, List.mem_map] at hmem
    obtain ⟨i, hi, rfl⟩ := hmem
    have hdescribes := describes_command env raw (inRange_orderCall (i := i)
      (by rw [List.mem_range] at hi; omega))
    refine ⟨rfl, hdescribes.2.2.2.2.1.mpr rfl, ?_⟩
    refine (bookKey_eq env raw _).trans ?_
    rw [Gateway.symbolField, toList_symbol]
    simp [cString, asciiBytes]
    decide

end Load

/-- **The load that is measured.** Let the load generator send `count` orders, each
    of which arrives as one chunk, with memory for all, whoever connects meanwhile
    and whenever the worker makes its passes. Then there is never a trade, and every
    order that was processed rests in the book. The listener hears of at most 9999
    orders. It hears of `min count 9999` if no datagram is lost and none of the orders
    waits any more, so that the benchmark sees all of its orders processed only if
    these are at most 9999; it sends 10000 by default. -/
theorem load_measured {count : ℕ} (hcount : 100000 + count ≤ 2 ^ 64)
    (events : List (Event × UInt64)) (hload : Load count (events.map Prod.fst))
    (sock : SocketFd) (hsock : sock ≠ -1) (arrived : List Metric)
    (harrived : arrived.Subperm (metrics events)) :
    let g := GatewayServer.machine.after (events.map Prod.fst)
    let l := listen sock arrived
    GatewayServer.machine.collect GatewayServer.trades (events.map Prod.fst) = [] ∧
      (g.engine.book (asciiBytes "BTCUSD")).asks = [] ∧
      (g.engine.book (asciiBytes "BTCUSD")).bids.length = (durations events).length ∧
      l.latencies.length ≤ min count 9999 ∧
      (arrived.Perm (metrics events) → g.orderQueue.waiting = [] →
        l.latencies.length = min count 9999) := by
  intro g l
  have hprocessed := length_durations_add_waiting events
  rw [hload.length_commands hcount] at hprocessed
  have hl : l = _ := listen_eq hsock arrived
  have hlength : l.latencies.length = (arrived.filterMap Metric.duration).length := by
    rw [hl, List.length_map]
  have horders := Traced.orders_after (events.map Prod.fst)
  set t := Traced.machine.after (events.map Prod.fst) with ht
  have hbuys : OnlyBuys (asciiBytes "BTCUSD") (t.inputs.map Input.order) := by
    intro order horder
    apply hload.onlyBuys hcount
    apply List.mem_of_mem_take (i := 9999)
    rw [← horders]
    exact List.mem_append_left _ horder
  obtain ⟨hasks, hbids, htrades⟩ := MatchingEngine.after_onlyBuys hbuys
  have hengine : g.engine = MatchingEngine.after t.inputs := by
    rw [← (Traced.inv_after _).engine, Traced.server_after]
  refine ⟨?_, ?_, ?_, ?_, ?_⟩
  · rw [Traced.trades_after, htrades]
  · rw [hengine, hasks]
  · rw [hengine, hbids, length_durations, Traced.inputs, List.length_map]
  · obtain ⟨kept, hperm, hsublist⟩ := harrived
    have hle := (hsublist.filterMap Metric.duration).length_le
    rw [(hperm.filterMap Metric.duration).length_eq] at hle
    rw [hlength]
    exact hle.trans (by unfold durations at hprocessed; omega)
  · intro hperm hwaiting
    have hwaiting : (GatewayServer.machine.after (events.map Prod.fst)).orderQueue.waiting = [] :=
      hwaiting
    rw [hwaiting, List.length_nil, Nat.add_zero] at hprocessed
    rw [hlength, (hperm.filterMap Metric.duration).length_eq, ← hprocessed]
    rfl

/-- A benchmark of one order. -/
def oneOrderLoad : List (Event × UInt64) :=
  [(.connect 4 "session_100000", 0), (.request GatewayServer.plainEnv 4 (orderCall 0).request, 0),
    (.work .insertion, 42)]

theorem oneOrderLoad_measured :
    GatewayServer.machine.collect GatewayServer.trades (oneOrderLoad.map Prod.fst) = [] ∧
      (listen 3 (metrics oneOrderLoad)).latencies.length = 1 := by
  have hload : Load 1 (oneOrderLoad.map Prod.fst) := by
    refine ⟨⟨fun _ => 0, fun _ _ => 0, ?_⟩, ?_⟩
    · rw [List.range_one, List.filterMap_cons_some (received_eq _ _ (by norm_num))]
      rfl
    · intro env clientFd request hmem
      simp only [oneOrderLoad, List.map_cons, List.map_nil, List.mem_cons, List.not_mem_nil,
        or_false, reduceCtorEq, false_or, Event.request.injEq] at hmem
      rw [hmem.1]
      exact Option.some_ne_none _
  obtain ⟨htrades, -, -, -, hall⟩ := load_measured (by norm_num) oneOrderLoad hload 3 (by decide)
    (metrics oneOrderLoad) (List.Subperm.refl _)
  exact ⟨htrades, hall (List.Perm.refl _) (by decide +kernel)⟩

end TradingGateway.Benchmark

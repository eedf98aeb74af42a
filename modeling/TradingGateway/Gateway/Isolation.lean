import TradingGateway.Gateway.Trace

/-!
# Whose orders a request can touch

Order ids are one name space for all clients. No handler asks whose order an id
names, so a client can cancel and modify the orders of others, and a new order
under an id in use takes over its trade notifications. These are the only ways: a
`CANCEL` or a `MODIFY` reaches the orders with its own id in the book that the
index names, a new order replaces the connection recorded for its own id, and
beyond that a request only ever trades with an order.

* `untouched_unless_named`: the protection, for every step of every run.
* `foreign_cancel_removes`: a client cancels another client's order.
-/

namespace TradingGateway.Gateway

open Common Message Book Engine OrderBook

namespace Traced

/-- The request that takes effect in a step, and its sender: a handler handles
    it, or the worker processes its command. -/
def actsIn (t : Traced) : Event → Option (SocketFd × Request)
  | .request _ clientFd request => some (clientFd, request)
  | .work _ => t.pending.head?.map fun m => (m.clientFd, m.request)
  | _ => none

/-- The fills that a step makes in the book of `key`. -/
def fillsIn (t : Traced) (event : Event) (key : Symbol) : List (OrderBook × Trade) :=
  match event, t.pending with
  | .work S, m :: _ => t.server.engine.fillsIn ⟨S, m.command⟩ key
  | _, _ => []

/-- The client that submitted an order: serial numbers count the `ADD`s. -/
def owner (t : Traced) (p : OrderPtr) : Option SocketFd :=
  (t.processed.filter (·.1.request.type = .newOrder))[p.serial]?.map (·.1.clientFd)

/-- In a step the order `p` on side `s` of the book of `key` only trades, and the
    connection recorded for its id stays. -/
def Untouched (t : Traced) (event : Event) (key : Symbol) (s : Bool) (p : OrderPtr) : Prop :=
  OnlyTraded s p (t.fillsIn event key) ((t.step event).server.engine.book key) ∧
    (t.step event).server.orderToClient p.id = t.server.orderToClient p.id

/-- The request that takes effect in a step leaves the orders of all clients but
    its sender untouched. -/
def Isolated (t : Traced) (event : Event) : Prop :=
  ∀ clientFd request, t.actsIn event = some (clientFd, request) →
    ∀ key s, ∀ p ∈ (t.server.engine.book key).side s, t.owner p ≠ some clientFd →
      t.Untouched event key s p

/-- In the step the worker looks for the order with the id `i` in the book of `key`,
    to cancel or to modify it. -/
def Seeks (t : Traced) (event : Event) (request : Request) (key : Symbol) (i : UInt64) : Prop :=
  (∃ S, event = .work S) ∧ request.type ≠ .newOrder ∧ request.orderId = i ∧
    t.server.engine.orderIdToSymbol i = some key

/-- In the step a handler handles a new order with the id `i`. -/
def Redirects (event : Event) (request : Request) (i : UInt64) : Prop :=
  (∀ S, event ≠ .work S) ∧ request.type = .newOrder ∧ request.orderId = i

theorem orderToClient_handle (g : GatewayServer) (env : Env) (clientFd : SocketFd)
    (request : Request) {i : UInt64} (hi : ¬ (request.type = .newOrder ∧ request.orderId = i)) :
    (g.handle env clientFd request).1.orderToClient i = g.orderToClient i := by
  rw [GatewayServer.handle_fst]
  cases request with
  | newOrder order =>
    have hne : i ≠ order.orderId := fun heq => hi ⟨rfl, heq.symm⟩
    exact Function.update_of_ne hne _ _
  | cancelOrder order => rfl
  | modifyOrder order => rfl

theorem type_of_command {env : Env} {raw : Order} {request : Request}
    (h : (GatewayServer.command env raw request).command ≠ .add) : request.type ≠ .newOrder := by
  cases request with
  | newOrder order => exact absurd rfl h
  | cancelOrder order => exact nofun
  | modifyOrder order => exact nofun

theorem Inv.onlyTraded_work {t : Traced} (h : t.Inv) (S : StdSort OrderPtr) {m : Submission}
    {pending : List Submission} (hpending : t.pending = m :: pending) {key : Symbol} {s : Bool}
    {p : OrderPtr} (hp : p ∈ (t.server.engine.book key).side s)
    (hseeks : ¬ t.Seeks (.work S) m.request key p.id) :
    OnlyTraded s p (t.fillsIn (.work S) key) ((t.step (.work S)).server.engine.book key) := by
  have hwork := (h.work S).1
  rw [hpending] at hwork
  have hnum : (t.server.engine.book key).Numbered t.server.engine.allocated := by
    rw [h.engine]
    exact MatchingEngine.numbered_after t.inputs key
  have hfills : t.fillsIn (.work S) key = t.server.engine.fillsIn ⟨S, m.command⟩ key := by
    simp only [fillsIn, hpending]
  show OnlyTraded s p (t.fillsIn (.work S) key) ((t.server.work S).engine.book key)
  rw [hwork, hfills]
  refine MatchingEngine.onlyTraded_step hnum ⟨S, m.command⟩ hp ?_
  rintro ⟨hcommand, hid, hindex⟩
  have hid' : m.request.orderId = p.id := by
    rwa [Submission.command, command_id] at hid
  exact hseeks ⟨⟨S, rfl⟩, type_of_command hcommand, hid', hindex⟩

/-- **What an id protects.** In every step of every run the request that takes
    effect, whoever sent it, does not change the price of a resting order, does not
    remove it and does not change its quantity but by trades, unless the worker
    cancels or modifies the order's id in the order's book. It does not change the
    connection recorded for the id either, unless a handler handles a new order with
    the id. -/
theorem untouched_unless_named (events : List Event) (event : Event) (clientFd : SocketFd)
    (request : Request)
    (hacts : (machine.after events).actsIn event = some (clientFd, request)) (key : Symbol)
    (s : Bool) (p : OrderPtr)
    (hp : p ∈ ((machine.after events).server.engine.book key).side s) :
    (¬ (machine.after events).Seeks event request key p.id →
      OnlyTraded s p ((machine.after events).fillsIn event key)
        (((machine.after events).step event).server.engine.book key)) ∧
      (¬ Redirects event request p.id →
        ((machine.after events).step event).server.orderToClient p.id =
          (machine.after events).server.orderToClient p.id) := by
  have h := inv_after events
  cases event with
  | connect fd sessionId => cases hacts
  | disconnect fd => cases hacts
  | request env fd r =>
    cases hacts
    constructor
    · intro _
      apply onlyTraded_of_mem
      show p ∈ (((machine.after events).server.handle env clientFd request).1.engine.book
        key).side s
      rwa [handle_engine]
    · intro hredirects
      exact orderToClient_handle _ env clientFd request
        fun hnew => hredirects ⟨nofun, hnew⟩
  | work S =>
    obtain ⟨m, hm, heq⟩ := Option.map_eq_some_iff.mp hacts
    cases heq
    obtain ⟨pending, hpending⟩ := List.head?_eq_some_iff.mp hm
    refine ⟨h.onlyTraded_work S hpending hp, fun _ => ?_⟩
    show ((machine.after events).server.work S).orderToClient p.id = _
    rw [(h.work S).1]

/-- Client 1 sells 10 `BTC` at 100 under the id 7. -/
def sellSeven : Request :=
  .newOrder ⟨7, 100, 10, strncpy 8 "BTC".toUTF8.toList, 'S'.toUInt8⟩

/-- Client 2 buys 4 `BTC` at 100 under the same id. -/
def buySeven : Request :=
  .newOrder ⟨7, 100, 4, strncpy 8 "BTC".toUTF8.toList, 'B'.toUInt8⟩

/-- The order rests and client 2 has sent its own. -/
def foreignBuy : List Event :=
  [.request GatewayServer.plainEnv 1 sellSeven, .work .insertion,
    .request GatewayServer.plainEnv 2 buySeven]

/-- The order rests and client 2 has asked for it to be cancelled. -/
def foreignCancel : List Event :=
  [.request GatewayServer.plainEnv 1 sellSeven, .work .insertion,
    .request GatewayServer.plainEnv 2 (.cancelOrder ⟨7⟩)]

/-- The resting order of client 1. -/
def restingSeven : OrderPtr :=
  ⟨0, addCommand .zeroed (Order.make .zeroed 7 100 10 [66, 84, 67] false)⟩

theorem foreignBuy_onlyTraded :
    OnlyTraded false restingSeven
        ((machine.after foreignBuy).fillsIn (.work .insertion) [66, 84, 67])
        (((machine.after foreignBuy).step (.work .insertion)).server.engine.book [66, 84, 67]) ∧
      ((machine.after foreignBuy).step (.work .insertion)).server.orderToClient 7 =
        (machine.after foreignBuy).server.orderToClient 7 := by
  obtain ⟨htraded, hroute⟩ := untouched_unless_named foreignBuy (.work .insertion) 2 buySeven
    (by decide +kernel) [66, 84, 67] false restingSeven (by decide +kernel)
  exact ⟨htraded fun hseeks => hseeks.2.1 rfl, hroute fun hredirects => hredirects.1 _ rfl⟩

theorem foreign_cancel_removes :
    (machine.after foreignCancel).owner restingSeven = some 1 ∧
      ((machine.after foreignCancel).server.engine.book [66, 84, 67]).asks = [restingSeven] ∧
      ((machine.after (foreignCancel ++ [.work .insertion])).server.engine.book
        [66, 84, 67]).asks = [] ∧
      ¬ (machine.after foreignCancel).Isolated (.work .insertion) := by
  have howner : (machine.after foreignCancel).owner restingSeven = some 1 := by decide +kernel
  have hbefore : ((machine.after foreignCancel).server.engine.book [66, 84, 67]).asks =
      [restingSeven] := by decide +kernel
  have hafter : ((machine.after (foreignCancel ++ [.work .insertion])).server.engine.book
      [66, 84, 67]).asks = [] := by decide +kernel
  refine ⟨howner, hbefore, hafter, fun h => ?_⟩
  have hmem : restingSeven ∈
      ((machine.after foreignCancel).server.engine.book [66, 84, 67]).side false := by
    rw [side, hbefore]
    exact List.mem_singleton_self _
  obtain ⟨htraded, -⟩ := h 2 (.cancelOrder ⟨7⟩) (by decide +kernel) [66, 84, 67] false
    restingSeven hmem (by rw [howner]; decide)
  rw [Machine.after_concat] at hafter
  rcases htraded with ⟨p, hp, -⟩ | ⟨-, hqty⟩
  · have hgone : p ∈ ([] : List OrderPtr) := hafter ▸ hp
    cases hgone
  · exact absurd hqty (by decide +kernel)

end Traced

end TradingGateway.Gateway

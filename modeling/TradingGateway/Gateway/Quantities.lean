import TradingGateway.Engine.Quantities
import TradingGateway.Gateway.Trace

/-!
# Requests without quantity

`handle_new_order` and `handle_modify_order` pass on whatever quantity they are
sent, although the tables of `scripts/init.sql` ask for positive ones and the
REST interface checks for them.

* `quantities_positive_iff`: trades and resting orders have quantities along a
  run exactly when every request that is processed brings one.
* `empty_order_trades`: an order for nothing rests, and trades.
-/

namespace TradingGateway.Gateway

open Common Message Book Engine

/-- The request is no order for nothing, and no change to nothing of an order
    that the engine finds. -/
def BringsQuantity (e : MatchingEngine) : Request → Prop
  | .newOrder order => order.quantity ≠ 0
  | .modifyOrder order => order.newQuantity = 0 → ∀ key,
      e.orderIdToSymbol order.orderId = some key → (e.book key).sideOf order.orderId = none
  | .cancelOrder _ => True

/-- Commands have the quantities of their requests. -/
theorem bringsQuantity_command (e : MatchingEngine) (env : Env) (raw : Order)
    (request : Request) :
    e.BringsQuantity (GatewayServer.command env raw request) ↔ BringsQuantity e request := by
  cases request with
  | newOrder order =>
    show order.quantity.toUInt64 ≠ 0 ↔ order.quantity ≠ 0
    rw [ne_eq, ne_eq, ← UInt64.toNat_inj, ← UInt32.toNat_inj, UInt32.toNat_toUInt64]
    rfl
  | cancelOrder order => exact Iff.rfl
  | modifyOrder order =>
    show (order.newQuantity.toUInt64.toUInt32 = 0 → _) ↔ _
    rw [UInt32.toUInt32_toUInt64]
    rfl

namespace Traced

/-- The trades that a step emits. -/
def emitted (t : Traced) : Event → List Trade
  | .work S => t.server.emitted S
  | _ => []

/-- After the step every resting order has a quantity, and so has every trade
    that the step emits. -/
def PositiveStep (t : Traced) (event : Event) : Prop :=
  (t.step event).server.engine.Positive ∧ ∀ trade ∈ t.emitted event, 0 < trade.quantity

/-- If the worker processes a request in the step, the request brings a
    quantity. -/
def BringsQuantity (t : Traced) : Event → Prop
  | .work _ => ∀ m ∈ t.pending.head?, Gateway.BringsQuantity t.server.engine m.request
  | _ => True

theorem positiveStep_iff {t : Traced} (h : t.Inv) (hpos : t.server.engine.Positive)
    (event : Event) : t.PositiveStep event ↔ t.BringsQuantity event := by
  cases event with
  | connect clientFd sessionId => exact ⟨fun _ => trivial, fun _ => ⟨hpos, by simp [emitted]⟩⟩
  | disconnect clientFd => exact ⟨fun _ => trivial, fun _ => ⟨hpos, by simp [emitted]⟩⟩
  | request env clientFd request =>
    refine ⟨fun _ => trivial, fun _ => ⟨?_, by simp [emitted]⟩⟩
    show (t.server.handle env clientFd request).1.engine.Positive
    rwa [handle_engine]
  | work S =>
    show ((t.server.work S).engine.Positive ∧ ∀ trade ∈ t.server.emitted S, 0 < trade.quantity) ↔
      ∀ m ∈ t.pending.head?, Gateway.BringsQuantity t.server.engine m.request
    obtain ⟨hwork, htrades⟩ := h.work S
    rw [hwork, htrades]
    cases t.pending with
    | nil => simp [hpos]
    | cons m pending =>
      simp only [List.head?_cons, Option.mem_some_iff, forall_eq']
      rw [← bringsQuantity_command _ m.env m.raw]
      exact MatchingEngine.positiveStep_iff hpos ⟨S, m.command⟩

/-- **Quantities.** After each step of a run all resting orders, and all trades
    that it emits, have a positive quantity if and only if no request that the
    worker processes is a new order without quantity, or sets the quantity of an
    order that the engine finds to zero. -/
theorem quantities_positive_iff (events : List Event) :
    machine.Guarded PositiveStep events ↔ machine.Guarded BringsQuantity events := by
  refine machine.guarded_congr (P := fun t => t.Inv ∧ t.server.engine.Positive)
    (R := fun _ => True) ⟨inv_init, OrderBook.positive_new⟩ ?_ events (fun _ _ => trivial)
  rintro t event ⟨h, hpos⟩ -
  have hiff := positiveStep_iff h hpos event
  exact ⟨hiff, fun hbrings => ⟨h.step event, (hiff.mpr hbrings).1⟩⟩

/-- A sell of nothing and a buy of 5, at the same price. -/
def emptyOrder : List Event :=
  [.request GatewayServer.plainEnv 1
      (.newOrder ⟨1, 100, 0, strncpy 8 "BTC".toUTF8.toList, 'S'.toUInt8⟩),
    .work .insertion,
    .request GatewayServer.plainEnv 2
      (.newOrder ⟨2, 100, 5, strncpy 8 "BTC".toUTF8.toList, 'B'.toUInt8⟩),
    .work .insertion]

theorem empty_order_trades :
    (((machine.after (emptyOrder.take 2)).server.engine.book [66, 84, 67]).asks.map
        fun p => (p.id, p.quantity)) = [(1, 0)] ∧
      ((machine.after (emptyOrder.take 3)).emitted (.work .insertion)).map
        (fun t => (t.buyOrderId, t.sellOrderId, t.quantity)) = [(2, 1, 0)] ∧
      ¬ machine.Guarded PositiveStep emptyOrder := by
  have hrests : (((machine.after (emptyOrder.take 2)).server.engine.book [66, 84, 67]).asks.map
      fun p => (p.id, p.quantity)) = [(1, 0)] := by decide +kernel
  refine ⟨hrests, by decide +kernel, fun h => ?_⟩
  have hmem : ((1, 0) : UInt64 × UInt64) ∈
      (((machine.after (emptyOrder.take 2)).server.engine.book [66, 84, 67]).asks.map
        fun p => (p.id, p.quantity)) := by
    rw [hrests]
    exact List.mem_cons_self
  obtain ⟨p, hp, hpq⟩ := List.mem_map.mp hmem
  have hpos : 0 < p.quantity :=
    (h (emptyOrder.take 1) (.work .insertion) (List.take_prefix 2 emptyOrder)).1
      [66, 84, 67] false p hp
  rw [(Prod.mk.inj hpq).2] at hpos
  exact UInt64.lt_irrefl 0 hpos

end Traced

end TradingGateway.Gateway

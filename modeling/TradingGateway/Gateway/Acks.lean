import TradingGateway.Gateway.Server

/-!
# Acknowledgements

Whether the acknowledgement of a request agrees with what became of its command.
`handle_cancel_order` and `handle_modify_order` report a refused push;
`handle_new_order` cannot, since `add_order` returns nothing, and has changed
`m_order_to_client` by then. A reachable state is one to which handlers lead that
push one after the other.

* `ackTruthful_iff`: when the acknowledgement is true, in every reachable state.
* `full_queue_acknowledged`: an order that is acknowledged and not placed.
-/

namespace TradingGateway.Gateway

open Common Message Book Engine Queue

namespace GatewayServer

/-- The command of the request was put at the end of the engine's queue. -/
def Placed (g g' : GatewayServer) (env : Env) (request : Request) : Prop :=
  ∃ raw, env.heap = some raw ∧
    g'.orderQueue.waiting = g.orderQueue.waiting ++ [command env raw request]

/-- The acknowledgement says whether the command was placed, and a command that
    was not placed has left no trace. -/
def AckTruthful (g : GatewayServer) (env : Env) (clientFd : SocketFd) (request : Request) : Prop :=
  ((g.handle env clientFd request).2.accepted = true ↔
      Placed g (g.handle env clientFd request).1 env request) ∧
    (¬ Placed g (g.handle env clientFd request).1 env request →
      (g.handle env clientFd request).1.orderToClient = g.orderToClient ∧
      (g.handle env clientFd request).1.orderQueue.waiting = g.orderQueue.waiting ∧
      (g.handle env clientFd request).1.engine = g.engine)

/-- `m_tail` has not arrived at the last node. -/
def HasRoom (g : GatewayServer) : Prop := g.orderQueue.tail.val + 1 < 10000

/-- The queue is one that calls of `push` and `pop` lead to. -/
def QueueOk (g : GatewayServer) : Prop := ∃ s : Once Order, Refines g.orderQueue s

/-! ## What a handler does -/

/-- `m_order_to_client` after a request, whatever becomes of it: only
    `handle_new_order` writes to it. -/
def mapped (g : GatewayServer) (clientFd : SocketFd) : Request → UInt64 → Option SocketFd
  | .newOrder order => Function.update g.orderToClient order.orderId (some clientFd)
  | _ => g.orderToClient

/-- What a request that was pushed with the result `ok` is told:
    `handle_new_order` does not look at it. -/
def told (ok : Bool) : Request → Bool
  | .newOrder _ => true
  | _ => ok

/-- Without memory for the command nothing is pushed, and the client is told. -/
theorem handle_of_heap_none (g : GatewayServer) {env : Env} (clientFd : SocketFd)
    (request : Request) (hheap : env.heap = none) :
    (g.handle env clientFd request).1 = { g with orderToClient := g.mapped clientFd request } ∧
      (g.handle env clientFd request).2.accepted = false := by
  cases request <;>
    simp [handle, handleNewOrder, handleCancelOrder, handleModifyOrder, acknowledge, addOrder,
      cancelOrder, modifyOrder, hheap, orderAck, mapped]

/-- Otherwise the command is pushed. -/
theorem handle_of_heap_some (g : GatewayServer) {env : Env} (clientFd : SocketFd)
    (request : Request) {raw : Order} (hheap : env.heap = some raw) :
    (g.handle env clientFd request).1 =
        { g with
          orderToClient := g.mapped clientFd request
          orderQueue := (g.orderQueue.push (some (command env raw request))).2 } ∧
      (g.handle env clientFd request).2.accepted =
        told (g.orderQueue.push (some (command env raw request))).1 request := by
  cases request <;>
    simp [handle, handleNewOrder, handleCancelOrder, handleModifyOrder, acknowledge, addOrder,
      cancelOrder, modifyOrder, hheap, orderAck, command, mapped, told]

/-- The queue after a request. -/
def pushed (g : GatewayServer) (env : Env) (request : Request) : OrderQueue :=
  match env.heap with
  | none => g.orderQueue
  | some raw => (g.orderQueue.push (some (command env raw request))).2

/-- A handler writes to the map and to the queue. -/
theorem handle_fst (g : GatewayServer) (env : Env) (clientFd : SocketFd) (request : Request) :
    (g.handle env clientFd request).1 =
      { g with
        orderToClient := g.mapped clientFd request
        orderQueue := g.pushed env request } := by
  unfold pushed
  cases hheap : env.heap with
  | none => exact (g.handle_of_heap_none clientFd request hheap).1
  | some raw => exact (g.handle_of_heap_some clientFd request hheap).1

/-! ## The queue of a reachable state -/

theorem QueueOk.handle {g : GatewayServer} (h : g.QueueOk) (env : Env) (clientFd : SocketFd)
    (request : Request) : (g.handle env clientFd request).1.QueueOk := by
  obtain ⟨s, hs⟩ := h
  rw [handle_fst, QueueOk, pushed]
  cases env.heap with
  | none => exact ⟨s, hs⟩
  | some raw => exact ⟨_, (hs.push _).2⟩

theorem QueueOk.work {g : GatewayServer} (h : g.QueueOk) (S : StdSort OrderPtr) :
    (g.work S).QueueOk := by
  obtain ⟨s, hs⟩ := h
  have hpop : (g.work S).orderQueue = g.orderQueue.pop.2 := by
    rw [GatewayServer.work]
    rcases g.orderQueue.pop with ⟨_ | order, queue⟩ <;> rfl
  rw [QueueOk, hpop]
  exact ⟨_, hs.pop.2⟩

theorem queueOk_after (events : List Event) : (machine.after events).QueueOk := by
  refine machine.after_induction (P := QueueOk) ⟨_, refines_new⟩ ?_ events
  intro g event h
  cases event with
  | connect clientFd sessionId => exact h
  | disconnect clientFd => exact h
  | request env clientFd request => exact h.handle env clientFd request
  | work S => exact h.work S

/-! ## True acknowledgements -/

theorem QueueOk.truthful_iff {g : GatewayServer} (h : g.QueueOk) (env : Env)
    (clientFd : SocketFd) (request : Request) :
    g.AckTruthful env clientFd request ↔
      match request with
      | .newOrder order =>
        if env.heap.isSome then g.HasRoom else g.orderToClient order.orderId = some clientFd
      | _ => True := by
  obtain ⟨s, hs⟩ := h
  rw [AckTruthful]
  cases hheap : env.heap with
  | none =>
    obtain ⟨hstate, hack⟩ := g.handle_of_heap_none clientFd request hheap
    have hplaced : Placed g (g.handle env clientFd request).1 env request ↔ False := by
      simp [Placed, hheap]
    rw [hplaced, hack, hstate]
    cases request <;> simp [mapped, eq_comm]
  | some raw =>
    obtain ⟨hstate, hack⟩ := g.handle_of_heap_some clientFd request hheap
    obtain ⟨hok, hwaiting⟩ := hs.push_waiting (command env raw request)
    have hplaced : Placed g (g.handle env clientFd request).1 env request ↔ g.HasRoom := by
      simp only [Placed, hheap, Option.some.injEq, exists_eq_left', hstate, hwaiting, HasRoom]
      split_ifs with hroom <;> simp [hroom]
    rw [hplaced, hack, hstate, hok]
    simp only [hwaiting]
    by_cases hroom : g.orderQueue.tail.val + 1 < 10000
    · cases request <;> simp [HasRoom, hroom, told]
    · cases request <;> simp [HasRoom, hroom, told, mapped]

/-- **Acknowledgements.** In every reachable state the acknowledgement of a
    cancel or modify request is true and a refused one leaves no trace. For a
    new order this holds if and only if the queue has room, or, when there is no
    memory for the command, if the order's id is already mapped to the
    client. -/
theorem ackTruthful_iff (events : List Event) (env : Env) (clientFd : SocketFd)
    (request : Request) :
    (machine.after events).AckTruthful env clientFd request ↔
      match request with
      | .newOrder order =>
        if env.heap.isSome then (machine.after events).HasRoom
        else (machine.after events).orderToClient order.orderId = some clientFd
      | _ => True :=
  (queueOk_after events).truthful_iff env clientFd request

/-! ## A full queue -/

/-- Surroundings in which nothing fails. -/
def plainEnv : Env := ⟨some .zeroed, [], .zeroed, [], 0⟩

/-- Client 1 cancels the order 0. -/
def cancelZero : Event := .request plainEnv 1 (.cancelOrder ⟨0⟩)

/-- Each of the first 9999 requests takes one node for good. -/
theorem refines_after_replicate {k : ℕ} (hk : k ≤ 9999) :
    ∃ s : Once Order, Refines (machine.after (List.replicate k cancelZero)).orderQueue s ∧
      s.accepted = k := by
  induction k with
  | zero => exact ⟨_, refines_new, rfl⟩
  | succ k ih =>
    obtain ⟨s, hs, hacc⟩ := ih (by omega)
    rw [List.replicate_succ', Machine.after_concat]
    refine ⟨_, (hs.push (cancelCommand .zeroed 0)).2, ?_⟩
    rw [onceStep, if_pos (by omega), hacc]

theorem not_ackTruthful_of_full {g : GatewayServer} {s : Once Order} (hs : Refines g.orderQueue s)
    (hacc : s.accepted = 9999) (clientFd : SocketFd) (order : NewOrder) :
    ¬ g.AckTruthful plainEnv clientFd (.newOrder order) ∧
      (g.handle plainEnv clientFd (.newOrder order)).2.accepted = true := by
  refine ⟨?_, rfl⟩
  rw [QueueOk.truthful_iff ⟨s, hs⟩]
  have htail := hs.tail
  simp only [plainEnv, Option.isSome_some, if_true, HasRoom]
  omega

/-- A buy order for `BTC`. -/
def buyOrder : NewOrder := ⟨7, 100, 10, strncpy 8 "BTC".toUTF8.toList, 'B'.toUInt8⟩

/-- Client 2 sends an order when 9999 commands have gone into the queue: the
    order is acknowledged and not placed. -/
theorem full_queue_acknowledged :
    ¬ (machine.after (List.replicate 9999 cancelZero)).AckTruthful plainEnv 2
        (.newOrder buyOrder) ∧
      ((machine.after (List.replicate 9999 cancelZero)).handle plainEnv 2
        (.newOrder buyOrder)).2.accepted = true := by
  obtain ⟨s, hs, hacc⟩ := refines_after_replicate (k := 9999) le_rfl
  exact not_ackTruthful_of_full hs hacc 2 _

end GatewayServer

end TradingGateway.Gateway

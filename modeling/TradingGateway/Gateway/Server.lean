import TradingGateway.Engine.Model
import TradingGateway.Message.Wire
import TradingGateway.Queue.Refinement

/-!
# The gateway server

Model of `GatewayServer` (`cpp-core/order_gateway/gateway_server.cpp`): the
session maps and the handlers of the three requests, with the entry points
`add_order`, `cancel_order` and `modify_order` of the engine that they call
(`cpp-core/matching_engine/matching_engine.cpp`, lines 37–71). A handler with its
push is one step, so that the pushes of two clients do not overlap; the worker's
pass through its loop is another. Log output is left out.

What a handler gets from its surroundings is in an `Env`. `operator new` may
fail for the `Order` object; the maps' own allocations do not.
-/

namespace TradingGateway.Gateway

open Common Message Book Engine Queue

/-- `using SocketFd = int` -/
abbrev SocketFd := ℤ

/-- `using OrderQueue = LockFreeQueue<Order*, 10000>` (`matching_engine.h`,
    line 38). -/
abbrev OrderQueue := LockFreeQueue Order 10000

/-- What a handler does not determine itself. -/
structure Env where
  /-- the storage that `operator new` returns; `none` if it throws -/
  heap : Option Order
  /-- the `what()` of the exception it throws -/
  what : Bytes
  /-- the storage of the local variable `core_order` -/
  coreOrder : Order
  /-- the bytes behind the `NewOrder` that the handler is given -/
  stack : Bytes
  /-- the clock -/
  now : UInt64

/-- The members of `GatewayServer` and of its `MatchingEngine` that the handlers
    and the worker use. -/
structure GatewayServer where
  orderQueue : OrderQueue
  engine : MatchingEngine
  clientSessions : SocketFd → Option String
  orderToClient : UInt64 → Option SocketFd

/-! ## The engine's entry points -/

/-- `MatchingEngine::add_order` (lines 37–44): a refused push is only logged. -/
def addOrder (env : Env) (queue : OrderQueue) (order : Order) : Except Bytes OrderQueue :=
  match env.heap with
  | none => .error env.what
  | some raw => .ok (queue.push (some (addCommand raw order))).2

/-- `MatchingEngine::cancel_order` (lines 46–57). -/
def cancelOrder (env : Env) (queue : OrderQueue) (orderId : UInt64) :
    Except Bytes (Bool × OrderQueue) :=
  match env.heap with
  | none => .error env.what
  | some raw => .ok (queue.push (some (cancelCommand raw orderId)))

/-- `MatchingEngine::modify_order` (lines 59–71). -/
def modifyOrder (env : Env) (queue : OrderQueue) (orderId : UInt64) (newQuantity : UInt32)
    (newPrice : UInt64) : Except Bytes (Bool × OrderQueue) :=
  match env.heap with
  | none => .error env.what
  | some raw => .ok (queue.push (some (modifyCommand raw orderId newQuantity newPrice)))

namespace GatewayServer

/-- A server that has just been constructed. -/
def new : GatewayServer := ⟨.new, .empty, fun _ => none, fun _ => none⟩

/-! ## Handlers -/

/-- The `OrderAck` that `send_order_ack` (lines 193–209) sends. -/
def orderAck (env : Env) (orderId : UInt64) (accepted : Bool) (reason : Bytes) : OrderAck where
  orderId := orderId
  accepted := accepted
  timestamp := env.now
  reason := (strncpy 63 reason).push 0

/-- `std::string symbol(order.symbol)` (line 138): the read goes on behind the
    field if that has no NUL. -/
def symbolOf (env : Env) (order : NewOrder) : Symbol :=
  cString (order.symbol.toList ++ order.side :: env.stack)

/-- The local variable `core_order` (line 148). -/
def coreOrder (env : Env) (order : NewOrder) : Order :=
  Order.make env.coreOrder order.orderId order.price order.quantity.toUInt64 (symbolOf env order)
    (order.side = 'B'.toUInt8)

/-- `handle_new_order` (lines 137–161). The session map is updated first. -/
def handleNewOrder (g : GatewayServer) (env : Env) (clientFd : SocketFd) (order : NewOrder) :
    GatewayServer × OrderAck :=
  let g := { g with
    orderToClient := Function.update g.orderToClient order.orderId (some clientFd) }
  match addOrder env g.orderQueue (coreOrder env order) with
  | .ok queue => ({ g with orderQueue := queue }, orderAck env order.orderId true [])
  | .error what => (g, orderAck env order.orderId false what)

/-- The common shape of `handle_cancel_order` and `handle_modify_order`. -/
def acknowledge (g : GatewayServer) (env : Env) (orderId : UInt64) (rejected : String) :
    Except Bytes (Bool × OrderQueue) → GatewayServer × OrderAck
  | .ok (success, queue) =>
    ({ g with orderQueue := queue },
      orderAck env orderId success (if success then [] else rejected.toUTF8.toList))
  | .error what => (g, orderAck env orderId false what)

/-- `handle_cancel_order` (lines 163–176). -/
def handleCancelOrder (g : GatewayServer) (env : Env) (order : CancelOrder) :
    GatewayServer × OrderAck :=
  g.acknowledge env order.orderId "Cancel request rejected (queue full)"
    (cancelOrder env g.orderQueue order.orderId)

/-- `handle_modify_order` (lines 178–191). -/
def handleModifyOrder (g : GatewayServer) (env : Env) (order : ModifyOrder) :
    GatewayServer × OrderAck :=
  g.acknowledge env order.orderId "Modify request rejected (queue full)"
    (modifyOrder env g.orderQueue order.orderId order.newQuantity order.newPrice)

/-- The handler of each request (lines 47–60): the server afterwards and the
    acknowledgement sent to `clientFd`. -/
def handle (g : GatewayServer) (env : Env) (clientFd : SocketFd) :
    Request → GatewayServer × OrderAck
  | .newOrder order => g.handleNewOrder env clientFd order
  | .cancelOrder order => g.handleCancelOrder env order
  | .modifyOrder order => g.handleModifyOrder env order

/-- The command object that a handler pushes, in the storage `raw`. -/
def command (env : Env) (raw : Order) : Request → Order
  | .newOrder order => addCommand raw (coreOrder env order)
  | .cancelOrder order => cancelCommand raw order.orderId
  | .modifyOrder order => modifyCommand raw order.orderId order.newQuantity order.newPrice

/-! ## Sessions and the worker -/

/-- `register_client` (lines 230–237) with the generated session id. -/
def registerClient (g : GatewayServer) (clientFd : SocketFd) (sessionId : String) : GatewayServer :=
  { g with clientSessions := Function.update g.clientSessions clientFd (some sessionId) }

/-- `unregister_client` (lines 239–259). -/
def unregisterClient (g : GatewayServer) (clientFd : SocketFd) : GatewayServer :=
  { g with
    clientSessions := Function.update g.clientSessions clientFd none
    orderToClient := fun id => (g.orderToClient id).filter (· ≠ clientFd) }

/-- One pass through the loop of `process_orders` (`matching_engine.cpp`,
    lines 77–135). -/
def work (g : GatewayServer) (S : StdSort OrderPtr) : GatewayServer :=
  match g.orderQueue.pop with
  | (some order, queue) =>
    { g with orderQueue := queue, engine := (g.engine.processOrder S order).1 }
  | (none, queue) => { g with orderQueue := queue }

/-- The trades that this pass hands to the callback. -/
def emitted (g : GatewayServer) (S : StdSort OrderPtr) : List Trade :=
  match g.orderQueue.pop with
  | (some order, _) => (g.engine.processOrder S order).2
  | (none, _) => []

end GatewayServer

/-- What can happen to the server. -/
inductive Event
  | connect (clientFd : SocketFd) (sessionId : String)
  | disconnect (clientFd : SocketFd)
  | request (env : Env) (clientFd : SocketFd) (request : Request)
  | work (sort : StdSort OrderPtr)

namespace GatewayServer

def step (g : GatewayServer) : Event → GatewayServer
  | .connect clientFd sessionId => g.registerClient clientFd sessionId
  | .disconnect clientFd => g.unregisterClient clientFd
  | .request env clientFd request => (g.handle env clientFd request).1
  | .work S => g.work S

/-- The server as a machine; its runs lead to the reachable states. -/
def machine : Machine GatewayServer Event := ⟨new, step⟩

end GatewayServer

end TradingGateway.Gateway

import TradingGateway.Engine.RestingOrders
import TradingGateway.Gateway.Acks

/-!
# From requests to the engine

Between the handler that puts a command on the queue and the worker that
processes it any number of other steps may happen. A `Traced` server remembers
whose requests the waiting commands are and which commands the worker has
processed, so that what the engine does can be put down to a request.

* `server_after`: remembering changes nothing.
* `inv_after`: the commands that wait in the queue are those of the pending
  requests, in order, and the books are those of an engine that has processed
  the others.
* `Inv.work`: the worker processes the command of the first pending request.
-/

namespace TradingGateway.Gateway

open Common Message Book Engine Queue

/-- A request whose command a handler has put on the queue. -/
structure Submission where
  clientFd : SocketFd
  request : Request
  env : Env
  /-- the storage in which the command was allocated -/
  raw : Order

/-- The command that was put on the queue. -/
def Submission.command (m : Submission) : Order := GatewayServer.command m.env m.raw m.request

theorem command_id (env : Env) (raw : Order) (request : Request) :
    (GatewayServer.command env raw request).id = request.orderId := by
  cases request <;> rfl

/-- The server, the requests whose commands wait, and those whose commands were
    processed, with the sort that was used. -/
structure Traced where
  server : GatewayServer
  pending : List Submission
  processed : List (Submission × StdSort OrderPtr)

namespace Traced

/-- The commands that were processed. -/
def inputs (t : Traced) : List Input := t.processed.map fun r => ⟨r.2, r.1.command⟩

/-- What a request adds to those pending. -/
def submitted (g : GatewayServer) (env : Env) (clientFd : SocketFd) (request : Request) :
    List Submission :=
  match env.heap with
  | none => []
  | some raw =>
    if (g.orderQueue.push (some (GatewayServer.command env raw request))).1 then
      [⟨clientFd, request, env, raw⟩]
    else []

def step (t : Traced) (event : Event) : Traced :=
  match event with
  | .request env clientFd request =>
    { server := t.server.step event
      pending := t.pending ++ submitted t.server env clientFd request
      processed := t.processed }
  | .work S =>
    { server := t.server.step event
      pending := t.pending.tail
      processed := t.processed ++ t.pending.head?.toList.map (·, S) }
  | _ => { t with server := t.server.step event }

def machine : Machine Traced Event := ⟨⟨.new, [], []⟩, step⟩

theorem server_step (t : Traced) (event : Event) :
    (t.step event).server = t.server.step event := by
  cases event <;> rfl

theorem server_after (events : List Event) :
    (machine.after events).server = GatewayServer.machine.after events := by
  induction events using List.reverseRecOn with
  | nil => rfl
  | append_singleton events event ih =>
    rw [Machine.after_concat, Machine.after_concat, ← ih]
    exact server_step _ event

/-! ## The invariant -/

/-- The queue holds the commands of the pending requests, and the engine has
    processed the others. -/
structure Inv (t : Traced) : Prop where
  queue : ∃ s : Once Order, Refines t.server.orderQueue s ∧
    s.waiting = t.pending.map Submission.command
  engine : t.server.engine = MatchingEngine.after t.inputs

/-- `pop` returns the command of the first pending request. -/
theorem Inv.pop {t : Traced} (h : t.Inv) :
    t.server.orderQueue.pop.1 = t.pending.head?.map Submission.command := by
  obtain ⟨s, hs, hwaiting⟩ := h.queue
  rw [hs.pop_oldest.1, hwaiting, List.head?_map]

/-- The worker processes the command of the first pending request. -/
theorem Inv.work {t : Traced} (h : t.Inv) (S : StdSort OrderPtr) :
    t.server.work S =
        { t.server with
          orderQueue := t.server.orderQueue.pop.2
          engine := match t.pending with
            | [] => t.server.engine
            | m :: _ => (t.server.engine.processOrder S m.command).1 } ∧
      t.server.emitted S =
        match t.pending with
        | [] => []
        | m :: _ => (t.server.engine.processOrder S m.command).2 := by
  have hpop := h.pop
  rw [GatewayServer.work, GatewayServer.emitted]
  rcases hresult : t.server.orderQueue.pop with ⟨result, queue⟩
  rw [hresult] at hpop
  cases hpending : t.pending with
  | nil =>
    rw [hpending] at hpop
    obtain rfl : result = none := hpop
    exact ⟨rfl, rfl⟩
  | cons m pending =>
    rw [hpending] at hpop
    obtain rfl : result = some m.command := hpop
    exact ⟨rfl, rfl⟩

theorem Inv.engine_work {t : Traced} (h : t.Inv) (S : StdSort OrderPtr) :
    (t.server.work S).engine = MatchingEngine.after (t.step (.work S)).inputs := by
  rw [(h.work S).1, inputs, step, List.map_append]
  cases t.pending with
  | nil => simpa [inputs] using h.engine
  | cons m pending =>
    show (t.server.engine.processOrder S m.command).1 = MatchingEngine.after (t.inputs ++ [_])
    rw [MatchingEngine.after_snoc, ← h.engine]
    rfl

theorem Inv.queue_work {t : Traced} (h : t.Inv) (S : StdSort OrderPtr) :
    ∃ s : Once Order, Refines (t.server.work S).orderQueue s ∧
      s.waiting = t.pending.tail.map Submission.command := by
  obtain ⟨s, hs, hwaiting⟩ := h.queue
  rw [(h.work S).1]
  refine ⟨_, hs.pop_oldest.2, ?_⟩
  rw [hwaiting, List.map_tail]

theorem Inv.queue_request {t : Traced} (h : t.Inv) (env : Env) (clientFd : SocketFd)
    (request : Request) :
    ∃ s : Once Order, Refines (t.server.handle env clientFd request).1.orderQueue s ∧
      s.waiting =
        (t.pending ++ submitted t.server env clientFd request).map Submission.command := by
  obtain ⟨s, hs, hwaiting⟩ := h.queue
  rw [submitted]
  cases hheap : env.heap with
  | none =>
    rw [(t.server.handle_of_heap_none clientFd request hheap).1, List.append_nil]
    exact ⟨s, hs, hwaiting⟩
  | some raw =>
    rw [(t.server.handle_of_heap_some clientFd request hheap).1]
    obtain ⟨hresult, hrefines⟩ := hs.push (GatewayServer.command env raw request)
    refine ⟨_, hrefines, ?_⟩
    rw [onceStep] at hresult ⊢
    split_ifs at hresult ⊢ with hroom
    · have hok : (t.server.orderQueue.push _).1 = true := QueueResult.pushed.inj hresult
      simp [hok, hwaiting, Submission.command]
    · have hok : (t.server.orderQueue.push _).1 = false := QueueResult.pushed.inj hresult
      simp [hok, hwaiting]

theorem inv_init : machine.init.Inv := ⟨⟨_, refines_new, rfl⟩, rfl⟩

theorem handle_engine (g : GatewayServer) (env : Env) (clientFd : SocketFd) (request : Request) :
    (g.handle env clientFd request).1.engine = g.engine := by
  rw [GatewayServer.handle_fst]

theorem Inv.step {t : Traced} (h : t.Inv) (event : Event) : (t.step event).Inv := by
  cases event with
  | connect clientFd sessionId => exact ⟨h.queue, h.engine⟩
  | disconnect clientFd => exact ⟨h.queue, h.engine⟩
  | request env clientFd request =>
    exact ⟨h.queue_request env clientFd request, (handle_engine _ _ _ _).trans h.engine⟩
  | work S => exact ⟨h.queue_work S, h.engine_work S⟩

theorem inv_after (events : List Event) : (machine.after events).Inv :=
  machine.after_induction inv_init (fun _ event h => h.step event) events

end Traced

end TradingGateway.Gateway

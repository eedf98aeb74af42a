import TradingGateway.Gateway.Trace

/-!
# When the worker runs does not matter

Handlers put commands on the queue and the worker takes them out, in any order
of steps. A handler's push is part of its step, so that no two pushes overlap. As
long as this is so the queue neither reorders nor loses commands, and what the
engine becomes and which trades it emits is a function of the commands alone.
Commands after the first 9999 that got memory never reach the engine: `m_tail` has
come to the last node by then. What the queue does when pushes overlap is in
`Queue.Delivery`.

* `commands`: the commands of the requests of a run that got memory.
* `commands_in_order`: what was processed and what waits are the first 9999 of
  these, in order, and the trades are those of an engine that is given the
  processed ones.
* `schedule_irrelevant`: once the worker has caught up, the engine and all
  trades are those of the first 9999 commands, whatever `std::sort` it is that
  the worker uses all along.
-/

namespace TradingGateway.Engine

open Message

/-- The trades that the engine emits for a command. -/
def MatchingEngine.tradesOf (e : MatchingEngine) (i : Input) : List Trade :=
  (e.processOrder i.sort i.order).2

end TradingGateway.Engine

namespace TradingGateway.Gateway

open Common Message Book Engine Queue

/-- The command of a request that gets memory for it. -/
def Event.command : Event → Option Order
  | .request env _ req => env.heap.map fun raw => GatewayServer.command env raw req
  | _ => none

/-- The commands of the requests that got memory. -/
def commands (events : List Event) : List Order := events.filterMap Event.command

theorem commands_concat (events : List Event) (event : Event) :
    commands (events ++ [event]) = commands events ++ event.command.toList := by
  unfold commands
  rw [List.filterMap_append, List.filterMap_cons, List.filterMap_nil]
  cases event.command <;> rfl

/-- The trades that a step hands to the callback. -/
def GatewayServer.trades (g : GatewayServer) : Event → List Trade
  | .work S => g.emitted S
  | _ => []

/-- The sort of a pass of the worker that finds a command. -/
def GatewayServer.sorts (g : GatewayServer) : Event → List (StdSort OrderPtr)
  | .work S => if g.orderQueue.pop.1.isSome then [S] else []
  | _ => []

/-! ## What was processed and what waits -/

namespace Traced

/-- The number of commands that the queue has accepted. -/
def accepted (t : Traced) : ℕ := t.processed.length + t.pending.length

/-- The queue has accepted the commands that were processed and those that wait,
    and holds the latter. -/
def Counted (t : Traced) : Prop :=
  Refines t.server.orderQueue ⟨t.accepted, t.pending.map Submission.command⟩

/-- A request is submitted if it gets memory and the queue has accepted fewer than
    9999 commands. -/
theorem Counted.request {t : Traced} (h : t.Counted) (env : Env) (clientFd : SocketFd)
    (request : Request) :
    (t.step (.request env clientFd request)).Counted ∧
      (submitted t.server env clientFd request).map Submission.command =
        if t.accepted < 9999 then (Event.request env clientFd request).command.toList else [] := by
  have hserver : (t.step (.request env clientFd request)).server.orderQueue =
      (t.server.handle env clientFd request).1.orderQueue := rfl
  have hpending : (t.step (.request env clientFd request)).pending =
      t.pending ++ submitted t.server env clientFd request := rfl
  have hprocessed : (t.step (.request env clientFd request)).processed = t.processed := rfl
  unfold Counted accepted
  rw [hserver, hpending, hprocessed, submitted, Event.command]
  cases hheap : env.heap with
  | none =>
    rw [(t.server.handle_of_heap_none clientFd request hheap).1, List.append_nil]
    refine ⟨h, ?_⟩
    split_ifs <;> rfl
  | some raw =>
    rw [(t.server.handle_of_heap_some clientFd request hheap).1]
    obtain ⟨hresult, hrefines⟩ := Refines.push h (GatewayServer.command env raw request)
    rw [onceStep] at hresult hrefines
    by_cases hroom : t.processed.length + t.pending.length < 9999
    · have hlt : t.accepted < 10000 - 1 := hroom
      rw [if_pos hlt] at hresult hrefines
      have hok : (t.server.orderQueue.push _).1 = true := QueueResult.pushed.inj hresult
      simp only [hok, if_true, if_pos hroom, List.map_append, List.length_append]
      exact ⟨hrefines, rfl⟩
    · have hge : ¬ t.accepted < 10000 - 1 := hroom
      rw [if_neg hge] at hresult hrefines
      have hok : (t.server.orderQueue.push _).1 = false := QueueResult.pushed.inj hresult
      simp only [hok, Bool.false_eq_true, if_false, if_neg hroom, List.append_nil]
      exact ⟨hrefines, rfl⟩

theorem Counted.work {t : Traced} (h : t.Counted) (hinv : t.Inv) (S : StdSort OrderPtr) :
    (t.step (.work S)).Counted := by
  have hpop := (Refines.pop_oldest h).2
  have hqueue : (t.step (.work S)).server.orderQueue = t.server.orderQueue.pop.2 := by
    show (t.server.work S).orderQueue = _
    rw [(hinv.work S).1]
  have htotal : (t.step (.work S)).accepted = t.accepted := by
    show (t.processed ++ t.pending.head?.toList.map (·, S)).length + t.pending.tail.length =
      t.processed.length + t.pending.length
    cases t.pending with
    | nil => simp
    | cons m pending =>
      simp only [List.head?_cons, Option.toList_some, List.map_cons, List.map_nil,
        List.length_append, List.length_nil, List.tail_cons, List.length_cons]
      omega
  unfold Counted
  rw [hqueue, htotal]
  show Refines _ ⟨_, t.pending.tail.map Submission.command⟩
  rw [List.map_tail]
  exact hpop

theorem counted_after (events : List Event) : (machine.after events).Counted := by
  induction events using List.reverseRecOn with
  | nil => exact refines_new
  | append_singleton events event ih =>
    rw [Machine.after_concat]
    cases event with
    | connect clientFd sessionId => exact ih
    | disconnect clientFd => exact ih
    | request env clientFd request => exact (ih.request env clientFd request).1
    | work S => exact ih.work (inv_after events) S

/-- The commands that were processed, followed by those that wait. -/
def orders (t : Traced) : List Order :=
  t.inputs.map Input.order ++ t.pending.map Submission.command

theorem length_orders (t : Traced) : t.orders.length = t.accepted := by
  simp [orders, inputs, accepted]

theorem orders_work (t : Traced) (S : StdSort OrderPtr) :
    (t.step (.work S)).orders = t.orders := by
  show (List.map _ (t.processed ++ t.pending.head?.toList.map (·, S))).map _ ++
    t.pending.tail.map _ = _
  unfold orders inputs
  cases t.pending with
  | nil => simp
  | cons m pending => simp

theorem orders_after (events : List Event) :
    (machine.after events).orders = (commands events).take 9999 := by
  induction events using List.reverseRecOn with
  | nil => rfl
  | append_singleton events event ih =>
    rw [Machine.after_concat, commands_concat]
    cases event with
    | connect clientFd sessionId =>
      show (machine.after events).orders = (commands events ++ []).take 9999
      rw [List.append_nil, ih]
    | disconnect clientFd =>
      show (machine.after events).orders = (commands events ++ []).take 9999
      rw [List.append_nil, ih]
    | work S =>
      show ((machine.after events).step (.work S)).orders = (commands events ++ []).take 9999
      rw [List.append_nil, orders_work, ih]
    | request env clientFd request =>
      have hsubmitted := ((counted_after events).request env clientFd request).2
      have hlength := congrArg List.length ih
      rw [length_orders, List.length_take] at hlength
      have horders : ((machine.after events).step (.request env clientFd request)).orders =
          (machine.after events).orders ++
            (submitted (machine.after events).server env clientFd request).map
              Submission.command := by
        show _ ++ List.map _ (_ ++ _) = _
        rw [List.map_append, ← List.append_assoc]
        rfl
      show ((machine.after events).step (.request env clientFd request)).orders = _
      rw [horders, hsubmitted, ih]
      split_ifs with hroom
      · rw [List.take_of_length_le (by omega), List.take_of_length_le]
        simp only [List.length_append]
        cases (Event.request env clientFd request).command <;> simp <;> omega
      · rw [List.append_nil, List.take_append_of_le_length (by omega)]

/-! ## The trades -/

theorem inputs_work (t : Traced) (S : StdSort OrderPtr) :
    (t.step (.work S)).inputs =
      t.inputs ++ t.pending.head?.toList.map fun m => ⟨S, m.command⟩ := by
  show (t.processed ++ t.pending.head?.toList.map (·, S)).map _ = _
  rw [List.map_append, List.map_map]
  rfl

/-- The sorts with which the commands were processed. -/
theorem sorts_after (events : List Event) :
    (machine.after events).inputs.map Input.sort =
      GatewayServer.machine.collect GatewayServer.sorts events := by
  induction events using List.reverseRecOn with
  | nil => rfl
  | append_singleton events event ih =>
    rw [Machine.collect_concat, Machine.after_concat, ← ih, ← server_after]
    cases event with
    | connect clientFd sessionId => exact (List.append_nil _).symm
    | disconnect clientFd => exact (List.append_nil _).symm
    | request env clientFd request => exact (List.append_nil _).symm
    | work S =>
      show ((machine.after events).step (.work S)).inputs.map _ = _
      rw [inputs_work, List.map_append]
      dsimp only [GatewayServer.sorts]
      rw [(inv_after events).pop]
      cases (machine.after events).pending <;> rfl

/-- The trades of a step are those of the command that it adds to the processed
    ones. -/
theorem Inv.trades_step {t : Traced} (h : t.Inv) (event : Event) :
    ∃ new, (t.step event).inputs = t.inputs ++ new ∧
      t.server.trades event =
        MatchingEngine.machine.collectFrom MatchingEngine.tradesOf t.server.engine new := by
  cases event with
  | connect clientFd sessionId => exact ⟨[], (List.append_nil _).symm, rfl⟩
  | disconnect clientFd => exact ⟨[], (List.append_nil _).symm, rfl⟩
  | request env clientFd request => exact ⟨[], (List.append_nil _).symm, rfl⟩
  | work S =>
    refine ⟨_, t.inputs_work S, ?_⟩
    show t.server.emitted S = _
    rw [(h.work S).2]
    cases t.pending with
    | nil => rfl
    | cons m pending => exact (List.append_nil _).symm

theorem trades_after (events : List Event) :
    GatewayServer.machine.collect GatewayServer.trades events =
      MatchingEngine.machine.collect MatchingEngine.tradesOf (machine.after events).inputs := by
  induction events using List.reverseRecOn with
  | nil => rfl
  | append_singleton events event ih =>
    obtain ⟨new, hinputs, htrades⟩ := (inv_after events).trades_step event
    rw [Machine.collect_concat, Machine.after_concat, ih, ← server_after]
    show _ = MatchingEngine.machine.collect _ ((machine.after events).step event).inputs
    rw [hinputs, htrades, (inv_after events).engine, Machine.collect_append]

/-! ## The worker catches up -/

theorem pending_after_works (events : List Event) (S : StdSort OrderPtr) (k : ℕ) :
    (machine.after (events ++ List.replicate k (.work S))).pending =
      (machine.after events).pending.drop k := by
  induction k with
  | zero => simp
  | succ k ih =>
    rw [List.replicate_succ', ← List.append_assoc, Machine.after_concat]
    show (machine.after _).pending.tail = _
    rw [ih, List.tail_drop]

/-- The worker uses one sort all along. -/
theorem sort_of_mem_inputs {S : StdSort OrderPtr} {events : List Event}
    (hS : ∀ S', Event.work S' ∈ events → S' = S) :
    ∀ i ∈ (machine.after events).inputs, i.sort = S := by
  induction events using List.reverseRecOn with
  | nil => intro i hi; exact absurd hi List.not_mem_nil
  | append_singleton events event ih =>
    have hi := ih fun S' hS' => hS S' (List.mem_append_left _ hS')
    rw [Machine.after_concat]
    cases event with
    | connect clientFd sessionId => exact hi
    | disconnect clientFd => exact hi
    | request env clientFd request => exact hi
    | work S' =>
      obtain rfl : S' = S := hS S' (by simp)
      intro i hmem
      have hmem : i ∈ ((machine.after events).step (.work S')).inputs := hmem
      rw [inputs_work] at hmem
      rcases List.mem_append.mp hmem with hold | hnew
      · exact hi i hold
      · obtain ⟨m, -, rfl⟩ := List.mem_map.mp hnew
        rfl

theorem waiting_after (events : List Event) :
    (GatewayServer.machine.after events).orderQueue.waiting =
      (machine.after events).pending.map Submission.command := by
  rw [← server_after]
  exact Refines.waiting_eq (counted_after events)

end Traced

/-- **Commands reach the engine in order.** In every run, in which a request with
    its push is one step, the commands that the worker has processed, followed by
    those that wait in the queue, are the first 9999 commands for which a handler got
    memory, in the order of the requests.
    The engine and the trades are those of an engine that is given the processed
    commands one after the other, with the sorts of the passes that took them. -/
theorem commands_in_order (events : List Event) :
    let g := GatewayServer.machine.after events
    ∃ inputs : List Input,
      inputs.map Input.order ++ g.orderQueue.waiting = (commands events).take 9999 ∧
      inputs.map Input.sort = GatewayServer.machine.collect GatewayServer.sorts events ∧
      g.engine = MatchingEngine.after inputs ∧
      GatewayServer.machine.collect GatewayServer.trades events =
        MatchingEngine.machine.collect MatchingEngine.tradesOf inputs := by
  intro g
  refine ⟨(Traced.machine.after events).inputs, ?_, Traced.sorts_after events, ?_,
    Traced.trades_after events⟩
  · rw [Traced.waiting_after]
    exact Traced.orders_after events
  · show (GatewayServer.machine.after events).engine = _
    rw [← Traced.server_after]
    exact (Traced.inv_after events).engine

/-- **The schedule does not matter.** Whenever in a run the worker makes its
    passes, as soon as it has made as many more as commands were waiting the queue
    is empty, and the engine and all trades are those of the first 9999 commands
    for which a handler got memory. -/
theorem schedule_irrelevant (S : StdSort OrderPtr) (events : List Event)
    (hS : ∀ S', Event.work S' ∈ events → S' = S) (k : ℕ)
    (hk : (GatewayServer.machine.after events).orderQueue.waiting.length ≤ k) :
    let run := events ++ List.replicate k (.work S)
    let inputs := ((commands events).take 9999).map (Input.mk S)
    (GatewayServer.machine.after run).orderQueue.waiting = [] ∧
      (GatewayServer.machine.after run).engine = MatchingEngine.after inputs ∧
      GatewayServer.machine.collect GatewayServer.trades run =
        MatchingEngine.machine.collect MatchingEngine.tradesOf inputs := by
  intro run inputs
  rw [Traced.waiting_after, List.length_map] at hk
  have hpending : (Traced.machine.after run).pending = [] := by
    rw [Traced.pending_after_works]
    exact List.drop_eq_nil_of_le hk
  have hcommands : commands run = commands events := by
    show List.filterMap _ (events ++ List.replicate k _) = _
    rw [List.filterMap_append, List.filterMap_replicate_of_none rfl, List.append_nil]
    rfl
  have hsort : ∀ i ∈ (Traced.machine.after run).inputs, i.sort = S := by
    apply Traced.sort_of_mem_inputs
    intro S' hS'
    rcases List.mem_append.mp hS' with hold | hnew
    · exact hS S' hold
    · exact Event.work.inj (List.eq_of_mem_replicate hnew)
  have hinputs : (Traced.machine.after run).inputs = inputs := by
    have horders := Traced.orders_after run
    rw [hcommands, Traced.orders, hpending, List.map_nil, List.append_nil] at horders
    show _ = ((commands events).take 9999).map (Input.mk S)
    rw [← horders, List.map_map]
    conv_lhs => rw [← List.map_id (Traced.machine.after run).inputs]
    apply List.map_congr_left
    intro i hi
    show i = ⟨S, i.order⟩
    rw [← hsort i hi]
  refine ⟨?_, ?_, ?_⟩
  · rw [Traced.waiting_after, hpending]
    rfl
  · rw [← Traced.server_after, (Traced.inv_after run).engine, hinputs]
  · rw [Traced.trades_after, hinputs]

/-- A buy that the worker takes at once, and a cancel that waits. -/
def lateCancel : List Event :=
  [.request GatewayServer.plainEnv 4 (.newOrder GatewayServer.buyOrder), .work .insertion,
    .request GatewayServer.plainEnv 4 (.cancelOrder ⟨7⟩)]

theorem lateCancel_caught_up :
    (GatewayServer.machine.after (lateCancel ++ [.work .insertion])).engine =
      MatchingEngine.after (((commands lateCancel).take 9999).map (Input.mk .insertion)) := by
  refine (schedule_irrelevant .insertion lateCancel ?_ 1 ?_).2.1
  · simp [lateCancel]
  · decide +kernel

end TradingGateway.Gateway

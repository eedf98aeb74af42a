import TradingGateway.Gateway.Schedule
import TradingGateway.Gateway.Sessions

/-!
# Trades are reported in order

The worker hands the trades of a command to the callback one by one, and the
callback writes to the buyer and then to the seller; between any two of these
steps the threads of the clients take steps of their own.

* `events`: a run of all threads, seen from the queue: the pushes and the passes
  of the worker.
* `follows_after`: the queue and the engine are those of the run of these events.
* `reports_in_order`: what was written to the clients is, trade by trade and in
  the order in which an engine emits them, at most one notification to the buyer
  and at most one to the seller. They go to whoever has the descriptors open, when
  they are sent, that were recorded for the two orders when they were looked up.
-/

namespace TradingGateway.Gateway

open Common Message Book Engine Queue

/-- The trade that the callback has been given. -/
def Callback.trades : Callback → List Trade
  | .idle => []
  | .lookedUp trade _ _ => [trade]
  | .buyerNotified trade _ => [trade]

/-- What was written for the trade that the callback has been given, if it was
    reported to `buyer`. -/
def Callback.written (buyer : Option ℕ) : Callback → List (ℕ × Trade)
  | .buyerNotified trade _ => buyer.toList.map (·, trade)
  | _ => []

namespace Sessions

/-! ## The queue and the engine -/

/-- What a step is for the queue and the engine. -/
def eventOf (s : Sessions) : Action → Option Event
  | .push c =>
    match s.connection c with
    | some ⟨fd, .handling _ env request⟩ => some (.request env fd request)
    | _ => none
  | .work S =>
    match s.callback, s.trades with
    | .idle, [] => some (.work S)
    | _, _ => none
  | _ => none

/-- The pushes and the passes of the worker in a run, in order. -/
def events (actions : List Action) : List Event :=
  machine.collect (fun s action => (s.eventOf action).toList) actions

/-- What a step can do to the queue, the engine, the callback and what was
    written, with the event that it is. -/
inductive Move (s s' : Sessions) (action : Action) : Option Event → Prop
  | quiet (hqueue : s'.server.orderQueue = s.server.orderQueue)
      (hengine : s'.server.engine = s.server.engine) (htrades : s'.trades = s.trades)
      (hcallback : s'.callback = s.callback) (hwritten : s'.written = s.written) :
      Move s s' action none
  | push (env : Env) (fd : SocketFd) (request : Request)
      (hserver : s'.server = s.server.pushCommand env fd request) (htrades : s'.trades = s.trades)
      (hcallback : s'.callback = s.callback) (hwritten : s'.written = s.written) :
      Move s s' action (some (.request env fd request))
  | work (S : StdSort OrderPtr) (hidle : s.callback = .idle) (hnil : s.trades = [])
      (hserver : s'.server = s.server.work S) (htrades : s'.trades = s.server.emitted S)
      (hcallback : s'.callback = .idle) (hwritten : s'.written = s.written) :
      Move s s' action (some (.work S))
  | lookUp (trade : Trade) (haction : action = .lookUp) (hidle : s.callback = .idle)
      (hserver : s'.server = s.server) (htrades : s.trades = trade :: s'.trades)
      (hcallback : s'.callback =
        .lookedUp trade (s.fdOf trade.buyOrderId) (s.fdOf trade.sellOrderId))
      (hwritten : s'.written = s.written) : Move s s' action none
  | notifyBuyer (trade : Trade) (buyerFd sellerFd : SocketFd) (haction : action = .notifyBuyer)
      (hold : s.callback = .lookedUp trade buyerFd sellerFd) (hserver : s'.server = s.server)
      (htrades : s'.trades = s.trades) (hcallback : s'.callback = .buyerNotified trade sellerFd)
      (hwritten : s'.written = s.written ++ s.notified buyerFd trade) : Move s s' action none
  | notifySeller (trade : Trade) (sellerFd : SocketFd) (haction : action = .notifySeller)
      (hold : s.callback = .buyerNotified trade sellerFd) (hserver : s'.server = s.server)
      (htrades : s'.trades = s.trades) (hcallback : s'.callback = .idle)
      (hwritten : s'.written = s.written ++ s.notified sellerFd trade) : Move s s' action none

theorem move_step (s : Sessions) (action : Action) :
    Move s (s.step action) action (s.eventOf action) := by
  cases action with
  | accept c fd =>
    show Move s (if _ then _ else s) _ none
    split_ifs
    · exact .quiet rfl rfl rfl rfl rfl
    · exact .quiet rfl rfl rfl rfl rfl
  | register c sessionId =>
    show Move s _ _ none
    rw [Sessions.step]
    split
    · exact .quiet rfl rfl rfl rfl rfl
    · exact .quiet rfl rfl rfl rfl rfl
  | message c env request =>
    show Move s _ _ none
    rw [Sessions.step]
    split
    · exact .quiet rfl rfl rfl rfl rfl
    · exact .quiet rfl rfl rfl rfl rfl
  | push c =>
    rcases hc : s.connection c with - | ⟨fd, phase⟩
    · simp only [Sessions.step, eventOf, hc]
      exact .quiet rfl rfl rfl rfl rfl
    · cases phase with
      | handling sessionId env request =>
        simp only [Sessions.step, eventOf, hc]
        exact .push env fd request rfl rfl rfl rfl
      | accepted | serving | unregistered | closed =>
        simp only [Sessions.step, eventOf, hc]
        exact .quiet rfl rfl rfl rfl rfl
  | unregister c =>
    show Move s _ _ none
    rw [Sessions.step]
    split
    · exact .quiet rfl rfl rfl rfl rfl
    · exact .quiet rfl rfl rfl rfl rfl
  | close c =>
    show Move s _ _ none
    rw [Sessions.step]
    split
    · exact .quiet rfl rfl rfl rfl rfl
    · exact .quiet rfl rfl rfl rfl rfl
  | work S =>
    cases hcallback : s.callback with
    | idle =>
      cases htrades : s.trades with
      | nil =>
        simp only [Sessions.step, eventOf, hcallback, htrades]
        exact .work S hcallback htrades rfl rfl rfl rfl
      | cons trade trades =>
        simp only [Sessions.step, eventOf, hcallback, htrades]
        exact .quiet rfl rfl rfl rfl rfl
    | lookedUp | buyerNotified =>
      simp only [Sessions.step, eventOf, hcallback]
      exact .quiet rfl rfl rfl rfl rfl
  | lookUp =>
    show Move s _ _ none
    cases hcallback : s.callback with
    | idle =>
      cases htrades : s.trades with
      | nil =>
        simp only [Sessions.step, hcallback, htrades]
        exact .quiet rfl rfl rfl rfl rfl
      | cons trade trades =>
        simp only [Sessions.step, hcallback, htrades]
        exact .lookUp trade rfl hcallback rfl htrades rfl rfl
    | lookedUp | buyerNotified =>
      simp only [Sessions.step, hcallback]
      exact .quiet rfl rfl rfl rfl rfl
  | notifyBuyer =>
    show Move s _ _ none
    cases hcallback : s.callback with
    | lookedUp trade buyerFd sellerFd =>
      simp only [Sessions.step, hcallback]
      exact .notifyBuyer trade buyerFd sellerFd rfl hcallback rfl rfl rfl rfl
    | idle | buyerNotified =>
      simp only [Sessions.step, hcallback]
      exact .quiet rfl rfl rfl rfl rfl
  | notifySeller =>
    show Move s _ _ none
    cases hcallback : s.callback with
    | buyerNotified trade sellerFd =>
      simp only [Sessions.step, hcallback]
      exact .notifySeller trade sellerFd rfl hcallback rfl rfl rfl rfl
    | idle | lookedUp =>
      simp only [Sessions.step, hcallback]
      exact .quiet rfl rfl rfl rfl rfl

/-- The queue and the engine are those of `g`. -/
structure Follows (s : Sessions) (g : GatewayServer) : Prop where
  orderQueue : s.server.orderQueue = g.orderQueue
  engine : s.server.engine = g.engine

theorem Follows.of_eq {s s' : Sessions} {g : GatewayServer} (h : s.Follows g)
    (hserver : s'.server = s.server) : s'.Follows g := by
  constructor
  · rw [hserver, h.orderQueue]
  · rw [hserver, h.engine]

theorem Follows.emitted {s : Sessions} {g : GatewayServer} (h : s.Follows g)
    (S : StdSort OrderPtr) : s.server.emitted S = g.emitted S := by
  unfold GatewayServer.emitted
  rw [h.orderQueue, h.engine]

theorem Follows.work {s : Sessions} {g : GatewayServer} (h : s.Follows g)
    (S : StdSort OrderPtr) :
    (s.server.work S).orderQueue = (g.work S).orderQueue ∧
      (s.server.work S).engine = (g.work S).engine := by
  unfold GatewayServer.work
  rw [h.orderQueue, h.engine]
  rcases g.orderQueue.pop with ⟨- | order, queue⟩
  · exact ⟨rfl, rfl⟩
  · exact ⟨rfl, rfl⟩

theorem Follows.push {s : Sessions} {g : GatewayServer} (h : s.Follows g) (env : Env)
    (fd : SocketFd) (request : Request) :
    (s.server.pushCommand env fd request).orderQueue = (g.handle env fd request).1.orderQueue ∧
      (s.server.pushCommand env fd request).engine = (g.handle env fd request).1.engine := by
  rw [GatewayServer.pushCommand, GatewayServer.handle_fst, GatewayServer.handle_fst]
  refine ⟨?_, h.engine⟩
  show s.server.pushed env request = g.pushed env request
  unfold GatewayServer.pushed
  rw [h.orderQueue]

/-- The event of a step does to the queue and the engine what the step does. -/
theorem Follows.step {s : Sessions} {g : GatewayServer} (h : s.Follows g) (action : Action) :
    (s.step action).Follows ((s.eventOf action).toList.foldl GatewayServer.machine.step g) := by
  have hmove := s.move_step action
  generalize s.step action = s' at hmove ⊢
  generalize s.eventOf action = event at hmove ⊢
  cases hmove with
  | quiet hqueue hengine => exact ⟨hqueue.trans h.orderQueue, hengine.trans h.engine⟩
  | push env fd request hserver =>
    constructor
    · rw [hserver]
      exact (h.push env fd request).1
    · rw [hserver]
      exact (h.push env fd request).2
  | work S _ _ hserver =>
    constructor
    · rw [hserver]
      exact (h.work S).1
    · rw [hserver]
      exact (h.work S).2
  | lookUp _ _ _ hserver => exact h.of_eq hserver
  | notifyBuyer _ _ _ _ _ hserver => exact h.of_eq hserver
  | notifySeller _ _ _ _ hserver => exact h.of_eq hserver

theorem follows_after (actions : List Action) :
    (machine.after actions).Follows (GatewayServer.machine.after (events actions)) :=
  machine.simulation ⟨rfl, rfl⟩ (fun _ _ action h => h.step action) actions

/-! ## Reports -/

/-- The connection that gets what is sent to `fd`. -/
def target (s : Sessions) (fd : SocketFd) : Option ℕ :=
  if fd = -1 then none else s.descriptors fd

theorem notified_eq (s : Sessions) (fd : SocketFd) (trade : Trade) :
    s.notified fd trade = (s.target fd).toList.map (·, trade) := by
  unfold notified target
  split_ifs <;> rfl

end Sessions

/-- A trade for which the callback was called, and the steps of the run in which it
    looked the descriptors up and sent to the buyer and to the seller. -/
structure Report where
  trade : Trade
  lookUp : ℕ
  toBuyer : ℕ
  toSeller : ℕ

namespace Report

variable (actions : List Sessions.Action) (r : Report)

/-- The descriptors recorded for the two orders when they were looked up. -/
def buyerFd : SocketFd := (Sessions.machine.before actions r.lookUp).fdOf r.trade.buyOrderId
def sellerFd : SocketFd := (Sessions.machine.before actions r.lookUp).fdOf r.trade.sellOrderId

/-- The connection that the buyer's descriptor refers to when the notification is
    sent. -/
def buyer : Option ℕ := (Sessions.machine.before actions r.toBuyer).target (r.buyerFd actions)

/-- The same for the seller. -/
def seller : Option ℕ := (Sessions.machine.before actions r.toSeller).target (r.sellerFd actions)

/-- What was written for the trade, the buyer first. -/
def written : List (ℕ × Trade) :=
  (r.buyer actions).toList.map (·, r.trade) ++ (r.seller actions).toList.map (·, r.trade)

/-- The descriptors were looked up. -/
structure Begun : Prop where
  lookUp : actions[r.lookUp]? = some .lookUp

/-- Then the buyer was notified. -/
structure Halfway : Prop extends r.Begun actions where
  toBuyer : actions[r.toBuyer]? = some .notifyBuyer
  lookUp_lt : r.lookUp < r.toBuyer

/-- Then the seller was notified. -/
structure Complete : Prop extends r.Halfway actions where
  toSeller : actions[r.toSeller]? = some .notifySeller
  toBuyer_lt : r.toBuyer < r.toSeller

/-- The callback is idle, or it has been given the trade of `r` and has come so far
    with it, after it was done with the others. -/
def At (done : List Report) : Callback → Prop
  | .idle => True
  | .lookedUp trade buyerFd sellerFd =>
    r.Begun actions ∧ (∀ d ∈ done, d.toSeller < r.lookUp) ∧ r.trade = trade ∧
      r.buyerFd actions = buyerFd ∧ r.sellerFd actions = sellerFd
  | .buyerNotified trade sellerFd =>
    r.Halfway actions ∧ (∀ d ∈ done, d.toSeller < r.lookUp) ∧ r.trade = trade ∧
      r.sellerFd actions = sellerFd

end Report

/-! ## Reports in a run that goes on -/

theorem lt_length_of_getElem? {α : Type*} {l : List α} {n : ℕ} {x : α} (h : l[n]? = some x) :
    n < l.length :=
  (List.getElem?_eq_some_iff.mp h).1

theorem getElem?_concat {α : Type*} {l : List α} {n : ℕ} {x : α} (h : l[n]? = some x) (y : α) :
    (l ++ [y])[n]? = some x := by
  rw [List.getElem?_append_left (lt_length_of_getElem? h), h]

namespace Report

variable {actions : List Sessions.Action} {r : Report} (action : Sessions.Action)

theorem Begun.lt_length (h : r.Begun actions) : r.lookUp < actions.length :=
  lt_length_of_getElem? h.lookUp

theorem Halfway.lt_length (h : r.Halfway actions) : r.toBuyer < actions.length :=
  lt_length_of_getElem? h.toBuyer

theorem Complete.lt_length (h : r.Complete actions) : r.toSeller < actions.length :=
  lt_length_of_getElem? h.toSeller

theorem Begun.concat (h : r.Begun actions) : r.Begun (actions ++ [action]) :=
  ⟨getElem?_concat h.lookUp action⟩

theorem Halfway.concat (h : r.Halfway actions) : r.Halfway (actions ++ [action]) :=
  ⟨h.toBegun.concat action, getElem?_concat h.toBuyer action, h.lookUp_lt⟩

theorem Complete.concat (h : r.Complete actions) : r.Complete (actions ++ [action]) :=
  ⟨h.toHalfway.concat action, getElem?_concat h.toSeller action, h.toBuyer_lt⟩

theorem Begun.buyerFd_concat (h : r.Begun actions) :
    r.buyerFd (actions ++ [action]) = r.buyerFd actions := by
  rw [buyerFd, Machine.before_concat _ h.lt_length.le]
  rfl

theorem Begun.sellerFd_concat (h : r.Begun actions) :
    r.sellerFd (actions ++ [action]) = r.sellerFd actions := by
  rw [sellerFd, Machine.before_concat _ h.lt_length.le]
  rfl

theorem Halfway.buyer_concat (h : r.Halfway actions) :
    r.buyer (actions ++ [action]) = r.buyer actions := by
  rw [buyer, Machine.before_concat _ h.lt_length.le, h.buyerFd_concat]
  rfl

theorem Complete.written_concat (h : r.Complete actions) :
    r.written (actions ++ [action]) = r.written actions := by
  have hseller : r.seller (actions ++ [action]) = r.seller actions := by
    rw [seller, Machine.before_concat _ h.lt_length.le, h.sellerFd_concat]
    rfl
  rw [written, h.buyer_concat, hseller]
  rfl

/-- What the callback has done so far stays when other threads go on. -/
theorem At.concat {done : List Report} {callback : Callback} (h : r.At actions done callback) :
    r.At (actions ++ [action]) done callback ∧
      callback.written (r.buyer (actions ++ [action])) = callback.written (r.buyer actions) := by
  cases callback with
  | idle => exact ⟨trivial, rfl⟩
  | lookedUp trade buyerFd sellerFd =>
    obtain ⟨hbegun, hafter, htrade, hbuyer, hseller⟩ := h
    refine ⟨⟨hbegun.concat action, hafter, htrade, ?_, ?_⟩, rfl⟩
    · rw [hbegun.buyerFd_concat, hbuyer]
    · rw [hbegun.sellerFd_concat, hseller]
  | buyerNotified trade sellerFd =>
    obtain ⟨hhalfway, hafter, htrade, hseller⟩ := h
    refine ⟨⟨hhalfway.concat action, hafter, htrade, ?_⟩, ?_⟩
    · rw [hhalfway.sellerFd_concat, hseller]
    · rw [hhalfway.buyer_concat]

end Report

namespace Sessions

/-- The trades that an event hands to the callback of `g`. -/
def emittedBy (g : GatewayServer) (event : Option Event) : List Trade :=
  GatewayServer.machine.collectFrom GatewayServer.trades g event.toList

theorem emittedBy_none (g : GatewayServer) : emittedBy g none = [] := rfl

theorem emittedBy_request (g : GatewayServer) (env : Env) (fd : SocketFd) (request : Request) :
    emittedBy g (some (.request env fd request)) = [] := rfl

theorem emittedBy_work (g : GatewayServer) (S : StdSort OrderPtr) :
    emittedBy g (some (.work S)) = g.emitted S :=
  List.append_nil _

/-- The trades `emitted` in a run that has led to `s` are those that were reported as
    `done` says, one after the other, the one that the callback is at, which `now` is
    about, and those that it will be given; nothing else was written. -/
structure Reported (actions : List Action) (s : Sessions) (emitted : List Trade)
    (done : List Report) (now : Report) : Prop where
  trades : done.map Report.trade ++ s.callback.trades ++ s.trades = emitted
  complete : ∀ r ∈ done, r.Complete actions
  apart : done.Pairwise fun r r' => r.toSeller < r'.lookUp
  current : now.At actions done s.callback
  written : s.written =
    done.flatMap (Report.written actions) ++ s.callback.written (now.buyer actions)

namespace Reported

variable {actions : List Action} {s s' : Sessions} {emitted : List Trade} {done : List Report}
  {now : Report}

theorem written_concat (h : Reported actions s emitted done now) (action : Action) :
    done.flatMap (Report.written (actions ++ [action])) =
      done.flatMap (Report.written actions) :=
  List.flatMap_congr fun r hr => (h.complete r hr).written_concat action

/-- A step of another thread. -/
theorem of_eq (h : Reported actions s emitted done now) (action : Action)
    (htrades : s'.trades = s.trades) (hcallback : s'.callback = s.callback)
    (hwritten : s'.written = s.written) :
    Reported (actions ++ [action]) s' emitted done now where
  trades := by rw [hcallback, htrades, h.trades]
  complete r hr := (h.complete r hr).concat action
  apart := h.apart
  current := by
    rw [hcallback]
    exact (h.current.concat action).1
  written := by
    rw [hwritten, hcallback, h.written_concat action, (h.current.concat action).2, h.written]

theorem lookUp (h : Reported actions s emitted done now) (hs : s = machine.after actions)
    {trade : Trade} (hidle : s.callback = .idle) (htrades : s.trades = trade :: s'.trades)
    (hcallback : s'.callback =
      .lookedUp trade (s.fdOf trade.buyOrderId) (s.fdOf trade.sellOrderId))
    (hwritten : s'.written = s.written) :
    Reported (actions ++ [.lookUp]) s' emitted done ⟨trade, actions.length, 0, 0⟩ where
  trades := by
    rw [hcallback, ← h.trades, hidle, htrades]
    simp [Callback.trades]
  complete r hr := (h.complete r hr).concat .lookUp
  apart := h.apart
  current := by
    rw [hcallback]
    refine ⟨⟨List.getElem?_concat_length⟩, fun d hd => (h.complete d hd).lt_length, rfl, ?_, ?_⟩
    · rw [Report.buyerFd, Machine.before_length, hs]
    · rw [Report.sellerFd, Machine.before_length, hs]
  written := by
    have hold := h.written
    rw [hidle] at hold
    rw [hwritten, hcallback, h.written_concat .lookUp, hold]
    rfl

theorem notifyBuyer (h : Reported actions s emitted done now) (hs : s = machine.after actions)
    {trade : Trade} {buyerFd sellerFd : SocketFd}
    (hold : s.callback = .lookedUp trade buyerFd sellerFd) (htrades : s'.trades = s.trades)
    (hcallback : s'.callback = .buyerNotified trade sellerFd)
    (hwritten : s'.written = s.written ++ s.notified buyerFd trade) :
    Reported (actions ++ [.notifyBuyer]) s' emitted done
      { now with toBuyer := actions.length } := by
  have hnow := h.current
  rw [hold] at hnow
  obtain ⟨hbegun, hafter, htrade, hbuyer, hseller⟩ := hnow
  refine ⟨?_, fun r hr => (h.complete r hr).concat .notifyBuyer, h.apart, ?_, ?_⟩
  · rw [hcallback, htrades, ← h.trades, hold]
    rfl
  · rw [hcallback]
    have hbegun' : Report.Begun _ { now with toBuyer := actions.length } :=
      ⟨(hbegun.concat .notifyBuyer).lookUp⟩
    refine ⟨⟨hbegun', List.getElem?_concat_length, hbegun.lt_length⟩, hafter, htrade, ?_⟩
    exact (hbegun.sellerFd_concat .notifyBuyer).trans hseller
  · have htarget : Report.buyer (actions ++ [.notifyBuyer])
        { now with toBuyer := actions.length } = s.target buyerFd := by
      rw [Report.buyer, Machine.before_length, ← hs, ← hbuyer]
      exact congrArg s.target (hbegun.buyerFd_concat .notifyBuyer)
    have hwas := h.written
    rw [hold] at hwas
    rw [hwritten, hcallback, h.written_concat .notifyBuyer, htarget, hwas, notified_eq]
    simp [Callback.written]

theorem notifySeller (h : Reported actions s emitted done now) (hs : s = machine.after actions)
    {trade : Trade} {sellerFd : SocketFd} (hold : s.callback = .buyerNotified trade sellerFd)
    (htrades : s'.trades = s.trades) (hcallback : s'.callback = .idle)
    (hwritten : s'.written = s.written ++ s.notified sellerFd trade) :
    Reported (actions ++ [.notifySeller]) s' emitted
      (done ++ [{ now with toSeller := actions.length }]) now := by
  have hnow := h.current
  rw [hold] at hnow
  obtain ⟨hhalfway, hafter, rfl, hseller⟩ := hnow
  have hhalfway' := hhalfway.concat .notifySeller
  refine ⟨?_, ?_, ?_, ?_, ?_⟩
  · rw [hcallback, htrades, ← h.trades, hold]
    simp [Callback.trades]
  · intro r hr
    rcases List.mem_append.mp hr with hr | hr
    · exact (h.complete r hr).concat .notifySeller
    · rw [List.mem_singleton.mp hr]
      exact ⟨⟨⟨hhalfway'.lookUp⟩, hhalfway'.toBuyer, hhalfway'.lookUp_lt⟩,
        List.getElem?_concat_length, hhalfway.lt_length⟩
  · refine List.pairwise_append.mpr ⟨h.apart, List.pairwise_singleton _ _, ?_⟩
    intro d hd r hr
    rw [List.mem_singleton.mp hr]
    exact hafter d hd
  · rw [hcallback]
    trivial
  · -- the report of the trade is complete
    have hlast : Report.written (actions ++ [.notifySeller])
        { now with toSeller := actions.length } =
        (now.buyer actions).toList.map (·, now.trade) ++
          (s.target sellerFd).toList.map (·, now.trade) := by
      have htarget : Report.seller (actions ++ [.notifySeller])
          { now with toSeller := actions.length } = s.target sellerFd := by
        rw [Report.seller, Machine.before_length, ← hs, ← hseller]
        exact congrArg s.target (hhalfway.sellerFd_concat .notifySeller)
      rw [Report.written, htarget]
      congr 2
      exact congrArg Option.toList (hhalfway.buyer_concat .notifySeller)
    have hwas := h.written
    rw [hold] at hwas
    rw [hwritten, hcallback, List.flatMap_append, h.written_concat .notifySeller,
      List.flatMap_singleton, hlast, hwas, notified_eq]
    simp [Callback.written]

theorem step (h : Reported actions s emitted done now) (hs : s = machine.after actions)
    {action : Action} {event : Option Event} (hmove : Move s s' action event)
    {g : GatewayServer} (hg : s.Follows g) :
    ∃ done' now',
      Reported (actions ++ [action]) s' (emitted ++ emittedBy g event) done' now' := by
  cases hmove with
  | quiet _ _ ht hc hw =>
    refine ⟨done, now, ?_⟩
    rw [emittedBy_none, List.append_nil]
    exact h.of_eq action ht hc hw
  | push env fd request _ ht hc hw =>
    refine ⟨done, now, ?_⟩
    rw [emittedBy_request, List.append_nil]
    exact h.of_eq action ht hc hw
  | work S hidle hnil _ ht hc hw =>
    -- nothing is left of the trades before, and the new ones are yet to be reported
    have hold : Reported (actions ++ [action]) { s with callback := .idle } emitted done now :=
      h.of_eq action rfl hidle.symm rfl
    refine ⟨done, now, ?_, hold.complete, hold.apart, ?_, ?_⟩
    · have htrades := h.trades
      rw [hidle, hnil] at htrades
      rw [hc, ht, hg.emitted, emittedBy_work, ← htrades, List.append_nil]
    · rw [hc]
      trivial
    · rw [hw, hc]
      exact hold.written
  | lookUp trade haction hidle _ ht hc hw =>
    subst haction
    rw [emittedBy_none, List.append_nil]
    exact ⟨done, _, h.lookUp hs hidle ht hc hw⟩
  | notifyBuyer trade buyerFd sellerFd haction hold _ ht hc hw =>
    subst haction
    rw [emittedBy_none, List.append_nil]
    exact ⟨done, _, h.notifyBuyer hs hold ht hc hw⟩
  | notifySeller trade sellerFd haction hold _ ht hc hw =>
    subst haction
    rw [emittedBy_none, List.append_nil]
    exact ⟨_, now, h.notifySeller hs hold ht hc hw⟩

end Reported

theorem reported_after (actions : List Action) :
    ∃ done now, Reported actions (machine.after actions)
      (GatewayServer.machine.collect GatewayServer.trades (events actions)) done now := by
  induction actions using List.reverseRecOn with
  | nil => exact ⟨[], ⟨.make 0 0 0 0 [], 0, 0, 0⟩, rfl, nofun, .nil, trivial, rfl⟩
  | append_singleton actions action ih =>
    obtain ⟨done, now, hdone⟩ := ih
    have hevents : events (actions ++ [action]) =
        events actions ++ ((machine.after actions).eventOf action).toList := by
      unfold events
      rw [Machine.collect_concat]
    rw [Machine.after_concat, hevents, Machine.collect_append]
    exact hdone.step rfl (move_step _ action) (follows_after actions)

/-- **Trades are reported in order.** Take any run of the threads of any number of
    clients and of the worker. The worker has processed commands that handlers
    have pushed, in the order of the pushes, and an engine that is given these
    emits trades. They are the ones that were reported, the one that the callback
    is at and the ones that it will be given, in this order. Each was reported in
    three steps of the run, after those of the trade before it: the descriptors
    recorded for the two orders were looked up, the buyer was written to, then the
    seller. What was written is, trade by trade, a notification to the connection
    that has the buyer's descriptor open at the second step, if there is one, and to
    the one that has the seller's open at the third. -/
theorem reports_in_order (actions : List Action) :
    let s := machine.after actions
    ∃ (inputs : List Input) (done : List Report) (now : Report),
      inputs.map Input.order ++ s.server.orderQueue.waiting =
        (commands (events actions)).take 9999 ∧
      inputs.map Input.sort = GatewayServer.machine.collect GatewayServer.sorts (events actions) ∧
      s.server.engine = MatchingEngine.after inputs ∧
      done.map Report.trade ++ s.callback.trades ++ s.trades =
        MatchingEngine.machine.collect MatchingEngine.tradesOf inputs ∧
      (∀ r ∈ done, r.Complete actions) ∧
      done.Pairwise (fun r r' => r.toSeller < r'.lookUp) ∧
      now.At actions done s.callback ∧
      s.written = done.flatMap (Report.written actions) ++
        s.callback.written (now.buyer actions) := by
  intro s
  obtain ⟨done, now, hreported⟩ := reported_after actions
  have hfollows := follows_after actions
  refine ⟨(Traced.machine.after (events actions)).inputs, done, now, ?_,
    Traced.sorts_after (events actions), ?_, ?_, hreported.complete, hreported.apart,
    hreported.current, hreported.written⟩
  · rw [hfollows.orderQueue, Traced.waiting_after]
    exact Traced.orders_after (events actions)
  · rw [hfollows.engine, ← Traced.server_after]
    exact (Traced.inv_after (events actions)).engine
  · rw [hreported.trades, Traced.trades_after]

end Sessions

end TradingGateway.Gateway

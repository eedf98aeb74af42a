import TradingGateway.Engine.Provenance
import TradingGateway.Gateway.Notifications
import TradingGateway.Gateway.Reports

/-!
# Every fill is reported

A client that stays connected is told of all trades of its orders. Its routes are
there from the moment at which its `NEW_ORDER` is handled, before the command is on
the queue, and only `unregister_client` of its own descriptor removes them; another
client takes one over if it uses the same order id.

* `commands_sent`: every `ADD` on the queue was sent by somebody.
* `Told`: what the maps, the callback and the client have to do with each other.
* `fills_reported`: what a client hears is, trade by trade and in order, each of
  its fills once, and nothing else.
-/

namespace TradingGateway.Gateway

open Common Message Book Engine Queue

theorem Callback.exists_trade_of_mem_aims {callback : Callback} {fd : SocketFd} {id : UInt64}
    (h : (fd, id) ∈ callback.aims) :
    ∃ t ∈ callback.trades, id = t.buyOrderId ∨ id = t.sellOrderId := by
  cases callback with
  | idle => cases h
  | lookedUp trade buyerFd sellerFd =>
    simp only [Callback.aims, List.mem_cons, Prod.mk.injEq, List.not_mem_nil, or_false] at h
    refine ⟨trade, List.mem_singleton_self _, ?_⟩
    rcases h with ⟨-, rfl⟩ | ⟨-, rfl⟩
    · exact .inl rfl
    · exact .inr rfl
  | buyerNotified trade sellerFd =>
    obtain ⟨-, rfl⟩ := Prod.mk.inj (List.mem_singleton.mp h)
    exact ⟨trade, List.mem_singleton_self _, .inr rfl⟩

namespace Sessions

/-! ## Who sent an order -/

/-- Some client sent an order with this id. -/
def Known (s : Sessions) (id : UInt64) : Prop := ∃ c, (c, id) ∈ s.sent

theorem Known.step {s : Sessions} {id : UInt64} (h : s.Known id) (action : Action) :
    (s.step action).Known id := by
  obtain ⟨c, hc⟩ := h
  exact ⟨c, sent_step s action hc⟩

/-- An order that a handler is about to put on the queue was sent. -/
def HandlingSent (s : Sessions) : Prop :=
  ∀ c fd sessionId env order, s.At c fd (.handling sessionId env (.newOrder order)) →
    (c, order.orderId) ∈ s.sent

/-- The thread of a client starts to handle a request, or was handling it before. -/
theorem at_handling_step {s : Sessions} {action : Action} {c : ℕ} {fd : SocketFd}
    {sessionId : String} {env : Env} {request : Request}
    (h : (s.step action).At c fd (.handling sessionId env request)) :
    s.At c fd (.handling sessionId env request) ∨
      (s.step action).sent = s.sent ++ sentId c request := by
  have hset : ∀ {c' fd' phase},
      s.setPhase c' fd' phase c = some ⟨fd, .handling sessionId env request⟩ →
      phase = .handling sessionId env request ∧ c = c' ∨
        s.At c fd (.handling sessionId env request) := by
    intro c' fd' phase hc
    rcases setPhase_eq_iff.mp hc with ⟨hcc, -, hphase⟩ | ⟨-, hold⟩
    · exact .inl ⟨hphase.symm, hcc⟩
    · exact .inr hold
  cases action with
  | accept c' fd' =>
    simp only [Sessions.step] at h
    split_ifs at h
    · exact .inl ((hset h).resolve_left fun hnew => Phase.noConfusion hnew.1)
    · exact .inl h
  | register c' sessionId' =>
    simp only [Sessions.step] at h
    split at h
    · exact .inl ((hset h).resolve_left fun hnew => Phase.noConfusion hnew.1)
    · exact .inl h
  | message c' env' request' =>
    simp only [Sessions.step] at h ⊢
    split at h
    · next hc =>
      rcases hset h with ⟨hphase, rfl⟩ | hold
      · obtain ⟨-, -, rfl⟩ := Phase.handling.inj hphase
        exact .inr rfl
      · exact .inl hold
    · exact .inl h
  | push c' =>
    simp only [Sessions.step] at h
    split at h
    · exact .inl ((hset h).resolve_left fun hnew => Phase.noConfusion hnew.1)
    · exact .inl h
  | unregister c' =>
    simp only [Sessions.step] at h
    split at h
    · exact .inl ((hset h).resolve_left fun hnew => Phase.noConfusion hnew.1)
    · exact .inl h
  | close c' =>
    simp only [Sessions.step] at h
    split at h
    · exact .inl ((hset h).resolve_left fun hnew => Phase.noConfusion hnew.1)
    · exact .inl h
  | work | lookUp | notifyBuyer | notifySeller =>
    simp only [Sessions.step] at h
    split at h
    · exact .inl h
    · exact .inl h

theorem HandlingSent.step {s : Sessions} (h : s.HandlingSent) (action : Action) :
    (s.step action).HandlingSent := by
  intro c fd sessionId env order hc
  rcases at_handling_step hc with hold | hsent
  · exact sent_step s action (h c fd sessionId env order hold)
  · rw [hsent]
    exact List.mem_append_right _ (List.mem_singleton_self _)

theorem handlingSent_after (actions : List Action) : (machine.after actions).HandlingSent := by
  refine machine.after_induction ?_ (fun _ action h => h.step action) actions
  intro c fd sessionId env order hc
  cases hc

/-- An `ADD` that is pushed comes from a `NEW_ORDER` that was sent. -/
theorem HandlingSent.pushed {s : Sessions} (h : s.HandlingSent) {action : Action} {event : Event}
    (hevent : s.eventOf action = some event) {o : Order} (ho : event.command = some o)
    (hadd : o.command = .add) : s.Known o.id := by
  cases action with
  | push c =>
    rcases hc : s.connection c with - | ⟨fd, phase⟩
    · simp only [eventOf, hc] at hevent
      cases hevent
    · cases phase with
      | handling sessionId env request =>
        simp only [eventOf, hc] at hevent
        obtain rfl := Option.some.inj hevent
        obtain ⟨raw, -, rfl⟩ := Option.map_eq_some_iff.mp ho
        cases request with
        | newOrder order => exact ⟨c, h c fd sessionId env order hc⟩
        | cancelOrder order => cases hadd
        | modifyOrder order => cases hadd
      | accepted | serving | unregistered | closed =>
        simp only [eventOf, hc] at hevent
        cases hevent
  | work S =>
    simp only [eventOf] at hevent
    split at hevent
    · obtain rfl := Option.some.inj hevent
      cases ho
    · cases hevent
  | _ => cases hevent

theorem commands_sent (actions : List Action) :
    ∀ o ∈ commands (events actions), o.command = .add → (machine.after actions).Known o.id := by
  induction actions using List.reverseRecOn with
  | nil =>
    intro o ho
    cases ho
  | append_singleton actions action ih =>
    intro o ho hadd
    rw [events, Machine.collect_concat, commands, List.filterMap_append] at ho
    rw [Machine.after_concat]
    apply Known.step
    rcases List.mem_append.mp ho with hold | hnew
    · exact ih o hold hadd
    · obtain ⟨event, hevent, ho⟩ := List.mem_filterMap.mp hnew
      exact (handlingSent_after actions).pushed (Option.mem_toList.mp hevent) ho hadd

/-- Both parties of every trade were sent by somebody. -/
theorem trades_known (actions : List Action) :
    ∀ t ∈ GatewayServer.machine.collect GatewayServer.trades (events actions),
      (machine.after actions).Known t.buyOrderId ∧
        (machine.after actions).Known t.sellOrderId := by
  intro t ht
  rw [Traced.trades_after] at ht
  obtain ⟨pre, i, hpre, ht⟩ := (Machine.mem_collect _ _).mp ht
  -- the trade is one of the book to which the command belongs
  have hemitted : t ∈ MatchingEngine.machine.collect
      (MatchingEngine.emitted i.order.symbolString)
      (Traced.machine.after (events actions)).inputs := by
    refine (Machine.mem_collect _ _).mpr ⟨pre, i, hpre, ?_⟩
    rw [MatchingEngine.emitted, if_pos rfl]
    exact ht
  have hsent : ∀ {s id}, MatchingEngine.Submitted (Traced.machine.after (events actions)).inputs
      i.order.symbolString s id → (machine.after actions).Known id := by
    rintro s id ⟨c, hc, hadd, -, -, rfl⟩
    refine commands_sent actions c.order ?_ hadd
    have horders := Traced.orders_after (events actions)
    apply List.mem_of_mem_take
    rw [← horders]
    exact List.mem_append_left _ (List.mem_map_of_mem hc)
  have hnames := (MatchingEngine.trades_submitted _ _ t hemitted).2
  exact ⟨hsent (hnames true), hsent (hnames false)⟩

/-! ## One client -/

section Client

variable (c : ℕ)

/-- The client has not left. -/
def Stays (s : Sessions) : Prop :=
  ∀ conn, s.connection c = some conn → conn.phase ≠ .unregistered ∧ conn.phase ≠ .closed

/-- Nobody else uses the order ids of the client. -/
def Alone (s : Sessions) : Prop := ∀ id c', (c, id) ∈ s.sent → (c', id) ∈ s.sent → c' = c

/-- The descriptor that a step opens for the client. -/
def openedFor : Action → List SocketFd
  | .accept c' fd => if c' = c then [fd] else []
  | _ => []

/-- If the step opens the descriptor of the client, the callback does not still
    have to send to it. -/
def AcceptedApart (s : Sessions) (action : Action) : Prop :=
  ∀ fd ∈ openedFor c action, fd ∉ s.callback.aims.map Prod.fst

instance (s : Sessions) (action : Action) : Decidable (AcceptedApart c s action) :=
  inferInstanceAs (Decidable (∀ fd ∈ openedFor c action, _))

/-- What was written to the client. -/
def heard (s : Sessions) : List Trade :=
  s.written.filterMap fun w => if w.1 = c then some w.2 else none

/-- What the client has to hear of a trade for one of the two orders. -/
def shareOf (s : Sessions) (trade : Trade) (id : UInt64) : List Trade :=
  if (c, id) ∈ s.sent then [trade] else []

/-- What the client has to hear of a trade. -/
def due (s : Sessions) (trade : Trade) : List Trade :=
  s.shareOf c trade trade.buyOrderId ++ s.shareOf c trade trade.sellOrderId

/-- What it has to have heard of the trade that the callback is at. -/
def dueNow (s : Sessions) : List Trade :=
  match s.callback with
  | .buyerNotified trade _ => s.shareOf c trade trade.buyOrderId
  | _ => []

/-- The routes of the client's orders lead to it, the callback aims at it for its
    orders only, and it has heard its part of the trades `done`. -/
structure Told (s : Sessions) (done : List Trade) : Prop where
  route : ∀ {id}, (c, id) ∈ s.sent →
    ∃ fd, s.descriptors fd = some c ∧ s.server.orderToClient id = some fd
  aim : ∀ {fd id}, (fd, id) ∈ s.callback.aims → (s.descriptors fd = some c ↔ (c, id) ∈ s.sent)
  heard : s.heard c = done.flatMap (s.due c) ++ s.dueNow c

variable {c} {s : Sessions} {action : Action}

/-! ## The descriptor of the client -/

/-- A client that has left does not come back. -/
theorem Stays.of_step (h : Stays c (s.step action)) : Stays c s := by
  intro conn hconn
  obtain ⟨fd, phase⟩ := conn
  by_contra hleft
  have hphase : phase = .unregistered ∨ phase = .closed := by
    by_contra hnot
    exact hleft (not_or.mp hnot)
  -- its thread does at most one more step, and then nothing
  suffices hstep : ∃ phase', (s.step action).connection c = some ⟨fd, phase'⟩ ∧
      (phase' = .unregistered ∨ phase' = .closed) by
    obtain ⟨phase', hphase', hend⟩ := hstep
    obtain ⟨hunregistered, hclosed⟩ := h _ hphase'
    rcases hend with rfl | rfl
    · exact hunregistered rfl
    · exact hclosed rfl
  have hother : ∀ {c' fd' phase'}, s.connection c' ≠ some ⟨fd, phase⟩ →
      s.setPhase c' fd' phase' c = some ⟨fd, phase⟩ := by
    intro c' fd' phase' hne
    rw [setPhase, Function.update_of_ne, hconn]
    rintro rfl
    exact hne hconn
  cases action with
  | accept c' fd' =>
    simp only [Sessions.step]
    split_ifs with hguard
    · refine ⟨phase, hother ?_, hphase⟩
      rw [Option.isNone_iff_eq_none.mp hguard.1]
      exact (Option.some_ne_none _).symm
    · exact ⟨phase, hconn, hphase⟩
  | register | message | push | unregister =>
    simp only [Sessions.step]
    split
    · next hc =>
      refine ⟨phase, hother ?_, hphase⟩
      rcases hphase with rfl | rfl <;> simp [hc]
    · exact ⟨phase, hconn, hphase⟩
  | close c' =>
    simp only [Sessions.step]
    split
    · next fd' hc =>
      rcases eq_or_ne c c' with rfl | hne
      · obtain ⟨rfl, -⟩ := Connection.mk.inj (Option.some.inj (hconn.symm.trans hc))
        exact ⟨.closed, setPhase_eq_iff.mpr (.inl ⟨rfl, rfl, rfl⟩), .inr rfl⟩
      · exact ⟨phase, setPhase_eq_iff.mpr (.inr ⟨hne, hconn⟩), hphase⟩
    · exact ⟨phase, hconn, hphase⟩
  | work | lookUp | notifyBuyer | notifySeller =>
    simp only [Sessions.step]
    split
    · exact ⟨phase, hconn, hphase⟩
    · exact ⟨phase, hconn, hphase⟩

/-- The client keeps its descriptor. -/
theorem descriptors_stays (hinv : s.Inv) (h : Stays c (s.step action)) {fd : SocketFd}
    (hfd : s.descriptors fd = some c) : (s.step action).descriptors fd = some c := by
  cases action with
  | accept c' fd' =>
    simp only [Sessions.step]
    split_ifs with hguard
    · show Function.update s.descriptors fd' (some c') fd = some c
      rw [Function.update_of_ne, hfd]
      rintro rfl
      rw [hfd] at hguard
      exact absurd hguard.2.1 (by simp)
    · exact hfd
  | close c' =>
    simp only [Sessions.step] at h ⊢
    split at h
    · next fd' hc =>
      show Function.update s.descriptors fd' none fd = some c
      rw [Function.update_of_ne, hfd]
      rintro rfl
      -- the descriptor that is closed would be that of the client
      have hclosing := (hinv.held.open_iff fd c').mpr ⟨_, hc, Phase.noConfusion⟩
      obtain rfl : c' = c := Option.some.inj (hclosing.symm.trans hfd)
      exact (h ⟨fd, .closed⟩ (setPhase_eq_iff.mpr (.inl ⟨rfl, rfl, rfl⟩))).2 rfl
    · exact hfd
  | _ =>
    simp only [Sessions.step]
    split
    · exact hfd
    · exact hfd

theorem descriptors_of_step {fd : SocketFd} (h : (s.step action).descriptors fd = some c) :
    s.descriptors fd = some c ∨ action = .accept c fd := by
  cases action with
  | accept c' fd' =>
    simp only [Sessions.step] at h
    split_ifs at h
    · change Function.update s.descriptors fd' (some c') fd = some c at h
      rcases eq_or_ne fd fd' with rfl | hne
      · rw [Function.update_self] at h
        obtain rfl := Option.some.inj h
        exact .inr rfl
      · rw [Function.update_of_ne hne] at h
        exact .inl h
    · exact .inl h
  | close c' =>
    simp only [Sessions.step] at h
    split at h
    · next fd' _ =>
      change Function.update s.descriptors fd' none fd = some c at h
      rcases eq_or_ne fd fd' with rfl | hne
      · rw [Function.update_self] at h
        cases h
      · rw [Function.update_of_ne hne] at h
        exact .inl h
    · exact .inl h
  | _ =>
    simp only [Sessions.step] at h
    split at h
    · exact .inl h
    · exact .inl h

/-! ## The routes of the client -/

/-- What a step can do to the route of an id. -/
inductive Rerouted (s s' : Sessions) (id : UInt64) : Prop
  | kept (hroute : s'.server.orderToClient id = s.server.orderToClient id)
      (hsent : ∀ c, (c, id) ∈ s'.sent → (c, id) ∈ s.sent)
  | set (c : ℕ) (fd : SocketFd) (sessionId : String) (hc : s.At c fd (.serving sessionId))
      (hroute : s'.server.orderToClient id = some fd) (hsent : (c, id) ∈ s'.sent)
  | removed (c : ℕ) (fd : SocketFd) (sessionId : String) (hc : s.At c fd (.serving sessionId))
      (hleft : s'.At c fd .unregistered)
      (hroute : s'.server.orderToClient id = (s.server.orderToClient id).filter (· ≠ fd))
      (hsent : s'.sent = s.sent)

theorem rerouted_message (s : Sessions) {c : ℕ} {fd : SocketFd} {sessionId : String}
    (hc : s.At c fd (.serving sessionId)) (env : Env) (request : Request) (id : UInt64) :
    Rerouted s { s with
      server := s.server.route fd request
      connection := s.setPhase c fd (.handling sessionId env request)
      sent := s.sent ++ sentId c request } id := by
  cases request with
  | newOrder order =>
    rcases eq_or_ne id order.orderId with rfl | hne
    · exact .set c fd sessionId hc (Function.update_self _ _ _)
        (List.mem_append_right _ (List.mem_singleton_self _))
    · refine .kept (Function.update_of_ne hne _ _) fun c' hmem => ?_
      refine (List.mem_append.mp hmem).resolve_right ?_
      simp [sentId, hne]
  | cancelOrder order => exact .kept rfl fun c' hmem => by simpa [sentId] using hmem
  | modifyOrder order => exact .kept rfl fun c' hmem => by simpa [sentId] using hmem

theorem rerouted_step (s : Sessions) (action : Action) (id : UInt64) :
    Rerouted s (s.step action) id := by
  cases action with
  | accept c' fd' =>
    rw [Sessions.step]
    split_ifs
    · exact .kept rfl fun _ h => h
    · exact .kept rfl fun _ h => h
  | message c' env request =>
    rw [Sessions.step]
    split
    · next hc => exact s.rerouted_message hc env request id
    · exact .kept rfl fun _ h => h
  | unregister c' =>
    rw [Sessions.step]
    split
    · next hc =>
      exact .removed _ _ _ hc (setPhase_eq_iff.mpr (.inl ⟨rfl, rfl, rfl⟩)) rfl rfl
    · exact .kept rfl fun _ h => h
  | work S =>
    rw [Sessions.step]
    split
    · refine .kept ?_ fun _ h => h
      show (s.server.work S).orderToClient id = _
      rw [GatewayServer.work]
      rcases s.server.orderQueue.pop with ⟨- | order, queue⟩
      · rfl
      · rfl
    · exact .kept rfl fun _ h => h
  | _ =>
    rw [Sessions.step]
    split
    · exact .kept rfl fun _ h => h
    · exact .kept rfl fun _ h => h

/-- The client has the routes of its orders. -/
theorem Told.route_step {done : List Trade} (h : s.Told c done) (hinv : s.Inv)
    (hstays : Stays c (s.step action)) (halone : Alone c (s.step action)) {id : UInt64}
    (hid : (c, id) ∈ (s.step action).sent) :
    ∃ fd, (s.step action).descriptors fd = some c ∧
      (s.step action).server.orderToClient id = some fd := by
  cases s.rerouted_step action id with
  | kept hroute hsent =>
    obtain ⟨fd, hfd, hold⟩ := h.route (hsent c hid)
    exact ⟨fd, descriptors_stays hinv hstays hfd, hroute.trans hold⟩
  | set c' fd sessionId hc hroute hsent =>
    obtain rfl : c' = c := halone id c' hid hsent
    have hfd := (hinv.held.open_iff fd c').mpr ⟨_, hc, Phase.noConfusion⟩
    exact ⟨fd, descriptors_stays hinv hstays hfd, hroute⟩
  | removed c' fd' sessionId hc hleft hroute hsent =>
    rw [hsent] at hid
    obtain ⟨fd, hfd, hold⟩ := h.route hid
    refine ⟨fd, descriptors_stays hinv hstays hfd, ?_⟩
    rw [hroute]
    refine Option.filter_eq_some_iff.mpr ⟨hold, decide_eq_true ?_⟩
    rintro rfl
    -- the routes that are removed would be those of the client
    have hopen := (hinv.held.open_iff fd c').mpr ⟨_, hc, Phase.noConfusion⟩
    obtain rfl : c' = c := Option.some.inj (hopen.symm.trans hfd)
    exact (hstays _ hleft).1 rfl

/-! ## The callback and the client -/

/-- An id that somebody has sent is not one that the client sends for the first
    time. -/
theorem Known.sent_iff {id : UInt64} (h : s.Known id) (halone : Alone c (s.step action)) :
    (c, id) ∈ (s.step action).sent ↔ (c, id) ∈ s.sent := by
  constructor
  · intro hid
    obtain ⟨c', hc'⟩ := h
    obtain rfl : c' = c := halone id c' hid (sent_step s action hc')
    exact hc'
  · exact fun hid => sent_step s action hid

/-- The client is aimed at for its own orders. -/
theorem Told.aim_step {done : List Trade} (h : s.Told c done) (hinv : s.Inv)
    (hknown : ∀ fd id, (fd, id) ∈ (s.step action).callback.aims → s.Known id)
    (hstays : Stays c (s.step action)) (halone : Alone c (s.step action))
    (hapart : AcceptedApart c s action) {fd : SocketFd} {id : UInt64}
    (haim : (fd, id) ∈ (s.step action).callback.aims) :
    (s.step action).descriptors fd = some c ↔ (c, id) ∈ (s.step action).sent := by
  rw [(hknown fd id haim).sent_iff halone]
  rcases aims_step haim with hold | ⟨hopened, rfl⟩
  · rw [← h.aim hold]
    constructor
    · intro hfd
      refine (descriptors_of_step hfd).resolve_right ?_
      rintro rfl
      exact hapart fd (by simp [openedFor]) (List.mem_map_of_mem hold)
    · exact descriptors_stays hinv hstays
  · constructor
    · intro hfd
      refine hinv.fdOf_sent ((descriptors_of_step hfd).resolve_right ?_)
      rintro rfl
      cases hopened
    · intro hid
      obtain ⟨fd, hfd, hroute⟩ := h.route hid
      have hfdOf : s.fdOf id = fd := by
        rw [fdOf, hroute]
        rfl
      rw [hfdOf]
      exact descriptors_stays hinv hstays hfd

/-- What a notification adds to what the client hears. -/
theorem heard_notified (hinv : s.Inv) (fd : SocketFd) (trade : Trade) :
    ((s.notified fd trade).filterMap fun w => if w.1 = c then some w.2 else none) =
      if s.descriptors fd = some c then [trade] else [] := by
  rw [notified]
  split_ifs with hnone hfd hfd
  · -- −1 is nobody's descriptor
    obtain ⟨phase, hat, -⟩ := (hinv.held.open_iff fd c).mp hfd
    subst hnone
    exact absurd (hinv.held.nonneg hat) (by decide)
  · rfl
  · simp [hfd]
  · cases hd : s.descriptors fd with
    | none => rfl
    | some c' =>
      have hne : c' ≠ c := by
        rintro rfl
        exact hfd hd
      simp [hne]

theorem shareOf_step {id : UInt64} (h : s.Known id) (halone : Alone c (s.step action))
    (trade : Trade) : (s.step action).shareOf c trade id = s.shareOf c trade id := by
  unfold shareOf
  simp only [h.sent_iff halone]

/-- The callback gets its trades from the worker. -/
theorem Move.callback_trades {s' : Sessions} {action : Action} {event : Option Event}
    (h : Move s s' action event) :
    s'.callback.trades ⊆ s.callback.trades ++ s.trades := by
  cases h with
  | quiet _ _ _ hcallback =>
    rw [hcallback]
    exact List.subset_append_left _ _
  | push _ _ _ _ _ hcallback =>
    rw [hcallback]
    exact List.subset_append_left _ _
  | work _ _ _ _ _ hcallback =>
    rw [hcallback]
    exact List.nil_subset _
  | lookUp trade _ _ _ htrades hcallback =>
    rw [hcallback, htrades]
    exact List.cons_subset.mpr
      ⟨List.mem_append_right _ List.mem_cons_self, List.nil_subset _⟩
  | notifyBuyer _ _ _ _ hold _ _ hcallback =>
    rw [hcallback, hold]
    exact List.subset_append_left _ _
  | notifySeller _ _ _ _ _ _ hcallback =>
    rw [hcallback]
    exact List.nil_subset _

/-- One step of any thread. -/
theorem Told.step {done : List Trade} (h : s.Told c done) (hinv : s.Inv)
    (hknown : ∀ t ∈ done ++ s.callback.trades ++ s.trades,
      s.Known t.buyOrderId ∧ s.Known t.sellOrderId)
    (hstays : Stays c (s.step action)) (halone : Alone c (s.step action))
    (hapart : AcceptedApart c s action) {g : GatewayServer} (hg : s.Follows g) :
    ∃ done', done' ++ (s.step action).callback.trades ++ (s.step action).trades =
        done ++ s.callback.trades ++ s.trades ++ emittedBy g (s.eventOf action) ∧
      (s.step action).Told c done' := by
  have hmove := s.move_step action
  have hroute : ∀ {id}, (c, id) ∈ (s.step action).sent → _ := h.route_step hinv hstays halone
  have haims : ∀ fd id, (fd, id) ∈ (s.step action).callback.aims → s.Known id := by
    intro fd id haim
    obtain ⟨t, ht, hid⟩ := Callback.exists_trade_of_mem_aims haim
    have hmem := hmove.callback_trades ht
    rw [List.append_assoc] at hknown
    obtain ⟨hbuy, hsell⟩ := hknown t (List.mem_append_right _ hmem)
    rcases hid with rfl | rfl
    · exact hbuy
    · exact hsell
  have haim : ∀ {fd id}, (fd, id) ∈ (s.step action).callback.aims → _ :=
    h.aim_step hinv haims hstays halone hapart
  have hshare : ∀ {id} trade, s.Known id →
      (s.step action).shareOf c trade id = s.shareOf c trade id :=
    fun trade hk => shareOf_step hk halone trade
  have hheard := h.heard
  -- what was due for the trades that are done has not changed
  have hdone : done.flatMap ((s.step action).due c) = done.flatMap (s.due c) := by
    apply List.flatMap_congr
    intro t ht
    obtain ⟨hbuy, hsell⟩ := hknown t (by simp [ht])
    rw [due, due, hshare t hbuy, hshare t hsell]
  have hnow : (s.step action).callback = s.callback →
      (s.step action).dueNow c = s.dueNow c := by
    intro hcallback
    unfold dueNow
    rw [hcallback]
    cases hold : s.callback with
    | idle => rfl
    | lookedUp => rfl
    | buyerNotified trade sellerFd =>
      exact hshare trade (hknown trade (by simp [hold, Callback.trades])).1
  -- a notification is heard by the client if and only if the order is its own
  have hnotified : ∀ {fd id} trade, (fd, id) ∈ s.callback.aims →
      ((s.notified fd trade).filterMap fun w => if w.1 = c then some w.2 else none) =
        s.shareOf c trade id := by
    intro fd id trade hmem
    rw [heard_notified hinv, shareOf]
    simp only [h.aim hmem]
  generalize s.step action = s' at *
  generalize s.eventOf action = event at *
  cases hmove with
  | quiet _ _ ht hc hw =>
    refine ⟨done, ?_, hroute, haim, ?_⟩
    · rw [hc, ht]
      exact (List.append_nil _).symm
    · rw [Sessions.heard, hw, hdone, hnow hc]
      exact hheard
  | push env fd request _ ht hc hw =>
    refine ⟨done, ?_, hroute, haim, ?_⟩
    · rw [hc, ht]
      exact (List.append_nil _).symm
    · rw [Sessions.heard, hw, hdone, hnow hc]
      exact hheard
  | work S hidle hnil _ ht hc hw =>
    refine ⟨done, ?_, hroute, haim, ?_⟩
    · rw [hidle, hnil, hc, ht, hg.emitted]
      show _ = _ ++ (g.emitted S ++ [])
      simp
    · unfold Sessions.heard dueNow at hheard ⊢
      rw [hidle] at hheard
      rw [hw, hc, hheard, hdone]
  | lookUp trade _ hidle _ ht hc hw =>
    refine ⟨done, ?_, hroute, haim, ?_⟩
    · rw [hidle, hc, ht]
      simp [Callback.trades, emittedBy, Machine.collectFrom]
    · unfold Sessions.heard dueNow at hheard ⊢
      rw [hidle] at hheard
      rw [hw, hc, hheard, hdone]
  | notifyBuyer trade buyerFd sellerFd _ hold _ ht hc hw =>
    refine ⟨done, ?_, hroute, haim, ?_⟩
    · rw [hold, hc, ht]
      exact (List.append_nil _).symm
    · have hbuy : s.Known trade.buyOrderId := (hknown trade (by simp [hold, Callback.trades])).1
      have hmem : (buyerFd, trade.buyOrderId) ∈ s.callback.aims := by
        rw [hold]
        exact List.mem_cons_self
      unfold Sessions.heard dueNow at hheard ⊢
      rw [hold, List.append_nil] at hheard
      rw [hw, hc, List.filterMap_append, hheard, hnotified trade hmem, hdone]
      dsimp only
      rw [hshare trade hbuy]
  | notifySeller trade sellerFd _ hold _ ht hc hw =>
    refine ⟨done ++ [trade], ?_, hroute, haim, ?_⟩
    · rw [hold, hc, ht]
      simp [Callback.trades, emittedBy, Machine.collectFrom]
    · obtain ⟨hbuy, hsell⟩ := hknown trade (by simp [hold, Callback.trades])
      have hmem : (sellerFd, trade.sellOrderId) ∈ s.callback.aims := by
        rw [hold]
        exact List.mem_cons_self
      unfold Sessions.heard dueNow at hheard ⊢
      rw [hold] at hheard
      rw [hw, hc, List.filterMap_append, hheard, hnotified trade hmem, List.flatMap_append, hdone,
        List.flatMap_singleton, due, hshare trade hbuy, hshare trade hsell]
      simp

theorem told_init : machine.init.Told c [] where
  route := by
    intro id hid
    cases hid
  aim := by
    intro fd id haim
    cases haim
  heard := rfl

theorem told_after {actions : List Action} (hapart : machine.Guarded (AcceptedApart c) actions)
    (hstays : Stays c (machine.after actions)) (halone : Alone c (machine.after actions)) :
    ∃ done, done ++ (machine.after actions).callback.trades ++ (machine.after actions).trades =
        GatewayServer.machine.collect GatewayServer.trades (events actions) ∧
      (machine.after actions).Told c done := by
  induction actions using List.reverseRecOn with
  | nil => exact ⟨[], rfl, told_init⟩
  | append_singleton actions action ih =>
    obtain ⟨hapart, hlast⟩ := (machine.guarded_concat).mp hapart
    rw [Machine.after_concat] at hstays halone ⊢
    have halone' : Alone c (machine.after actions) := fun id c' hid hid' =>
      halone id c' (sent_step _ action hid) (sent_step _ action hid')
    obtain ⟨done, hdone, htold⟩ := ih hapart hstays.of_step halone'
    have hevents : events (actions ++ [action]) =
        events actions ++ ((machine.after actions).eventOf action).toList := by
      unfold events
      rw [Machine.collect_concat]
    have hknown := trades_known actions
    rw [← hdone] at hknown
    rw [hevents, Machine.collect_append, ← hdone]
    exact htold.step (inv_after actions) hknown hstays halone hlast (follows_after actions)

end Client

/-- **Every fill is reported.** Take any run of the threads of all clients and of
    the worker, and a client that has not left, whose order ids nobody else uses and
    whose descriptor was not one that the callback still had to send to when it was
    opened. An engine that is given the commands which the worker has processed emits
    trades. These are the ones that are done, the one that the callback is at and the
    ones that it will be given, in this order; and what the client has heard is each
    of the trades done, once if it bought and once if it sold, in this order, and
    perhaps its part of the one that the callback is at. -/
theorem fills_reported (c : ℕ) (actions : List Action)
    (hapart : machine.Guarded (AcceptedApart c) actions)
    (hstays : Stays c (machine.after actions)) (halone : Alone c (machine.after actions)) :
    let s := machine.after actions
    ∃ (inputs : List Input) (done : List Trade),
      inputs.map Input.order ++ s.server.orderQueue.waiting =
        (commands (events actions)).take 9999 ∧
      inputs.map Input.sort = GatewayServer.machine.collect GatewayServer.sorts (events actions) ∧
      done ++ s.callback.trades ++ s.trades =
        MatchingEngine.machine.collect MatchingEngine.tradesOf inputs ∧
      s.heard c = done.flatMap (s.due c) ++ s.dueNow c := by
  intro s
  obtain ⟨done, hdone, htold⟩ := told_after hapart hstays halone
  refine ⟨(Traced.machine.after (events actions)).inputs, done, ?_,
    Traced.sorts_after (events actions), ?_, htold.heard⟩
  · rw [(follows_after actions).orderQueue, Traced.waiting_after]
    exact Traced.orders_after (events actions)
  · rw [← Traced.trades_after]
    exact hdone

/-- The run in which two clients trade with each other, to its end. -/
def twoTradeNotified : List Action := twoTrade ++ [.notifyBuyer, .notifySeller]

theorem twoTrade_heard :
    ((machine.after twoTradeNotified).heard 0).map (·.sellOrderId) = [2] ∧
      ∃ done : List Trade, (machine.after twoTradeNotified).heard 0 =
        done.flatMap ((machine.after twoTradeNotified).due 0) ++
          (machine.after twoTradeNotified).dueNow 0 := by
  have hsent : (machine.after twoTradeNotified).sent = [(0, 1), (1, 2)] := by decide +kernel
  have hstays : Stays 0 (machine.after twoTradeNotified) := by
    have hserving : ((machine.after twoTradeNotified).connection 0).all
        (fun conn => conn.phase.session.isSome) = true := by
      decide +kernel
    intro conn hconn
    rw [hconn] at hserving
    constructor
    · intro hphase
      simp [hphase, Phase.session] at hserving
    · intro hphase
      simp [hphase, Phase.session] at hserving
  have halone : Alone 0 (machine.after twoTradeNotified) := by
    intro id c' hid hid'
    rw [hsent] at hid hid'
    rcases List.mem_cons.mp hid' with heq | hid'
    · exact (Prod.mk.inj heq).1
    · obtain ⟨-, rfl⟩ := Prod.mk.inj (List.mem_singleton.mp hid')
      exact absurd hid (by decide)
  obtain ⟨-, done, -, -, -, hheard⟩ :=
    fills_reported 0 twoTradeNotified (by decide +kernel) hstays halone
  exact ⟨by decide +kernel, done, hheard⟩

end Sessions

end TradingGateway.Gateway

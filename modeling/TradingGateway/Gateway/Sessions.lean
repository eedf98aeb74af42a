import TradingGateway.Gateway.Acks

/-!
# Connections and the session maps

`TCPServer::handle_client` (`cpp-core/network/tcp_server.cpp`, lines 126–159)
runs in a thread of its own for every connection that `accept` returns; the
worker of the engine calls the trade callback of the gateway
(`gateway_server.cpp`, lines 68–92). Here the threads take their steps in any
order. A step is what happens under `m_session_mutex`, a call of the queue, one
`send`, or a system call; two pushes do not overlap, and a `send` to an open
descriptor writes the whole message. The two maps are keyed by descriptor and by
order id, and a descriptor number comes back once it was closed, so connections
have names of their own, which are used once.

* `step_route_push`: the two steps of a handler are `handle`.
* `routes_current`: no route is stale, in any state of any run.
-/

namespace TradingGateway.Gateway

open Common Message Book Engine Queue

namespace GatewayServer

/-- What a handler does under `m_session_mutex` (`gateway_server.cpp`,
    lines 140–144). -/
def route (g : GatewayServer) (clientFd : SocketFd) (request : Request) : GatewayServer :=
  { g with orderToClient := g.mapped clientFd request }

/-- What it does afterwards. -/
def pushCommand (g : GatewayServer) (env : Env) (clientFd : SocketFd) (request : Request) :
    GatewayServer :=
  { g with orderQueue := (g.handle env clientFd request).1.orderQueue }

theorem step_route_push (g : GatewayServer) (env : Env) (clientFd : SocketFd)
    (request : Request) :
    (g.route clientFd request).pushCommand env clientFd request =
      g.step (.request env clientFd request) := by
  show _ = (g.handle env clientFd request).1
  rw [pushCommand, handle_fst, handle_fst]
  rfl

end GatewayServer

/-! ## The threads -/

/-- Where the thread of a connection is in `handle_client`. -/
inductive Phase
  | accepted
  | serving (sessionId : String)
  | handling (sessionId : String) (env : Env) (request : Request)
  | unregistered
  | closed

/-- The session of a connection that is registered. -/
def Phase.session : Phase → Option String
  | .serving sessionId => some sessionId
  | .handling sessionId _ _ => some sessionId
  | _ => none

theorem Phase.ne_closed_of_session {phase : Phase} (h : phase.session ≠ none) :
    phase ≠ .closed := by
  rintro rfl
  exact h rfl

/-- What the descriptor of the connection `c` refers to in this phase. -/
def Phase.holder (c : ℕ) : Phase → Option ℕ
  | .closed => none
  | _ => some c

theorem Phase.holder_eq_some_iff {c c' : ℕ} {phase : Phase} :
    phase.holder c = some c' ↔ c' = c ∧ phase ≠ .closed := by
  cases phase <;> simp [holder, eq_comm]

structure Connection where
  fd : SocketFd
  phase : Phase

/-- Where the worker is in the trade callback. -/
inductive Callback
  | idle
  | lookedUp (trade : Trade) (buyerFd sellerFd : SocketFd)
  | buyerNotified (trade : Trade) (sellerFd : SocketFd)

/-- The server with its threads. The last two fields only record what happens. -/
structure Sessions where
  server : GatewayServer
  /-- the connections that the open descriptors refer to -/
  descriptors : SocketFd → Option ℕ
  connection : ℕ → Option Connection
  /-- the trades for which the worker still has to call the callback -/
  trades : List Trade
  callback : Callback
  /-- who sent a `NEW_ORDER` with which id -/
  sent : List (ℕ × UInt64)
  /-- the notifications that were written, and to whom -/
  written : List (ℕ × Trade)

namespace Sessions

/-- A step of one of the threads. -/
inductive Action
  | accept (c : ℕ) (fd : SocketFd)
  | register (c : ℕ) (sessionId : String)
  | message (c : ℕ) (env : Env) (request : Request)
  | push (c : ℕ)
  | unregister (c : ℕ)
  | close (c : ℕ)
  | work (sort : StdSort OrderPtr)
  | lookUp
  | notifyBuyer
  | notifySeller

def setPhase (s : Sessions) (c : ℕ) (fd : SocketFd) (phase : Phase) : ℕ → Option Connection :=
  Function.update s.connection c (some ⟨fd, phase⟩)

/-- The id that a request adds to those sent. -/
def sentId (c : ℕ) : Request → List (ℕ × UInt64)
  | .newOrder order => [(c, order.orderId)]
  | _ => []

/-- `m_order_to_client[id]`, or −1. -/
def fdOf (s : Sessions) (id : UInt64) : SocketFd := (s.server.orderToClient id).getD (-1)

/-- What `send_trade_notification` writes (lines 211–218): `send` fails if the
    descriptor is not open. -/
def notified (s : Sessions) (fd : SocketFd) (trade : Trade) : List (ℕ × Trade) :=
  if fd = -1 then [] else (s.descriptors fd).toList.map (·, trade)

/-- A thread that is not where the step starts from does not move. -/
def step (s : Sessions) : Action → Sessions
  | .accept c fd =>
    if (s.connection c).isNone ∧ (s.descriptors fd).isNone ∧ 0 ≤ fd then
      { s with
        descriptors := Function.update s.descriptors fd (some c)
        connection := s.setPhase c fd .accepted }
    else s
  | .register c sessionId =>
    match s.connection c with
    | some ⟨fd, .accepted⟩ =>
      { s with
        server := s.server.registerClient fd sessionId
        connection := s.setPhase c fd (.serving sessionId) }
    | _ => s
  | .message c env request =>
    match s.connection c with
    | some ⟨fd, .serving sessionId⟩ =>
      { s with
        server := s.server.route fd request
        connection := s.setPhase c fd (.handling sessionId env request)
        sent := s.sent ++ sentId c request }
    | _ => s
  | .push c =>
    match s.connection c with
    | some ⟨fd, .handling sessionId env request⟩ =>
      { s with
        server := s.server.pushCommand env fd request
        connection := s.setPhase c fd (.serving sessionId) }
    | _ => s
  | .unregister c =>
    match s.connection c with
    | some ⟨fd, .serving _⟩ =>
      { s with
        server := s.server.unregisterClient fd
        connection := s.setPhase c fd .unregistered }
    | _ => s
  | .close c =>
    match s.connection c with
    | some ⟨fd, .unregistered⟩ =>
      { s with
        descriptors := Function.update s.descriptors fd none
        connection := s.setPhase c fd .closed }
    | _ => s
  | .work S =>
    match s.callback, s.trades with
    | .idle, [] => { s with server := s.server.work S, trades := s.server.emitted S }
    | _, _ => s
  | .lookUp =>
    match s.callback, s.trades with
    | .idle, trade :: trades =>
      { s with
        trades := trades
        callback := .lookedUp trade (s.fdOf trade.buyOrderId) (s.fdOf trade.sellOrderId) }
    | _, _ => s
  | .notifyBuyer =>
    match s.callback with
    | .lookedUp trade buyerFd sellerFd =>
      { s with
        callback := .buyerNotified trade sellerFd
        written := s.written ++ s.notified buyerFd trade }
    | _ => s
  | .notifySeller =>
    match s.callback with
    | .buyerNotified trade sellerFd =>
      { s with
        callback := .idle
        written := s.written ++ s.notified sellerFd trade }
    | _ => s

def machine : Machine Sessions Action :=
  ⟨⟨.new, fun _ => none, fun _ => none, [], .idle, [], []⟩, step⟩

/-! ## The invariant -/

/-- The connection `c` is in `phase` and has the descriptor number `fd`. -/
def At (s : Sessions) (c : ℕ) (fd : SocketFd) (phase : Phase) : Prop :=
  s.connection c = some ⟨fd, phase⟩

/-- What the kernel knows about the connections. -/
structure Held (s : Sessions) : Prop where
  open_iff : ∀ fd c, s.descriptors fd = some c ↔ ∃ phase, s.At c fd phase ∧ phase ≠ .closed
  nonneg : ∀ {c fd phase}, s.At c fd phase → 0 ≤ fd
  known : ∀ {c id}, (c, id) ∈ s.sent → s.connection c ≠ none

/-- What the two maps know about them. -/
structure Mapped (s : Sessions) : Prop where
  session : ∀ fd sessionId, s.server.clientSessions fd = some sessionId ↔
    ∃ c phase, s.At c fd phase ∧ phase.session = some sessionId
  route : ∀ {id fd}, s.server.orderToClient id = some fd →
    ∃ c phase, s.At c fd phase ∧ phase.session ≠ none ∧ (c, id) ∈ s.sent

structure Inv (s : Sessions) : Prop where
  held : s.Held
  mapped : s.Mapped

/-- No connection but `c` has the descriptor `fd` open, and `c` has no other. -/
structure Owns (s : Sessions) (c : ℕ) (fd : SocketFd) : Prop where
  alone : ∀ {c' phase}, s.At c' fd phase → phase ≠ .closed → c' = c
  only : ∀ {fd' phase}, s.At c fd' phase → fd' = fd
  nonneg : 0 ≤ fd

theorem At.eq {s : Sessions} {c : ℕ} {fd fd' : SocketFd} {phase phase' : Phase}
    (h : s.At c fd phase) (h' : s.At c fd' phase') : fd' = fd ∧ phase' = phase :=
  Connection.mk.inj (Option.some.inj (h'.symm.trans h))

theorem Held.owns {s : Sessions} (h : s.Held) {c : ℕ} {fd : SocketFd} {phase : Phase}
    (hc : s.At c fd phase) (ho : phase ≠ .closed) : s.Owns c fd where
  alone := by
    intro c' phase' hc' ho'
    have hfd := (h.open_iff fd c).mpr ⟨phase, hc, ho⟩
    rw [(h.open_iff fd c').mpr ⟨phase', hc', ho'⟩] at hfd
    exact Option.some.inj hfd
  only hc' := (hc.eq hc').1
  nonneg := h.nonneg hc

theorem Held.owns_new {s : Sessions} (h : s.Held) {c : ℕ} {fd : SocketFd}
    (hc : s.connection c = none) (hfd : s.descriptors fd = none) (hpos : 0 ≤ fd) :
    s.Owns c fd where
  alone := by
    intro c' phase hc' ho
    rw [(h.open_iff fd c').mpr ⟨phase, hc', ho⟩] at hfd
    cases hfd
  only := by
    intro fd' phase hc'
    rw [At, hc] at hc'
    cases hc'
  nonneg := hpos

/-! ## A thread moves -/

theorem setPhase_eq_iff {s : Sessions} {c c' : ℕ} {fd fd' : SocketFd} {phase phase' : Phase} :
    s.setPhase c fd phase c' = some ⟨fd', phase'⟩ ↔
      (c' = c ∧ fd' = fd ∧ phase' = phase) ∨ (c' ≠ c ∧ s.At c' fd' phase') := by
  rw [setPhase]
  rcases eq_or_ne c' c with rfl | hne
  · rw [Function.update_self]
    constructor
    · rintro ⟨⟩
      exact .inl ⟨rfl, rfl, rfl⟩
    · rintro (⟨-, rfl, rfl⟩ | ⟨hne, -⟩)
      · rfl
      · exact absurd rfl hne
  · rw [Function.update_of_ne hne]
    simp [hne, At]

/-- The connection is the one that has the descriptor open. -/
theorem Owns.setPhase_self {s : Sessions} {c c' : ℕ} {fd : SocketFd} {phase p : Phase}
    (howns : s.Owns c fd) (hpo : p ≠ .closed) :
    s.setPhase c fd phase c' = some ⟨fd, p⟩ ↔ c' = c ∧ p = phase := by
  rw [setPhase_eq_iff]
  constructor
  · rintro (⟨rfl, -, rfl⟩ | ⟨hne, hp⟩)
    · exact ⟨rfl, rfl⟩
    · exact absurd (howns.alone hp hpo) hne
  · rintro ⟨rfl, rfl⟩
    exact .inl ⟨rfl, rfl, rfl⟩

/-- Connections with other descriptors stay where they are. -/
theorem Owns.setPhase_other {s : Sessions} {c c' : ℕ} {fd fd' : SocketFd} {phase p : Phase}
    (howns : s.Owns c fd) (hne : fd' ≠ fd) :
    s.setPhase c fd phase c' = some ⟨fd', p⟩ ↔ s.At c' fd' p := by
  rw [setPhase_eq_iff]
  constructor
  · rintro (⟨-, heq, -⟩ | ⟨-, hp⟩)
    · exact absurd heq hne
    · exact hp
  · intro hp
    exact .inr ⟨fun hcc => hne (howns.only (hcc ▸ hp)), hp⟩

section Moves

variable {s : Sessions} {c : ℕ} {fd : SocketFd} (phase : Phase)

/-- The descriptor table follows the thread. -/
theorem Held.move (h : s.Held) (howns : s.Owns c fd) (server : GatewayServer)
    {descriptors : SocketFd → Option ℕ}
    (hdescr : descriptors = Function.update s.descriptors fd (phase.holder c))
    {sent : List (ℕ × UInt64)} (hsent : ∀ {c' id}, (c', id) ∈ sent → (c', id) ∈ s.sent ∨ c' = c) :
    Held { s with
      server := server
      descriptors := descriptors
      connection := s.setPhase c fd phase
      sent := sent } := by
  refine ⟨fun fd' c' => ?_, fun hc' => ?_, fun {c' id} hmem => ?_⟩
  · show descriptors fd' = some c' ↔ ∃ p, s.setPhase c fd phase c' = some ⟨fd', p⟩ ∧ p ≠ .closed
    rw [hdescr]
    rcases eq_or_ne fd' fd with rfl | hne
    · rw [Function.update_self, Phase.holder_eq_some_iff]
      constructor
      · rintro ⟨rfl, ho⟩
        exact ⟨phase, (howns.setPhase_self ho).mpr ⟨rfl, rfl⟩, ho⟩
      · rintro ⟨p, hp, hpo⟩
        obtain ⟨rfl, rfl⟩ := (howns.setPhase_self hpo).mp hp
        exact ⟨rfl, hpo⟩
    · rw [Function.update_of_ne hne, h.open_iff]
      exact exists_congr fun p => and_congr_left fun _ => (howns.setPhase_other hne).symm
  · rcases setPhase_eq_iff.mp hc' with ⟨-, rfl, -⟩ | ⟨-, hc'⟩
    · exact howns.nonneg
    · exact h.nonneg hc'
  · show s.setPhase c fd phase c' ≠ none
    rw [setPhase]
    rcases eq_or_ne c' c with rfl | hne
    · rw [Function.update_self]
      exact Option.some_ne_none _
    · rw [Function.update_of_ne hne]
      exact h.known ((hsent hmem).resolve_right hne)

/-- A route to the descriptor is one of `c`. -/
theorem Mapped.route_self (h : s.Mapped) (howns : s.Owns c fd) {id : UInt64}
    (hroute : s.server.orderToClient id = some fd) :
    ∃ p, s.At c fd p ∧ p.session ≠ none ∧ (c, id) ∈ s.sent := by
  obtain ⟨c', p, hp, hs, hsent⟩ := h.route hroute
  obtain rfl := howns.alone hp (Phase.ne_closed_of_session hs)
  exact ⟨p, hp, hs, hsent⟩

/-- The maps follow the thread: its session is the one recorded, and the routes
    to its descriptor are those of orders that it has sent. -/
theorem Mapped.move (h : s.Mapped) (howns : s.Owns c fd) {server : GatewayServer}
    (hsessions : server.clientSessions =
      Function.update s.server.clientSessions fd phase.session)
    {sent : List (ℕ × UInt64)} (hsub : s.sent ⊆ sent)
    (hroutes : ∀ id fd', server.orderToClient id = some fd' →
      (fd' ≠ fd ∧ s.server.orderToClient id = some fd') ∨
        (fd' = fd ∧ phase.session ≠ none ∧ (c, id) ∈ sent))
    (descriptors : SocketFd → Option ℕ) :
    Mapped { s with
      server := server
      descriptors := descriptors
      connection := s.setPhase c fd phase
      sent := sent } := by
  have hself : s.setPhase c fd phase c = some ⟨fd, phase⟩ :=
    setPhase_eq_iff.mpr (.inl ⟨rfl, rfl, rfl⟩)
  constructor
  · intro fd' sessionId
    show server.clientSessions fd' = some sessionId ↔
      ∃ c' p, s.setPhase c fd phase c' = some ⟨fd', p⟩ ∧ p.session = some sessionId
    rw [hsessions]
    rcases eq_or_ne fd' fd with rfl | hne
    · rw [Function.update_self]
      refine ⟨fun hs => ⟨c, phase, hself, hs⟩, ?_⟩
      rintro ⟨c', p, hp, hs⟩
      have hpo : p ≠ .closed := Phase.ne_closed_of_session (by simp [hs])
      obtain ⟨-, rfl⟩ := (howns.setPhase_self hpo).mp hp
      exact hs
    · rw [Function.update_of_ne hne, h.session]
      exact exists₂_congr fun c' p => and_congr_left fun _ => (howns.setPhase_other hne).symm
  · intro id fd' hroute
    rcases hroutes id fd' hroute with ⟨hne, hold⟩ | ⟨rfl, hs, hmem⟩
    · obtain ⟨c', p, hp, hs, hmem⟩ := h.route hold
      exact ⟨c', p, (howns.setPhase_other hne).mpr hp, hs, hsub hmem⟩
    · exact ⟨c, phase, hself, hs, hmem⟩

/-- A connection moves from one open phase to another. -/
theorem Inv.move (h : s.Inv) {old : Phase} (hc : s.At c fd old) (ho : old ≠ .closed)
    (ho' : phase ≠ .closed) (server : GatewayServer)
    (hsessions : server.clientSessions =
      Function.update s.server.clientSessions fd phase.session)
    {sent : List (ℕ × UInt64)} (hsub : s.sent ⊆ sent)
    (hsent : ∀ {c' id}, (c', id) ∈ sent → (c', id) ∈ s.sent ∨ c' = c)
    (hroutes : ∀ id fd', server.orderToClient id = some fd' →
      (fd' ≠ fd ∧ s.server.orderToClient id = some fd') ∨
        (fd' = fd ∧ phase.session ≠ none ∧ (c, id) ∈ sent)) :
    Inv { s with
      server := server
      connection := s.setPhase c fd phase
      sent := sent } := by
  have howns := h.held.owns hc ho
  have hdescr : s.descriptors = Function.update s.descriptors fd (phase.holder c) := by
    rw [Phase.holder_eq_some_iff.mpr ⟨rfl, ho'⟩, ← (h.held.open_iff fd c).mpr ⟨old, hc, ho⟩,
      Function.update_eq_self]
  exact ⟨h.held.move phase howns server hdescr hsent,
    h.mapped.move phase howns hsessions hsub hroutes s.descriptors⟩

end Moves

/-! ## The steps -/

section Steps

variable {s : Sessions} {c : ℕ} {fd : SocketFd}

/-- The routes to a descriptor are those of the connection that has it. -/
theorem Inv.routes_keep (h : s.Inv) (howns : s.Owns c fd) (id : UInt64) (fd' : SocketFd)
    (hroute : s.server.orderToClient id = some fd') :
    (fd' ≠ fd ∧ s.server.orderToClient id = some fd') ∨
      (fd' = fd ∧ ∃ p, s.At c fd p ∧ p.session ≠ none ∧ (c, id) ∈ s.sent) := by
  rcases eq_or_ne fd' fd with rfl | hne
  · exact .inr ⟨rfl, h.mapped.route_self howns hroute⟩
  · exact .inl ⟨hne, hroute⟩

/-- The session map has the session of the connection that has the descriptor. -/
theorem Inv.sessions_keep (h : s.Inv) (howns : s.Owns c fd) {session : Option String}
    (hs : ∀ sessionId, session = some sessionId ↔
      ∃ p, s.At c fd p ∧ p.session = some sessionId) :
    s.server.clientSessions = Function.update s.server.clientSessions fd session := by
  have hself : s.server.clientSessions fd = session := by
    apply Option.ext
    intro sessionId
    rw [h.mapped.session, hs]
    constructor
    · rintro ⟨c', p, hp, hps⟩
      obtain rfl := howns.alone hp (Phase.ne_closed_of_session (by simp [hps]))
      exact ⟨p, hp, hps⟩
    · rintro ⟨p, hp, hps⟩
      exact ⟨c, p, hp, hps⟩
  rw [← hself, Function.update_eq_self]

theorem Inv.accept (h : s.Inv) (hc : s.connection c = none) (hfd : s.descriptors fd = none)
    (hpos : 0 ≤ fd) :
    Inv { s with
      descriptors := Function.update s.descriptors fd (some c)
      connection := s.setPhase c fd .accepted } := by
  have howns := h.held.owns_new hc hfd hpos
  have hnot : ∀ {p}, ¬ s.At c fd p := by
    intro p hp
    rw [At, hc] at hp
    cases hp
  refine ⟨h.held.move .accepted howns s.server rfl .inl, h.mapped.move .accepted howns
    (h.sessions_keep howns ?_) (List.Subset.refl _) ?_ _⟩
  · simp [hnot, Phase.session]
  · intro id fd' hroute
    exact (h.routes_keep howns id fd' hroute).imp_right fun ⟨_, _, hp, _⟩ => absurd hp hnot

theorem Inv.register (h : s.Inv) (hc : s.At c fd .accepted) (sessionId : String) :
    Inv { s with
      server := s.server.registerClient fd sessionId
      connection := s.setPhase c fd (.serving sessionId) } := by
  have ho : Phase.accepted ≠ .closed := Phase.noConfusion
  refine h.move (.serving sessionId) hc ho Phase.noConfusion
    (s.server.registerClient fd sessionId) rfl (List.Subset.refl _) .inl ?_
  intro id fd' hroute
  refine (h.routes_keep (h.held.owns hc ho) id fd' hroute).imp_right ?_
  rintro ⟨-, p, hp, hs, -⟩
  obtain ⟨-, rfl⟩ := hc.eq hp
  exact absurd rfl hs

/-- The session map while the connection keeps its session. -/
theorem Inv.sessions_serving (h : s.Inv) {phase : Phase} {sessionId : String}
    (hc : s.At c fd phase) (hs : phase.session = some sessionId) :
    s.server.clientSessions =
      Function.update s.server.clientSessions fd (some sessionId) := by
  have ho : phase ≠ .closed := Phase.ne_closed_of_session (by simp [hs])
  refine h.sessions_keep (h.held.owns hc ho) fun sessionId' => ?_
  rw [← hs]
  constructor
  · intro hs'
    exact ⟨phase, hc, hs'⟩
  · rintro ⟨p, hp, hps⟩
    obtain ⟨-, rfl⟩ := hc.eq hp
    exact hps

theorem Inv.message (h : s.Inv) {sessionId : String} (hc : s.At c fd (.serving sessionId))
    (env : Env) (request : Request) :
    Inv { s with
      server := s.server.route fd request
      connection := s.setPhase c fd (.handling sessionId env request)
      sent := s.sent ++ sentId c request } := by
  have ho : Phase.serving sessionId ≠ .closed := Phase.noConfusion
  refine h.move (.handling sessionId env request) hc ho Phase.noConfusion
    (s.server.route fd request) (h.sessions_serving hc rfl) (List.subset_append_left _ _) ?_ ?_
  · intro c' id hmem
    refine (List.mem_append.mp hmem).imp_right fun hnew => ?_
    cases request <;> simp_all [sentId]
  · intro id fd' hroute
    -- the route is the one that the request has just set, or an old one
    have hcases : (fd' = fd ∧ (c, id) ∈ sentId c request) ∨
        s.server.orderToClient id = some fd' := by
      cases request with
      | newOrder order =>
        change Function.update s.server.orderToClient order.orderId (some fd) id = _ at hroute
        rcases eq_or_ne id order.orderId with rfl | hne
        · rw [Function.update_self] at hroute
          exact .inl ⟨(Option.some.inj hroute).symm, List.mem_singleton_self _⟩
        · rw [Function.update_of_ne hne] at hroute
          exact .inr hroute
      | cancelOrder order => exact .inr hroute
      | modifyOrder order => exact .inr hroute
    rcases hcases with ⟨rfl, hnew⟩ | hold
    · exact .inr ⟨rfl, Option.some_ne_none _, List.mem_append_right _ hnew⟩
    · refine (h.routes_keep (h.held.owns hc ho) id fd' hold).imp_right ?_
      rintro ⟨rfl, p, -, -, hmem⟩
      exact ⟨rfl, Option.some_ne_none _, List.mem_append_left _ hmem⟩

theorem Inv.push (h : s.Inv) {sessionId : String} {env : Env} {request : Request}
    (hc : s.At c fd (.handling sessionId env request)) :
    Inv { s with
      server := s.server.pushCommand env fd request
      connection := s.setPhase c fd (.serving sessionId) } := by
  have ho : Phase.handling sessionId env request ≠ .closed := Phase.noConfusion
  refine h.move (.serving sessionId) hc ho Phase.noConfusion
    (s.server.pushCommand env fd request) (h.sessions_serving hc rfl) (List.Subset.refl _) .inl ?_
  intro id fd' hroute
  refine (h.routes_keep (h.held.owns hc ho) id fd' hroute).imp_right ?_
  rintro ⟨rfl, p, -, -, hmem⟩
  exact ⟨rfl, Option.some_ne_none _, hmem⟩

/-- No route to the descriptor is left when it is closed. -/
theorem Inv.unregister (h : s.Inv) {sessionId : String} (hc : s.At c fd (.serving sessionId)) :
    Inv { s with
      server := s.server.unregisterClient fd
      connection := s.setPhase c fd .unregistered } := by
  have ho : Phase.serving sessionId ≠ .closed := Phase.noConfusion
  refine h.move .unregistered hc ho Phase.noConfusion (s.server.unregisterClient fd) rfl
    (List.Subset.refl _) .inl ?_
  intro id fd' hroute
  change (s.server.orderToClient id).filter (· ≠ fd) = some fd' at hroute
  obtain ⟨hold, hne⟩ := Option.filter_eq_some_iff.mp hroute
  exact .inl ⟨of_decide_eq_true hne, hold⟩

theorem Inv.close (h : s.Inv) (hc : s.At c fd .unregistered) :
    Inv { s with
      descriptors := Function.update s.descriptors fd none
      connection := s.setPhase c fd .closed } := by
  have howns := h.held.owns hc Phase.noConfusion
  have hnot : ∀ {p}, s.At c fd p → p.session = none := by
    intro p hp
    obtain ⟨-, rfl⟩ := hc.eq hp
    rfl
  refine ⟨h.held.move .closed howns s.server rfl .inl, h.mapped.move .closed howns
    (h.sessions_keep howns ?_) (List.Subset.refl _) ?_ _⟩
  · intro sessionId
    refine ⟨fun hs => (Option.some_ne_none _ hs.symm).elim, ?_⟩
    rintro ⟨p, hp, hs⟩
    rw [hnot hp] at hs
    cases hs
  · intro id fd' hroute
    exact (h.routes_keep howns id fd' hroute).imp_right fun ⟨_, _, hp, hs, _⟩ =>
      absurd (hnot hp) hs

/-- The callback only reads the maps. -/
theorem Inv.callback (h : s.Inv) (trades : List Trade) (callback : Callback)
    (written : List (ℕ × Trade)) :
    Inv { s with trades := trades, callback := callback, written := written } :=
  ⟨⟨h.held.open_iff, h.held.nonneg, h.held.known⟩, ⟨h.mapped.session, h.mapped.route⟩⟩

theorem Inv.work (h : s.Inv) (S : StdSort OrderPtr) :
    Inv { s with server := s.server.work S, trades := s.server.emitted S } := by
  have hmaps : (s.server.work S).clientSessions = s.server.clientSessions ∧
      (s.server.work S).orderToClient = s.server.orderToClient := by
    rw [GatewayServer.work]
    rcases s.server.orderQueue.pop with ⟨_ | order, queue⟩ <;> exact ⟨rfl, rfl⟩
  refine ⟨⟨h.held.open_iff, h.held.nonneg, h.held.known⟩, ⟨?_, ?_⟩⟩
  · rw [hmaps.1]
    exact h.mapped.session
  · rw [hmaps.2]
    exact h.mapped.route

end Steps

theorem Inv.step {s : Sessions} (h : s.Inv) (action : Action) : (s.step action).Inv := by
  cases action with
  | accept c fd =>
    simp only [Sessions.step, Option.isNone_iff_eq_none]
    split_ifs with hguard
    · exact h.accept hguard.1 hguard.2.1 hguard.2.2
    · exact h
  | register c sessionId =>
    simp only [Sessions.step]
    split
    · next hc => exact h.register hc sessionId
    · exact h
  | message c env request =>
    simp only [Sessions.step]
    split
    · next hc => exact h.message hc env request
    · exact h
  | push c =>
    simp only [Sessions.step]
    split
    · next hc => exact h.push hc
    · exact h
  | unregister c =>
    simp only [Sessions.step]
    split
    · next hc => exact h.unregister hc
    · exact h
  | close c =>
    simp only [Sessions.step]
    split
    · next hc => exact h.close hc
    · exact h
  | work S =>
    simp only [Sessions.step]
    split
    · exact h.work S
    · exact h
  | lookUp =>
    simp only [Sessions.step]
    split
    · exact h.callback _ _ _
    · exact h
  | notifyBuyer =>
    simp only [Sessions.step]
    split
    · exact h.callback _ _ _
    · exact h
  | notifySeller =>
    simp only [Sessions.step]
    split
    · exact h.callback _ _ _
    · exact h

theorem inv_init : machine.init.Inv := by
  refine ⟨⟨fun fd c => ?_, ?_, ?_⟩, ⟨fun fd sessionId => ?_, ?_⟩⟩
  · simp [machine, At]
  · intro c fd phase hc
    cases hc
  · intro c id hmem
    cases hmem
  · simp [machine, At, GatewayServer.new]
  · intro id fd hroute
    cases hroute

theorem inv_after (actions : List Action) : (machine.after actions).Inv :=
  machine.after_induction inv_init (fun _ action h => h.step action) actions

/-! ## Routes -/

/-- Every entry of `m_order_to_client` is a route to the connection that has the
    descriptor now, that is registered and that sent the order; without
    registered connections both maps are empty. -/
def RoutesCurrent (s : Sessions) : Prop :=
  (∀ id fd, s.server.orderToClient id = some fd → ∃ c phase sessionId,
    s.descriptors fd = some c ∧ s.connection c = some ⟨fd, phase⟩ ∧
    phase.session = some sessionId ∧ s.server.clientSessions fd = some sessionId ∧
    (c, id) ∈ s.sent) ∧
  ((∀ c conn, s.connection c = some conn → conn.phase = .unregistered ∨ conn.phase = .closed) →
    (∀ fd, s.server.clientSessions fd = none) ∧ ∀ id, s.server.orderToClient id = none)

/-- **No stale routes.** In every state of every run all routes are current, and
    once every connection has been unregistered both maps are empty. -/
theorem routes_current (actions : List Action) : (machine.after actions).RoutesCurrent := by
  obtain ⟨hheld, hmapped⟩ := inv_after actions
  constructor
  · intro id fd hroute
    obtain ⟨c, phase, hc, hs, hsent⟩ := hmapped.route hroute
    obtain ⟨sessionId, hs'⟩ := Option.ne_none_iff_exists'.mp hs
    have hfd : (machine.after actions).descriptors fd = some c :=
      (hheld.open_iff fd c).mpr ⟨phase, hc, Phase.ne_closed_of_session hs⟩
    have hsession := (hmapped.session fd sessionId).mpr ⟨c, phase, hc, hs'⟩
    exact ⟨c, phase, sessionId, hfd, hc, hs', hsession, hsent⟩
  · intro hall
    have hnone : ∀ {c fd phase}, (machine.after actions).At c fd phase → phase.session = none := by
      intro c fd phase hc
      rcases hall c _ hc with hphase | hphase
      · rw [show phase = .unregistered from hphase]
        rfl
      · rw [show phase = .closed from hphase]
        rfl
    constructor
    · intro fd
      apply Option.eq_none_iff_forall_ne_some.mpr
      intro sessionId hs
      obtain ⟨c, phase, hc, hs⟩ := (hmapped.session fd sessionId).mp hs
      rw [hnone hc] at hs
      cases hs
    · intro id
      apply Option.eq_none_iff_forall_ne_some.mpr
      intro fd hroute
      obtain ⟨c, phase, hc, hs, -⟩ := hmapped.route hroute
      exact hs (hnone hc)

example :
    let orders : List Action := [.accept 0 5, .register 0 "session_100000",
      .message 0 GatewayServer.plainEnv (.newOrder GatewayServer.buyOrder), .push 0]
    (machine.after orders).server.orderToClient 7 = some 5 ∧
      (machine.after (orders ++ [.unregister 0])).server.orderToClient 7 = none := by
  decide +kernel

end Sessions

end TradingGateway.Gateway

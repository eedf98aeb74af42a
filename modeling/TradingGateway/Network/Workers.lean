import TradingGateway.Common.Bytes
import TradingGateway.Common.Custody
import TradingGateway.Network.TcpServer

/-!
# The threads of the server

After a `start` that succeeds, one thread of `TCPServer` accepts connections and
starts another one for each of them (`cpp-core/network/tcp_server.cpp`,
lines 93–159). `stop` (lines 76–91) clears `m_running`, closes the listening
socket, joins the threads in `m_worker_threads` and destroys them. Here the
threads take their steps in any order once `start` has returned. `accept` returns
also if the socket was closed meanwhile, but not if it was closed before the call.

The loop in `stop` takes the end of the vector once. A thread that is put behind
it later is not joined, and `clear` finds it joinable, which ends the process.
This is if the vector has room for it. If it has not, its elements move while the
loop is at one of them, and what happens from there on is undefined: the run is
followed to this point. How far a vector grows is left to the library.

* `stop_leaves_nothing`: in every run the handlers of every connection are called
  in order, and when `stop` returns, all threads are done and every descriptor was
  closed once. `stop` does not return if a thread was started behind its back.
* `late_client_terminates`, `late_client_dangles`: a run in which it was, in a
  vector with room and in one without.
-/

namespace TradingGateway.Network

open Common

/-! ## Threads -/

/-- Which handlers were set (lines 161–171). -/
structure Handlers where
  connect : Bool
  message : Bool
  disconnect : Bool

/-- What `handle_client` does with its connection, but for `recv`. -/
inductive ClientCall
  | connect
  | message (data : Bytes)
  | disconnect
  | close
  deriving DecidableEq

/-- Where a thread is in `handle_client` (lines 126–159). -/
inductive ClientPc
  | connecting
  /-- before `m_running.load()` -/
  | testing
  | receiving
  | handling (data : Bytes)
  | disconnecting
  | closing
  | done
  deriving DecidableEq

/-- The thread of a connection. The last two fields record the chunks it has
    handled and what it has called. -/
structure Client where
  fd : ℕ
  pc : ClientPc
  chunks : List Bytes
  calls : List ClientCall

/-- Where the first thread is in `accept_connections` (lines 93–124). -/
inductive AcceptPc
  /-- before `m_running.load()` -/
  | testing
  /-- in `accept`, called with a socket that was open or was not -/
  | accepting (listening : Bool)
  /-- before `emplace_back` -/
  | emplacing (clientFd : ℕ)
  | done
  deriving DecidableEq

/-- Where the owner is in `stop` (lines 76–91). -/
inductive StopPc
  | idle
  /-- before the listening socket is closed -/
  | stored
  /-- before the loop -/
  | closed
  /-- before thread `next` is joined, in a loop that ends before thread `last` -/
  | joining (next last : ℕ)
  | returned
  /-- a thread that was not joined has been destroyed -/
  | terminated
  /-- the vector has moved under the loop -/
  | dangling
  deriving DecidableEq

/-- The server and its threads: `m_worker_threads` are the one that accepts and then
    those of `clients`. The last three fields record which descriptors are open, how
    it came to that, and how many threads were started while `stop` was in its loop. -/
structure Workers where
  running : Bool
  /-- `m_server_fd`, unless that is −1 -/
  serverFd : Option ℕ
  accept : AcceptPc
  clients : List Client
  /-- of `m_worker_threads` -/
  capacity : ℕ
  stop : StopPc
  held : Finset ℕ
  events : List FdEvent
  late : ℕ

/-! ## Steps -/

/-- A call of a handler, if it was set. -/
def callIf (handler : Bool) (call : ClientCall) : List ClientCall := if handler then [call] else []

/-- The next step of `handle_client`; `received` is what `recv` returns. -/
def Client.next (h : Handlers) (running : Bool) (received : Option Bytes) (c : Client) : Client :=
  match c.pc with
  | .connecting => { c with pc := .testing, calls := c.calls ++ callIf h.connect .connect }
  | .testing => { c with pc := if running then .receiving else .disconnecting }
  | .receiving =>
    match received with
    | some data => { c with pc := .handling data }
    | none => { c with pc := .disconnecting }
  | .handling data =>
    { c with
      pc := .testing
      chunks := c.chunks ++ [data]
      calls := c.calls ++ callIf h.message (.message data) }
  | .disconnecting => { c with pc := .closing, calls := c.calls ++ callIf h.disconnect .disconnect }
  | .closing => { c with pc := .done, calls := c.calls ++ [.close] }
  | .done => c

/-- Where `stop` is after `emplace_back`: if the vector was full, its elements have
    moved, and an iterator into it is invalid. -/
def StopPc.emplaced (full : Bool) : StopPc → StopPc
  | .joining next last => if full then .dangling else .joining next last
  | pc => pc

/-- The capacity of a vector of `size` elements after `emplace_back`. A full one
    grows as `grow` says, and at least by the new element. -/
def capacityAfter (grow : ℕ → ℕ) (size capacity : ℕ) : ℕ :=
  if size < capacity then capacity else max (size + 1) (grow size)

namespace Workers

/-- Descriptors after an event. -/
def record (w : Workers) (event : FdEvent) : Workers :=
  { w with held := event.settle w.held, events := w.events ++ [event] }

/-- A step of the thread of client `k`. -/
def stepClient (w : Workers) (h : Handlers) (k : ℕ) (received : Option Bytes) : Workers :=
  match w.clients[k]? with
  | none => w
  | some c =>
    let w' := { w with clients := w.clients.set k (c.next h w.running received) }
    if c.pc = .closing then w'.record (.closed c.fd) else w'

/-- A step of `accept_connections`; `result` is what `accept` returns, a number that
    is not open or an error. -/
def stepAccept (grow : ℕ → ℕ) (w : Workers) (result : Option ℕ) : Workers :=
  match w.accept with
  | .testing =>
    { w with accept := if w.running then .accepting w.serverFd.isSome else .done }
  | .accepting listening =>
    match result with
    | some fd =>
      if listening ∧ fd ∉ w.held then { w with accept := .emplacing fd }.record (.opened fd)
      else { w with accept := .testing }
    | none => { w with accept := .testing }
  | .emplacing fd =>
    let size := w.clients.length + 1
    { w with
      accept := .testing
      clients := w.clients ++ [⟨fd, .connecting, [], []⟩]
      capacity := capacityAfter grow size w.capacity
      stop := w.stop.emplaced (w.capacity ≤ size)
      late := match w.stop with
        | .joining _ _ => w.late + 1
        | _ => w.late }
  | .done => w

/-- Thread `i` of `m_worker_threads` has ended. -/
def ended (w : Workers) : ℕ → Bool
  | 0 => w.accept = .done
  | k + 1 => w.clients[k]?.any fun c => c.pc = .done

/-- A step of `stop`. -/
def stepStop (w : Workers) : Workers :=
  match w.stop with
  | .idle => { w with running := false, stop := .stored }
  | .stored =>
    match w.serverFd with
    | some fd => { w with serverFd := none, stop := .closed }.record (.closed fd)
    | none => { w with stop := .closed }
  | .closed => { w with stop := .joining 0 (w.clients.length + 1) }
  | .joining next last =>
    if next = last then
      { w with stop := if last = w.clients.length + 1 then .returned else .terminated }
    else if w.ended next then { w with stop := .joining (next + 1) last }
    else w
  | .returned => w
  | .terminated => w
  | .dangling => w

inductive Action
  | accept (result : Option ℕ)
  | client (k : ℕ) (received : Option Bytes)
  | stop

/-- No thread of a process that was ended takes steps, and none is followed after
    undefined behaviour. -/
def step (h : Handlers) (grow : ℕ → ℕ) (w : Workers) (a : Action) : Workers :=
  if w.stop = .terminated ∨ w.stop = .dangling then w
  else
    match a with
    | .accept result => w.stepAccept grow result
    | .client k received => w.stepClient h k received
    | .stop => w.stepStop

/-- The server after a `start` that has opened `fd`, with a vector of the given
    capacity before. -/
def machine (h : Handlers) (grow : ℕ → ℕ) (capacity fd : ℕ) : Machine Workers Action where
  init :=
    ⟨true, some fd, .testing, [], capacityAfter grow 0 capacity, .idle, {fd}, [.opened fd], 0⟩
  step := step h grow

end Workers

/-! ## One connection -/

/-- The calls that `handle_client` makes in the end: `connect`, a message for each
    chunk, `disconnect`, and `close`. -/
def Handlers.lifecycle (h : Handlers) (chunks : List Bytes) : List ClientCall :=
  callIf h.connect .connect ++ chunks.flatMap (fun data => callIf h.message (.message data)) ++
    callIf h.disconnect .disconnect ++ [.close]

/-- The calls that it has made where it is. -/
def Handlers.progress (h : Handlers) (chunks : List Bytes) : ClientPc → List ClientCall
  | .connecting => []
  | .closing =>
    callIf h.connect .connect ++ chunks.flatMap (fun data => callIf h.message (.message data)) ++
      callIf h.disconnect .disconnect
  | .done => h.lifecycle chunks
  | _ => callIf h.connect .connect ++ chunks.flatMap fun data => callIf h.message (.message data)

theorem Handlers.progress_prefix (h : Handlers) (chunks : List Bytes) (pc : ClientPc) :
    h.progress chunks pc <+: h.lifecycle chunks := by
  unfold progress lifecycle
  cases pc with
  | connecting => exact List.nil_prefix
  | closing => exact List.prefix_append _ _
  | done => exact List.prefix_rfl
  | _ =>
    rw [List.append_assoc _ _ [ClientCall.close]]
    exact List.prefix_append _ _

/-- The calls are those that belong to the place, and the first chunk comes after
    `connect`. -/
structure Client.Ok (h : Handlers) (c : Client) : Prop where
  calls : c.calls = h.progress c.chunks c.pc
  chunks : c.pc = .connecting → c.chunks = []

theorem Client.Ok.next {h : Handlers} {c : Client} (hc : c.Ok h) (running : Bool)
    (received : Option Bytes) : (c.next h running received).Ok h := by
  obtain ⟨hcalls, hchunks⟩ := hc
  obtain ⟨fd, pc, chunks, calls⟩ := c
  dsimp only at hcalls hchunks
  subst hcalls
  cases pc with
  | connecting =>
    obtain rfl : chunks = [] := hchunks rfl
    exact ⟨by simp [Client.next, Handlers.progress], by simp [Client.next]⟩
  | testing => cases running <;> exact ⟨rfl, by simp [Client.next]⟩
  | receiving => cases received <;> exact ⟨rfl, by simp [Client.next]⟩
  | handling data => exact ⟨by simp [Client.next, Handlers.progress], by simp [Client.next]⟩
  | disconnecting => exact ⟨rfl, by simp [Client.next]⟩
  | closing => exact ⟨rfl, by simp [Client.next]⟩
  | done => exact ⟨rfl, hchunks⟩

/-- The descriptor that the thread that accepts has still to pass on. -/
def AcceptPc.holds : AcceptPc → Option ℕ
  | .emplacing fd => some fd
  | _ => none

/-- The descriptor that the thread has still to close. -/
def Client.holds (c : Client) : Option ℕ := if c.pc = .done then none else some c.fd

theorem Client.holds_next (h : Handlers) (running : Bool) (received : Option Bytes) (c : Client) :
    (c.next h running received).holds = if c.pc = .closing then none else c.holds := by
  obtain ⟨fd, pc, chunks, calls⟩ := c
  cases pc with
  | testing => cases running <;> rfl
  | receiving => cases received <;> rfl
  | _ => rfl

theorem Client.next_of_done {h : Handlers} {running : Bool} {received : Option Bytes} {c : Client}
    (hc : c.pc = .done) : c.next h running received = c := by
  unfold Client.next
  rw [hc]

namespace Workers

/-! ## Descriptors -/

/-- Who may hold a descriptor. -/
inductive Owner
  | server
  | accept
  | client (k : ℕ)
  deriving DecidableEq

/-- The descriptor that a thread, or the server, has still to close. -/
def holds (w : Workers) : Owner → Option ℕ
  | .server => w.serverFd
  | .accept => w.accept.holds
  | .client k => w.clients[k]?.bind Client.holds

/-- What is open can be told from the events, and everything open has one holder. -/
structure Open (w : Workers) : Prop where
  ledger : replay ∅ w.events = some w.held
  custody : Custody w.held w.holds

variable {w : Workers}

section Open

variable {w' : Workers} (h : w.Open) (hheld : w'.held = w.held) (hevents : w'.events = w.events)

include h hheld hevents

theorem Open.move (hholds : w'.holds = w.holds) : w'.Open where
  ledger := by rw [hevents, hheld, h.ledger]
  custody := by
    rw [hheld, hholds]
    exact h.custody

theorem Open.pass {o o' : Owner} {fd : ℕ} (ho : w.holds o = some fd) (ho' : w.holds o' = none)
    (hholds : w'.holds = Function.update (Function.update w.holds o none) o' (some fd)) :
    w'.Open where
  ledger := by rw [hevents, hheld, h.ledger]
  custody := by
    rw [hheld, hholds]
    exact h.custody.pass ho ho'

theorem Open.acquire {o : Owner} {fd : ℕ} (ho : w.holds o = none) (hfd : fd ∉ w.held)
    (hholds : w'.holds = Function.update w.holds o (some fd)) :
    (w'.record (.opened fd)).Open where
  ledger := by
    show replay ∅ (w'.events ++ _) = some (insert fd w'.held)
    rw [replay_append, hevents, hheld, h.ledger]
    rfl
  custody := by
    show Custody (insert fd w'.held) w'.holds
    rw [hheld, hholds]
    exact h.custody.acquire ho hfd

theorem Open.release {o : Owner} {fd : ℕ} (ho : w.holds o = some fd)
    (hholds : w'.holds = Function.update w.holds o none) :
    (w'.record (.closed fd)).Open where
  ledger := by
    show replay ∅ (w'.events ++ _) = some (w'.held.erase fd)
    rw [replay_append, hevents, hheld, h.ledger, Option.bind_some]
    simp [replay, FdEvent.replay, h.custody.mem ho]
  custody := by
    show Custody (w'.held.erase fd) w'.holds
    rw [hheld, hholds]
    exact h.custody.release ho

end Open

/-! ## Stopping -/

/-- How far `stop` has come. -/
def Stopping (w : Workers) : Prop :=
  match w.stop with
  | .idle => w.late = 0
  | .stored => w.late = 0
  | .closed => w.serverFd = none ∧ w.late = 0
  | .joining next last =>
    w.serverFd = none ∧ last + w.late = w.clients.length + 1 ∧ next ≤ last ∧
      ∀ i < next, w.ended i
  | .returned => w.serverFd = none ∧ w.late = 0 ∧ ∀ i < w.clients.length + 1, w.ended i
  | .terminated => 0 < w.late
  | .dangling => 0 < w.late

structure Inv (h : Handlers) (w : Workers) : Prop where
  opened : w.Open
  clients : ∀ c ∈ w.clients, c.Ok h
  stopping : w.Stopping

/-! ## Steps of a client -/

theorem holds_setClient {k : ℕ} {c : Client} (hk : w.clients[k]? = some c) (c' : Client) :
    holds { w with clients := w.clients.set k c' } =
      Function.update w.holds (.client k) c'.holds := by
  have hlt : k < w.clients.length := (List.getElem?_eq_some_iff.mp hk).1
  funext o
  cases o with
  | server => rfl
  | accept => rfl
  | client j =>
    rcases eq_or_ne j k with rfl | hne
    · rw [Function.update_self]
      simp [holds, hlt]
    · rw [Function.update_of_ne (by simpa using hne)]
      simp [holds, List.getElem?_set_ne (Ne.symm hne)]

theorem Open.stepClient (hw : w.Open) (h : Handlers) (k : ℕ) (received : Option Bytes) :
    (w.stepClient h k received).Open := by
  unfold Workers.stepClient
  cases hk : w.clients[k]? with
  | none => exact hw
  | some c =>
    have hholds : w.holds (.client k) = c.holds := by simp [holds, hk]
    have hset := holds_setClient hk (c.next h w.running received)
    rw [Client.holds_next] at hset
    dsimp only
    split_ifs at hset ⊢ with hclosing
    · refine hw.release ?_ ?_ (hholds.trans ?_) hset
      · rfl
      · rfl
      · rw [Client.holds, hclosing]
        rfl
    · refine hw.move rfl rfl (hset.trans ?_)
      rw [← hholds, Function.update_eq_self]

theorem clients_stepClient (w : Workers) (h : Handlers) (k : ℕ) (received : Option Bytes) :
    (w.stepClient h k received).clients =
      w.clients.modify k (Client.next h w.running received) := by
  unfold Workers.stepClient
  rw [List.modify_eq_set_getElem?]
  cases hk : w.clients[k]? with
  | none => simp
  | some c =>
    dsimp only
    split_ifs <;> simp [record]

/-- Nothing else of what `stop` looks at changes. -/
theorem stepClient_frame (w : Workers) (h : Handlers) (k : ℕ) (received : Option Bytes) :
    (w.stepClient h k received).stop = w.stop ∧
      (w.stepClient h k received).serverFd = w.serverFd ∧
      (w.stepClient h k received).late = w.late ∧
      (w.stepClient h k received).accept = w.accept := by
  unfold Workers.stepClient
  split
  · exact ⟨rfl, rfl, rfl, rfl⟩
  · split_ifs <;> exact ⟨rfl, rfl, rfl, rfl⟩

theorem ended_stepClient (h : Handlers) (k : ℕ) (received : Option Bytes) {i : ℕ}
    (hi : w.ended i) : (w.stepClient h k received).ended i := by
  cases i with
  | zero =>
    rw [ended, (w.stepClient_frame h k received).2.2.2]
    exact hi
  | succ j =>
    rw [ended, clients_stepClient, List.getElem?_modify]
    rw [ended] at hi
    cases hj : w.clients[j]? with
    | none => simp [hj] at hi
    | some c =>
      have hdone : c.pc = .done := by simpa [hj] using hi
      split_ifs <;> simp [Client.next_of_done, hdone]

/-- Threads go on and none is started. -/
theorem Stopping.of_ended {w' : Workers} (hw : w.Stopping) (hstop : w'.stop = w.stop)
    (hserver : w'.serverFd = w.serverFd) (hlate : w'.late = w.late)
    (hlength : w'.clients.length = w.clients.length)
    (hended : ∀ i, w.ended i → w'.ended i) : w'.Stopping := by
  unfold Stopping at hw ⊢
  rw [hstop]
  cases hpc : w.stop with
  | joining next last =>
    rw [hpc] at hw
    rw [hserver, hlate, hlength]
    exact ⟨hw.1, hw.2.1, hw.2.2.1, fun i hi => hended i (hw.2.2.2 i hi)⟩
  | returned =>
    rw [hpc] at hw
    rw [hserver, hlate, hlength]
    exact ⟨hw.1, hw.2.1, fun i hi => hended i (hw.2.2 i hi)⟩
  | _ =>
    rw [hpc] at hw
    simpa only [hserver, hlate] using hw

theorem Inv.stepClient {h : Handlers} (hw : w.Inv h) (k : ℕ) (received : Option Bytes) :
    (w.stepClient h k received).Inv h := by
  obtain ⟨hstop, hserver, hlate, -⟩ := w.stepClient_frame h k received
  refine ⟨hw.opened.stepClient h k received, ?_, ?_⟩
  · intro c hc
    rw [clients_stepClient] at hc
    obtain ⟨j, hj⟩ := List.mem_iff_getElem?.mp hc
    rw [List.getElem?_modify] at hj
    obtain ⟨c, hmem, rfl⟩ := Option.map_eq_some_iff.mp hj
    have hok := hw.clients c (List.mem_of_getElem? hmem)
    split_ifs
    · exact hok.next w.running received
    · exact hok
  · apply hw.stopping.of_ended hstop hserver hlate
    · rw [clients_stepClient, List.length_modify]
    · intro i hi
      exact ended_stepClient h k received hi

/-! ## Steps of `accept_connections` -/

/-- The thread moves without a descriptor, or gets one, or passes it to a new
    thread. -/
theorem stepAccept_cases (grow : ℕ → ℕ) (w : Workers) (result : Option ℕ) :
    (∃ pc, w.stepAccept grow result = { w with accept := pc } ∧ w.accept.holds = none ∧
      pc.holds = none ∧ (w.accept = .done → pc = .done)) ∨
    (∃ fd, w.stepAccept grow result = { w with accept := .emplacing fd }.record (.opened fd) ∧
      w.accept = .accepting true ∧ fd ∉ w.held) ∨
    ∃ fd, w.stepAccept grow result =
        { w with
          accept := .testing
          clients := w.clients ++ [⟨fd, .connecting, [], []⟩]
          capacity := capacityAfter grow (w.clients.length + 1) w.capacity
          stop := w.stop.emplaced (w.capacity ≤ w.clients.length + 1)
          late := match w.stop with
            | .joining _ _ => w.late + 1
            | _ => w.late } ∧
      w.accept = .emplacing fd := by
  unfold stepAccept
  cases haccept : w.accept with
  | testing =>
    refine .inl ⟨_, rfl, rfl, ?_, by simp⟩
    split_ifs <;> rfl
  | accepting listening =>
    cases result with
    | none => exact .inl ⟨_, rfl, rfl, rfl, by simp⟩
    | some fd =>
      dsimp only
      split_ifs with hopen
      · obtain ⟨rfl, hfd⟩ := hopen
        exact .inr (.inl ⟨fd, rfl, rfl, hfd⟩)
      · exact .inl ⟨_, rfl, rfl, rfl, by simp⟩
  | emplacing fd => exact .inr (.inr ⟨fd, rfl, rfl⟩)
  | done =>
    have hself : w = { w with accept := .done } :=
      congrArg (fun pc => { w with accept := pc }) haccept
    exact .inl ⟨_, hself, rfl, rfl, fun _ => rfl⟩

/-- Only the thread that accepts has moved. -/
theorem holds_setAccept (w : Workers) (pc : AcceptPc) :
    holds { w with accept := pc } = Function.update w.holds .accept pc.holds := by
  funext o
  cases o with
  | accept => rw [Function.update_self, holds]
  | server => rfl
  | client k => rfl

/-- The new thread has the descriptor. -/
theorem holds_addClient (w : Workers) (c : Client) :
    holds { w with clients := w.clients ++ [c] } =
      Function.update w.holds (.client w.clients.length) c.holds := by
  funext o
  cases o with
  | server => rfl
  | accept => rfl
  | client j =>
    rcases lt_trichotomy j w.clients.length with hlt | rfl | hgt
    · rw [Function.update_of_ne (by simpa using hlt.ne)]
      simp [holds, List.getElem?_append_left hlt]
    · rw [Function.update_self]
      simp [holds]
    · have hnone : (w.clients ++ [c])[j]? = none := by
        rw [List.getElem?_eq_none_iff, List.length_append]
        exact hgt
      rw [Function.update_of_ne (by simpa using hgt.ne')]
      simp [holds, hnone, List.getElem?_eq_none hgt.le]

theorem Open.stepAccept (hw : w.Open) (grow : ℕ → ℕ) (result : Option ℕ) :
    (w.stepAccept grow result).Open := by
  rcases stepAccept_cases grow w result with
    ⟨pc, heq, hold, hnew, -⟩ | ⟨fd, heq, haccept, hfd⟩ | ⟨fd, heq, haccept⟩
  · rw [heq]
    refine hw.move rfl rfl ?_
    rw [holds_setAccept, hnew, ← hold]
    exact Function.update_eq_self ..
  · rw [heq]
    refine hw.acquire ?_ ?_ ?_ hfd (holds_setAccept w (.emplacing fd))
    · rfl
    · rfl
    · rw [holds, haccept]
      rfl
  · have hholds : (w.stepAccept grow result).holds =
        Function.update (Function.update w.holds .accept none) (.client w.clients.length)
          (some fd) := by
      rw [heq]
      refine (holds_addClient { w with accept := .testing } ⟨fd, .connecting, [], []⟩).trans ?_
      rw [holds_setAccept]
      rfl
    refine hw.pass ?_ ?_ ?_ ?_ hholds
    · rw [heq]
    · rw [heq]
    · rw [holds, haccept]
      rfl
    · simp [holds]

theorem ended_stepAccept (grow : ℕ → ℕ) (result : Option ℕ) {i : ℕ} (hi : w.ended i) :
    (w.stepAccept grow result).ended i := by
  rcases stepAccept_cases grow w result with
    ⟨pc, heq, -, -, hdone⟩ | ⟨fd, heq, haccept, -⟩ | ⟨fd, heq, haccept⟩
  · rw [heq]
    cases i with
    | zero => simpa [ended] using hdone (by simpa [ended] using hi)
    | succ k => exact hi
  · rw [heq]
    cases i with
    | zero => simp [ended, haccept] at hi
    | succ k => exact hi
  · rw [heq]
    cases i with
    | zero => simp [ended, haccept] at hi
    | succ k =>
      rw [ended] at hi ⊢
      have hlt : k < w.clients.length := by
        by_contra hge
        rw [List.getElem?_eq_none (not_lt.mp hge)] at hi
        cases hi
      rw [List.getElem?_append_left hlt]
      exact hi

theorem Stopping.stepAccept (hw : w.Stopping) (grow : ℕ → ℕ) (result : Option ℕ) :
    (w.stepAccept grow result).Stopping := by
  have hended : ∀ i, w.ended i → (w.stepAccept grow result).ended i :=
    fun i hi => ended_stepAccept grow result hi
  rcases stepAccept_cases grow w result with
    ⟨pc, heq, -⟩ | ⟨fd, heq, -⟩ | ⟨fd, heq, haccept⟩
  · rw [heq] at hended ⊢
    exact hw.of_ended rfl rfl rfl rfl hended
  · rw [heq] at hended ⊢
    exact hw.of_ended rfl rfl rfl rfl hended
  · rw [heq] at hended ⊢
    unfold Stopping at hw ⊢
    dsimp only
    cases hpc : w.stop with
    | joining next last =>
      rw [hpc] at hw hended
      rw [StopPc.emplaced]
      split_ifs
      · exact Nat.succ_pos w.late
      · obtain ⟨hserver, hlast, hle, hdone⟩ := hw
        refine ⟨hserver, ?_, hle, fun i hi => hended i (hdone i hi)⟩
        show last + (w.late + 1) = _
        rw [List.length_append, List.length_singleton]
        omega
    | returned =>
      -- the thread has ended
      rw [hpc] at hw
      have hzero := hw.2.2 0 (Nat.succ_pos _)
      simp [ended, haccept] at hzero
    | _ =>
      rw [hpc] at hw
      exact hw

theorem Inv.stepAccept {h : Handlers} (hw : w.Inv h) (grow : ℕ → ℕ) (result : Option ℕ) :
    (w.stepAccept grow result).Inv h := by
  refine ⟨hw.opened.stepAccept grow result, ?_, hw.stopping.stepAccept grow result⟩
  rcases stepAccept_cases grow w result with ⟨pc, heq, -⟩ | ⟨fd, heq, -⟩ | ⟨fd, heq, -⟩
  · rw [heq]
    exact hw.clients
  · rw [heq]
    exact hw.clients
  · rw [heq]
    intro c hc
    rcases List.mem_append.mp hc with hc | hc
    · exact hw.clients c hc
    · rw [List.mem_singleton.mp hc]
      exact ⟨rfl, fun _ => rfl⟩

/-! ## Steps of `stop` -/

theorem holds_closeServer (w : Workers) :
    holds { w with serverFd := none, stop := .closed } =
      Function.update w.holds .server none := by
  funext o
  cases o with
  | server => rfl
  | accept => rfl
  | client k => rfl

theorem Inv.stepStop {h : Handlers} (hw : w.Inv h) : w.stepStop.Inv h := by
  have hstopping := hw.stopping
  unfold Stopping at hstopping
  unfold Workers.stepStop
  cases hpc : w.stop with
  | idle =>
    rw [hpc] at hstopping
    exact ⟨hw.opened.move rfl rfl rfl, hw.clients, hstopping⟩
  | stored =>
    rw [hpc] at hstopping
    cases hserver : w.serverFd with
    | none =>
      refine ⟨hw.opened.move rfl rfl (w.holds_closeServer.trans ?_), hw.clients, rfl, hstopping⟩
      rw [← hserver]
      exact Function.update_eq_self Owner.server w.holds
    | some fd =>
      have hholds : w.holds .server = some fd := hserver
      refine ⟨hw.opened.release ?_ ?_ hholds w.holds_closeServer, hw.clients, rfl, hstopping⟩
      · rfl
      · rfl
  | closed =>
    rw [hpc] at hstopping
    refine ⟨hw.opened.move rfl rfl rfl, hw.clients, hstopping.1, ?_, Nat.zero_le _, ?_⟩
    · dsimp only
      rw [hstopping.2]
    · intro i hi
      exact absurd hi (Nat.not_lt_zero i)
  | joining next last =>
    rw [hpc] at hstopping
    obtain ⟨hserver, hlast, hle, hdone⟩ := hstopping
    dsimp only
    split_ifs with hend hall hended
    · refine ⟨hw.opened.move rfl rfl rfl, hw.clients, hserver, ?_, ?_⟩
      · show w.late = 0
        omega
      · intro i hi
        exact hdone i (by rw [hend, hall]; exact hi)
    · refine ⟨hw.opened.move rfl rfl rfl, hw.clients, ?_⟩
      show 0 < w.late
      omega
    · refine ⟨hw.opened.move rfl rfl rfl, hw.clients, hserver, hlast, ?_, ?_⟩
      · omega
      · intro i hi
        rcases Nat.lt_succ_iff_lt_or_eq.mp hi with hi | rfl
        · exact hdone i hi
        · exact hended
    · exact hw
  | returned => exact hw
  | terminated => exact hw
  | dangling => exact hw

/-! ## Runs -/

theorem inv_init (h : Handlers) (grow : ℕ → ℕ) (capacity fd : ℕ) :
    (machine h grow capacity fd).init.Inv h where
  opened := by
    have hholds : (machine h grow capacity fd).init.holds =
        Function.update (fun _ => none) .server (some fd) := by
      funext o
      cases o with
      | server => rfl
      | accept => rfl
      | client k => rfl
    refine ⟨rfl, ?_⟩
    rw [hholds]
    exact Custody.initial.acquire rfl (Finset.notMem_empty fd)
  clients := by
    intro c hc
    exact absurd hc List.not_mem_nil
  stopping := rfl

theorem inv_after (h : Handlers) (grow : ℕ → ℕ) (capacity fd : ℕ) (actions : List Action) :
    ((machine h grow capacity fd).after actions).Inv h := by
  refine (machine h grow capacity fd).after_induction (inv_init h grow capacity fd) ?_ actions
  intro w a hw
  show (step h grow w a).Inv h
  unfold step
  split_ifs
  · exact hw
  · cases a with
    | accept result => exact hw.stepAccept grow result
    | client k received => exact hw.stepClient k received
    | stop => exact hw.stepStop

/-- **`stop` leaves nothing behind.** In every interleaving of `stop`, the thread that
    accepts and those of the clients, every connection gets its handlers called in
    order, `connect` first and `disconnect` last and each once, and no descriptor is
    closed that is not open. When `stop` has returned, all threads have ended, every
    connection has gone through all of this, and every descriptor, that of the
    listening socket included, was closed exactly once. `stop` returns only if no thread
    was started while it was in its loop. If one was, the process has ended, or the
    vector was full and has moved under the loop, or the loop will end before the last
    thread. -/
theorem stop_leaves_nothing (h : Handlers) (grow : ℕ → ℕ) (capacity fd : ℕ)
    (actions : List Action) :
    let w := (machine h grow capacity fd).after actions
    (∀ c ∈ w.clients, c.calls <+: h.lifecycle c.chunks) ∧
      replay ∅ w.events = some w.held ∧
      (w.stop = .returned →
        w.accept = .done ∧ (∀ c ∈ w.clients, c.calls = h.lifecycle c.chunks) ∧
          ClosedOnce w.events ∧ w.late = 0) ∧
      (0 < w.late ↔ w.stop = .terminated ∨ w.stop = .dangling ∨
        ∃ next last, w.stop = .joining next last ∧ last < w.clients.length + 1) := by
  intro w
  have hw : w.Inv h := inv_after h grow capacity fd actions
  have hstopping := hw.stopping
  unfold Stopping at hstopping
  refine ⟨?_, hw.opened.ledger, ?_, ?_⟩
  · intro c hc
    rw [(hw.clients c hc).calls]
    exact h.progress_prefix c.chunks c.pc
  · intro hstop
    rw [hstop] at hstopping
    obtain ⟨hserver, hlate, hended⟩ := hstopping
    have haccept : w.accept = .done := by simpa [ended] using hended 0 (Nat.succ_pos _)
    have hdone : ∀ (k : ℕ) (c : Client), w.clients[k]? = some c → c.pc = .done := by
      intro k c hk
      have hlt := (List.getElem?_eq_some_iff.mp hk).1
      simpa [ended, hk] using hended (k + 1) (Nat.succ_lt_succ hlt)
    have hempty : w.held = ∅ := by
      apply hw.opened.custody.eq_empty
      intro o
      cases o with
      | server => exact hserver
      | accept => rw [holds, haccept]; rfl
      | client k =>
        rw [holds]
        cases hk : w.clients[k]? with
        | none => rfl
        | some c => exact if_pos (hdone k c hk)
    refine ⟨haccept, ?_, ?_, hlate⟩
    · intro c hc
      obtain ⟨k, hk⟩ := List.mem_iff_getElem?.mp hc
      rw [(hw.clients c hc).calls, hdone k c hk]
      rfl
    · rw [ClosedOnce, hw.opened.ledger, hempty]
  · cases hstop : w.stop with
    | joining next last =>
      rw [hstop] at hstopping
      obtain ⟨-, hlast, -⟩ := hstopping
      simp only [reduceCtorEq, false_or, StopPc.joining.injEq]
      constructor
      · intro hlate
        exact ⟨next, last, ⟨rfl, rfl⟩, by omega⟩
      · rintro ⟨_, _, ⟨rfl, rfl⟩, hlt⟩
        omega
    | idle | stored | terminated | dangling =>
      rw [hstop] at hstopping
      simpa [pos_iff_ne_zero] using hstopping
    | closed | returned =>
      rw [hstop] at hstopping
      simp [hstopping.2]

/-- A client connects while `stop` is already in its loop. -/
def lateClient : List Action :=
  [.accept none, .stop, .stop, .stop, .accept (some 5), .accept none, .accept none, .stop, .stop]

theorem late_client_terminates :
    ((machine ⟨true, true, true⟩ (2 * ·) 2 3).after lateClient).stop = .terminated ∧
      ((machine ⟨true, true, true⟩ (2 * ·) 2 3).after lateClient).held = {5} := by
  decide

theorem late_client_dangles :
    ((machine ⟨true, true, true⟩ (2 * ·) 0 3).after lateClient).stop = .dangling ∧
      ((machine ⟨true, true, true⟩ (2 * ·) 0 3).after lateClient).late = 1 := by
  decide

end Workers

end TradingGateway.Network

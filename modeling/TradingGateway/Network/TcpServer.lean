import TradingGateway.Common.Machine

/-!
# The listening socket

Model of the constructor, `start`, `stop` and the destructor of `TCPServer`
(`cpp-core/network/tcp_server.cpp`, lines 24–91) with what they do to
descriptors. The worker threads are left out: they neither open nor close a
listening socket.

A descriptor is a number that `socket` returns and `close` gives back; the
number of a closed descriptor may be returned again, to anyone. `socket`
promises a number that is not open (`Kernel`).

A `start` that fails behind `socket` closes the descriptor and keeps its number
in `m_server_fd`, unlike `stop`, which resets it; the next `stop` or the
destructor closes the number again. A `start` on a server that listens
overwrites the number, and nobody closes the old socket.

* `closedOnce_iff`: which sequences of calls close every descriptor once.
* `failed_bind_closes_twice`: the shortest one that does not.
* `gateway_closedOnce_iff`: the same for the calls that `GatewayServer` makes.
-/

namespace TradingGateway.Network

open Common

/-! ## Descriptors -/

/-- `socket` returns a number, or `close` is called with one. -/
inductive FdEvent
  | opened (fd : ℕ)
  | closed (fd : ℕ)
  deriving DecidableEq

/-- The numbers that are open after an event; `none` if it closes a number that
    is not open. -/
def FdEvent.replay (held : Finset ℕ) : FdEvent → Option (Finset ℕ)
  | .opened fd => some (insert fd held)
  | .closed fd => if fd ∈ held then some (held.erase fd) else none

/-- The numbers that are open after some events, if none of them closes a number
    that is not open. -/
def replay (held : Finset ℕ) (events : List FdEvent) : Option (Finset ℕ) :=
  events.foldlM FdEvent.replay held

/-- No number is closed that is not open, and in the end none is open: every
    descriptor is closed exactly once, and no number is closed again before
    `socket` has returned it again. -/
def ClosedOnce (events : List FdEvent) : Prop := replay ∅ events = some ∅

instance (events : List FdEvent) : Decidable (ClosedOnce events) :=
  inferInstanceAs (Decidable (replay ∅ events = some ∅))

/-- The numbers that are open after an event, also if it closes one that is not
    open. -/
def FdEvent.settle (held : Finset ℕ) : FdEvent → Finset ℕ
  | .opened fd => insert fd held
  | .closed fd => held.erase fd

/-- The choice of the number that `socket` returns while `held` is open. -/
structure Kernel where
  pick : Finset ℕ → ℕ
  fresh : ∀ held, pick held ∉ held

/-- What the system calls of one `start` return: `socket` fails or returns a
    number, the others fail or succeed. -/
structure Syscalls where
  socket : Option Kernel
  setsockopt : Bool
  bind : Bool
  listen : Bool

/-! ## The server -/

/-- The members of `TCPServer` that `start` and `stop` use (`tcp_server.h`,
    lines 52–54). -/
structure TCPServer where
  port : UInt16
  serverFd : ℤ
  running : Bool

namespace TCPServer

/-- `TCPServer(Port port)` (line 24). -/
def new (port : UInt16) : TCPServer := ⟨port, -1, false⟩

/-- `start` (lines 40–74) while `held` is open: the result, the server, and what
    happens to descriptors. -/
def start (t : TCPServer) (held : Finset ℕ) (env : Syscalls) :
    Except String Unit × TCPServer × List FdEvent :=
  match env.socket with
  | none => (.error "Socket creation failed", { t with serverFd := -1 }, [])
  | some kernel =>
    let fd := kernel.pick held
    let t := { t with serverFd := fd }
    if env.setsockopt = false then
      (.error "Setsockopt failed", t, [.opened fd, .closed fd])
    else if env.bind = false then
      (.error ("Bind failed on port " ++ toString t.port.toNat), t, [.opened fd, .closed fd])
    else if env.listen = false then
      (.error "Listen failed", t, [.opened fd, .closed fd])
    else (.ok (), { t with running := true }, [.opened fd])

/-- `stop` (lines 76–91). -/
def stop (t : TCPServer) : TCPServer × List FdEvent :=
  let t := { t with running := false }
  if t.serverFd ≥ 0 then ({ t with serverFd := -1 }, [.closed t.serverFd.toNat])
  else (t, [])

end TCPServer

/-- A call of the server's owner; the destructor (lines 33–38) calls `stop`. -/
inductive Call
  | start (env : Syscalls)
  | stop

/-- `start` succeeds. -/
def Syscalls.succeeds (env : Syscalls) : Bool :=
  env.socket.isSome && env.setsockopt && env.bind && env.listen

/-- `socket` succeeds and a later system call fails. -/
def Syscalls.failsLate (env : Syscalls) : Bool :=
  env.socket.isSome && !(env.setsockopt && env.bind && env.listen)

/-- What `start` does, for each way in which it can end. -/
theorem TCPServer.start_cases (t : TCPServer) (held : Finset ℕ) (env : Syscalls) :
    (env.succeeds = false ∧ env.failsLate = false ∧
      (t.start held env).2 = ({ t with serverFd := -1 }, [])) ∨
    ∃ fd, fd ∉ held ∧
      ((env.succeeds = true ∧ env.failsLate = false ∧
        (t.start held env).2 = (⟨t.port, fd, true⟩, [.opened fd])) ∨
      (env.succeeds = false ∧ env.failsLate = true ∧
        (t.start held env).2 = ({ t with serverFd := fd }, [.opened fd, .closed fd]))) := by
  obtain ⟨socket, setsockopt, bind, listen⟩ := env
  cases socket with
  | none => exact .inl ⟨rfl, rfl, rfl⟩
  | some kernel =>
    refine .inr ⟨kernel.pick held, kernel.fresh held, ?_⟩
    unfold start
    cases setsockopt
    · exact .inr ⟨rfl, rfl, rfl⟩
    cases bind
    · exact .inr ⟨rfl, rfl, rfl⟩
    cases listen
    · exact .inr ⟨rfl, rfl, rfl⟩
    · exact .inl ⟨rfl, rfl, rfl⟩

/-! ## Runs -/

/-- The server, and the numbers that `socket` has returned to it and that are
    still open. -/
structure Process where
  server : TCPServer
  held : Finset ℕ

namespace Process

/-- What a call does to the server and to descriptors. -/
def call (p : Process) : Call → TCPServer × List FdEvent
  | .start env => (p.server.start p.held env).2
  | .stop => p.server.stop

/-- The process after a call. -/
def step (p : Process) (c : Call) : Process where
  server := (p.call c).1
  held := (p.call c).2.foldl FdEvent.settle p.held

/-- A process that has constructed the server. -/
def machine (port : UInt16) : Machine Process Call where
  init := ⟨TCPServer.new port, ∅⟩
  step := step

/-- What happens to descriptors while the server lives: the calls, and `stop` in
    the destructor. -/
def lifetime (port : UInt16) (calls : List Call) : List FdEvent :=
  (machine port).collect (fun p c => (p.call c).2) (calls ++ [.stop])

end Process

/-! ## Replaying a log -/

theorem replay_append (held : Finset ℕ) (events events' : List FdEvent) :
    replay held (events ++ events') = (replay held events).bind fun h => replay h events' :=
  List.foldlM_append

/-- A log that can be replayed ends with what is open. -/
theorem foldl_settle_of_replay {held held' : Finset ℕ} {events : List FdEvent}
    (h : replay held events = some held') : events.foldl FdEvent.settle held = held' := by
  induction events generalizing held with
  | nil => exact Option.some.inj h
  | cons e events ih =>
    rw [replay, List.foldlM_cons] at h
    obtain ⟨mid, hmid, hrest⟩ := Option.bind_eq_some_iff.mp h
    have hsettle : e.settle held = mid := by
      cases e with
      | opened fd => exact Option.some.inj hmid
      | closed fd =>
        simp only [FdEvent.replay] at hmid
        split_ifs at hmid
        exact Option.some.inj hmid
    rw [List.foldl_cons, hsettle]
    exact ih hrest

/-! ## Which calls may follow which -/

/-- The call is a `start` that succeeds. -/
def Call.succeeds : Call → Bool
  | .start env => env.succeeds
  | .stop => false

/-- The call is a `start` that fails after `socket` has succeeded. -/
def Call.failsLate : Call → Bool
  | .start env => env.failsLate
  | .stop => false

theorem Call.succeeds_eq_false {c : Call} (h : c.failsLate = true) : c.succeeds = false := by
  cases c with
  | stop => rfl
  | start env =>
    simp only [Call.failsLate, Syscalls.failsLate, Bool.and_eq_true, Bool.not_eq_true'] at h
    simp [Call.succeeds, Syscalls.succeeds, h.1, h.2]

theorem Call.failsLate_eq_false {c : Call} (h : c.succeeds = true) : c.failsLate = false := by
  by_contra hl
  rw [Call.succeeds_eq_false (by simpa using hl)] at h
  cases h

/-- `d` may follow `c`: after a `start` that succeeds comes `stop`, after one that
    fails behind `socket` another `start`. -/
def Follows (c d : Call) : Prop :=
  (c.succeeds = true → d = .stop) ∧ (c.failsLate = true → d ≠ .stop)

@[simp] theorem follows_stop_iff {c : Call} : Follows c .stop ↔ c.failsLate = false := by
  simp [Follows]

@[simp] theorem follows_start_iff {c : Call} {env : Syscalls} :
    Follows c (.start env) ↔ c.succeeds = false := by
  simp [Follows]

namespace Process

/-- The process after the call `c`, if all went well so far. -/
def After (c : Call) (p : Process) : Prop :=
  if c.succeeds then ∃ fd : ℕ, p.server.serverFd = fd ∧ p.held = {fd}
  else if c.failsLate then (∃ fd : ℕ, p.server.serverFd = fd) ∧ p.held = ∅
  else p.server.serverFd = -1 ∧ p.held = ∅

/-- Some descriptor is open and its number is not in `m_server_fd`. -/
def Leaked (p : Process) : Prop := ∃ fd ∈ p.held, p.server.serverFd ≠ fd

/-! ## One call -/

theorem call_stop_of_nat {p : Process} {fd : ℕ} (h : p.server.serverFd = fd) :
    p.call .stop = (⟨p.server.port, -1, false⟩, [.closed fd]) := by
  simp [call, TCPServer.stop, h]

theorem call_stop_of_neg {p : Process} (h : p.server.serverFd < 0) :
    p.call .stop = ({ p.server with running := false }, []) := by
  simp [call, TCPServer.stop, h]

/-- `start` overwrites `m_server_fd`: `socket` does not return a number that is
    open, so whatever is open is left behind. -/
theorem leaked_of_start {p : Process} {f : ℕ} (hf : f ∈ p.held) (env : Syscalls) :
    (p.step (.start env)).Leaked := by
  refine ⟨f, ?_⟩
  unfold Process.step
  rcases p.server.start_cases p.held env with
    ⟨-, -, heq⟩ | ⟨fd, hfresh, ⟨-, -, heq⟩ | ⟨-, -, heq⟩⟩
  · simp only [call, heq]
    exact ⟨hf, by omega⟩
  · have hother : fd ≠ f := fun e => hfresh (e ▸ hf)
    simp only [call, heq]
    exact ⟨Finset.mem_insert_of_mem hf, by exact_mod_cast hother⟩
  · have hother : fd ≠ f := fun e => hfresh (e ▸ hf)
    simp only [call, heq]
    exact ⟨Finset.mem_erase.mpr ⟨hother.symm, Finset.mem_insert_of_mem hf⟩,
      by exact_mod_cast hother⟩

/-- What is left behind stays open. -/
theorem Leaked.step {p : Process} (h : p.Leaked) (c : Call) : (p.step c).Leaked := by
  obtain ⟨f, hf, hne⟩ := h
  cases c with
  | start env => exact leaked_of_start hf env
  | stop =>
    refine ⟨f, ?_⟩
    unfold Process.step
    rcases lt_or_ge p.server.serverFd 0 with hneg | hpos
    · rw [call_stop_of_neg hneg]
      exact ⟨hf, hne⟩
    · have hfd : p.server.serverFd = (p.server.serverFd.toNat : ℤ) :=
        (Int.toNat_of_nonneg hpos).symm
      have hother : f ≠ p.server.serverFd.toNat := by omega
      rw [call_stop_of_nat hfd]
      exact ⟨Finset.mem_erase.mpr ⟨hother, hf⟩, by dsimp only; omega⟩

/-- A call that may follow opens and closes as it should. -/
theorem After.follows {p : Process} {c d : Call} (h : p.After c) (hf : Follows c d) :
    replay p.held (p.call d).2 = some (p.step d).held ∧ (p.step d).After d := by
  unfold Process.step
  cases d with
  | stop =>
    -- the server listens, or there is nothing to close
    rw [follows_stop_iff] at hf
    simp only [After, hf, Bool.false_eq_true, if_false] at h
    split_ifs at h with hs
    · obtain ⟨fd, hfd, hheld⟩ := h
      rw [call_stop_of_nat hfd, hheld]
      simp [replay, FdEvent.replay, FdEvent.settle, After, Call.succeeds, Call.failsLate]
    · obtain ⟨hfd, hheld⟩ := h
      rw [call_stop_of_neg (by omega), hheld]
      simp [replay, After, Call.succeeds, Call.failsLate, hfd]
  | start env =>
    have hheld : p.held = ∅ := by
      rw [follows_start_iff] at hf
      simp only [After, hf, Bool.false_eq_true, if_false] at h
      split_ifs at h
      · exact h.2
      · exact h.2
    rcases p.server.start_cases p.held env with
      ⟨hs, hl, heq⟩ | ⟨fd, -, ⟨hs, hl, heq⟩ | ⟨hs, hl, heq⟩⟩ <;> rw [hheld] at heq
    · simp [call, heq, hheld, replay, After, Call.succeeds, Call.failsLate, hs, hl]
    · simp [call, heq, hheld, replay, FdEvent.replay, FdEvent.settle, After, Call.succeeds, hs]
    · simp [call, heq, hheld, replay, FdEvent.replay, FdEvent.settle, After, Call.succeeds,
        Call.failsLate, hs, hl]

/-- A call that may not follow closes a number that is not open, or leaves a
    descriptor behind. -/
theorem After.not_follows {p : Process} {c d : Call} (h : p.After c) (hf : ¬ Follows c d) :
    replay p.held (p.call d).2 = none ∨ (p.step d).Leaked := by
  unfold After at h
  cases d with
  | stop =>
    left
    rw [follows_stop_iff, Bool.not_eq_false] at hf
    rw [if_neg (by simp [Call.succeeds_eq_false hf]), if_pos hf] at h
    obtain ⟨⟨fd, hfd⟩, hheld⟩ := h
    rw [call_stop_of_nat hfd, hheld]
    rfl
  | start env =>
    right
    rw [follows_start_iff, Bool.not_eq_false] at hf
    rw [if_pos hf] at h
    obtain ⟨fd, -, hheld⟩ := h
    exact leaked_of_start (by rw [hheld]; exact Finset.mem_singleton_self fd) env

/-! ## A whole life -/

/-- The descriptors that are affected by calls from `p` on. -/
abbrev eventsFrom (port : UInt16) (p : Process) (calls : List Call) : List FdEvent :=
  (machine port).collectFrom (fun p c => (p.call c).2) p calls

theorem Leaked.replay_ne {p : Process} (h : p.Leaked) (port : UInt16) (calls : List Call) :
    replay p.held (eventsFrom port p calls) ≠ some ∅ := by
  induction calls generalizing p with
  | nil =>
    obtain ⟨f, hf, -⟩ := h
    intro hnil
    rw [show p.held = ∅ from Option.some.inj hnil] at hf
    simp at hf
  | cons d calls ih =>
    intro hsome
    rw [eventsFrom, Machine.collectFrom, replay_append] at hsome
    obtain ⟨held, hheld, hrest⟩ := Option.bind_eq_some_iff.mp hsome
    rw [← foldl_settle_of_replay hheld] at hrest
    exact ih (h.step d) hrest

theorem After.replay_cons {p : Process} {c : Call} (h : p.After c) (port : UInt16) (d : Call)
    (calls : List Call) :
    replay p.held (eventsFrom port p (d :: calls)) = some ∅ ↔
      Follows c d ∧ replay (p.step d).held (eventsFrom port (p.step d) calls) = some ∅ := by
  rw [eventsFrom, Machine.collectFrom, replay_append]
  by_cases hf : Follows c d
  · rw [(h.follows hf).1, Option.bind_some]
    exact (and_iff_right hf).symm
  · refine iff_of_false ?_ fun hand => hf hand.1
    intro hsome
    obtain ⟨held, hheld, hrest⟩ := Option.bind_eq_some_iff.mp hsome
    rcases h.not_follows hf with hnone | hleaked
    · rw [hnone] at hheld
      cases hheld
    · rw [← foldl_settle_of_replay hheld] at hrest
      exact hleaked.replay_ne port calls hrest

theorem After.replay_iff {p : Process} {c : Call} (h : p.After c) (port : UInt16)
    (calls : List Call) :
    replay p.held (eventsFrom port p (calls ++ [.stop])) = some ∅ ↔
      (c :: (calls ++ [.stop])).IsChain Follows := by
  induction calls generalizing c p with
  | nil =>
    rw [List.nil_append, h.replay_cons]
    simp only [List.isChain_cons_cons, List.isChain_singleton, and_true]
    refine and_iff_left_of_imp fun hf => ?_
    obtain ⟨-, hafter⟩ := h.follows hf
    simp only [After, Call.succeeds, Call.failsLate, Bool.false_eq_true, if_false] at hafter
    rw [hafter.2]
    rfl
  | cons d calls ih =>
    rw [List.cons_append, h.replay_cons, List.isChain_cons_cons]
    refine and_congr_right fun hf => ?_
    exact ih (h.follows hf).2

/-- The constructor leaves the server as `stop` does. -/
theorem closedOnce_lifetime (port : UInt16) (calls : List Call) :
    ClosedOnce (lifetime port calls) ↔
      (Call.stop :: (calls ++ [Call.stop])).IsChain Follows := by
  have hinit : After .stop (machine port).init := ⟨rfl, rfl⟩
  exact hinit.replay_iff port calls

end Process

/-- **The listening socket.** In a life of the server every descriptor that
    `socket` returned is closed exactly once, and no number is closed that is not
    open, if and only if each `start` that succeeds is followed directly by `stop`
    or the destructor, and each `start` that fails after `socket` has succeeded is
    followed directly by another `start`. -/
theorem closedOnce_iff (port : UInt16) (calls : List Call) :
    ClosedOnce (Process.lifetime port calls) ↔ (calls ++ [Call.stop]).IsChain Follows := by
  rw [Process.closedOnce_lifetime]
  cases calls with
  | nil => simp [Call.failsLate]
  | cons c calls => cases c <;> simp [Call.succeeds, Call.failsLate]

/-- A process in which only the standard streams are open besides `held`, if
    `held` is empty; otherwise some number above. -/
def someKernel : Kernel where
  pick held := held.sup id + 3
  fresh held hmem := by
    have hle : held.sup id + 3 ≤ held.sup id := Finset.le_sup (f := id) hmem
    omega

/-- The port is in use. -/
def portInUse : Syscalls := ⟨some someKernel, true, false, true⟩

/-- The descriptor of a server whose `bind` fails is closed by `start` and again
    by the destructor. -/
theorem failed_bind_closes_twice :
    Process.lifetime 8080 [.start portInUse] = [.opened 3, .closed 3, .closed 3] ∧
      ¬ ClosedOnce (Process.lifetime 8080 [.start portInUse]) := by
  decide

/-! ## The gateway -/

/-- `m_running` of `GatewayServer` and of its `MatchingEngine`. -/
structure GatewayFlags where
  running : Bool
  engine : Bool

namespace GatewayFlags

/-- What `GatewayServer::start` and `stop` (`gateway_server.cpp`, lines 99–135)
    call on the `TCPServer`. The engine refuses a second start
    (`matching_engine.cpp`, lines 21–24), and is stopped if the `TCPServer` does
    not start; `stop` does nothing on a gateway that does not run. -/
def step (g : GatewayFlags) : Call → GatewayFlags × List Call
  | .start env =>
    if g.engine then (g, [])
    else if env.succeeds then (⟨true, true⟩, [.start env])
    else ({ g with engine := false }, [.start env])
  | .stop => if g.running then (⟨false, false⟩, [.stop]) else (g, [])

/-- The calls of the `TCPServer` that come from calls of the gateway, up to its
    destructor (line 95), which calls `stop`. -/
def tcpCalls : GatewayFlags → List Call → List Call
  | g, [] => (g.step .stop).2
  | g, c :: cs => (g.step c).2 ++ tcpCalls (g.step c).1 cs

/-- On a gateway that does not run, `start` reaches the `TCPServer` and its result
    decides both flags. -/
theorem step_start_idle (env : Syscalls) :
    step ⟨false, false⟩ (.start env) = (⟨env.succeeds, env.succeeds⟩, [.start env]) := by
  cases hs : env.succeeds with
  | true => simp [step, hs]
  | false => simp [step, hs]

/-- While the gateway runs, the last call of the `TCPServer` was a `start` that
    succeeded; so the calls follow each other as they should, except perhaps for
    the destructor after the last one. -/
theorem isChain_tcpCalls {running : Bool} {c : Call} (hc : c.succeeds = running)
    (calls : List Call) :
    (c :: (tcpCalls ⟨running, running⟩ calls ++ [Call.stop])).IsChain Follows ↔
      ∀ last ∈ (c :: tcpCalls ⟨running, running⟩ calls).getLast?, last.failsLate = false := by
  induction calls generalizing running c with
  | nil =>
    cases running with
    | true => simp [tcpCalls, step, Call.failsLate_eq_false hc]
    | false => simp [tcpCalls, step]
  | cons d calls ih =>
    cases d with
    | stop =>
      cases running with
      | true =>
        have hrest := ih (c := .stop) rfl
        simp only [tcpCalls, step, if_true, List.cons_append, List.nil_append,
          List.isChain_cons_cons, List.getLast?_cons_cons, follows_stop_iff,
          Call.failsLate_eq_false hc, true_and]
        exact hrest
      | false => exact ih hc
    | start env =>
      cases running with
      | true => exact ih hc
      | false =>
        have hrest := ih (c := .start env) rfl
        simp only [tcpCalls, step_start_idle, List.cons_append, List.nil_append,
          List.isChain_cons_cons, List.getLast?_cons_cons, follows_start_iff, hc, true_and]
        exact hrest

end GatewayFlags

/-- The gateway never starts a `TCPServer` that listens. The descriptors of its
    `TCPServer` are closed exactly once if and only if the last `start` that
    reaches it does not fail behind `socket`. -/
theorem gateway_closedOnce_iff (port : UInt16) (calls : List Call) :
    ClosedOnce (Process.lifetime port (GatewayFlags.tcpCalls ⟨false, false⟩ calls)) ↔
      ∀ last ∈ (GatewayFlags.tcpCalls ⟨false, false⟩ calls).getLast?,
        last.failsLate = false := by
  have hstop : Call.stop.succeeds = false := rfl
  rw [Process.closedOnce_lifetime, GatewayFlags.isChain_tcpCalls hstop]
  cases GatewayFlags.tcpCalls ⟨false, false⟩ calls with
  | nil => simp [Call.failsLate]
  | cons c rest => rw [List.getLast?_cons_cons]

end TradingGateway.Network

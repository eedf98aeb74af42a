import TradingGateway.Common.CallLog
import TradingGateway.Common.Machine
import TradingGateway.Queue.Model

/-!
# Concurrent calls of `LockFreeQueue`

Any number of client threads call `push`, the worker thread calls `pop`
(`cpp-core/lockfree_queue/lockfree_queue.h`, lines 60–95). Each atomic load or
store is one step, and a run is any sequence of steps. A program counter is
named after the access that comes next and carries the local variables that are
still needed.

The items of a run are told apart by the number of the call that pushed them:
two calls may push equal values.

* `pushStep_alone`, `popStep_alone`: a call that no other thread disturbs does
  what `LockFreeQueue.push` and `LockFreeQueue.pop` do.
-/

namespace TradingGateway.Queue

open Common

variable {ι α : Type*} {n : ℕ}

/-- What a thread does next in `push`. -/
inductive PushPc (α : Type*) (n : ℕ)
  | idle
  | loadWritePos (item : Item α)
  | loadReadPos (item : Item α) (currentWrite : ℕ)
  | loadTail (item : Item α) (currentWrite : ℕ)
  | storeData (item : Item α) (currentWrite : ℕ) (tail : Fin n)
  | loadNext (item : Item α) (currentWrite : ℕ) (tail : Fin n)
  | storeTail (item : Item α) (currentWrite : ℕ) (next : Fin n)
  | storeWritePos (item : Item α) (currentWrite : ℕ)

/-- What the worker does next in `pop`. -/
inductive PopPc (α : Type*) (n : ℕ)
  | idle
  | loadHead
  | loadData (head : Fin n)
  | loadNext (head : Fin n) (data : Item α)
  | storeNull (head : Fin n) (data : Item α) (next : Fin n)
  | storeHead (data : Item α) (next : Fin n)
  | loadReadPos (data : Item α)
  | storeReadPos (data : Item α) (currentRead : ℕ)

/-- The queue, the threads, and what the callers have seen: the values pushed,
    call by call, the result of each call that has returned, and the non-null
    results of `pop`. -/
structure System (ι α : Type*) (n : ℕ) where
  queue : LockFreeQueue (Item α) n
  pushPc : ι → PushPc α n
  popPc : PopPc α n
  calls : List α
  outcome : ℕ → Option Bool
  returned : List (Item α)

/-- A step: a thread enters `push` or `pop`, or makes its next access. -/
inductive Action (ι α : Type*)
  | callPush (t : ι) (value : α)
  | push (t : ι)
  | callPop
  | pop

namespace System

/-- A fresh queue, nobody in a call. -/
def new [NeZero n] : System ι α n where
  queue := .new
  pushPc _ := .idle
  popPc := .idle
  calls := []
  outcome _ := none
  returned := []

variable [DecidableEq ι]

def goto (s : System ι α n) (t : ι) (pc : PushPc α n) : System ι α n :=
  { s with pushPc := Function.update s.pushPc t pc }

def returnPush (s : System ι α n) (t : ι) (item : Item α) (ok : Bool) : System ι α n :=
  { s.goto t .idle with outcome := Function.update s.outcome item.call (some ok) }

/-- An idle thread calls `push(value)`. -/
def callPush (s : System ι α n) (t : ι) (value : α) : System ι α n :=
  match s.pushPc t with
  | .idle =>
    { s.goto t (.loadWritePos ⟨s.calls.length, value⟩) with calls := s.calls ++ [value] }
  | _ => s

/-- The next access of a thread in `push`. -/
def pushStep (s : System ι α n) (t : ι) : System ι α n :=
  match s.pushPc t with
  | .idle => s
  | .loadWritePos item => s.goto t (.loadReadPos item s.queue.writePos)
  | .loadReadPos item currentWrite =>
    if (currentWrite + 1) % n = s.queue.readPos then s.returnPush t item false
    else s.goto t (.loadTail item currentWrite)
  | .loadTail item currentWrite => s.goto t (.storeData item currentWrite s.queue.tail)
  | .storeData item currentWrite tail =>
    { s.goto t (.loadNext item currentWrite tail) with
      queue := s.queue.setData tail (some item) }
  | .loadNext item currentWrite tail =>
    match (s.queue.nodes tail).next with
    | some next => s.goto t (.storeTail item currentWrite next)
    | none => s.returnPush t item false
  | .storeTail item currentWrite next =>
    { s.goto t (.storeWritePos item currentWrite) with queue := { s.queue with tail := next } }
  | .storeWritePos item currentWrite =>
    { s.returnPush t item true with
      queue := { s.queue with writePos := (currentWrite + 1) % n } }

/-- The worker calls `pop()`. -/
def callPop (s : System ι α n) : System ι α n :=
  match s.popPc with
  | .idle => { s with popPc := .loadHead }
  | _ => s

/-- The next access of the worker in `pop`. -/
def popStep (s : System ι α n) : System ι α n :=
  match s.popPc with
  | .idle => s
  | .loadHead => { s with popPc := .loadData s.queue.head }
  | .loadData head =>
    match (s.queue.nodes head).data with
    | none => { s with popPc := .idle }
    | some data => { s with popPc := .loadNext head data }
  | .loadNext head data =>
    match (s.queue.nodes head).next with
    | none => { s with popPc := .idle }
    | some next => { s with popPc := .storeNull head data next }
  | .storeNull head data next =>
    { s with popPc := .storeHead data next, queue := s.queue.setData head none }
  | .storeHead data next =>
    { s with popPc := .loadReadPos data, queue := { s.queue with head := next } }
  | .loadReadPos data => { s with popPc := .storeReadPos data s.queue.readPos }
  | .storeReadPos data currentRead =>
    { s with
      popPc := .idle
      queue := { s.queue with readPos := (currentRead + 1) % n }
      returned := s.returned ++ [data] }

def step (s : System ι α n) : Action ι α → System ι α n
  | .callPush t value => s.callPush t value
  | .push t => s.pushStep t
  | .callPop => s.callPop
  | .pop => s.popStep

/-- All interleavings: each thread may make a step at any time. -/
def machine [NeZero n] : Machine (System ι α n) (Action ι α) := ⟨new, step⟩

/-! ## Undisturbed calls -/

/-- A `push` that runs alone is `LockFreeQueue.push`. A thread that has returned
    makes no more steps, so the count of seven also covers the short paths. -/
theorem pushStep_alone (s : System ι α n) (t : ι) (item : Item α)
    (h : s.pushPc t = .loadWritePos item) :
    let s' := (pushStep · t)^[7] s
    s'.queue = (s.queue.push (some item)).2 ∧
      s'.outcome item.call = some (s.queue.push (some item)).1 ∧ s'.pushPc t = .idle := by
  by_cases hfull : (s.queue.writePos + 1) % n = s.queue.readPos
  · simp [pushStep, h, goto, returnPush, LockFreeQueue.push, hfull]
  · cases hnext : (s.queue.nodes s.queue.tail).next with
    | none => simp [pushStep, h, goto, returnPush, LockFreeQueue.push, hfull, hnext]
    | some next => simp [pushStep, h, goto, returnPush, LockFreeQueue.push, hfull, hnext]

omit [DecidableEq ι] in
/-- A `pop` that runs alone is `LockFreeQueue.pop`. -/
theorem popStep_alone (s : System ι α n) (h : s.popPc = .loadHead) :
    let s' := popStep^[7] s
    s'.queue = s.queue.pop.2 ∧ s'.returned = s.returned ++ s.queue.pop.1.toList ∧
      s'.popPc = .idle := by
  cases hdata : (s.queue.nodes s.queue.head).data with
  | none => simp [popStep, h, LockFreeQueue.pop, hdata]
  | some data =>
    cases hnext : (s.queue.nodes s.queue.head).next with
    | none => simp [popStep, h, LockFreeQueue.pop, hdata, hnext]
    | some next => simp [popStep, h, LockFreeQueue.pop, hdata, hnext]

end System

end TradingGateway.Queue

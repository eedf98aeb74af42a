import TradingGateway.Common.Heap
import TradingGateway.Common.Machine
import TradingGateway.Queue.Refinement

/-!
# Command objects from `new` to `delete`

`add_order`, `cancel_order` and `modify_order` allocate a command object and put
its address on the queue; if the queue refuses it they delete it again
(`cpp-core/matching_engine/matching_engine.cpp`, lines 37–71). The worker deletes
what it has processed (line 130), and the destructor of the queue what is still
in there (`cpp-core/lockfree_queue/lockfree_queue.h`, lines 46–58). When `m_tail`
has come to the last node, a refused `push` leaves the address of the object that
is then deleted in that node.

The calls are made one after the other. Command objects are named by the number
of objects allocated before.

* `Refines.drain`: the loop of the destructor ends, and it finds what waits.
* `commands_freed`: over the whole life of an engine every command object is
  freed exactly once and used only before that.
-/

namespace TradingGateway.Queue

open Common

variable {α : Type*} {n : ℕ}

/-- The loop of `~LockFreeQueue` (lines 47–52): the items that it deletes, in
    order; `none` if it has not ended after `fuel` calls of `pop`. -/
def LockFreeQueue.drain : ℕ → LockFreeQueue α n → Option (List α)
  | 0, _ => none
  | fuel + 1, q =>
    match q.pop with
    | (none, _) => some []
    | (some data, q) => (drain fuel q).map (data :: ·)

theorem Refines.drain {q : LockFreeQueue α n} {s : Once α} (h : Refines q s) {fuel : ℕ}
    (hfuel : s.waiting.length < fuel) : q.drain fuel = some s.waiting := by
  induction fuel generalizing q s with
  | zero => omega
  | succ fuel ih =>
    obtain ⟨hpop, hrest⟩ := h.pop_oldest
    rw [LockFreeQueue.drain]
    rcases hresult : q.pop with ⟨data, q'⟩
    rw [hresult] at hpop hrest
    cases hw : s.waiting with
    | nil =>
      rw [hw] at hpop
      obtain rfl : data = none := hpop
      rfl
    | cons x waiting =>
      rw [hw] at hpop hrest hfuel
      obtain rfl : data = some x := hpop
      have htail := ih hrest (by simpa using hfuel)
      simp only [htail, Option.map_some, List.tail_cons]

theorem Refines.length_waiting_lt {q : LockFreeQueue α n} {s : Once α} (h : Refines q s) :
    s.waiting.length < n := by
  have htail := h.tail
  have hhead := h.head
  have hlt := q.tail.isLt
  omega

end TradingGateway.Queue

namespace TradingGateway.Engine

open Common Queue

/-- What matters for command objects: the queue of their addresses, `m_running`,
    and how many were allocated. -/
structure Life where
  orderQueue : LockFreeQueue ℕ 10000
  running : Bool
  allocated : ℕ

namespace Life

/-- The calls of the engine and the passes of its worker through the loop. -/
inductive Call
  | start
  | stop
  /-- one of `add_order`, `cancel_order` and `modify_order`; `operator new` may
      throw -/
  | submit (memory : Bool)
  | pass
  deriving DecidableEq

/-- `Order* cmd = new Order; if (!m_order_queue.push(cmd)) delete cmd;` -/
def submit (l : Life) : Life × List HeapEvent :=
  let cmd := l.allocated
  let r := l.orderQueue.push (some cmd)
  ({ l with orderQueue := r.2, allocated := l.allocated + 1 },
    if r.1 then [.alloc cmd] else [.alloc cmd, .free cmd])

/-- A pass through the loop of `process_orders`: the command is processed and
    deleted. -/
def pass (l : Life) : Life × List HeapEvent :=
  match l.orderQueue.pop with
  | (some cmd, q) => ({ l with orderQueue := q }, [.use cmd, .free cmd])
  | (none, q) => ({ l with orderQueue := q }, [])

/-- The engine after a call and what the call does with command objects. A
    `start` of an engine that runs is an error; the worker makes no pass while it
    does not run. -/
def call (l : Life) : Call → Life × List HeapEvent
  | .start => ({ l with running := true }, [])
  | .stop => ({ l with running := false }, [])
  | .submit memory => if memory then l.submit else (l, [])
  | .pass => if l.running then l.pass else (l, [])

theorem neZero_capacity : NeZero 10000 := ⟨by decide⟩

/-- A new engine. -/
def machine : Machine Life Call :=
  ⟨⟨@LockFreeQueue.new ℕ 10000 neZero_capacity, false, 0⟩, fun l c => (l.call c).1⟩

/-- What the calls do with command objects. -/
def log (calls : List Call) : List HeapEvent := machine.collect (fun l c => (l.call c).2) calls

/-- The live command objects are those that wait in the queue. -/
structure Inv (l : Life) (live : Finset ℕ) : Prop where
  queue : ∃ s : Once ℕ, Refines l.orderQueue s ∧ s.waiting.Nodup ∧ live = s.waiting.toFinset
  below : ∀ p ∈ live, p < l.allocated

theorem Inv.submit {l : Life} {live : Finset ℕ} (h : l.Inv live) :
    ∃ live', heapRun live l.submit.2 = some live' ∧ l.submit.1.Inv live' := by
  obtain ⟨s, hs, hnodup, hlive⟩ := h.queue
  have hnew : l.allocated ∉ live := fun hmem => lt_irrefl _ (h.below _ hmem)
  obtain ⟨hresult, hrefines⟩ := hs.push l.allocated
  rw [onceStep] at hresult hrefines
  unfold Life.submit
  dsimp only
  split_ifs at hresult hrefines with hroom
  · have hok : (l.orderQueue.push (some l.allocated)).1 = true := QueueResult.pushed.inj hresult
    rw [hok, if_pos rfl, heapRun_alloc hnew]
    refine ⟨_, rfl, ⟨_, hrefines, ?_, ?_⟩, ?_⟩
    · rw [hlive, List.mem_toFinset] at hnew
      rw [← List.concat_eq_append, List.nodup_concat]
      exact ⟨hnew, hnodup⟩
    · rw [hlive]
      ext p
      simp
    · intro p hp
      rcases Finset.mem_insert.mp hp with rfl | hp
      · exact Nat.lt_succ_self _
      · exact (h.below p hp).trans (Nat.lt_succ_self _)
  · -- the object is freed, and if its address stays in the last node it does not wait
    have hok : (l.orderQueue.push (some l.allocated)).1 = false := QueueResult.pushed.inj hresult
    rw [hok, if_neg Bool.false_ne_true, heapRun_alloc hnew,
      heapRun_free (Finset.mem_insert_self _ _), Finset.erase_insert hnew]
    exact ⟨live, rfl, ⟨s, hrefines, hnodup, hlive⟩,
      fun p hp => (h.below p hp).trans (Nat.lt_succ_self _)⟩

theorem Inv.pass {l : Life} {live : Finset ℕ} (h : l.Inv live) :
    ∃ live', heapRun live l.pass.2 = some live' ∧ l.pass.1.Inv live' := by
  obtain ⟨⟨accepted, waiting⟩, hs, hnodup, hlive⟩ := h.queue
  obtain ⟨hpop, hrest⟩ := hs.pop_oldest
  dsimp only at hpop hrest hnodup hlive
  unfold Life.pass
  rcases hresult : l.orderQueue.pop with ⟨data, q⟩
  rw [hresult] at hpop hrest
  cases waiting with
  | nil =>
    obtain rfl : data = none := hpop
    exact ⟨live, rfl, ⟨_, hrest, hnodup, hlive⟩, h.below⟩
  | cons p waiting =>
    obtain rfl : data = some p := hpop
    have hmem : p ∈ live := by simp [hlive]
    have herase : live.erase p = waiting.toFinset := by
      rw [hlive]
      exact erase_toFinset_cons hnodup
    dsimp only
    rw [heapRun_use hmem, heapRun_free hmem]
    exact ⟨_, rfl, ⟨_, hrest, (List.nodup_cons.mp hnodup).2, herase⟩,
      fun x hx => h.below x (Finset.mem_of_mem_erase hx)⟩

theorem Inv.call {l : Life} {live : Finset ℕ} (h : l.Inv live) (c : Call) :
    ∃ live', heapRun live (l.call c).2 = some live' ∧ (l.call c).1.Inv live' := by
  cases c with
  | start => exact ⟨live, rfl, h.queue, h.below⟩
  | stop => exact ⟨live, rfl, h.queue, h.below⟩
  | submit memory =>
    unfold Life.call
    cases memory with
    | true => exact h.submit
    | false => exact ⟨live, rfl, h⟩
  | pass =>
    unfold Life.call
    cases l.running with
    | true => exact h.pass
    | false => exact ⟨live, rfl, h⟩

theorem inv_after (calls : List Call) :
    ∃ live, heapRun ∅ (log calls) = some live ∧ (machine.after calls).Inv live := by
  induction calls using List.reverseRecOn with
  | nil =>
    refine ⟨∅, rfl, ⟨_, refines_new, List.nodup_nil, rfl⟩, ?_⟩
    intro p hp
    exact absurd hp (Finset.notMem_empty p)
  | append_singleton calls c ih =>
    obtain ⟨live, hrun, hinv⟩ := ih
    obtain ⟨live', hcall, hinv'⟩ := hinv.call c
    refine ⟨live', ?_, by rw [Machine.after_concat]; exact hinv'⟩
    unfold log at hrun ⊢
    rw [Machine.collect_concat, heapRun_append, hrun]
    exact hcall

/-- **Command objects are freed exactly once.** Take any sequence of calls,
    accepted and refused, with the worker running or not, and then the destructor.
    The destructor's loop ends and deletes exactly what waits, and over the whole
    life of the engine no object is used or freed when it is not live and none is
    left: also not the one whose address a refused `push` left in the last node. -/
theorem commands_freed (calls : List Call) :
    ∃ rest, (machine.after calls).orderQueue.drain 10000 = some rest ∧
      rest = (machine.after calls).orderQueue.waiting ∧
      heapRun ∅ (log calls ++ rest.map .free) = some ∅ := by
  obtain ⟨live, hrun, hinv⟩ := inv_after calls
  obtain ⟨s, hs, hnodup, hlive⟩ := hinv.queue
  refine ⟨s.waiting, hs.drain hs.length_waiting_lt, hs.waiting_eq.symm, ?_⟩
  rw [heapRun_append, hrun, hlive]
  exact heapRun_frees hnodup

end Life

end TradingGateway.Engine

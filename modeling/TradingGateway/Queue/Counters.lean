import TradingGateway.Queue.Refinement

/-!
# The counters and the nodes

`size` and `empty` read only the counters, `pop` only the nodes, and a refused
`push` may have left its item in the last node. All the same the three agree,
because the counters and the nodes represent one FIFO (`Refines`).

* `Refines.size_eq`, `Refines.empty_iff`, `Refines.pop_eq_none_iff`: each of them
  in terms of the items that wait.
* `size_tells`: after every sequence of calls.
-/

namespace TradingGateway.Queue

open Common

variable {α : Type*} {n : ℕ}

theorem Refines.size_eq {q : LockFreeQueue α n} {s : Once α} (h : Refines q s) :
    q.size = s.waiting.length := by
  have hhead := h.head
  rw [LockFreeQueue.size, h.writePos, h.readPos, if_pos (by omega)]
  omega

theorem Refines.empty_iff {q : LockFreeQueue α n} {s : Once α} (h : Refines q s) :
    q.empty = true ↔ s.waiting = [] := by
  have hhead := h.head
  rw [LockFreeQueue.empty, decide_eq_true_eq, h.writePos, h.readPos, ← List.length_eq_zero_iff]
  omega

/-- A leftover of a refused `push` is not popped. -/
theorem Refines.pop_eq_none_iff {q : LockFreeQueue α n} {s : Once α} (h : Refines q s) :
    q.pop.1 = none ↔ s.waiting = [] := by
  rw [h.pop_oldest.1, List.head?_eq_none_iff]

theorem refines_stateAfter [NeZero n] (ops : List (QueueOp α)) :
    Refines (stateAfter queueStep (LockFreeQueue.new : LockFreeQueue α n) ops)
      (stateAfter (onceStep (n - 1)) ⟨0, []⟩ ops) :=
  stateAfter_of_simulation (fun _ _ op h => h.step op) ops _ _ refines_new

/-- **The counters and the nodes agree.** After every sequence of calls on a
    fresh queue, `size` is the number of accepted pushes less the number of
    successful pops and at most `Size − 1`, and `empty` says that `size` is 0,
    which is when the next `pop` returns `nullptr`. -/
theorem size_tells [NeZero n] (ops : List (QueueOp α)) :
    let q := stateAfter queueStep (LockFreeQueue.new : LockFreeQueue α n) ops
    let rs := results queueStep (LockFreeQueue.new : LockFreeQueue α n) ops
    q.size + takes rs = accepts rs ∧ q.size ≤ n - 1 ∧ (q.empty = true ↔ q.size = 0) ∧
      (q.size = 0 ↔ q.pop.1 = none) := by
  intro q rs
  have h : Refines q (stateAfter (onceStep (n - 1)) ⟨0, []⟩ ops) := refines_stateAfter ops
  have hrs : rs = results (onceStep (n - 1)) ⟨0, []⟩ ops := queueResults_eq_onceResults ops
  have hbalance := length_waiting_once (n - 1) ops ⟨0, []⟩
  have htail := q.tail.isLt
  rw [h.tail, ← h.head] at htail
  rw [h.size_eq, hrs, h.pop_eq_none_iff, h.empty_iff, List.length_eq_zero_iff]
  refine ⟨by simpa using hbalance, by omega, Iff.rfl, Iff.rfl⟩

/-- A queue of size 3 whose last node holds the item of a refused `push`. -/
def leftover : List (QueueOp ℕ) := [.push 1, .push 2, .pop, .push 3, .pop]

/-- It is empty, and the item does not come out. -/
theorem leftover_not_popped :
    results queueStep (LockFreeQueue.new : LockFreeQueue ℕ 3) leftover =
        [.pushed true, .pushed true, .popped (some 1), .pushed false, .popped (some 2)] ∧
      (stateAfter queueStep (LockFreeQueue.new : LockFreeQueue ℕ 3) leftover).dataAt 2 = some 3 ∧
      (stateAfter queueStep (LockFreeQueue.new : LockFreeQueue ℕ 3) leftover).pop.1 = none :=
  ⟨by decide, by decide, (size_tells leftover).2.2.2.mp (by decide)⟩

end TradingGateway.Queue

import TradingGateway.Common.Fifo
import TradingGateway.Queue.Model

/-!
# What the queue accepts

Because the list of nodes ends, `m_tail` arrives at the last node after
`Size − 1` accepted items and stays there: from then on every `push` is
refused, also when all items have been taken out. The counters suggest a ring,
but the nodes are no ring.

* `Refines`: the queue's nodes and counters represent a FIFO that accepts
  `Size − 1` items in all. `push` and `pop` keep it (`Refines.push`,
  `Refines.pop`); the item that a refused `push` leaves in the last node is
  invisible.
* `queueResults_eq_onceResults`: the queue is that FIFO, for every sequence of
  calls.
* `queueResults_eq_fifoResults_iff`: it behaves as the FIFO of capacity
  `Size − 1` exactly on the sequences of which that FIFO accepts no more than
  `Size − 1` items.
* `drained_queue_refuses`: the shortest sequence on which it does not.
-/

namespace TradingGateway.Queue

open Common

variable {α : Type*} {n : ℕ}

/-- A call of the queue. Items are not null. -/
def queueStep (q : LockFreeQueue α n) : QueueOp α → QueueResult α × LockFreeQueue α n
  | .push x => (.pushed (q.push (some x)).1, (q.push (some x)).2)
  | .pop => (.popped q.pop.1, q.pop.2)

/-- The queue represents the FIFO `s`: the items that wait stand in the nodes
    from `m_head` on, in order. The last node may hold a refused item. -/
structure Refines (q : LockFreeQueue α n) (s : Once α) : Prop where
  next : ∀ i, (q.nodes i).next = LockFreeQueue.link i
  tail : q.tail.val = s.accepted
  head : q.head.val + s.waiting.length = s.accepted
  writePos : q.writePos = s.accepted
  readPos : q.readPos = q.head.val
  data : ∀ i : Fin n, i.val + 1 < n →
    (q.nodes i).data = if q.head.val ≤ i.val then s.waiting[i.val - q.head.val]? else none

theorem refines_new [NeZero n] : Refines (LockFreeQueue.new : LockFreeQueue α n) ⟨0, []⟩ where
  next _ := rfl
  tail := by simp [LockFreeQueue.new]
  head := by simp [LockFreeQueue.new]
  writePos := rfl
  readPos := by simp [LockFreeQueue.new]
  data i _ := by simp [LockFreeQueue.new]

/-- Storing into the last node does not show. -/
theorem Refines.setData_last {q : LockFreeQueue α n} {s : Once α} (h : Refines q s) {i : Fin n}
    (hi : i.val + 1 = n) (d : Option α) : Refines (q.setData i d) s where
  next j := by simp [h.next]
  tail := h.tail
  head := h.head
  writePos := h.writePos
  readPos := h.readPos
  data j hj := by
    have hne : j ≠ i := by rintro rfl; omega
    simp [hne, h.data j hj]

theorem Refines.push {q : LockFreeQueue α n} {s : Once α} (h : Refines q s) (x : α) :
    (queueStep q (.push x)).1 = (onceStep (n - 1) s (.push x)).1 ∧
      Refines (queueStep q (.push x)).2 (onceStep (n - 1) s (.push x)).2 := by
  have htail := h.tail
  have hhead := h.head
  have hlt := q.tail.isLt
  simp only [queueStep, onceStep, LockFreeQueue.push, LockFreeQueue.setData_next, h.next,
    h.writePos, h.readPos]
  by_cases hfull : s.accepted < n - 1
  · -- the tail has a successor, and the counters cannot be equal before they wrap
    rw [if_pos hfull, if_neg (by rw [Nat.mod_eq_of_lt (by omega)]; omega)]
    cases hlink : LockFreeQueue.link q.tail with
    | none =>
      rw [LockFreeQueue.link_eq_none_iff] at hlink
      omega
    | some next =>
      rw [LockFreeQueue.link_eq_some_iff] at hlink
      dsimp only
      refine ⟨rfl, ⟨fun i => by simp [h.next], by dsimp only; omega, ?_, ?_, h.readPos, ?_⟩⟩
      · simp only [LockFreeQueue.setData_head, List.length_append, List.length_singleton]
        omega
      · exact Nat.mod_eq_of_lt (by omega)
      · intro i hi
        show ((q.setData q.tail (some x)).nodes i).data =
          if q.head.val ≤ i.val then (s.waiting ++ [x])[i.val - q.head.val]? else none
        rw [LockFreeQueue.setData_data]
        by_cases hit : i = q.tail
        · subst hit
          rw [if_pos rfl, if_pos (by omega), List.getElem?_append_right (by omega)]
          simp [show q.tail.val - q.head.val - s.waiting.length = 0 by omega]
        · have hne : i.val ≠ q.tail.val := fun e => hit (Fin.ext e)
          rw [if_neg hit, h.data i hi]
          split_ifs with hge
          · rcases Nat.lt_or_ge (i.val - q.head.val) s.waiting.length with hin | hout
            · rw [List.getElem?_append_left hin]
            · rw [List.getElem?_eq_none hout, List.getElem?_eq_none]
              simp only [List.length_append, List.length_singleton]
              omega
          · rfl
  · -- the tail is the last node
    rw [if_neg hfull]
    have hlink : LockFreeQueue.link q.tail = none := by
      rw [LockFreeQueue.link_eq_none_iff]
      omega
    rw [hlink]
    split_ifs
    · exact ⟨rfl, h⟩
    · exact ⟨rfl, h.setData_last (by omega) _⟩

theorem Refines.pop {q : LockFreeQueue α n} {s : Once α} (h : Refines q s) :
    (queueStep q .pop).1 = (onceStep (n - 1) s .pop).1 ∧
      Refines (queueStep q .pop).2 (onceStep (n - 1) s .pop).2 := by
  obtain ⟨accepted, waiting⟩ := s
  have htail : q.tail.val = accepted := h.tail
  have hhead : q.head.val + waiting.length = accepted := h.head
  have hlt := q.tail.isLt
  simp only [queueStep, onceStep, LockFreeQueue.pop, h.next]
  cases hw : waiting with
  | nil =>
    subst hw
    simp only [List.length_nil, add_zero, takeOldest] at hhead ⊢
    -- nothing waits: the head node is empty, or it is the last node
    by_cases hlast : q.head.val + 1 < n
    · have hdata := h.data q.head hlast
      simp only [le_refl, if_true, Nat.sub_self, List.getElem?_nil] at hdata
      rw [hdata]
      exact ⟨rfl, h⟩
    · have hlink : LockFreeQueue.link q.head = none := by
        rw [LockFreeQueue.link_eq_none_iff]
        omega
      rw [hlink]
      cases (q.nodes q.head).data <;> exact ⟨rfl, h⟩
  | cons x rest =>
    subst hw
    simp only [List.length_cons, takeOldest] at hhead ⊢
    have hdata := h.data q.head (by omega)
    simp only [le_refl, if_true, Nat.sub_self, List.getElem?_cons_zero] at hdata
    rw [hdata]
    cases hlink : LockFreeQueue.link q.head with
    | none =>
      rw [LockFreeQueue.link_eq_none_iff] at hlink
      omega
    | some next =>
      rw [LockFreeQueue.link_eq_some_iff] at hlink
      refine ⟨rfl, ⟨fun i => by simp [h.next], h.tail, by dsimp only; omega, h.writePos, ?_, ?_⟩⟩
      · simp only [LockFreeQueue.setData_readPos, h.readPos, hlink]
        exact Nat.mod_eq_of_lt (by omega)
      · intro i hi
        simp only [LockFreeQueue.setData_data]
        by_cases hih : i = q.head
        · subst hih
          rw [if_pos rfl, if_neg (by omega)]
        · have hne : i.val ≠ q.head.val := fun e => hih (Fin.ext e)
          rw [if_neg hih, h.data i hi]
          by_cases hge : next.val ≤ i.val
          · rw [if_pos hge, if_pos (by omega),
              show i.val - q.head.val = i.val - next.val + 1 by omega, List.getElem?_cons_succ]
          · rw [if_neg hge, if_neg (by omega)]

theorem Refines.step {q : LockFreeQueue α n} {s : Once α} (h : Refines q s) (op : QueueOp α) :
    (queueStep q op).1 = (onceStep (n - 1) s op).1 ∧
      Refines (queueStep q op).2 (onceStep (n - 1) s op).2 := by
  cases op with
  | push x => exact h.push x
  | pop => exact h.pop

theorem filterMap_range' {f : ℕ → Option α} :
    ∀ (w : List α) (a : ℕ), (∀ j < w.length, f (a + j) = w[j]?) →
      (List.range' a w.length).filterMap f = w := by
  intro w
  induction w with
  | nil => intro a _; rfl
  | cons x w ih =>
    intro a hf
    have hx : f a = some x := by simpa using hf 0 (by simp)
    rw [List.length_cons, List.range'_succ, List.filterMap_cons_some hx, ih (a + 1)]
    intro j hj
    have := hf (j + 1) (by simpa using hj)
    rwa [← add_assoc, add_right_comm] at this

/-- The nodes between `m_head` and `m_tail` hold the items that wait. -/
theorem Refines.waiting_eq {q : LockFreeQueue α n} {s : Once α} (h : Refines q s) :
    q.waiting = s.waiting := by
  have htail := h.tail
  have hhead := h.head
  have hlt := q.tail.isLt
  rw [LockFreeQueue.waiting, show q.tail.val - q.head.val = s.waiting.length by omega]
  apply filterMap_range'
  intro j hj
  rw [LockFreeQueue.dataAt, dif_pos (by omega), h.data _ (by dsimp only; omega), if_pos (by simp)]
  simp

/-- `push` accepts an item as long as `m_tail` is not the last node, and a
    refused item does not wait. -/
theorem Refines.push_waiting {q : LockFreeQueue α n} {s : Once α} (h : Refines q s) (x : α) :
    (q.push (some x)).1 = decide (q.tail.val + 1 < n) ∧
      (q.push (some x)).2.waiting =
        if q.tail.val + 1 < n then q.waiting ++ [x] else q.waiting := by
  obtain ⟨hresult, hrefines⟩ := h.push x
  have hwaiting := hrefines.waiting_eq
  have hroom : s.accepted < n - 1 ↔ q.tail.val + 1 < n := by
    rw [h.tail]
    omega
  rw [onceStep] at hresult hwaiting
  simp only [hroom, queueStep] at hresult hwaiting
  split_ifs at hresult hwaiting ⊢ with hlt
  · simp only [QueueResult.pushed.injEq] at hresult
    simp [hresult, hwaiting, hlt, h.waiting_eq]
  · simp only [QueueResult.pushed.injEq] at hresult
    simp [hresult, hwaiting, hlt, h.waiting_eq]

/-- `pop` takes the oldest item that waits. -/
theorem Refines.pop_oldest {q : LockFreeQueue α n} {s : Once α} (h : Refines q s) :
    q.pop.1 = s.waiting.head? ∧ Refines q.pop.2 ⟨s.accepted, s.waiting.tail⟩ := by
  obtain ⟨accepted, waiting⟩ := s
  obtain ⟨hresult, hrefines⟩ := h.pop
  cases waiting with
  | nil => exact ⟨QueueResult.popped.inj hresult, hrefines⟩
  | cons x waiting => exact ⟨QueueResult.popped.inj hresult, hrefines⟩

/-- The queue is the FIFO that accepts `Size − 1` items in all. -/
theorem queueResults_eq_onceResults [NeZero n] (ops : List (QueueOp α)) :
    results queueStep (LockFreeQueue.new : LockFreeQueue α n) ops =
      results (onceStep (n - 1)) ⟨0, []⟩ ops :=
  results_eq_of_simulation (fun _ _ op h => h.step op) ops _ _ refines_new

/-- **Bounded FIFO.** The results of a sequence of calls on a fresh queue are
    those of a FIFO of capacity `Size − 1` if and only if that FIFO accepts at
    most `Size − 1` of the items pushed. -/
theorem queueResults_eq_fifoResults_iff [NeZero n] (ops : List (QueueOp α)) :
    results queueStep (LockFreeQueue.new : LockFreeQueue α n) ops =
        results (fifoStep (n - 1)) [] ops ↔
      accepts (results (fifoStep (n - 1)) [] ops) ≤ n - 1 := by
  rw [queueResults_eq_onceResults]
  exact onceResults_eq_fifoResults_iff ops

/-- A queue of size 3 that is filled and drained once is still that FIFO. -/
theorem queue_three_filled_and_drained :
    results queueStep (LockFreeQueue.new : LockFreeQueue ℕ 3)
        [.push 1, .push 2, .push 3, .pop, .pop, .pop] =
      [.pushed true, .pushed true, .pushed false,
        .popped (some 1), .popped (some 2), .popped none] :=
  (queueResults_eq_fifoResults_iff _).mpr (by decide)

/-- The queue of size 2 refuses a second item although it has been drained;
    the FIFO of capacity 1 accepts it. -/
theorem drained_queue_refuses :
    results queueStep (LockFreeQueue.new : LockFreeQueue ℕ 2) [.push 1, .pop, .push 2] =
        [.pushed true, .popped (some 1), .pushed false] ∧
      results (fifoStep (2 - 1)) [] [.push 1, .pop, .push 2] =
        [.pushed true, .popped (some 1), .pushed true] := by
  decide

end TradingGateway.Queue

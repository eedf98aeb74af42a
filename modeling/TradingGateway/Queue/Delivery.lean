import TradingGateway.Queue.Invariant

/-!
# Delivery of accepted items

`push` loads `m_tail`, stores the item there and moves `m_tail`, with no
compare-and-swap. Two threads that load the same tail store in the same node,
both report success, and one item is gone.

* `concurrent_push_loses_item`: such a run.
* `accepted_delivered_once`: in every run without such a load each accepted item
  is in one place: among those returned by `pop`, or in one node.
* `overlap_blocks`: also such a run may leave a queue that is empty and takes
  nothing more, because two pushes have loaded the same `m_write_pos`.
* `returned_prefix_of_kept`: with a single producer there is no such run, and
  `pop` returns the items in the order of the calls.
-/

namespace TradingGateway.Queue.System

open Common

variable {ι α : Type*} {n : ℕ}

/-- The items that `pop` has returned, and the one that a `pop` in progress has
    taken out of its node. -/
def taken (s : System ι α n) : List (Item α) := s.returned ++ s.popPc.inHand

/-- The nodes from `m_head` on that hold the item of the call `k`. -/
def holders (s : System ι α n) (k : ℕ) : Finset (Fin n) :=
  Finset.univ.filter fun i => s.queue.head ≤ i ∧ (s.queue.nodes i).data.map Item.call = some k

/-- The item of the call `k` is taken by exactly one `pop` and in no node, or
    taken by none and in exactly one node from `m_head` on. -/
def Delivered (s : System ι α n) (k : ℕ) : Prop :=
  (s.taken.map Item.call).count k + (s.holders k).card = 1

/-! ## Several producers -/

theorem Inv.mem_holders {s : System ι α n} {log : List (Item α)} (h : s.Inv log) {k : ℕ}
    (hk : k ∈ log.map Item.call) (i : Fin n) :
    i ∈ s.holders k ↔
      s.popPc.taken s.queue.head ≤ i.val ∧ (log.map Item.call)[i.val]? = some k := by
  have hhead : s.queue.head.val ≤ s.popPc.taken s.queue.head := by
    cases s.popPc <;> simp [PopPc.taken]
  simp only [holders, Finset.mem_filter, Finset.mem_univ, true_and, List.getElem?_map, Fin.le_def]
  rcases Nat.lt_or_ge (i.val + 1) n with hopen | hlast
  · rw [h.stored.data i hopen]
    split_ifs with hle
    · simp [hle, hhead.trans hle]
    · simp [hle]
  · -- the last node holds no item of the log, and the log does not reach it
    have hi : i.val + 1 = n := by omega
    constructor
    · rintro ⟨-, hdata⟩
      obtain ⟨y, hy, rfl⟩ := Option.map_eq_some_iff.mp hdata
      exact absurd hk (h.stored.last i y hi hy).2
    · rintro ⟨-, hlog⟩
      obtain ⟨y, hy, rfl⟩ := Option.map_eq_some_iff.mp hlog
      have := (List.getElem?_eq_some_iff.mp hy).1
      have := h.producers.length_lt
      omega

theorem Inv.delivered_once {s : System ι α n} {log : List (Item α)} (h : s.Inv log) {k : ℕ}
    (hk : k ∈ log.map Item.call) : s.Delivered k := by
  have hnodup : (log.map Item.call).Nodup := h.calls.nodup
  have htaken : s.taken.map Item.call =
      (log.map Item.call).take (s.popPc.taken s.queue.head) := by
    rw [taken, h.worker.taken, List.map_take]
  obtain ⟨j, hj⟩ := List.mem_iff_getElem?.mp hk
  obtain ⟨hjlt, -⟩ := List.getElem?_eq_some_iff.mp hj
  -- the item has one place in the log
  have huniq : ∀ {i : ℕ}, (log.map Item.call)[i]? = some k → j = i :=
    fun hi => (List.getElem?_inj hjlt hnodup).mp (hj.trans hi.symm)
  rw [Delivered, htaken]
  rcases Nat.lt_or_ge j (s.popPc.taken s.queue.head) with hlt | hge
  · have hmem : k ∈ (log.map Item.call).take (s.popPc.taken s.queue.head) := by
      apply List.mem_of_getElem? (i := j)
      rw [List.getElem?_take_of_lt hlt, hj]
    have hnone : s.holders k = ∅ := by
      apply Finset.eq_empty_of_forall_notMem
      intro i hi
      obtain ⟨hle, hik⟩ := (h.mem_holders hk i).mp hi
      have := huniq hik
      omega
    rw [List.count_eq_one_of_mem (hnodup.sublist (List.take_sublist _ _)) hmem, hnone]
    rfl
  · have hnot : k ∉ (log.map Item.call).take (s.popPc.taken s.queue.head) := by
      intro hmem
      obtain ⟨i, hi⟩ := List.mem_iff_getElem?.mp hmem
      rw [List.getElem?_take] at hi
      split_ifs at hi with hlt
      have := huniq hi
      omega
    have hjn : j < n := by
      have := h.producers.length_lt
      rw [List.length_map] at hjlt
      omega
    have hone : s.holders k = {⟨j, hjn⟩} := by
      ext i
      rw [h.mem_holders hk, Finset.mem_singleton, Fin.ext_iff]
      constructor
      · rintro ⟨-, hi⟩
        exact (huniq hi).symm
      · intro hi
        rw [hi]
        exact ⟨hge, hj⟩
    rw [List.count_eq_zero_of_not_mem hnot, hone, Finset.card_singleton]

variable [DecidableEq ι]

/-- **No accepted item is lost.** Any number of threads push, the worker pops,
    the steps interleave in any way. If no thread loads a tail that has a
    successor while another one is between its load of `m_tail` and its store,
    then the item of each call that returned `true` is delivered: it has been
    taken once, or waits in one node. -/
theorem accepted_delivered_once [NeZero n] (as : List (Action ι α))
    (hfree : (machine : Machine (System ι α n) _).Guarded TailFree as) (k : ℕ)
    (hk : (machine.after as : System ι α n).outcome k = some true) :
    (machine.after as : System ι α n).Delivered k := by
  obtain ⟨log, h⟩ := inv_after as hfree
  exact h.delivered_once (h.calls.accepted k hk)

/-- Two threads push at the same time and take turns at `m_tail`; then the
    worker pops. -/
def takingTurns : List (Action Bool ℕ) :=
  [.callPush false 10, .callPush true 20, .push false, .push true, .push false, .push true,
    .push false, .push false, .push false, .push false, .push true, .push true, .push true,
    .push false, .push true, .push true, .callPop, .pop, .pop, .pop, .pop, .pop, .pop, .pop]

theorem takingTurns_delivered_once :
    (machine : Machine (System Bool ℕ 3) _).Guarded TailFree takingTurns ∧
      (machine.after takingTurns : System Bool ℕ 3).outcome 1 = some true ∧
      (machine.after takingTurns : System Bool ℕ 3).Delivered 1 :=
  have hfree : (machine : Machine (System Bool ℕ 3) _).Guarded TailFree takingTurns := by decide
  have hk : (machine.after takingTurns : System Bool ℕ 3).outcome 1 = some true := by decide
  ⟨hfree, hk, accepted_delivered_once takingTurns hfree 1 hk⟩

/-- The worker takes the second item as well; then one thread pushes alone. -/
def lonePush : List (Action Bool ℕ) :=
  takingTurns ++ [.callPop, .pop, .pop, .pop, .pop, .pop, .pop, .pop] ++
    [.callPush false 30, .push false, .push false]

/-- Both calls have loaded the same `m_write_pos`. On the queue of the engine nothing
    is lost, but `m_write_pos` stays one behind, and the queue that the worker has
    emptied looks full for ever. -/
theorem overlap_blocks :
    let s : System Bool ℕ 10000 := machine.after lonePush
    (machine : Machine (System Bool ℕ 10000) _).Guarded TailFree lonePush ∧
      s.returned.map Item.value = [10, 20] ∧ s.outcome 2 = some false ∧
      s.queue.tail = 2 ∧ s.queue.writePos = 1 ∧ s.queue.readPos = 2 ∧
      s.queue.pop.1 = none ∧ ∀ item, s.queue.push (some item) = (false, s.queue) := by
  intro s
  have hfull : (s.queue.writePos + 1) % 10000 = s.queue.readPos := by decide +kernel
  refine ⟨by decide +kernel, by decide +kernel, by decide +kernel, by decide +kernel,
    by decide +kernel, by decide +kernel, by decide +kernel, fun item => ?_⟩
  rw [LockFreeQueue.push, if_pos hfull]

/-- Two threads load the same tail. -/
def collision : List (Action Bool ℕ) :=
  [.callPush false 10, .callPush true 20, .push false, .push false, .push false,
    .push true, .push true, .push true, .push false, .push true,
    .push false, .push false, .push false, .push true, .push true, .push true]

/-- On the queue of the engine both calls return `true` and the item of the
    first is nowhere. -/
theorem concurrent_push_loses_item :
    (machine.after collision : System Bool ℕ 10000).outcome 0 = some true ∧
      (machine.after collision : System Bool ℕ 10000).outcome 1 = some true ∧
      (machine.after collision : System Bool ℕ 10000).taken = [] ∧
      (machine.after collision : System Bool ℕ 10000).holders 0 = ∅ ∧
      ¬ (machine.after collision : System Bool ℕ 10000).Delivered 0 := by
  have htaken : (machine.after collision : System Bool ℕ 10000).taken = [] := by decide
  have hholders : (machine.after collision : System Bool ℕ 10000).holders 0 = ∅ := by
    -- both items were stored in the first node
    have hnodes : (machine.after collision : System Bool ℕ 10000).queue.nodes =
        ((LockFreeQueue.new.setData 0 (some ⟨0, 10⟩)).setData 0 (some ⟨1, 20⟩)).nodes := rfl
    apply Finset.eq_empty_of_forall_notMem
    intro i hi
    have hdata := (Finset.mem_filter.mp hi).2.2
    rw [hnodes, LockFreeQueue.setData_data, LockFreeQueue.setData_data] at hdata
    by_cases h0 : i = 0
    · simp [h0] at hdata
    · simp [h0, LockFreeQueue.new] at hdata
  refine ⟨by decide, by decide, htaken, hholders, ?_⟩
  simp [Delivered, htaken, hholders]

/-! ## One producer -/

/-- The values pushed by the calls that have not returned `false`. -/
def kept (s : System ι α n) : List α :=
  (s.calls.zipIdx.filter fun p => s.outcome p.2 ≠ some false).map Prod.fst

/-- A single producer has nobody to wait for. -/
theorem tailFree_of_one (s : System Unit α n) (a : Action Unit α) : s.TailFree a := by
  unfold TailFree
  split
  · split
    · exact fun _ u hu => absurd rfl hu
    · trivial
  · trivial

theorem inv_inOrder_after [NeZero n] (as : List (Action Unit α)) :
    ∃ log, (machine.after as : System Unit α n).Inv log ∧
      ((machine.after as : System Unit α n).callLog log).InOrder := by
  refine machine.after_induction (P := fun s => ∃ log, s.Inv log ∧ (s.callLog log).InOrder)
    ⟨[], inv_new, CallLog.inOrder_empty⟩ ?_ as
  rintro s a ⟨log, h, horder⟩
  obtain ⟨log', h', hstep⟩ := h.step a (s.tailFree_of_one a)
  exact ⟨log', h', horder.step h.calls hstep⟩

/-- **Single producer, single consumer.** In every state of every interleaving
    of one producer and the worker, the values returned by `pop` are a prefix of
    the values pushed, without those whose `push` returned `false`; and no item
    that `pop` returned is that of a call that returned `false`. -/
theorem returned_prefix_of_kept [NeZero n] (as : List (Action Unit α)) :
    (machine.after as : System Unit α n).returned.map Item.value <+:
        (machine.after as : System Unit α n).kept ∧
      ∀ x ∈ (machine.after as : System Unit α n).returned,
        (machine.after as : System Unit α n).calls[x.call]? = some x.value ∧
        (machine.after as : System Unit α n).outcome x.call ≠ some false := by
  obtain ⟨log, h, horder⟩ := inv_inOrder_after (n := n) as
  have hfirst : (machine.after as : System Unit α n).returned <+: log :=
    (h.worker.taken ▸ List.prefix_append _ _).trans (List.take_prefix _ _)
  refine ⟨?_, fun x hx => h.calls.log x (hfirst.subset hx)⟩
  have hkept : (machine.after as : System Unit α n).kept =
      (log ++ ((machine.after as : System Unit α n).callLog log).pending).map Item.value := by
    have hfst := congrArg (List.map Prod.fst) horder
    rw [List.map_map] at hfst
    exact hfst
  rw [hkept]
  exact (hfirst.trans (List.prefix_append _ _)).map _

/-- The worker takes an item before the producer has moved `m_tail`. -/
def overtaking : List (Action Unit ℕ) :=
  [.callPush () 10, .push (), .push (), .push (), .push (), .callPop, .pop, .pop, .pop, .pop,
    .pop, .pop, .pop, .push ()]

theorem overtaking_returned_prefix :
    (machine.after overtaking : System Unit ℕ 2).returned.map Item.value = [10] ∧
      (machine.after overtaking : System Unit ℕ 2).returned.map Item.value <+:
        (machine.after overtaking : System Unit ℕ 2).kept :=
  ⟨by decide, (returned_prefix_of_kept overtaking).1⟩

end TradingGateway.Queue.System

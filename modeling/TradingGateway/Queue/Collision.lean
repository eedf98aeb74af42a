import TradingGateway.Queue.Delivery

/-!
# Collisions at `m_tail`

The condition under which accepted items are delivered cannot be weakened. When
a thread loads a tail that has a successor while another thread is between its
load of `m_tail` and its store, both have the same node, and once both calls
have returned and the worker has left the node one of their items is lost.

* `FinishedBy`: what the rest of a `push` leaves behind.
* `collision_loses_item`: the loss, from every state of every run that has been
  without collision so far.
-/

namespace TradingGateway.Queue.System

open Common

variable {ι α : Type*} {n : ℕ} [DecidableEq ι] {s : System ι α n} {log : List (Item α)}

/-! ## The rest of a call -/

/-- Four steps of a thread. -/
def fourSteps (s : System ι α n) (t : ι) : System ι α n :=
  [Action.push t, .push t, .push t, .push t].foldl step s

/-- From `s` to `s'` the thread `t` has finished its `push` of `x` into the node
    `i`, and nobody else has moved. -/
structure FinishedBy (s s' : System ι α n) (t : ι) (x : Item α) (i : Fin n) : Prop where
  outcome : s'.outcome = Function.update s.outcome x.call (some true)
  pushPc : s'.pushPc = Function.update s.pushPc t .idle
  popPc : s'.popPc = s.popPc
  returned : s'.returned = s.returned
  head : s'.queue.head = s.queue.head
  nodes : ∀ j, j ≠ i → s'.queue.nodes j = s.queue.nodes j
  next : (s'.queue.nodes i).next = (s.queue.nodes i).next

theorem finishedBy_storeData {t : ι} {x : Item α} {w : ℕ} {i next : Fin n}
    (hpc : s.pushPc t = .storeData x w i) (hnext : (s.queue.nodes i).next = some next) :
    FinishedBy s (s.fourSteps t) t x i ∧ ((s.fourSteps t).queue.nodes i).data = some x := by
  have heq : s.fourSteps t = { s with
      queue := { s.queue.setData i (some x) with tail := next, writePos := (w + 1) % n }
      pushPc := Function.update s.pushPc t .idle
      outcome := Function.update s.outcome x.call (some true) } := by
    simp [fourSteps, step, pushStep, hpc, hnext, goto, returnPush]
  rw [heq]
  refine ⟨⟨rfl, rfl, rfl, rfl, rfl, ?_, ?_⟩, ?_⟩
  · intro j hj
    simp [LockFreeQueue.setData, Function.update_of_ne hj]
  · simp
  · simp

theorem finishedBy_loadNext {t : ι} {x : Item α} {w : ℕ} {i next : Fin n}
    (hpc : s.pushPc t = .loadNext x w i) (hnext : (s.queue.nodes i).next = some next) :
    FinishedBy s (s.fourSteps t) t x i := by
  have heq : s.fourSteps t = { s with
      queue := { s.queue with tail := next, writePos := (w + 1) % n }
      pushPc := Function.update s.pushPc t .idle
      outcome := Function.update s.outcome x.call (some true) } := by
    simp [fourSteps, step, pushStep, hpc, hnext, goto, returnPush]
  rw [heq]
  exact ⟨rfl, rfl, rfl, rfl, rfl, fun _ _ => rfl, rfl⟩

theorem finishedBy_storeTail {t : ι} {x : Item α} {w : ℕ} {next : Fin n} (i : Fin n)
    (hpc : s.pushPc t = .storeTail x w next) : FinishedBy s (s.fourSteps t) t x i := by
  have heq : s.fourSteps t = { s with
      queue := { s.queue with tail := next, writePos := (w + 1) % n }
      pushPc := Function.update s.pushPc t .idle
      outcome := Function.update s.outcome x.call (some true) } := by
    simp [fourSteps, step, pushStep, hpc, goto, returnPush]
  rw [heq]
  exact ⟨rfl, rfl, rfl, rfl, rfl, fun _ _ => rfl, rfl⟩

/-- A thread in the window will finish, with its item in the node `m_tail`: the
    item is not in the log yet, or it is the last one there. -/
theorem Inv.finishedBy (h : s.Inv log) (hopen : s.queue.tail.val + 1 < n) {t : ι}
    (ht : (s.pushPc t).inWindow) {u : System ι α n} (hpc : u.pushPc t = s.pushPc t)
    (hqueue : u.queue = s.queue) :
    ∃ x, (s.pushPc t).item? = some x ∧ FinishedBy u (u.fourSteps t) t x s.queue.tail ∧
      (x.call ∉ log.map Item.call ∧ log.length = s.queue.tail.val ∨
        log[s.queue.tail.val]? = some x ∧ log.length = s.queue.tail.val + 1) := by
  have hok := h.producers.ok t
  have hnext : (u.queue.nodes s.queue.tail).next = some ⟨s.queue.tail.val + 1, hopen⟩ := by
    rw [hqueue, h.stored.next, LockFreeQueue.link_eq_some_iff]
  cases hpc' : s.pushPc t with
  | storeData x w i =>
    rw [hpc'] at hok hpc
    obtain ⟨rfl, hnew, hlen⟩ := hok
    exact ⟨x, rfl, (finishedBy_storeData hpc hnext).1, .inl ⟨hnew, hlen⟩⟩
  | loadNext x w i =>
    rw [hpc', PushPc.Ok, if_pos hopen] at hok
    rw [hpc'] at hpc
    obtain ⟨rfl, hlog, hlen⟩ := hok
    exact ⟨x, rfl, finishedBy_loadNext hpc hnext, .inr ⟨hlog, hlen⟩⟩
  | storeTail x w next =>
    rw [hpc'] at hok hpc
    exact ⟨x, rfl, finishedBy_storeTail _ hpc, .inr hok.2⟩
  | _ => simp [hpc', PushPc.inWindow] at ht

/-! ## The lost item -/

omit [DecidableEq ι] in
theorem not_delivered {k : ℕ} (htaken : k ∉ s.taken.map Item.call)
    (hheld : ∀ i, s.queue.head ≤ i → (s.queue.nodes i).data.map Item.call ≠ some k) :
    ¬ s.Delivered k := by
  have hnone : s.holders k = ∅ := by
    apply Finset.eq_empty_of_forall_notMem
    intro i hi
    obtain ⟨-, hle, hdata⟩ := Finset.mem_filter.mp hi
    exact hheld i hle hdata
  rw [Delivered, List.count_eq_zero_of_not_mem htaken, hnone]
  simp

omit [DecidableEq ι] in
/-- As long as `m_tail` has a successor the nodes hold nothing but the log. -/
theorem Inv.log_of_data (h : s.Inv log) (hopen : s.queue.tail.val + 1 < n) {i : Fin n} {k : ℕ}
    (hdata : (s.queue.nodes i).data.map Item.call = some k) :
    (log.map Item.call)[i.val]? = some k := by
  rcases Nat.lt_or_eq_of_le (show i.val + 1 ≤ n from i.isLt) with hi | hi
  · rw [h.stored.data i hi] at hdata
    split_ifs at hdata with hle
    · rwa [List.getElem?_map]
    · cases hdata
  · obtain ⟨y, hy, -⟩ := Option.map_eq_some_iff.mp hdata
    have := (h.stored.last i y hi hy).1
    subst this
    omega

/-- Two calls have finished at the node that was `m_tail` in `s`, the one of
    `x₂` last. The worker may have moved `m_head` since. -/
structure Collided (s u : System ι α n) (x₁ x₂ : Item α) : Prop where
  accepted₁ : u.outcome x₁.call = some true
  accepted₂ : u.outcome x₂.call = some true
  taken : u.taken = s.taken
  nodes : ∀ j, j ≠ s.queue.tail → u.queue.nodes j = s.queue.nodes j
  data : (u.queue.nodes s.queue.tail).data = some x₂

omit [DecidableEq ι] in
/-- The first item was not taken before: it has been overwritten. -/
theorem Collided.loses_first {u : System ι α n} {x₁ x₂ : Item α} (hc : Collided s u x₁ x₂)
    (h : s.Inv log) (hopen : s.queue.tail.val + 1 < n) (hne : x₁.call ≠ x₂.call)
    (hx₁ : ∀ i, (log.map Item.call)[i]? = some x₁.call → i = s.queue.tail.val)
    (htaken : s.popPc.taken s.queue.head ≤ s.queue.tail.val) : ¬ u.Delivered x₁.call := by
  apply not_delivered
  · rw [hc.taken, System.taken, h.worker.taken, List.map_take]
    intro hmem
    obtain ⟨i, hi⟩ := List.mem_iff_getElem?.mp hmem
    rw [List.getElem?_take] at hi
    split_ifs at hi with hlt
    have := hx₁ i hi
    omega
  · intro i _ hdata
    by_cases hit : i = s.queue.tail
    · rw [hit, hc.data] at hdata
      exact hne (Option.some.inj hdata).symm
    · rw [hc.nodes i hit] at hdata
      exact hit (Fin.ext (hx₁ i (h.log_of_data hopen hdata)))

omit [DecidableEq ι] in
/-- The first item was taken: the second stands where the worker does not look
    any more. -/
theorem Collided.loses_second {u : System ι α n} {x₁ x₂ : Item α} (hc : Collided s u x₁ x₂)
    (h : s.Inv log) (hopen : s.queue.tail.val + 1 < n) (hx₂ : x₂.call ∉ log.map Item.call)
    (hhead : s.queue.tail.val < u.queue.head.val) : ¬ u.Delivered x₂.call := by
  apply not_delivered
  · rw [hc.taken, System.taken, h.worker.taken, List.map_take]
    exact fun hmem => hx₂ (List.mem_of_mem_take hmem)
  · intro i hle hdata
    have hit : i ≠ s.queue.tail := by
      rintro rfl
      exact absurd hle (not_le.mpr hhead)
    rw [hc.nodes i hit] at hdata
    exact hx₂ (List.mem_of_getElem? (h.log_of_data hopen hdata))

omit [DecidableEq ι] in
/-- What it means that a step breaks the condition. -/
theorem not_tailFree {a : Action ι α} (ha : ¬ s.TailFree a) :
    ∃ t₂ x₂ w, a = .push t₂ ∧ s.pushPc t₂ = .loadTail x₂ w ∧ s.queue.tail.val + 1 < n ∧
      ∃ t₁, t₁ ≠ t₂ ∧ (s.pushPc t₁).inWindow = true := by
  unfold TailFree at ha
  split at ha
  · split at ha
    · next t₂ _ x₂ w hpc =>
      push Not at ha
      obtain ⟨hopen, t₁, hne, hwin⟩ := ha
      exact ⟨t₂, x₂, w, rfl, hpc, hopen, t₁, hne, by simpa using hwin⟩
    · exact absurd trivial ha
  · exact absurd trivial ha

/-- Both calls run to their end after the collision, the one of the thread that
    came second last. -/
theorem Inv.collided (h : s.Inv log) {t₁ t₂ : ι} (hne : t₁ ≠ t₂) {x₂ : Item α} {w : ℕ}
    (hopen : s.queue.tail.val + 1 < n) (hpc₂ : s.pushPc t₂ = .loadTail x₂ w)
    (hwin : (s.pushPc t₁).inWindow) :
    ∃ x₁ s', s' = ((s.step (.push t₂)).fourSteps t₁).fourSteps t₂ ∧ Collided s s' x₁ x₂ ∧
      x₁.call ≠ x₂.call ∧ s'.popPc = s.popPc ∧ s'.queue.head = s.queue.head ∧
      (x₁.call ∉ log.map Item.call ∧ log.length = s.queue.tail.val ∨
        log[s.queue.tail.val]? = some x₁ ∧ log.length = s.queue.tail.val + 1) := by
  have hstep : s.step (.push t₂) = s.goto t₂ (.storeData x₂ w s.queue.tail) := by
    rw [System.step, System.pushStep, hpc₂]
  have hpc₁ : (s.goto t₂ (.storeData x₂ w s.queue.tail)).pushPc t₁ = s.pushPc t₁ :=
    Function.update_of_ne hne _ _
  obtain ⟨x₁, hx₁, hfin₁, hlog⟩ := h.finishedBy hopen hwin hpc₁ rfl
  rw [hstep]
  have hpc₂' : ((s.goto t₂ (.storeData x₂ w s.queue.tail)).fourSteps t₁).pushPc t₂ =
      .storeData x₂ w s.queue.tail := by
    rw [hfin₁.pushPc, Function.update_of_ne hne.symm]
    exact Function.update_self _ _ _
  have hnext : (((s.goto t₂ (.storeData x₂ w s.queue.tail)).fourSteps t₁).queue.nodes
      s.queue.tail).next = some ⟨s.queue.tail.val + 1, hopen⟩ := by
    rw [hfin₁.next, ← LockFreeQueue.link_eq_some_iff.mpr rfl]
    exact h.stored.next _
  obtain ⟨hfin₂, hdata⟩ := finishedBy_storeData hpc₂' hnext
  have hcalls : x₁.call ≠ x₂.call :=
    fun e => hne (h.calls.distinct t₁ t₂ x₁ x₂ hx₁ (by simp [callLog, hpc₂, PushPc.item?]) e)
  refine ⟨x₁, _, rfl, ⟨?_, ?_, ?_, fun j hj => ?_, hdata⟩, hcalls, ?_, ?_, hlog⟩
  · rw [hfin₂.outcome, Function.update_of_ne hcalls, hfin₁.outcome, Function.update_self]
  · rw [hfin₂.outcome, Function.update_self]
  · rw [taken, taken, hfin₂.returned, hfin₁.returned, hfin₂.popPc, hfin₁.popPc]
    rfl
  · rw [hfin₂.nodes j hj, hfin₁.nodes j hj]
    rfl
  · rw [hfin₂.popPc, hfin₁.popPc]
    rfl
  · rw [hfin₂.head, hfin₁.head]
    rfl

omit [DecidableEq ι] in
/-- The worker stores `m_head`. -/
theorem Collided.storeHead {u : System ι α n} {x₁ x₂ y : Item α} {next : Fin n}
    (hc : Collided s u x₁ x₂) (hpc : u.popPc = .storeHead y next) :
    Collided s u.popStep x₁ x₂ ∧ u.popStep.queue.head = next := by
  have heq : u.popStep =
      { u with popPc := .loadReadPos y, queue := { u.queue with head := next } } := by
    simp [popStep, hpc]
  rw [heq]
  refine ⟨⟨hc.accepted₁, hc.accepted₂, ?_, hc.nodes, hc.data⟩, rfl⟩
  rw [← hc.taken, System.taken, System.taken, hpc]
  rfl

theorem loss_of_collision (h : s.Inv log) {a : Action ι α} (ha : ¬ s.TailFree a) :
    ∃ (cs : List (Action ι α)) (k : ℕ), ((a :: cs).foldl step s).outcome k = some true ∧
      ¬ ((a :: cs).foldl step s).Delivered k := by
  obtain ⟨t₂, x₂, w, rfl, hpc₂, hopen, t₁, hne, hwin⟩ := not_tailFree ha
  obtain ⟨x₁, s', hs', hcol, hcalls, hpop, hhead, hlog⟩ := h.collided hne hopen hpc₂ hwin
  let run : List (Action ι α) := [.push t₁, .push t₁, .push t₁, .push t₁] ++
    [.push t₂, .push t₂, .push t₂, .push t₂]
  have hrun : ∀ bs, (.push t₂ :: (run ++ bs)).foldl step s = bs.foldl step s' := by
    intro bs
    rw [hs', List.foldl_cons, List.foldl_append, List.foldl_append]
    rfl
  have hx₂ : x₂.call ∉ log.map Item.call := by
    have := h.producers.ok t₂
    rwa [hpc₂] at this
  rcases Nat.lt_or_ge s.queue.tail.val (s.popPc.taken s.queue.head) with htaken | htaken
  · rcases Nat.lt_or_ge s.queue.tail.val s.queue.head.val with hbehind | hat
    · refine ⟨run ++ [], x₂.call, ?_⟩
      rw [hrun]
      exact ⟨hcol.accepted₂, hcol.loses_second h hopen hx₂ (hhead ▸ hbehind)⟩
    · -- the worker has the first item in hand and is about to leave the node
      have hok := h.worker.ok
      cases hpc : s.popPc with
      | storeHead y next =>
        rw [hpc] at htaken hok
        obtain ⟨hcol', hnext⟩ := hcol.storeHead (hpop.trans hpc)
        refine ⟨run ++ [.pop], x₂.call, ?_⟩
        rw [hrun]
        refine ⟨hcol'.accepted₂, hcol'.loses_second h hopen hx₂ ?_⟩
        replace hok : next.val = s.queue.head.val + 1 := hok
        replace htaken : s.queue.tail.val < s.queue.head.val + 1 := htaken
        rw [hnext]
        omega
      | _ =>
        rw [hpc] at htaken
        exact absurd htaken (not_lt.mpr hat)
  · refine ⟨run ++ [], x₁.call, ?_⟩
    rw [hrun]
    refine ⟨hcol.accepted₁, hcol.loses_first h hopen hcalls ?_ htaken⟩
    intro i hi
    rcases hlog with ⟨hnew, -⟩ | ⟨hlast, -⟩
    · exact absurd (List.mem_of_getElem? hi) hnew
    · have hcall : (log.map Item.call)[s.queue.tail.val]? = some x₁.call := by
        rw [List.getElem?_map, hlast]
        rfl
      have hlt := (List.getElem?_eq_some_iff.mp hi).1
      exact (List.getElem?_inj hlt h.calls.nodup).mp (hi.trans hcall.symm)

/-- **A collision loses an item.** A run without collision so far can always be
    continued after the first one so that an accepted item is lost. -/
theorem collision_loses_item [NeZero n] (as : List (Action ι α))
    (hfree : (machine : Machine (System ι α n) _).Guarded TailFree as) (a : Action ι α)
    (ha : ¬ (machine.after as : System ι α n).TailFree a) :
    ∃ (cs : List (Action ι α)) (k : ℕ),
      (machine.after (as ++ a :: cs) : System ι α n).outcome k = some true ∧
        ¬ (machine.after (as ++ a :: cs) : System ι α n).Delivered k := by
  obtain ⟨log, h⟩ := inv_after as hfree
  obtain ⟨cs, k, hloss⟩ := loss_of_collision h ha
  refine ⟨cs, k, ?_⟩
  rwa [Machine.after, List.foldl_append]

end TradingGateway.Queue.System

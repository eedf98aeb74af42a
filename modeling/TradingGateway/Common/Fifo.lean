import Mathlib

/-!
# Bounded queues and their results

What a queue is for, apart from any representation. `QueueOp` and
`QueueResult` are the calls of a queue and their results, `results` the results
of a sequence of calls.

* `fifoStep cap`: the FIFO that holds at most `cap` items.
* `onceStep cap`: the FIFO that accepts `cap` items in all and none ever after,
  however many are taken out.
* `results_eq_of_simulation`, `stateAfter_of_simulation`: related states give
  equal results and stay related.
* `length_waiting_once`: how many items wait, from the results.
* `onceResults_eq_fifoResults_iff`: the two FIFOs cannot be told apart by a
  sequence of calls exactly when the first accepts at most `cap` of its items.
-/

namespace TradingGateway.Common

variable {α σ τ ι ο : Type*}

/-- A call of a queue. -/
inductive QueueOp (α : Type*)
  | push (item : α)
  | pop

/-- The result of a call; `none` is `nullptr`. -/
inductive QueueResult (α : Type*)
  | pushed (ok : Bool)
  | popped (item : Option α)
  deriving DecidableEq

/-- The result of a call that accepts an item. -/
def QueueResult.isAccept : QueueResult α → Bool
  | .pushed ok => ok
  | .popped _ => false

/-- The number of items accepted. -/
def accepts (rs : List (QueueResult α)) : ℕ := rs.countP QueueResult.isAccept

/-- The result of a call that takes an item out. -/
def QueueResult.isTake : QueueResult α → Bool
  | .pushed _ => false
  | .popped item => item.isSome

/-- The number of items taken out. -/
def takes (rs : List (QueueResult α)) : ℕ := rs.countP QueueResult.isTake

/-- The results of a sequence of inputs. -/
def results (step : σ → ι → ο × σ) : σ → List ι → List ο
  | _, [] => []
  | s, i :: is => (step s i).1 :: results step (step s i).2 is

/-- The state after a sequence of inputs. -/
def stateAfter (step : σ → ι → ο × σ) (s : σ) (is : List ι) : σ :=
  is.foldl (fun s i => (step s i).2) s

/-- Two step functions that agree on the result from related states, and lead
    to related states, give equal results. -/
theorem results_eq_of_simulation {step : σ → ι → ο × σ} {step' : τ → ι → ο × τ}
    {R : σ → τ → Prop}
    (hR : ∀ s t i, R s t → (step s i).1 = (step' t i).1 ∧ R (step s i).2 (step' t i).2) :
    ∀ (is : List ι) (s : σ) (t : τ), R s t → results step s is = results step' t is := by
  intro is
  induction is with
  | nil => intro _ _ _; rfl
  | cons i is ih =>
    intro s t h
    obtain ⟨hout, hnext⟩ := hR s t i h
    rw [results, results, hout, ih _ _ hnext]

theorem stateAfter_of_simulation {step : σ → ι → ο × σ} {step' : τ → ι → ο × τ}
    {R : σ → τ → Prop}
    (hR : ∀ s t i, R s t → (step s i).1 = (step' t i).1 ∧ R (step s i).2 (step' t i).2) :
    ∀ (is : List ι) (s : σ) (t : τ), R s t → R (stateAfter step s is) (stateAfter step' t is) := by
  intro is
  induction is with
  | nil => intro _ _ h; exact h
  | cons i is ih =>
    intro s t h
    exact ih _ _ (hR s t i h).2

/-! ## Two FIFOs -/

/-- Taking the oldest item. -/
def takeOldest : List α → QueueResult α × List α
  | [] => (.popped none, [])
  | x :: waiting => (.popped (some x), waiting)

/-- A FIFO that holds at most `cap` items. -/
def fifoStep (cap : ℕ) (waiting : List α) : QueueOp α → QueueResult α × List α
  | .push x =>
    if waiting.length < cap then (.pushed true, waiting ++ [x]) else (.pushed false, waiting)
  | .pop => takeOldest waiting

/-- The number of items accepted so far, and those that wait. -/
structure Once (α : Type*) where
  accepted : ℕ
  waiting : List α

/-- A FIFO that accepts `cap` items in all. -/
def onceStep (cap : ℕ) (s : Once α) : QueueOp α → QueueResult α × Once α
  | .push x =>
    if s.accepted < cap then (.pushed true, ⟨s.accepted + 1, s.waiting ++ [x]⟩)
    else (.pushed false, s)
  | .pop => ((takeOldest s.waiting).1, ⟨s.accepted, (takeOldest s.waiting).2⟩)

@[simp] theorem accepts_nil : accepts ([] : List (QueueResult α)) = 0 := rfl

@[simp] theorem accepts_cons_pushed (ok : Bool) (rs : List (QueueResult α)) :
    accepts (.pushed ok :: rs) = (if ok then 1 else 0) + accepts rs := by
  cases ok <;> simp [accepts, QueueResult.isAccept, List.countP_cons, add_comm]

@[simp] theorem accepts_cons_takeOldest (w : List α) (rs : List (QueueResult α)) :
    accepts ((takeOldest w).1 :: rs) = accepts rs := by
  cases w <;> simp [takeOldest, accepts, QueueResult.isAccept]

@[simp] theorem takes_nil : takes ([] : List (QueueResult α)) = 0 := rfl

@[simp] theorem takes_cons_pushed (ok : Bool) (rs : List (QueueResult α)) :
    takes (.pushed ok :: rs) = takes rs := by
  simp [takes, QueueResult.isTake]

/-- What is taken out no longer waits. -/
theorem takes_cons_takeOldest (w : List α) (rs : List (QueueResult α)) :
    (takeOldest w).2.length + takes ((takeOldest w).1 :: rs) = w.length + takes rs := by
  cases w with
  | nil => simp [takeOldest, takes, QueueResult.isTake]
  | cons x w =>
    simp only [takeOldest, takes, QueueResult.isTake, List.countP_cons, List.length_cons,
      Option.isSome_some, if_true]
    omega

theorem length_takeOldest_le (w : List α) : (takeOldest w).2.length ≤ w.length := by
  cases w <;> simp [takeOldest]

/-- The second FIFO accepts no more than its capacity. -/
theorem accepts_onceResults_le {cap : ℕ} (ops : List (QueueOp α)) (s : Once α)
    (h : s.accepted ≤ cap) : s.accepted + accepts (results (onceStep cap) s ops) ≤ cap := by
  induction ops generalizing s with
  | nil => simpa [results] using h
  | cons op ops ih =>
    cases op with
    | push x =>
      rw [results, onceStep]
      split_ifs with hlt
      · have := ih ⟨s.accepted + 1, s.waiting ++ [x]⟩ hlt
        simp only [accepts_cons_pushed, if_true] at this ⊢
        omega
      · simpa using ih s h
    | pop =>
      have := ih ⟨s.accepted, (takeOldest s.waiting).2⟩ h
      rw [results, onceStep]
      simpa using this

/-- The items that wait are those accepted and not taken out. -/
theorem length_waiting_once (cap : ℕ) (ops : List (QueueOp α)) (s : Once α) :
    (stateAfter (onceStep cap) s ops).waiting.length + takes (results (onceStep cap) s ops) =
      s.waiting.length + accepts (results (onceStep cap) s ops) := by
  induction ops generalizing s with
  | nil => rfl
  | cons op ops ih =>
    have hrest := ih (onceStep cap s op).2
    rw [results]
    show (stateAfter (onceStep cap) (onceStep cap s op).2 ops).waiting.length + _ = _
    cases op with
    | push x =>
      rw [onceStep] at hrest ⊢
      split_ifs at hrest ⊢ with hlt
      · simp only [takes_cons_pushed, accepts_cons_pushed, if_true, List.length_append,
          List.length_singleton] at hrest ⊢
        omega
      · simpa using hrest
    | pop =>
      rw [onceStep] at hrest ⊢
      have htake := takes_cons_takeOldest s.waiting
        (results (onceStep cap) ⟨s.accepted, (takeOldest s.waiting).2⟩ ops)
      simp only [accepts_cons_takeOldest] at hrest ⊢
      omega

/-- While the first FIFO accepts no more than `cap` items, both give the same
    results. -/
theorem onceResults_eq_fifoResults {cap : ℕ} (ops : List (QueueOp α)) (s : Once α)
    (hw : s.waiting.length ≤ s.accepted)
    (h : s.accepted + accepts (results (fifoStep cap) s.waiting ops) ≤ cap) :
    results (onceStep cap) s ops = results (fifoStep cap) s.waiting ops := by
  induction ops generalizing s with
  | nil => rfl
  | cons op ops ih =>
    cases op with
    | push x =>
      rw [results, fifoStep] at h
      rw [results, results, onceStep, fifoStep]
      by_cases hlt : s.waiting.length < cap
      · -- the item is accepted here and counted, so the total is not used up yet
        rw [if_pos hlt] at h ⊢
        simp only [accepts_cons_pushed, if_true] at h
        rw [if_pos (by omega)]
        dsimp only
        rw [ih ⟨s.accepted + 1, s.waiting ++ [x]⟩ (by simpa using hw) (by dsimp only; omega)]
      · rw [if_neg hlt] at h ⊢
        rw [if_neg (by omega)]
        dsimp only
        rw [ih s hw (by simpa using h)]
    | pop =>
      rw [results, fifoStep] at h
      simp only [accepts_cons_takeOldest] at h
      rw [results, results, onceStep, fifoStep]
      dsimp only
      rw [ih ⟨s.accepted, (takeOldest s.waiting).2⟩
        ((length_takeOldest_le s.waiting).trans hw) h]

/-- The two FIFOs give the same results on a sequence of calls exactly when the
    first accepts at most `cap` of its items. -/
theorem onceResults_eq_fifoResults_iff {cap : ℕ} (ops : List (QueueOp α)) :
    results (onceStep cap) ⟨0, []⟩ ops = results (fifoStep cap) [] ops ↔
      accepts (results (fifoStep cap) [] ops) ≤ cap := by
  constructor
  · intro heq
    have hle : 0 + accepts (results (onceStep cap) ⟨0, []⟩ ops) ≤ cap :=
      accepts_onceResults_le ops ⟨0, []⟩ (Nat.zero_le _)
    rw [← heq]
    omega
  · intro h
    exact onceResults_eq_fifoResults ops ⟨0, []⟩ le_rfl (by simpa using h)

end TradingGateway.Common

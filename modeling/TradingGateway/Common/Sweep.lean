import Mathlib

/-!
# Sweeping a queue

An amount is taken from the elements of a list, front to back, as long as they
are eligible. `size a` is what the element `a` can give, and `reduce a d` is `a`
after it has given `d`.

* `sweep`: what each element gives, the list afterwards and the amount that is
  still wanted.
* `sum_fills_sweep`: together they give the smaller of the amount and what the
  eligible elements hold.
* `left_sweep`: something is left exactly when the amount exceeds this.
-/

namespace TradingGateway.Common

/-- The result of a sweep: what the elements give, the elements that stay, and
    the amount that is left, if it was not used up. -/
structure Sweep (α : Type*) where
  fills : List (α × ℕ)
  rest : List α
  left : Option ℕ

variable {α : Type*} (size : α → ℕ) (reduce : α → ℕ → α)
  (eligible : α → Prop) [DecidablePred eligible]

/-- Takes `q` from the list. The sweep ends at the first element that is not
    eligible, or with the element that uses the amount up; an element that gives
    all it has leaves the list. -/
def sweep : ℕ → List α → Sweep α
  | q, [] => ⟨[], [], some q⟩
  | q, a :: l =>
    if eligible a then
      if size a < q then
        let r := sweep (q - size a) l
        ⟨(a, size a) :: r.fills, r.rest, r.left⟩
      else if size a = q then ⟨[(a, q)], l, none⟩
      else ⟨[(a, q)], reduce a q :: l, none⟩
    else ⟨[], a :: l, some q⟩

/-- Nothing is taken if the front is not eligible. -/
theorem sweep_of_head {q : ℕ} {l : List α} (h : ∀ a ∈ l.head?, ¬ eligible a) :
    sweep size reduce eligible q l = ⟨[], l, some q⟩ := by
  cases l with
  | nil => rfl
  | cons a l => rw [sweep, if_neg (h a rfl)]

/-- What the eligible elements at the front hold. -/
def offered (l : List α) : ℕ := ((l.takeWhile (eligible ·)).map size).sum

section Cases

variable {eligible} {a : α} {q : ℕ} (l : List α)

theorem sweep_of_not (h : ¬ eligible a) :
    sweep size reduce eligible q (a :: l) = ⟨[], a :: l, some q⟩ :=
  sweep_of_head size reduce eligible (by simpa using h)

theorem sweep_of_lt (h : eligible a) (hq : size a < q) :
    sweep size reduce eligible q (a :: l) =
      ⟨(a, size a) :: (sweep size reduce eligible (q - size a) l).fills,
        (sweep size reduce eligible (q - size a) l).rest,
        (sweep size reduce eligible (q - size a) l).left⟩ := by
  rw [sweep, if_pos h, if_pos hq]

theorem sweep_of_eq (h : eligible a) (hq : size a = q) :
    sweep size reduce eligible q (a :: l) = ⟨[(a, q)], l, none⟩ := by
  rw [sweep, if_pos h, if_neg hq.ge.not_gt, if_pos hq]

theorem sweep_of_gt (h : eligible a) (hq : q < size a) :
    sweep size reduce eligible q (a :: l) = ⟨[(a, q)], reduce a q :: l, none⟩ := by
  rw [sweep, if_pos h, if_neg hq.not_gt, if_neg hq.ne']

theorem offered_cons_of_pos (h : eligible a) :
    offered size eligible (a :: l) = size a + offered size eligible l := by
  unfold offered
  rw [List.takeWhile_cons_of_pos (by simpa using h)]
  rfl

theorem offered_cons_of_neg (h : ¬ eligible a) : offered size eligible (a :: l) = 0 := by
  unfold offered
  rw [List.takeWhile_cons_of_neg (by simpa using h)]
  rfl

end Cases

theorem sum_fills_sweep (q : ℕ) (l : List α) :
    ((sweep size reduce eligible q l).fills.map Prod.snd).sum =
      min q (offered size eligible l) := by
  induction l generalizing q with
  | nil => simp [sweep, offered]
  | cons a l ih =>
    by_cases h : eligible a
    · rw [offered_cons_of_pos size l h]
      rcases lt_trichotomy (size a) q with hq | hq | hq
      · rw [sweep_of_lt size reduce l h hq, List.map_cons, List.sum_cons, ih]
        omega
      · rw [sweep_of_eq size reduce l h hq]
        simp only [List.map_cons, List.map_nil, List.sum_singleton]
        omega
      · rw [sweep_of_gt size reduce l h hq]
        simp only [List.map_cons, List.map_nil, List.sum_singleton]
        omega
    · rw [sweep_of_not size reduce l h, offered_cons_of_neg size l h]
      simp

theorem le_size_of_mem_fills (q : ℕ) (l : List α) :
    ∀ fill ∈ (sweep size reduce eligible q l).fills, fill.2 ≤ size fill.1 := by
  induction l generalizing q with
  | nil => simp [sweep]
  | cons a l ih =>
    by_cases h : eligible a
    · rcases lt_trichotomy (size a) q with hq | hq | hq
      · rw [sweep_of_lt size reduce l h hq]
        intro fill hfill
        rcases List.mem_cons.mp hfill with rfl | hfill
        · exact le_rfl
        · exact ih _ fill hfill
      · simp [sweep_of_eq size reduce l h hq, hq]
      · simp [sweep_of_gt size reduce l h hq, hq.le]
    · simp [sweep_of_not size reduce l h]

/-- What is left over is the part of the amount that nobody gives. -/
theorem left_sweep (q : ℕ) (l : List α) :
    ∀ r ∈ (sweep size reduce eligible q l).left, r = q - offered size eligible l := by
  induction l generalizing q with
  | nil => simp [sweep, offered]
  | cons a l ih =>
    by_cases h : eligible a
    · rcases lt_trichotomy (size a) q with hq | hq | hq
      · rw [sweep_of_lt size reduce l h hq, offered_cons_of_pos size l h]
        intro r hr
        rw [ih _ r hr]
        omega
      · rw [sweep_of_eq size reduce l h hq]
        simp
      · rw [sweep_of_gt size reduce l h hq]
        simp
    · rw [sweep_of_not size reduce l h, offered_cons_of_neg size l h]
      simp

end TradingGateway.Common

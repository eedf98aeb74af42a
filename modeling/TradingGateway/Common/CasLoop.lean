import Mathlib

/-!
# Registers that keep an extreme value

Threads lower a shared register to the best of their values with a loop around
`compare_exchange_weak`, which may fail spuriously:

    expected = reg.load();
    while (value < expected && !reg.compare_exchange_weak(expected, value)) {}

What is better is decided by a key in a linear order: the smaller the key the
better, so that a maximum is a minimum of the dual order.

* `casStep`: one evaluation of the condition.
* `Extremum`: the register holds the initial value or that of a thread, and every
  value is no better than it or belongs to a thread whose loop has not ended.
* `Extremum.arrive`, `Extremum.load`, `Extremum.casStep`: the steps keep it.
* `Extremum.least`: when all loops have ended the register holds the best value.
-/

namespace TradingGateway.Common

variable {α β ι : Type*} [LinearOrder β] (key : α → β)

/-- One evaluation of the loop's condition: the register afterwards, and
    `expected` if the loop goes on. -/
def casStep [DecidableEq α] (spurious : Bool) (reg value expected : α) : α × Option α :=
  if key value < key expected then
    if reg = expected ∧ spurious = false then (value, none) else (reg, some reg)
  else (reg, none)

/-- What an evaluation can do, when the register is at least as good as
    `expected`: the value is stored, or it fails and is repeated, or there is no
    need to store the value. -/
theorem casStep_cases [DecidableEq α] {reg expected : α} (spurious : Bool) (value : α)
    (h : key reg ≤ key expected) :
    (casStep key spurious reg value expected = (value, none) ∧ key value < key reg) ∨
    (casStep key spurious reg value expected = (reg, some reg)) ∨
    (casStep key spurious reg value expected = (reg, none) ∧ key reg ≤ key value) := by
  unfold casStep
  split_ifs with hlt heq
  · left
    refine ⟨rfl, ?_⟩
    rw [heq.1]
    exact hlt
  · right; left
    rfl
  · right; right
    exact ⟨rfl, h.trans (not_lt.mp hlt)⟩

/-- `reg` holds the best of `init` and `values`, but for those values that
    `waiting` threads have still to offer. A thread in its loop `expected` a value
    that is no better than what the register holds. -/
structure Extremum (init reg : α) (values : List α) (waiting expected : ι → Option α) :
    Prop where
  le_init : key reg ≤ key init
  mem : reg = init ∨ reg ∈ values
  le : ∀ v ∈ values, key reg ≤ key v ∨ ∃ t, waiting t = some v
  le_expected : ∀ t c, expected t = some c → key reg ≤ key c

namespace Extremum

variable {key} {init reg : α} {values : List α} {waiting expected : ι → Option α}

theorem initial : Extremum key init init [] (fun _ : ι => none) (fun _ => none) where
  le_init := le_rfl
  mem := .inl rfl
  le v hv := absurd hv List.not_mem_nil
  le_expected t c hc := by cases hc

/-- When no thread waits, the register holds the best value. -/
theorem least (h : Extremum key init reg values waiting expected) (hw : ∀ t, waiting t = none) :
    (∀ v ∈ values, key reg ≤ key v) ∧ (reg = init ∨ reg ∈ values) := by
  refine ⟨?_, h.mem⟩
  intro v hv
  rcases h.le v hv with hle | ⟨t, ht⟩
  · exact hle
  · rw [hw t] at ht
    cases ht

/-- A thread stores its value. -/
theorem store (h : Extremum key init reg values waiting expected) {v : α} (hv : v ∈ values)
    (hlt : key v < key reg) : Extremum key init v values waiting expected where
  le_init := hlt.le.trans h.le_init
  mem := .inr hv
  le u hu := (h.le u hu).imp_left hlt.le.trans
  le_expected t c hc := hlt.le.trans (h.le_expected t c hc)

variable [DecidableEq ι] {t : ι} {v : α}

/-- A thread gets a value. -/
theorem arrive (h : Extremum key init reg values waiting expected) (hw : waiting t = none)
    (v : α) :
    Extremum key init reg (values ++ [v]) (Function.update waiting t (some v)) expected where
  le_init := h.le_init
  mem := h.mem.imp_right (List.mem_append_left _)
  le u hu := by
    rcases List.mem_append.mp hu with hu | hu
    · rcases h.le u hu with hle | ⟨t', ht'⟩
      · exact .inl hle
      · refine .inr ⟨t', ?_⟩
        have hne : t' ≠ t := by
          rintro rfl
          rw [hw] at ht'
          cases ht'
        rw [Function.update_of_ne hne, ht']
    · rw [List.mem_singleton.mp hu]
      exact .inr ⟨t, Function.update_self ..⟩
  le_expected := h.le_expected

/-- It reads the register. -/
theorem load (h : Extremum key init reg values waiting expected) (t : ι) :
    Extremum key init reg values waiting (Function.update expected t (some reg)) where
  le_init := h.le_init
  mem := h.mem
  le := h.le
  le_expected t' c hc := by
    by_cases ht : t' = t
    · subst ht
      rw [Function.update_self, Option.some.injEq] at hc
      rw [hc]
    · rw [Function.update_of_ne ht] at hc
      exact h.le_expected t' c hc

/-- It leaves its loop, with a register that is at least as good as its value. -/
theorem leave (h : Extremum key init reg values waiting expected) (hw : waiting t = some v)
    (hle : key reg ≤ key v) :
    Extremum key init reg values (Function.update waiting t none)
      (Function.update expected t none) where
  le_init := h.le_init
  mem := h.mem
  le u hu := by
    rcases h.le u hu with hle' | ⟨t', ht'⟩
    · exact .inl hle'
    · by_cases ht : t' = t
      · subst ht
        rw [hw, Option.some.injEq] at ht'
        exact .inl (ht' ▸ hle)
      · exact .inr ⟨t', by rw [Function.update_of_ne ht, ht']⟩
  le_expected t' c hc := by
    by_cases ht : t' = t
    · subst ht
      rw [Function.update_self] at hc
      cases hc
    · rw [Function.update_of_ne ht] at hc
      exact h.le_expected t' c hc

/-- It evaluates the condition of its loop, and leaves the loop if it is false. -/
theorem casStep [DecidableEq α] (h : Extremum key init reg values waiting expected)
    (hw : waiting t = some v) (hv : v ∈ values) {c : α} (hc : expected t = some c)
    (spurious : Bool) :
    Extremum key init (Common.casStep key spurious reg v c).1 values
      (Function.update waiting t
        (if (Common.casStep key spurious reg v c).2 = none then none else some v))
      (Function.update expected t (Common.casStep key spurious reg v c).2) := by
  rcases casStep_cases key spurious v (h.le_expected t c hc) with
    ⟨heq, hlt⟩ | heq | ⟨heq, hle⟩
  · rw [heq, if_pos rfl]
    exact (h.store hv hlt).leave hw le_rfl
  · rw [heq, if_neg (by simp), ← hw, Function.update_eq_self]
    exact h.load t
  · rw [heq, if_pos rfl]
    exact h.leave hw hle

end Extremum

end TradingGateway.Common

import Mathlib

/-!
# Runs of deterministic machines

A `Machine` has an initial state and consumes one input per step. Everything
that is claimed "for every finite sequence of inputs" is a statement about
`Machine.after`.

* `after_induction`: an invariant of every step holds after every run.
* `after_of_guarded`: the same for runs whose steps all meet a guard.
* `forall_prefix_iff_guarded`: if a step keeps `P` exactly when it meets the
  guard, then `P` holds all along a run exactly when every step of it does.
* `guarded_congr`: two guards that agree under an invariant are met by the same
  runs.
* `total_eq_sub`: a quantity whose change at each step is known is the sum of
  these changes.
* `collect`: the outputs of the steps of a run, in order.
* `simulation`: a machine that is given the outputs of another follows it.
-/

namespace TradingGateway.Common

variable {σ ι : Type*}

/-- A deterministic machine over states `σ` and inputs `ι`. -/
structure Machine (σ ι : Type*) where
  init : σ
  step : σ → ι → σ

namespace Machine

variable (M : Machine σ ι)

/-- The state after the inputs `is`. -/
def after (is : List ι) : σ := is.foldl M.step M.init

@[simp] theorem after_nil : M.after [] = M.init := rfl

@[simp] theorem after_concat (is : List ι) (i : ι) :
    M.after (is ++ [i]) = M.step (M.after is) i := by
  simp [after]

theorem after_append (is js : List ι) : M.after (is ++ js) = js.foldl M.step (M.after is) :=
  List.foldl_append

/-- The state before step `n` of the run `is`. -/
def before (is : List ι) (n : ℕ) : σ := M.after (is.take n)

/-- It does not change when the run goes on. -/
theorem before_concat {is : List ι} {n : ℕ} (h : n ≤ is.length) (i : ι) :
    M.before (is ++ [i]) n = M.before is n := by
  rw [before, List.take_append_of_le_length h]
  rfl

theorem before_length (is : List ι) (i : ι) :
    M.before (is ++ [i]) is.length = M.after is := by
  rw [before, List.take_left]

/-- Every step of the run `is` meets the guard `G`. -/
def Guarded (G : σ → ι → Prop) (is : List ι) : Prop :=
  ∀ pre i, pre ++ [i] <+: is → G (M.after pre) i

theorem guarded_nil (G : σ → ι → Prop) : M.Guarded G [] := by
  intro pre i h
  simp at h

theorem guarded_concat {G : σ → ι → Prop} {is : List ι} {i : ι} :
    M.Guarded G (is ++ [i]) ↔ M.Guarded G is ∧ G (M.after is) i := by
  constructor
  · intro h
    exact ⟨fun pre j hj => h pre j (hj.trans (List.prefix_append _ _)), h is i List.prefix_rfl⟩
  · rintro ⟨h, hi⟩ pre j hj
    rcases List.prefix_concat_iff.mp hj with heq | hpre
    · obtain ⟨rfl, hji⟩ := List.append_inj' heq rfl
      cases hji
      exact hi
    · exact h pre j hpre

/-- `Guarded` for a run that starts in `s`, step by step. -/
def GuardedFrom (G : σ → ι → Prop) : σ → List ι → Prop
  | _, [] => True
  | s, i :: is => G s i ∧ GuardedFrom G (M.step s i) is

theorem guardedFrom_concat {G : σ → ι → Prop} (is : List ι) (i : ι) (s : σ) :
    M.GuardedFrom G s (is ++ [i]) ↔ M.GuardedFrom G s is ∧ G (is.foldl M.step s) i := by
  induction is generalizing s with
  | nil => simp [GuardedFrom]
  | cons j is ih => simp [GuardedFrom, ih, and_assoc]

theorem guarded_iff_guardedFrom {G : σ → ι → Prop} (is : List ι) :
    M.Guarded G is ↔ M.GuardedFrom G M.init is := by
  induction is using List.reverseRecOn with
  | nil => exact ⟨fun _ => trivial, fun _ => M.guarded_nil G⟩
  | append_singleton is i ih => rw [guarded_concat, guardedFrom_concat, ih, after]

instance decidableGuardedFrom {G : σ → ι → Prop} [∀ s i, Decidable (G s i)] :
    ∀ (s : σ) (is : List ι), Decidable (M.GuardedFrom G s is)
  | _, [] => .isTrue trivial
  | s, i :: is =>
    have : Decidable (M.GuardedFrom G (M.step s i) is) := decidableGuardedFrom (M.step s i) is
    inferInstanceAs (Decidable (G s i ∧ M.GuardedFrom G (M.step s i) is))

instance {G : σ → ι → Prop} [∀ s i, Decidable (G s i)] (is : List ι) :
    Decidable (M.Guarded G is) :=
  decidable_of_iff _ (M.guarded_iff_guardedFrom is).symm

/-! ## Invariants -/

theorem after_of_guarded {P : σ → Prop} {G : σ → ι → Prop} (h0 : P M.init)
    (hs : ∀ s i, P s → G s i → P (M.step s i)) :
    ∀ is, M.Guarded G is → P (M.after is) := by
  intro is
  induction is using List.reverseRecOn with
  | nil => intro _; exact h0
  | append_singleton is i ih =>
    intro hg
    obtain ⟨hg, hi⟩ := M.guarded_concat.mp hg
    rw [after_concat]
    exact hs _ _ (ih hg) hi

theorem after_induction {P : σ → Prop} (h0 : P M.init) (hs : ∀ s i, P s → P (M.step s i))
    (is : List ι) : P (M.after is) :=
  M.after_of_guarded (G := fun _ _ => True) h0 (fun s i h _ => hs s i h) is
    (fun _ _ _ => trivial)

/-- If, under the invariant `Q`, a step keeps `P` exactly when it meets the
    guard `G`, then `P` holds after every prefix of a run exactly when every
    step of the run meets `G`. -/
theorem forall_prefix_iff_guarded {P Q : σ → Prop} {G : σ → ι → Prop} (h0 : P M.init)
    (hQ : ∀ is, Q (M.after is)) (hs : ∀ s i, Q s → P s → (P (M.step s i) ↔ G s i)) (is : List ι) :
    (∀ pre, pre <+: is → P (M.after pre)) ↔ M.Guarded G is := by
  constructor
  · intro h pre i hpre
    have hP := h pre ((List.prefix_append _ _).trans hpre)
    have hP' := h (pre ++ [i]) hpre
    rw [after_concat] at hP'
    exact (hs _ _ (hQ pre) hP).mp hP'
  · intro hg pre hpre
    have hg' : M.Guarded G pre := fun p i hp => hg p i (hp.trans hpre)
    refine (M.after_of_guarded (P := fun s => Q s ∧ P s)
      (G := fun s i => G s i ∧ Q (M.step s i)) ⟨hQ [], h0⟩ ?_ pre ?_).2
    · rintro s i ⟨hq, hp⟩ ⟨hgi, hq'⟩
      exact ⟨hq', (hs s i hq hp).mpr hgi⟩
    · intro p i hp
      exact ⟨hg' p i hp, by rw [← after_concat]; exact hQ _⟩

/-- Two guards that agree wherever the invariant `P` holds, and one of which
    keeps `P`, are met by the same runs. `R` restricts the inputs. -/
theorem guarded_congr {P : σ → Prop} {R : ι → Prop} {A B : σ → ι → Prop} (h0 : P M.init)
    (hs : ∀ s i, P s → R i → (A s i ↔ B s i) ∧ (B s i → P (M.step s i))) (is : List ι)
    (hR : ∀ i ∈ is, R i) : M.Guarded A is ↔ M.Guarded B is := by
  suffices h : (M.Guarded A is ↔ M.Guarded B is) ∧ (M.Guarded B is → P (M.after is)) from h.1
  induction is using List.reverseRecOn with
  | nil => exact ⟨⟨fun _ => M.guarded_nil B, fun _ => M.guarded_nil A⟩, fun _ => h0⟩
  | append_singleton is i ih =>
    obtain ⟨hiff, hP⟩ := ih fun j hj => hR j (List.mem_append_left _ hj)
    have hi : R i := hR i (by simp)
    rw [guarded_concat, guarded_concat, hiff, after_concat]
    refine ⟨and_congr_right fun hB => (hs _ i (hP hB) hi).1, ?_⟩
    rintro ⟨hB, hBi⟩
    exact (hs _ i (hP hB) hi).2 hBi

/-! ## Totals along a run -/

/-- The sum of `w` over the steps of the run `is` that starts in `s`. -/
def totalFrom (w : σ → ι → ℤ) : σ → List ι → ℤ
  | _, [] => 0
  | s, i :: is => w s i + totalFrom w (M.step s i) is

/-- The sum of `w` over the steps of the run `is`. -/
def total (w : σ → ι → ℤ) (is : List ι) : ℤ := M.totalFrom w M.init is

theorem totalFrom_concat (w : σ → ι → ℤ) (s : σ) (is : List ι) (i : ι) :
    M.totalFrom w s (is ++ [i]) = M.totalFrom w s is + w (is.foldl M.step s) i := by
  induction is generalizing s with
  | nil => simp [totalFrom]
  | cons j is ih => simp [totalFrom, ih, add_assoc]

@[simp] theorem total_nil (w : σ → ι → ℤ) : M.total w [] = 0 := rfl

@[simp] theorem total_concat (w : σ → ι → ℤ) (is : List ι) (i : ι) :
    M.total w (is ++ [i]) = M.total w is + w (M.after is) i :=
  M.totalFrom_concat w M.init is i

/-- Accounting rule: if, under the invariant `Q`, `w` is the change of `Φ` at
    every step, then the sum of `w` over a run is the change of `Φ` over the
    run. -/
theorem total_eq_sub {Q : σ → Prop} {Φ : σ → ℤ} {w : σ → ι → ℤ} (hQ : ∀ is, Q (M.after is))
    (hw : ∀ s i, Q s → Φ (M.step s i) = Φ s + w s i) (is : List ι) :
    M.total w is = Φ (M.after is) - Φ M.init := by
  induction is using List.reverseRecOn with
  | nil => simp
  | append_singleton is i ih =>
    rw [total_concat, after_concat, hw _ _ (hQ is), ih]
    ring

theorem total_add (w w' : σ → ι → ℤ) (is : List ι) :
    M.total (fun s i => w s i + w' s i) is = M.total w is + M.total w' is := by
  induction is using List.reverseRecOn with
  | nil => simp
  | append_singleton is i ih =>
    simp only [total_concat, ih]
    ring

theorem total_neg (w : σ → ι → ℤ) (is : List ι) :
    M.total (fun s i => -w s i) is = -M.total w is := by
  induction is using List.reverseRecOn with
  | nil => simp
  | append_singleton is i ih =>
    simp only [total_concat, ih]
    ring

/-! ## Outputs along a run -/

section Collect

variable {ω : Type*} (out : σ → ι → List ω)

/-- The outputs of the steps of the run `is` that starts in `s`. -/
def collectFrom : σ → List ι → List ω
  | _, [] => []
  | s, i :: is => out s i ++ collectFrom (M.step s i) is

/-- The outputs of the steps of the run `is`. -/
def collect (is : List ι) : List ω := M.collectFrom out M.init is

theorem collectFrom_concat (s : σ) (is : List ι) (i : ι) :
    M.collectFrom out s (is ++ [i]) = M.collectFrom out s is ++ out (is.foldl M.step s) i := by
  induction is generalizing s with
  | nil => simp [collectFrom]
  | cons j is ih => simp [collectFrom, ih]

theorem collectFrom_append (s : σ) (is js : List ι) :
    M.collectFrom out s (is ++ js) =
      M.collectFrom out s is ++ M.collectFrom out (is.foldl M.step s) js := by
  induction is generalizing s with
  | nil => rfl
  | cons i is ih => simp [collectFrom, ih]

theorem collect_append (is js : List ι) :
    M.collect out (is ++ js) = M.collect out is ++ M.collectFrom out (M.after is) js :=
  M.collectFrom_append out M.init is js

@[simp] theorem collect_nil : M.collect out [] = [] := rfl

@[simp] theorem collect_concat (is : List ι) (i : ι) :
    M.collect out (is ++ [i]) = M.collect out is ++ out (M.after is) i :=
  M.collectFrom_concat out M.init is i

/-- An output of a run is one of a step of it. -/
theorem mem_collect {x : ω} {is : List ι} :
    x ∈ M.collect out is ↔ ∃ pre i, pre ++ [i] <+: is ∧ x ∈ out (M.after pre) i := by
  induction is using List.reverseRecOn with
  | nil => simp
  | append_singleton is i ih =>
    rw [collect_concat, List.mem_append, ih]
    constructor
    · rintro (⟨pre, j, hpre, hx⟩ | hx)
      · exact ⟨pre, j, hpre.trans (List.prefix_append _ _), hx⟩
      · exact ⟨is, i, List.prefix_rfl, hx⟩
    · rintro ⟨pre, j, hpre, hx⟩
      rcases List.prefix_concat_iff.mp hpre with heq | hpre
      · obtain ⟨rfl, hji⟩ := List.append_inj' heq rfl
        cases hji
        exact .inr hx
      · exact .inl ⟨pre, j, hpre, hx⟩

/-- Simulation with stuttering: if each step of `M` is followed by `N` with the
    inputs that it puts out, then `N` follows every run of `M`. -/
theorem simulation {τ κ : Type*} {N : Machine τ κ} {R : σ → τ → Prop} {emit : σ → ι → List κ}
    (h0 : R M.init N.init)
    (hs : ∀ s t i, R s t → R (M.step s i) ((emit s i).foldl N.step t)) (is : List ι) :
    R (M.after is) (N.after (M.collect emit is)) := by
  induction is using List.reverseRecOn with
  | nil => exact h0
  | append_singleton is i ih =>
    rw [after_concat, collect_concat, after_append]
    exact hs _ _ i ih

end Collect

end Machine

end TradingGateway.Common

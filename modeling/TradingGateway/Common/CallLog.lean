import Mathlib

/-!
# Calls that enter items in a log

An account of concurrent calls, apart from what they operate on. Threads make
calls, each with a value; a call may enter its item in a log, once, and reports
on its return whether it has. Calls are numbered in the order in which they are
made.

* `Wf.step`: every item of the log is that of a call which has not reported
  failure, no call has two, and a call that has reported success has one.
* `InOrder.step`: if there is one thread, the log is the list of the calls that
  have not failed, without the one in progress when that has not entered its
  item yet.
-/

namespace TradingGateway.Common

variable {ι α : Type*}

/-- The item of the call with number `call`. -/
structure Item (α : Type*) where
  call : ℕ
  value : α

/-- The call each thread is in, the values of all calls, the reports of those
    that have returned, and the log. -/
structure CallLog (ι α : Type*) where
  current : ι → Option (Item α)
  calls : List α
  outcome : ℕ → Option Bool
  log : List (Item α)

namespace CallLog

/-- The numbers of the calls that have entered their item. -/
def entered (L : CallLog ι α) : List ℕ := L.log.map Item.call

/-- The calls that have not reported failure, each with its number. -/
def kept (L : CallLog ι α) : List (α × ℕ) :=
  L.calls.zipIdx.filter fun p => L.outcome p.2 ≠ some false

/-- What may happen to the account. -/
inductive Step [DecidableEq ι] (L : CallLog ι α) : CallLog ι α → Prop
  | stay : Step L L
  | call (t : ι) (v : α) (hidle : L.current t = none) :
      Step L { L with
        current := Function.update L.current t (some ⟨L.calls.length, v⟩)
        calls := L.calls ++ [v] }
  | enter (t : ι) (x : Item α) (hcur : L.current t = some x) (hnew : x.call ∉ L.entered) :
      Step L { L with log := L.log ++ [x] }
  | report (t : ι) (x : Item α) (ok : Bool) (hcur : L.current t = some x)
      (hok : ok = true ↔ x.call ∈ L.entered) :
      Step L { L with
        current := Function.update L.current t none
        outcome := Function.update L.outcome x.call (some ok) }

structure Wf (L : CallLog ι α) : Prop where
  current : ∀ t x, L.current t = some x → L.calls[x.call]? = some x.value ∧ L.outcome x.call = none
  distinct : ∀ t u x y, L.current t = some x → L.current u = some y → x.call = y.call → t = u
  log : ∀ x ∈ L.log, L.calls[x.call]? = some x.value ∧ L.outcome x.call ≠ some false
  nodup : L.entered.Nodup
  accepted : ∀ k, L.outcome k = some true → k ∈ L.entered
  fresh : ∀ k, L.calls.length ≤ k → L.outcome k = none

theorem wf_empty : Wf (⟨fun _ => none, [], fun _ => none, []⟩ : CallLog ι α) := by
  constructor <;> simp [entered]

theorem Wf.current_lt {L : CallLog ι α} (h : L.Wf) {t : ι} {x : Item α}
    (hx : L.current t = some x) : x.call < L.calls.length :=
  (List.getElem?_eq_some_iff.mp (h.current t x hx).1).1

theorem Wf.entered_lt {L : CallLog ι α} (h : L.Wf) {k : ℕ} (hk : k ∈ L.entered) :
    k < L.calls.length := by
  obtain ⟨x, hx, rfl⟩ := List.mem_map.mp hk
  exact (List.getElem?_eq_some_iff.mp (h.log x hx).1).1

theorem Wf.enter {L : CallLog ι α} (h : L.Wf) {t : ι} {x : Item α} (hcur : L.current t = some x)
    (hnew : x.call ∉ L.entered) : Wf { L with log := L.log ++ [x] } where
  current := h.current
  distinct := h.distinct
  log y hy := by
    rcases List.mem_append.mp hy with hy | hy
    · exact h.log y hy
    · obtain rfl := List.mem_singleton.mp hy
      obtain ⟨hval, hout⟩ := h.current t y hcur
      exact ⟨hval, by simp [hout]⟩
  nodup := by
    have := h.nodup.concat hnew
    simpa [entered] using this
  accepted k hk := by
    simp only [entered, List.map_append]
    exact List.mem_append_left _ (h.accepted k hk)
  fresh := h.fresh

variable [DecidableEq ι]

theorem Wf.call {L : CallLog ι α} (h : L.Wf) {t : ι} (v : α) :
    Wf { L with
      current := Function.update L.current t (some ⟨L.calls.length, v⟩)
      calls := L.calls ++ [v] } where
  current u x hx := by
    by_cases hut : u = t
    · subst hut
      simp only [Function.update_self, Option.some.injEq] at hx
      subst hx
      exact ⟨by simp, h.fresh _ le_rfl⟩
    · simp only [Function.update_of_ne hut] at hx
      refine ⟨?_, (h.current u x hx).2⟩
      rw [List.getElem?_append_left (h.current_lt hx)]
      exact (h.current u x hx).1
  distinct u w x y hx hy hxy := by
    -- the number of the new call is that of no other call
    have hnew : ∀ {z : ι} {x : Item α}, L.current z = some x → x.call ≠ L.calls.length :=
      fun hz => (h.current_lt hz).ne
    by_cases hut : u = t <;> by_cases hwt : w = t
    · rw [hut, hwt]
    · subst hut
      simp only [Function.update_self, Option.some.injEq, Function.update_of_ne hwt] at hx hy
      subst hx
      exact absurd hxy.symm (hnew hy)
    · subst hwt
      simp only [Function.update_self, Option.some.injEq, Function.update_of_ne hut] at hx hy
      subst hy
      exact absurd hxy (hnew hx)
    · simp only [Function.update_of_ne hut, Function.update_of_ne hwt] at hx hy
      exact h.distinct u w x y hx hy hxy
  log x hx := by
    refine ⟨?_, (h.log x hx).2⟩
    rw [List.getElem?_append_left (h.entered_lt (List.mem_map_of_mem hx))]
    exact (h.log x hx).1
  nodup := h.nodup
  accepted := h.accepted
  fresh k hk := h.fresh k (by simp only [List.length_append, List.length_singleton] at hk; omega)

theorem Wf.report {L : CallLog ι α} (h : L.Wf) {t : ι} {x : Item α} {ok : Bool}
    (hcur : L.current t = some x) (hok : ok = true ↔ x.call ∈ L.entered) :
    Wf { L with
      current := Function.update L.current t none
      outcome := Function.update L.outcome x.call (some ok) } where
  current u y hy := by
    have hut : u ≠ t := by rintro rfl; simp at hy
    simp only [Function.update_of_ne hut] at hy
    have hne : y.call ≠ x.call := fun e => hut (h.distinct u t y x hy hcur e)
    simpa [Function.update_of_ne hne] using h.current u y hy
  distinct u w y z hy hz := by
    have hut : u ≠ t := by rintro rfl; simp at hy
    have hwt : w ≠ t := by rintro rfl; simp at hz
    simp only [Function.update_of_ne hut, Function.update_of_ne hwt] at hy hz
    exact h.distinct u w y z hy hz
  log y hy := by
    refine ⟨(h.log y hy).1, ?_⟩
    by_cases hyx : y.call = x.call
    · -- only a call without an item in the log reports failure
      have hin : x.call ∈ L.entered := hyx ▸ List.mem_map_of_mem hy
      simp [hyx, hok.mpr hin]
    · simpa [Function.update_of_ne hyx] using (h.log y hy).2
  nodup := h.nodup
  accepted k hk := by
    by_cases hkx : k = x.call
    · subst hkx
      simp only [Function.update_self, Option.some.injEq] at hk
      exact hok.mp hk
    · simp only [Function.update_of_ne hkx] at hk
      exact h.accepted k hk
  fresh k hk := by
    have hne : k ≠ x.call := by
      have := h.current_lt hcur
      dsimp only at hk
      omega
    simpa [Function.update_of_ne hne] using h.fresh k hk

theorem Wf.step {L L' : CallLog ι α} (h : L.Wf) (hs : L.Step L') : L'.Wf := by
  cases hs with
  | stay => exact h
  | call t v _ => exact h.call v
  | enter t x hcur hnew => exact h.enter hcur hnew
  | report t x ok hcur hok => exact h.report hcur hok

/-! ## One thread -/

/-- The item with its value first, as in `kept`. -/
def entry (x : Item α) : α × ℕ := (x.value, x.call)

/-- The item of the call in progress, when the log does not have it. -/
def pending (L : CallLog Unit α) : List (Item α) :=
  (L.current ()).toList.filter fun x => x.call ∉ L.entered

/-- The calls that have not failed are those of the log, in this order, and
    then the pending one. -/
def InOrder (L : CallLog Unit α) : Prop := L.kept = (L.log ++ L.pending).map entry

theorem InOrder.call {L : CallLog Unit α} (hwf : L.Wf) (h : L.InOrder) {t : Unit} (v : α)
    (hidle : L.current t = none) :
    InOrder { L with
      current := Function.update L.current t (some ⟨L.calls.length, v⟩)
      calls := L.calls ++ [v] } := by
  have hnew : L.calls.length ∉ L.entered := fun hin => (hwf.entered_lt hin).ne rfl
  have hkept : L.kept = L.log.map entry := by simpa [InOrder, pending, hidle] using h
  have hpending : pending { L with
      current := Function.update L.current t (some ⟨L.calls.length, v⟩)
      calls := L.calls ++ [v] } = [⟨L.calls.length, v⟩] := by
    simpa [pending, entered] using hnew
  rw [InOrder, hpending]
  simp only [kept, List.zipIdx_append, List.filter_append, List.map_append] at hkept ⊢
  rw [hkept]
  simp [hwf.fresh _ le_rfl, entry]

theorem InOrder.enter {L : CallLog Unit α} (h : L.InOrder) {t : Unit} {x : Item α}
    (hcur : L.current t = some x) (hnew : x.call ∉ L.entered) :
    InOrder { L with log := L.log ++ [x] } := by
  have hpending : L.pending = [x] := by simpa [pending, hcur] using hnew
  have hpending' : pending { L with log := L.log ++ [x] } = [] := by
    simp [pending, hcur, entered]
  rw [InOrder, hpending] at h
  rw [InOrder, hpending', List.append_nil]
  exact h

theorem InOrder.report {L : CallLog Unit α} (hwf : L.Wf) (h : L.InOrder) {t : Unit} {x : Item α}
    {ok : Bool} (hcur : L.current t = some x) (hok : ok = true ↔ x.call ∈ L.entered) :
    InOrder { L with
      current := Function.update L.current t none
      outcome := Function.update L.outcome x.call (some ok) } := by
  have hkept : kept { L with
      current := Function.update L.current t none
      outcome := Function.update L.outcome x.call (some ok) } =
      L.kept.filter fun p => ok ∨ p.2 ≠ x.call := by
    simp only [kept, List.filter_filter]
    apply List.filter_congr
    intro p _
    by_cases hp : p.2 = x.call
    · simp [hp, (hwf.current t x hcur).2]
    · simp [hp]
  have hpending : pending { L with
      current := Function.update L.current t none
      outcome := Function.update L.outcome x.call (some ok) } = [] := by
    simp [pending]
  rw [InOrder, hkept, hpending, List.append_nil, show L.kept = _ from h]
  cases ok with
  | true =>
    have : L.pending = [] := by simpa [pending, hcur] using hok
    simp [this]
  | false =>
    have hx : x.call ∉ L.entered := by simpa using hok
    have : L.pending = [x] := by simpa [pending, hcur] using hx
    rw [this, List.map_append, List.filter_append]
    simp only [Bool.false_eq_true, false_or, List.map_cons, List.map_nil]
    rw [List.filter_eq_self.mpr, List.filter_eq_nil_iff.mpr, List.append_nil]
    · simp [entry]
    · intro p hp
      obtain ⟨y, hy, rfl⟩ := List.mem_map.mp hp
      have hne : y.call ≠ x.call := fun e => hx (e ▸ List.mem_map_of_mem hy)
      simp [entry, hne]

theorem InOrder.step {L L' : CallLog Unit α} (hwf : L.Wf) (h : L.InOrder) (hs : L.Step L') :
    L'.InOrder := by
  cases hs with
  | stay => exact h
  | call t v hidle => exact h.call hwf v hidle
  | enter t x hcur hnew => exact h.enter hcur hnew
  | report t x ok hcur hok => exact h.report hwf hcur hok

theorem inOrder_empty : InOrder (⟨fun _ => none, [], fun _ => none, []⟩ : CallLog Unit α) := by
  simp [InOrder, kept, pending]

end CallLog

end TradingGateway.Common

import Mathlib

/-!
# Custody

Parties hold things: each at most one, and no thing is held by two.

* `Custody`: what is held, and by whom.
* `Custody.acquire`, `Custody.release`, `Custody.pass`: a party takes a thing, gives
  it back, or passes it on.
* `Custody.eq_empty`: when nobody holds anything, nothing is held.
-/

namespace TradingGateway.Common

variable {ο δ : Type*}

/-- The things in `held` are those that the parties hold, and each has one holder. -/
structure Custody (held : Finset δ) (holds : ο → Option δ) : Prop where
  mem_iff : ∀ d, d ∈ held ↔ ∃ o, holds o = some d
  unique : ∀ {o o' d}, holds o = some d → holds o' = some d → o = o'

namespace Custody

variable {held : Finset δ} {holds : ο → Option δ} {o o' : ο} {d : δ}

theorem mem (h : Custody held holds) (ho : holds o = some d) : d ∈ held :=
  (h.mem_iff d).mpr ⟨o, ho⟩

theorem initial : Custody (∅ : Finset δ) fun _ : ο => none where
  mem_iff d := by simp
  unique ho := by cases ho

theorem eq_empty (h : Custody held holds) (hnone : ∀ o, holds o = none) : held = ∅ := by
  rw [Finset.eq_empty_iff_forall_notMem]
  intro d hd
  obtain ⟨o, ho⟩ := (h.mem_iff d).mp hd
  rw [hnone o] at ho
  cases ho

variable [DecidableEq ο] [DecidableEq δ]

/-- A party takes a thing that nobody holds. -/
theorem acquire (h : Custody held holds) (hfree : holds o = none) (hd : d ∉ held) :
    Custody (insert d held) (Function.update holds o (some d)) where
  mem_iff e := by
    rw [Finset.mem_insert, h.mem_iff]
    constructor
    · rintro (rfl | ⟨o', ho'⟩)
      · exact ⟨o, Function.update_self ..⟩
      · refine ⟨o', ?_⟩
        rw [Function.update_of_ne, ho']
        rintro rfl
        rw [hfree] at ho'
        cases ho'
    · rintro ⟨o', ho'⟩
      by_cases ho : o' = o
      · subst ho
        rw [Function.update_self] at ho'
        exact .inl (Option.some.inj ho').symm
      · rw [Function.update_of_ne ho] at ho'
        exact .inr ⟨o', ho'⟩
  unique {a b e} ha hb := by
    by_cases hao : a = o <;> by_cases hbo : b = o
    · rw [hao, hbo]
    · subst hao
      rw [Function.update_self] at ha
      rw [Function.update_of_ne hbo] at hb
      exact absurd (Option.some.inj ha ▸ h.mem hb) hd
    · subst hbo
      rw [Function.update_self] at hb
      rw [Function.update_of_ne hao] at ha
      exact absurd (Option.some.inj hb ▸ h.mem ha) hd
    · rw [Function.update_of_ne hao] at ha
      rw [Function.update_of_ne hbo] at hb
      exact h.unique ha hb

/-- A party gives back what it holds. -/
theorem release (h : Custody held holds) (ho : holds o = some d) :
    Custody (held.erase d) (Function.update holds o none) where
  mem_iff e := by
    rw [Finset.mem_erase, h.mem_iff]
    constructor
    · rintro ⟨hne, o', ho'⟩
      refine ⟨o', ?_⟩
      rw [Function.update_of_ne, ho']
      rintro rfl
      exact hne (Option.some.inj (ho'.symm.trans ho))
    · rintro ⟨o', ho'⟩
      by_cases hoo : o' = o
      · subst hoo
        rw [Function.update_self] at ho'
        cases ho'
      · rw [Function.update_of_ne hoo] at ho'
        refine ⟨?_, o', ho'⟩
        rintro rfl
        exact hoo (h.unique ho' ho)
  unique {a b e} ha hb := by
    have hne : ∀ {c}, Function.update holds o none c = some e → holds c = some e := by
      intro c hc
      by_cases hco : c = o
      · subst hco
        rw [Function.update_self] at hc
        cases hc
      · rwa [Function.update_of_ne hco] at hc
    exact h.unique (hne ha) (hne hb)

/-- A party passes what it holds to one that holds nothing. -/
theorem pass (h : Custody held holds) (ho : holds o = some d) (ho' : holds o' = none) :
    Custody held (Function.update (Function.update holds o none) o' (some d)) := by
  have hfree : Function.update holds o none o' = none := by
    by_cases hoo : o' = o
    · rw [hoo, Function.update_self]
    · rw [Function.update_of_ne hoo, ho']
  have hpass := (h.release ho).acquire hfree (Finset.notMem_erase d held)
  rwa [Finset.insert_erase (h.mem ho)] at hpass

end Custody

end TradingGateway.Common

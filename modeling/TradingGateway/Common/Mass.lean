import Mathlib

/-!
# Weighted lists

`mass w p l` is the total weight of the elements of `l` that satisfy `p`.

* `mass_cons`, `mass_append`, `mass_perm`: how it is computed.
* `mass_eq_of_key`: lists that agree on the mass of every key agree on the mass
  of every set of keys.
-/

namespace TradingGateway.Common

variable {α κ : Type*} (w : α → ℕ)

/-- The total weight of the elements of `l` that satisfy `p`. -/
def mass (p : α → Prop) [DecidablePred p] (l : List α) : ℕ := ((l.filter p).map w).sum

section Predicate

variable (p : α → Prop) [DecidablePred p]

@[simp] theorem mass_nil : mass w p [] = 0 := rfl

theorem mass_cons (a : α) (l : List α) :
    mass w p (a :: l) = (if p a then w a else 0) + mass w p l := by
  unfold mass
  rw [List.filter_cons]
  split_ifs <;> simp_all

theorem mass_append (l l' : List α) : mass w p (l ++ l') = mass w p l + mass w p l' := by
  simp [mass]

variable {w p}

theorem mass_perm {l l' : List α} (h : l.Perm l') : mass w p l = mass w p l' :=
  ((h.filter _).map _).sum_eq

theorem mass_eq_zero {l : List α} (h : ∀ a ∈ l, ¬p a) : mass w p l = 0 := by
  have hnil : l.filter (fun a => decide (p a)) = [] := by
    rw [List.filter_eq_nil_iff]
    simpa using h
  unfold mass
  rw [hnil]
  rfl

/-- A mass splits where each weight does. -/
theorem mass_split {q r : α → Prop} [DecidablePred q] [DecidablePred r]
    (h : ∀ a, (if p a then w a else 0) = (if q a then w a else 0) + if r a then w a else 0)
    (l : List α) : mass w p l = mass w q l + mass w r l := by
  induction l with
  | nil => rfl
  | cons a l ih =>
    rw [mass_cons, mass_cons, mass_cons, ih, h]
    omega

end Predicate

/-! ## Keys -/

section Key

variable {w} [DecidableEq κ] (key : α → κ) (P : κ → Prop) [DecidablePred P]

theorem mass_eq_sum_key (l : List α) (K : Finset κ) (hK : ∀ a ∈ l, key a ∈ K) :
    mass w (fun a => P (key a)) l =
      ∑ k ∈ K, if P k then mass w (fun a => key a = k) l else 0 := by
  induction l with
  | nil => simp
  | cons a l ih =>
    rw [mass_cons, ih fun b hb => hK b (List.mem_cons_of_mem a hb)]
    have hsum : (∑ k ∈ K, if P k then (if key a = k then w a else 0) else 0) =
        if P (key a) then w a else 0 := by
      rw [Finset.sum_eq_single (key a)]
      · simp
      · intro k _ hk
        simp [Ne.symm hk]
      · intro hnot
        exact absurd (hK a List.mem_cons_self) hnot
    rw [← hsum, ← Finset.sum_add_distrib]
    apply Finset.sum_congr rfl
    intro k _
    rw [mass_cons]
    split_ifs <;> simp

/-- The mass of a set of keys is determined by the masses of the keys. -/
theorem mass_eq_of_key {l l' : List α}
    (h : ∀ k, mass w (fun a => key a = k) l = mass w (fun a => key a = k) l') :
    mass w (fun a => P (key a)) l = mass w (fun a => P (key a)) l' := by
  rw [mass_eq_sum_key key P l ((l ++ l').map key).toFinset,
    mass_eq_sum_key key P l' ((l ++ l').map key).toFinset]
  · simp only [h]
  · intro a ha
    simp only [List.map_append, List.mem_toFinset, List.mem_append, List.mem_map]
    exact .inr ⟨a, ha, rfl⟩
  · intro a ha
    simp only [List.map_append, List.mem_toFinset, List.mem_append, List.mem_map]
    exact .inl ⟨a, ha, rfl⟩

end Key

end TradingGateway.Common

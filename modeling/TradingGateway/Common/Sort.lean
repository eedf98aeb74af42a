import Mathlib

/-!
# The contract of `std::sort`

`std::sort(first, last, comp)` promises, for a comparator that is a strict weak
ordering, a permutation of its input that is sorted by the comparator. It
promises nothing about the relative order of equivalent elements. `StdSort`
bundles a sorting function with exactly this promise; different calls may use
different functions.

* `StdSort.perm_of_key`, `StdSort.sorted_of_key`: the promise for comparators
  that compare a key.
* `KeepsTies`: what a stable sort would promise in addition.
  `ties_pairwise_iff` relates it to the order of arrival.
* `StdSort.insertion`, `StdSort.reversing`: two functions with the promise, one
  that keeps equivalent elements in their order (`insertion_keepsTies`) and one
  that reverses them (`reversing_filter`).
-/

namespace TradingGateway.Common

variable {α β : Type*}

/-- A function that keeps the promise of `std::sort`. -/
structure StdSort (α : Type*) where
  run : (α → α → Bool) → List α → List α
  perm : ∀ lt, IsStrictWeakOrder α (fun a b => lt a b = true) → ∀ l, (run lt l).Perm l
  sorted : ∀ lt, IsStrictWeakOrder α (fun a b => lt a b = true) → ∀ l,
    (run lt l).Pairwise fun a b => lt b a = false

/-- Comparing a key is a strict weak ordering. -/
theorem isStrictWeakOrder_of_key [LinearOrder β] {lt : α → α → Bool} {key : α → β}
    (hlt : ∀ a b, lt a b = true ↔ key a < key b) :
    IsStrictWeakOrder α (fun a b => lt a b = true) where
  irrefl a := by rw [hlt]; exact lt_irrefl _
  trans a b c := by simp only [hlt]; exact lt_trans
  incomp_trans a b c := by
    simp only [hlt, not_lt]
    rintro ⟨h1, h2⟩ ⟨h3, h4⟩
    exact ⟨h3.trans h1, h2.trans h4⟩

namespace StdSort

section Key

variable [LinearOrder β] (S : StdSort α) {lt : α → α → Bool} {key : α → β}

theorem perm_of_key (hlt : ∀ a b, lt a b = true ↔ key a < key b) (l : List α) :
    (S.run lt l).Perm l :=
  S.perm lt (isStrictWeakOrder_of_key hlt) l

theorem sorted_of_key (hlt : ∀ a b, lt a b = true ↔ key a < key b) (l : List α) :
    (S.run lt l).Pairwise fun a b => key a ≤ key b := by
  refine (S.sorted lt (isStrictWeakOrder_of_key hlt) l).imp ?_
  intro a b hab
  rw [← Bool.not_eq_true, hlt] at hab
  exact not_lt.mp hab

end Key

/-! ## Two sorting functions -/

section Instances

variable {lt : α → α → Bool}

theorem total_of_strictWeak (h : IsStrictWeakOrder α (fun a b => lt a b = true)) :
    Std.Total fun a b : α => lt b a = false where
  total a b := by
    by_contra hc
    simp only [not_or, Bool.not_eq_false] at hc
    exact h.irrefl a (h.trans _ _ _ hc.2 hc.1)

theorem isTrans_of_strictWeak (h : IsStrictWeakOrder α (fun a b => lt a b = true)) :
    IsTrans α fun a b => lt b a = false where
  trans a b c := by
    simp only [← Bool.not_eq_true]
    intro hba hcb hca
    -- `c < a` forces `b` below `a` or above `c`
    by_cases hab : lt a b = true
    · exact hcb (h.trans _ _ _ hca hab)
    · by_cases hbc : lt b c = true
      · exact hba (h.trans _ _ _ hbc hca)
      · exact (h.incomp_trans a b c ⟨hab, hba⟩ ⟨hbc, hcb⟩).2 hca

/-- Insertion sort; equivalent elements keep their order. -/
def insertion : StdSort α where
  run lt l := l.insertionSort fun a b => lt b a = false
  perm _ _ l := List.perm_insertionSort _ l
  sorted lt h l := by
    have := total_of_strictWeak h
    have := isTrans_of_strictWeak h
    exact List.pairwise_insertionSort (fun a b => lt b a = false) l

/-- Insertion sort of the reversed list; equivalent elements are reversed. -/
def reversing : StdSort α where
  run lt l := insertion.run lt l.reverse
  perm lt h l := (insertion.perm lt h _).trans l.reverse_perm
  sorted lt h _ := insertion.sorted lt h _

end Instances

end StdSort

/-! ## Ties -/

/-- `r` has the elements of every key in the order in which `l` has them. -/
def KeepsTies [DecidableEq β] (key : α → β) (l r : List α) : Prop :=
  ∀ k, r.filter (fun a => key a = k) = l.filter (fun a => key a = k)

/-- `l` has the elements of every key in increasing order of `tag`. -/
def TiesBy (key : α → β) (tag : α → ℕ) (l : List α) : Prop :=
  l.Pairwise fun a b => key a = key b → tag a < tag b

instance [DecidableEq β] (key : α → β) (tag : α → ℕ) (l : List α) :
    Decidable (TiesBy key tag l) :=
  inferInstanceAs (Decidable (l.Pairwise fun a b => key a = key b → tag a < tag b))

theorem KeepsTies.of_injective {γ : Type*} [DecidableEq β] [DecidableEq γ] {key : α → β}
    {f : β → γ} {l r : List α} (hf : Function.Injective f)
    (h : KeepsTies (fun a => f (key a)) l r) : KeepsTies key l r := by
  intro k
  simpa [hf.eq_iff] using h (f k)

theorem TiesBy.sublist {key : α → β} {tag : α → ℕ} {l r : List α} (h : TiesBy key tag l)
    (hr : r.Sublist l) : TiesBy key tag r :=
  List.Pairwise.sublist hr h

theorem TiesBy.filter_pairwise [DecidableEq β] {key : α → β} {tag : α → ℕ} {l : List α}
    (h : TiesBy key tag l) (k : β) :
    (l.filter fun a => key a = k).Pairwise fun a b => tag a < tag b := by
  refine (h.sublist List.filter_sublist).imp_of_mem ?_
  intro a b ha hb hab
  simp only [List.mem_filter, decide_eq_true_eq] at ha hb
  exact hab (ha.2.trans hb.2.symm)

/-- A permutation of a list whose ties are in `tag` order has its ties in
    `tag` order exactly when it keeps them as they were. -/
theorem ties_pairwise_iff [DecidableEq β] {key : α → β} {tag : α → ℕ} {l r : List α}
    (hp : r.Perm l) (hl : TiesBy key tag l) : TiesBy key tag r ↔ KeepsTies key l r := by
  constructor
  · intro hr k
    refine List.Perm.eq_of_pairwise ?_ (hr.filter_pairwise k) (hl.filter_pairwise k) (hp.filter _)
    intro a b _ _ hab hba
    omega
  · intro hk
    refine List.pairwise_iff_forall_sublist.mpr ?_
    intro a b hab heq
    have hsub : [a, b].Sublist (r.filter fun c => key c = key b) := by
      have := hab.filter fun c => key c = key b
      simpa [heq] using this
    rw [hk] at hsub
    exact List.pairwise_iff_forall_sublist.mp hl (hsub.trans List.filter_sublist) heq

/-- Where no two elements have the same key, every permutation keeps the ties. -/
theorem KeepsTies.of_pairwise_ne [DecidableEq β] {key : α → β} {l r : List α} (hp : r.Perm l)
    (hl : l.Pairwise fun a b => key a ≠ key b) : KeepsTies key l r := by
  have hties : ∀ {m : List α}, m.Pairwise (fun a b => key a ≠ key b) →
      TiesBy key (fun _ => 0) m := fun hm => hm.imp fun hne heq => absurd heq hne
  have hr := (hp.pairwise_iff (R := fun a b => key a ≠ key b) fun h => h.symm).mpr hl
  exact (ties_pairwise_iff hp (hties hl)).mp (hties hr)

namespace StdSort

variable [LinearOrder β] {lt : α → α → Bool} {key : α → β}

theorem filter_orderedInsert (hlt : ∀ a b, lt a b = true ↔ key a < key b) (k : β) (a : α)
    (l : List α) :
    (l.orderedInsert (fun a b => lt b a = false) a).filter (fun b => key b = k) =
      (a :: l).filter fun b => key b = k := by
  induction l with
  | nil => rfl
  | cons b l ih =>
    rw [List.orderedInsert_cons]
    split_ifs with hab
    · rfl
    · -- `b` is smaller than `a`: it has another key than `a` and is passed over
      have hba : key b < key a := by rwa [Bool.not_eq_false, hlt] at hab
      rw [List.filter_cons, ih]
      by_cases hb : key b = k
      · have ha : key a ≠ k := fun h => absurd hba (by rw [hb, h]; exact lt_irrefl _)
        simp [hb, ha]
      · simp [List.filter_cons, hb]

/-- Insertion sort is stable. -/
theorem insertion_keepsTies (hlt : ∀ a b, lt a b = true ↔ key a < key b) (l : List α) :
    KeepsTies key l (insertion.run lt l) := by
  intro k
  induction l with
  | nil => rfl
  | cons a l ih =>
    rw [List.filter_cons, ← ih]
    refine (filter_orderedInsert hlt k a _).trans ?_
    rw [List.filter_cons]
    rfl

/-- The reversing sort turns every group of ties around. -/
theorem reversing_filter (hlt : ∀ a b, lt a b = true ↔ key a < key b) (l : List α) (k : β) :
    (reversing.run lt l).filter (fun b => key b = k) = (l.filter fun b => key b = k).reverse :=
  (insertion_keepsTies hlt l.reverse k).trans List.filter_reverse

end StdSort

end TradingGateway.Common

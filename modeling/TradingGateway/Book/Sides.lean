import TradingGateway.Book.Model

/-!
# The two sides of a book

Bids and asks are mirror images: a smaller `rank` is a better price on either
side. This module states the methods of `OrderBook` per side, so that every
later fact is proved once for both.

* `addOrder_side`, `cancelOrder_side`, `modifyOrder_side`: what each method does
  to a side.
* `Valid`: bids are buys, asks are sells, and both are sorted by price. Every
  method keeps it (`Valid.addOrder`, `Valid.cancelOrder`, `Valid.modifyOrder`;
  for `match` see `Valid.runMatch` in `Book.Match`).
-/

namespace TradingGateway.Book

open Common Message

namespace OrderBook

/-- A price as a cost: the better it is for side `s`, the smaller the cost. -/
def cost (s : Bool) (x : UInt64) : ℤ := if s then -(x.toNat : ℤ) else x.toNat

theorem cost_injective (s : Bool) : Function.Injective (cost s) := by
  intro x y h
  cases s <;> simpa [cost, UInt64.toNat_inj] using h

/-- The better an order of side `s` is priced, the smaller its rank. -/
def rank (s : Bool) (p : OrderPtr) : ℤ := cost s p.price

/-- The comparator of side `s`. -/
def before : Bool → OrderPtr → OrderPtr → Bool
  | true => bidBefore
  | false => askBefore

theorem before_iff (s : Bool) (a b : OrderPtr) : before s a b = true ↔ rank s a < rank s b := by
  cases s <;> simp [before, bidBefore, askBefore, rank, cost, UInt64.lt_iff_toNat_lt]

theorem rank_le_iff_bid {a b : OrderPtr} : rank true a ≤ rank true b ↔ b.price ≤ a.price := by
  simp [rank, cost, UInt64.le_iff_toNat_le]

theorem rank_le_iff_ask {a b : OrderPtr} : rank false a ≤ rank false b ↔ a.price ≤ b.price := by
  simp [rank, cost, UInt64.le_iff_toNat_le]

theorem rank_eq_iff {s : Bool} {a b : OrderPtr} : rank s a = rank s b ↔ a.price = b.price :=
  (cost_injective s).eq_iff

/-- The book with side `s` replaced by `l`. -/
def setSide (book : OrderBook) (s : Bool) (l : List OrderPtr) : OrderBook :=
  if s then { book with bids := l } else { book with asks := l }

@[simp] theorem side_setSide (book : OrderBook) (s t : Bool) (l : List OrderPtr) :
    (book.setSide s l).side t = if t = s then l else book.side t := by
  cases s <;> cases t <;> rfl

@[simp] theorem side_new (symbol : Symbol) (s : Bool) : (new symbol).side s = [] := by
  cases s <;> rfl

/-! ## The methods, side by side -/

theorem addOrder_side (S : StdSort OrderPtr) (book : OrderBook) (p : OrderPtr) (s : Bool) :
    (book.addOrder S p).side s =
      if s = p.isBuy then S.run (before s) (book.side s ++ [p]) else book.side s := by
  unfold addOrder
  cases s <;> cases hp : p.isBuy <;> simp [side, before]

theorem symbol_addOrder (S : StdSort OrderPtr) (book : OrderBook) (p : OrderPtr) :
    (book.addOrder S p).symbol = book.symbol := by
  unfold addOrder
  split_ifs <;> rfl

theorem addOrder_other_side (S : StdSort OrderPtr) (book : OrderBook) (p : OrderPtr) :
    (book.addOrder S p).side (!p.isBuy) = book.side (!p.isBuy) := by
  rw [addOrder_side, if_neg (by simp)]

/-- The side on which `cancel_order` and `modify_order` find an id: the bids
    if a bid has it, else the asks if an ask has it. -/
def sideOf (book : OrderBook) (orderId : UInt64) : Option Bool :=
  if book.bids.any (·.id = orderId) then some true
  else if book.asks.any (·.id = orderId) then some false
  else none

theorem cancelOrder_side (book : OrderBook) (orderId : UInt64) (s : Bool) :
    (book.cancelOrder orderId).2.side s =
      if book.sideOf orderId = some s then (book.side s).filter (·.id ≠ orderId)
      else book.side s := by
  unfold cancelOrder sideOf
  split_ifs <;> cases s <;> simp_all [side]

theorem findAndRemove_eq_some_iff {orderId : UInt64} {l l' : List OrderPtr} {p : OrderPtr} :
    findAndRemove orderId l = some (p, l') ↔
      ∃ l₁ l₂, l = l₁ ++ p :: l₂ ∧ l' = l₁ ++ l₂ ∧ p.id = orderId ∧ ∀ x ∈ l₁, x.id ≠ orderId := by
  simp only [findAndRemove, Option.map_eq_some_iff, Prod.mk.injEq]
  constructor
  · rintro ⟨q, hq, rfl, rfl⟩
    obtain ⟨hid, l₁, l₂, rfl, hl₁⟩ := List.find?_eq_some_iff_append.mp hq
    simp only [decide_eq_true_eq, Bool.not_eq_true', decide_eq_false_iff_not] at hid hl₁
    refine ⟨l₁, l₂, rfl, ?_, hid, hl₁⟩
    rw [List.eraseP_append_right _ (by simpa using hl₁),
      List.eraseP_cons_of_pos (by simpa using hid)]
  · rintro ⟨l₁, l₂, rfl, rfl, hid, hl₁⟩
    refine ⟨p, ?_, rfl, ?_⟩
    · exact List.find?_eq_some_iff_append.mpr
        ⟨by simpa using hid, l₁, l₂, rfl, by simpa using hl₁⟩
    · rw [List.eraseP_append_right _ (by simpa using hl₁),
        List.eraseP_cons_of_pos (by simpa using hid)]

theorem findAndRemove_eq_none_iff {orderId : UInt64} {l : List OrderPtr} :
    findAndRemove orderId l = none ↔ l.any (·.id = orderId) = false := by
  simp [findAndRemove]

/-- `modify_order` takes the first order with the id out of its side and adds
    it again with the new quantity and price; without such an order it does
    nothing. -/
theorem modifyOrder_cases (S : StdSort OrderPtr) (book : OrderBook) (orderId : UInt64)
    (q : UInt32) (x : UInt64) :
    (book.sideOf orderId = none ∧ (book.modifyOrder S orderId q x).2 = book) ∨
    ∃ s p l₁ l₂, book.sideOf orderId = some s ∧ book.side s = l₁ ++ p :: l₂ ∧
      p.id = orderId ∧ (∀ y ∈ l₁, y.id ≠ orderId) ∧
      (book.modifyOrder S orderId q x).2 =
        (book.setSide s (l₁ ++ l₂)).addOrder S ((p.setQuantity q.toUInt64).setPrice x) := by
  unfold modifyOrder sideOf
  dsimp only
  cases hb : findAndRemove orderId book.bids with
  | some r =>
    right
    obtain ⟨p, l'⟩ := r
    obtain ⟨l₁, l₂, hl, rfl, hid, hl₁⟩ := findAndRemove_eq_some_iff.mp hb
    refine ⟨true, p, l₁, l₂, ?_, hl, hid, hl₁, rfl⟩
    simp [hl, hid]
  | none =>
    rw [findAndRemove_eq_none_iff] at hb
    cases ha : findAndRemove orderId book.asks with
    | some r =>
      right
      obtain ⟨p, l'⟩ := r
      obtain ⟨l₁, l₂, hl, rfl, hid, hl₁⟩ := findAndRemove_eq_some_iff.mp ha
      refine ⟨false, p, l₁, l₂, ?_, hl, hid, hl₁, rfl⟩
      simp [hb, hl, hid]
    | none =>
      rw [findAndRemove_eq_none_iff] at ha
      left
      simp [hb, ha]

/-! ## Valid books -/

/-- Side `s` is sorted: bids by non-increasing, asks by non-decreasing price. -/
def SideSorted (s : Bool) (l : List OrderPtr) : Prop := l.Pairwise fun a b => rank s a ≤ rank s b

/-- Both sides are sorted. -/
def Sorted (book : OrderBook) : Prop := ∀ s, SideSorted s (book.side s)

instance (s : Bool) (l : List OrderPtr) : Decidable (SideSorted s l) :=
  inferInstanceAs (Decidable (l.Pairwise fun a b => rank s a ≤ rank s b))

instance (book : OrderBook) : Decidable book.Sorted :=
  inferInstanceAs (Decidable (∀ s, SideSorted s (book.side s)))

/-- What every method of `OrderBook` maintains. -/
structure Valid (book : OrderBook) : Prop where
  isBuy : ∀ s, ∀ p ∈ book.side s, p.isBuy = s
  sorted : ∀ s, SideSorted s (book.side s)

theorem Valid.isSorted {book : OrderBook} (h : book.Valid) : book.Sorted := h.sorted

theorem Valid.bids_sorted {book : OrderBook} (h : book.Valid) :
    book.bids.Pairwise fun a b => b.price ≤ a.price :=
  (h.sorted true).imp rank_le_iff_bid.mp

theorem Valid.asks_sorted {book : OrderBook} (h : book.Valid) :
    book.asks.Pairwise fun a b => a.price ≤ b.price :=
  (h.sorted false).imp rank_le_iff_ask.mp

theorem valid_new (symbol : Symbol) : (new symbol).Valid where
  isBuy s p hp := by simp at hp
  sorted s := by simp [SideSorted]

/-- The sorted side is a rearrangement of the old one with the new order. -/
theorem addOrder_side_perm (S : StdSort OrderPtr) (book : OrderBook) (p : OrderPtr) :
    ((book.addOrder S p).side p.isBuy).Perm (book.side p.isBuy ++ [p]) := by
  rw [addOrder_side, if_pos rfl]
  exact S.perm_of_key (before_iff _) _

theorem mem_addOrder_side {S : StdSort OrderPtr} {book : OrderBook} {p x : OrderPtr} {s : Bool} :
    x ∈ (book.addOrder S p).side s ↔ x ∈ book.side s ∨ s = p.isBuy ∧ x = p := by
  by_cases hs : s = p.isBuy
  · subst hs
    simp [(addOrder_side_perm S book p).mem_iff]
  · simp [addOrder_side, hs]

/-- Adding an order keeps the book valid. The added side is sorted whatever it
    was before. -/
theorem Valid.addOrder {book : OrderBook} (h : book.Valid) (S : StdSort OrderPtr) (p : OrderPtr) :
    (book.addOrder S p).Valid where
  isBuy s x hx := by
    rcases mem_addOrder_side.mp hx with hx | ⟨hs, rfl⟩
    · exact h.isBuy s x hx
    · exact hs.symm
  sorted s := by
    rw [addOrder_side]
    split_ifs with hs
    · exact S.sorted_of_key (before_iff s) _
    · exact h.sorted s

/-- A book whose sides are sublists of those of a valid book is valid. -/
theorem Valid.of_sublist {book book' : OrderBook} (h : book.Valid)
    (hs : ∀ s, (book'.side s).Sublist (book.side s)) : book'.Valid where
  isBuy s p hp := h.isBuy s p ((hs s).subset hp)
  sorted s := List.Pairwise.sublist (hs s) (h.sorted s)

theorem cancelOrder_sublist (book : OrderBook) (orderId : UInt64) (s : Bool) :
    ((book.cancelOrder orderId).2.side s).Sublist (book.side s) := by
  rw [cancelOrder_side]
  split_ifs
  · exact List.filter_sublist
  · exact List.Sublist.refl _

theorem Valid.cancelOrder {book : OrderBook} (h : book.Valid) (orderId : UInt64) :
    (book.cancelOrder orderId).2.Valid :=
  h.of_sublist (cancelOrder_sublist book orderId)

theorem setSide_sublist {book : OrderBook} {s : Bool} {l : List OrderPtr}
    (hl : l.Sublist (book.side s)) (t : Bool) :
    ((book.setSide s l).side t).Sublist (book.side t) := by
  rw [side_setSide]
  split_ifs with ht
  · subst ht
    exact hl
  · exact List.Sublist.refl _

theorem sublist_of_eq_append_cons {l l₁ l₂ : List OrderPtr} {p : OrderPtr}
    (h : l = l₁ ++ p :: l₂) : (l₁ ++ l₂).Sublist l := by
  rw [h]
  exact (List.Sublist.refl l₁).append (List.sublist_cons_self p l₂)

theorem Valid.modifyOrder {book : OrderBook} (h : book.Valid) (S : StdSort OrderPtr)
    (orderId : UInt64) (q : UInt32) (x : UInt64) : (book.modifyOrder S orderId q x).2.Valid := by
  rcases modifyOrder_cases S book orderId q x with ⟨-, heq⟩ | ⟨s, p, l₁, l₂, -, hl, -, -, heq⟩
  · rw [heq]
    exact h
  · rw [heq]
    exact (h.of_sublist (setSide_sublist (sublist_of_eq_append_cons hl))).addOrder S _

end OrderBook

end TradingGateway.Book

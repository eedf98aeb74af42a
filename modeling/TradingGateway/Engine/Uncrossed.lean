import TradingGateway.Engine.Model

/-!
# When the books are uncrossed

An `ADD` ends with `match`, which clears every crossing, and a `CANCEL` only
removes orders. A `MODIFY` re-inserts an order at a new price, but
`process_orders` does not call `match` afterwards: a price that reaches the
other side leaves the book crossed until the next `ADD` for the symbol.

* `modify_leaves_book_crossed`: a run of three commands that ends in a crossed
  book.
* `uncrossed_along_run_iff`: a run keeps all books uncrossed after each of its
  commands exactly when no `MODIFY` re-prices an order to or beyond an order of
  the other side (`KeepsApart`).
-/

namespace TradingGateway.Book.OrderBook

open Common Message

instance (book : OrderBook) : Decidable book.Uncrossed :=
  inferInstanceAs (Decidable (∀ bid ∈ book.bids, ∀ ask ∈ book.asks, bid.price < ask.price))

/-- `Uncrossed`, seen from side `s`: the ranks of orders of opposite sides are
    costs whose sum is positive when their prices do not meet. -/
theorem uncrossed_iff_rank (book : OrderBook) (s : Bool) :
    book.Uncrossed ↔ ∀ p ∈ book.side s, ∀ q ∈ book.side (!s), 0 < rank s p + rank (!s) q := by
  unfold Uncrossed
  cases s with
  | true => simp [side, rank, cost, UInt64.lt_iff_toNat_lt]
  | false =>
    simp only [side, rank, cost, UInt64.lt_iff_toNat_lt, Bool.not_false,
      Bool.false_eq_true, if_false, if_true]
    constructor
    · intro h ask hask bid hbid
      have := h bid hbid ask hask
      omega
    · intro h bid hbid ask hask
      have := h ask hask bid hbid
      omega

/-- The price `newPrice` does not reach the orders opposite the one that
    `modify_order` finds under `orderId`, if it finds one. -/
def KeepsApart (book : OrderBook) (orderId newPrice : UInt64) : Prop :=
  match book.sideOf orderId with
  | some true => ∀ ask ∈ book.asks, newPrice < ask.price
  | some false => ∀ bid ∈ book.bids, bid.price < newPrice
  | none => True

theorem keepsApart_iff_rank {book : OrderBook} {orderId newPrice : UInt64} {s : Bool}
    (hs : book.sideOf orderId = some s) (p : OrderPtr) :
    book.KeepsApart orderId newPrice ↔
      ∀ q ∈ book.side (!s), 0 < rank s (p.setPrice newPrice) + rank (!s) q := by
  unfold KeepsApart
  rw [hs]
  cases s with
  | true => simp [side, rank, cost, UInt64.lt_iff_toNat_lt]
  | false =>
    simp only [side, rank, cost, UInt64.lt_iff_toNat_lt, Bool.not_false,
      Bool.false_eq_true, if_false, if_true, OrderPtr.setPrice_price]
    apply forall₂_congr
    intro q _
    omega

theorem Uncrossed.of_sublist {book book' : OrderBook} (h : book.Uncrossed)
    (hs : ∀ s, (book'.side s).Sublist (book.side s)) : book'.Uncrossed :=
  fun bid hbid ask hask => h bid ((hs true).subset hbid) ask ((hs false).subset hask)

/-- `modify_order` keeps an uncrossed book uncrossed exactly when the new price
    does not reach the other side. -/
theorem Valid.modifyOrder_uncrossed_iff {book : OrderBook} (h : book.Valid) (hu : book.Uncrossed)
    (S : StdSort OrderPtr) (orderId : UInt64) (q : UInt32) (x : UInt64) :
    (book.modifyOrder S orderId q x).2.Uncrossed ↔ book.KeepsApart orderId x := by
  rcases modifyOrder_cases S book orderId q x with ⟨hnone, heq⟩ | ⟨s, p, l₁, l₂, hs, hl, -, -, heq⟩
  · simp [heq, hu, KeepsApart, hnone]
  · have hsub : ∀ t, ((book.setSide s (l₁ ++ l₂)).side t).Sublist (book.side t) :=
      setSide_sublist (sublist_of_eq_append_cons hl)
    have hrest := (uncrossed_iff_rank _ s).mp (hu.of_sublist hsub)
    have hbuy : p.isBuy = s := h.isBuy s p (by simp [hl])
    have hother : (book.setSide s (l₁ ++ l₂)).side (!s) = book.side (!s) := by simp
    rw [heq, uncrossed_iff_rank _ s, keepsApart_iff_rank hs (p.setQuantity q.toUInt64)]
    simp only [mem_addOrder_side, OrderPtr.setPrice_isBuy, OrderPtr.setQuantity_isBuy, hbuy,
      Bool.not_eq_self, false_and, or_false, true_and]
    rw [hother] at hrest ⊢
    constructor
    · intro hall y hy
      exact hall _ (Or.inr rfl) y hy
    · rintro hp z (hz | rfl) y hy
      · exact hrest z hz y hy
      · exact hp y hy

end TradingGateway.Book.OrderBook

namespace TradingGateway.Engine

open Common Message Book

/-- When a `BookOp` keeps the book uncrossed. -/
def OpKeepsApart (b : OrderBook) : BookOp → Prop
  | .modify orderId _ newPrice => b.KeepsApart orderId newPrice
  | _ => True

theorem applyOp_uncrossed_iff {b : OrderBook} (h : b.Valid) (hu : b.Uncrossed)
    (S : StdSort OrderPtr) (op : BookOp) :
    (applyOp S b op).2.Uncrossed ↔ OpKeepsApart b op := by
  cases op with
  | idle => simp [applyOp, OpKeepsApart, hu]
  | add p => simp [applyOp, OpKeepsApart, (h.addOrder S p).isSorted.uncrossed_runMatch]
  | cancel orderId =>
    simp [applyOp, OpKeepsApart, hu.of_sublist (OrderBook.cancelOrder_sublist b orderId)]
  | modify orderId q x => exact h.modifyOrder_uncrossed_iff hu S orderId q x

namespace MatchingEngine

/-- Every order book of the engine is uncrossed. -/
def Uncrossed (e : MatchingEngine) : Prop := ∀ key b, e.orderBooks key = some b → b.Uncrossed

theorem uncrossed_iff (e : MatchingEngine) : e.Uncrossed ↔ ∀ key, (e.book key).Uncrossed := by
  constructor
  · intro h key
    unfold book
    cases hb : e.orderBooks key with
    | none => simp [OrderBook.new, OrderBook.Uncrossed]
    | some b => exact h key b hb
  · intro h key b hb
    rw [← book_of_some hb]
    exact h key

/-- The command is no `MODIFY` of a resting order to a price that reaches the
    other side of its book. -/
def KeepsApart (e : MatchingEngine) (i : Input) : Prop :=
  i.order.command = .modify → ∀ key, e.orderIdToSymbol i.order.id = some key →
    (e.book key).KeepsApart i.order.id i.order.price

theorem keepsApart_iff (e : MatchingEngine) (i : Input) :
    e.KeepsApart i ↔ ∀ key, OpKeepsApart (e.book key) (e.opOn i.order key) := by
  unfold KeepsApart opOn
  cases i.order.command with
  | add =>
    simp only [reduceCtorEq, false_implies, true_iff]
    intro key
    split_ifs <;> trivial
  | cancel =>
    simp only [reduceCtorEq, false_implies, true_iff]
    intro key
    split_ifs <;> trivial
  | modify =>
    simp only [true_implies]
    apply forall_congr'
    intro key
    split_ifs with hk <;> simp [hk, OpKeepsApart]

/-- **The books along a run.** After each command of a run all books are
    uncrossed if and only if no command of the run is a `MODIFY` that moves a
    resting order to or beyond a price of the other side. -/
theorem uncrossed_along_run_iff (cmds : List Input) :
    (∀ done, done <+: cmds → (after done).Uncrossed) ↔ machine.Guarded KeepsApart cmds := by
  refine machine.forall_prefix_iff_guarded (Q := fun e => ∀ key, (e.book key).Valid) ?_
    (fun done key => valid_book_after done key) ?_ cmds
  · rw [uncrossed_iff]
    intro key bid hbid
    simp [machine, OrderBook.new] at hbid
  · intro e i hvalid hu
    rw [uncrossed_iff] at hu ⊢
    rw [keepsApart_iff]
    apply forall_congr'
    intro key
    rw [book_step]
    exact applyOp_uncrossed_iff (hvalid key) (hu key) _ _

/-- A buy at 100, a sell at 110, and the buy moved to 120. -/
def crossingRun : List Input :=
  [⟨.insertion, addCommand .zeroed (Order.make .zeroed 1 100 10 [66, 84, 67] true)⟩,
   ⟨.insertion, addCommand .zeroed (Order.make .zeroed 2 110 10 [66, 84, 67] false)⟩,
   ⟨.insertion, modifyCommand .zeroed 1 10 120⟩]

theorem modify_leaves_book_crossed : ¬ (after crossingRun).Uncrossed := by
  rw [uncrossed_iff]
  intro h
  exact absurd (h [66, 84, 67]) (by decide +kernel)

end MatchingEngine

end TradingGateway.Engine

import TradingGateway.Engine.Model

/-!
# Price priority

The sides of every book are sorted after every command and between any two
iterations of `match`, so the fronts that `match` pairs are the best orders
that rest at that moment, and the ask's price at which they trade is within
both limits. Of `std::sort` only its contract is used.

* `fills`: the trades of a command with the book in which each is made.
* `price_priority`: the result for every run.
-/

namespace TradingGateway.Book.OrderBook

open Common Message

/-- The bids are in non-increasing and the asks in non-decreasing price order. -/
def PriceSorted (book : OrderBook) : Prop :=
  book.bids.Pairwise (fun a b => b.price ≤ a.price) ∧
    book.asks.Pairwise (fun a b => a.price ≤ b.price)

theorem Valid.priceSorted {book : OrderBook} (h : book.Valid) : book.PriceSorted :=
  ⟨h.bids_sorted, h.asks_sorted⟩

/-- The trade pairs a bid of maximal price with an ask of minimal price among
    the resting orders, at a price within both limits. -/
def BestPriced (book : OrderBook) (trade : Trade) : Prop :=
  ∃ bid ∈ book.bids, ∃ ask ∈ book.asks,
    trade.buyOrderId = bid.id ∧ trade.sellOrderId = ask.id ∧
    (∀ x ∈ book.bids, x.price ≤ bid.price) ∧ (∀ x ∈ book.asks, ask.price ≤ x.price) ∧
    trade.price ≤ bid.price ∧ ask.price ≤ trade.price

theorem Valid.bestPriced {book book' : OrderBook} {trade : Trade} (h : book.Valid)
    (hstep : book.matchStep = some (trade, book')) : book.BestPriced trade := by
  obtain ⟨bid, bids, ask, asks, hb, ha, hcross, rfl, -⟩ := matchStep_eq_some_iff.mp hstep
  exact ⟨bid, by simp [hb], ask, by simp [ha], rfl, rfl, h.isSorted.price_le_bid hb,
    h.isSorted.ask_le_price ha, hcross, UInt64.le_refl _⟩

end TradingGateway.Book.OrderBook

namespace TradingGateway.Engine.MatchingEngine

open Common Message Book

/-- The trades of a command, each with the book at the moment it is made. -/
def fills (e : MatchingEngine) (c : Input) : List (OrderBook × Trade) :=
  match c.order.command with
  | .add => ((e.book c.order.symbolString).addOrder c.sort ⟨e.allocated, c.order⟩).matchFills
  | _ => []

/-- `fills` accounts for all trades that a command hands to the callback. -/
theorem map_snd_fills (e : MatchingEngine) (c : Input) :
    (e.fills c).map Prod.snd = (e.processOrder c.sort c.order).2 := by
  unfold fills processOrder
  cases c.order.command with
  | add => exact OrderBook.map_snd_matchFills _
  | cancel => rfl
  | modify => rfl

theorem valid_fills {e : MatchingEngine} (h : ∀ key, (e.book key).Valid) (c : Input) :
    ∀ fill ∈ e.fills c, fill.1.Valid := by
  unfold fills
  cases c.order.command with
  | add => exact ((h _).addOrder _ _).matchFills
  | cancel => simp
  | modify => simp

theorem exists_matchStep_of_mem_fills {e : MatchingEngine} {c : Input} {fill : OrderBook × Trade}
    (h : fill ∈ e.fills c) : ∃ book', fill.1.matchStep = some (fill.2, book') := by
  unfold fills at h
  split at h
  · exact OrderBook.mem_matchFills h
  · simp at h

/-- **Price priority and limit protection.** After any run every book is sorted
    by price. Each command of the run emits exactly the trades of its fills; at
    the moment of each fill the book is sorted, and the fill trades its best
    bid against its best ask within both limits. -/
theorem price_priority (cmds : List Input) :
    (∀ done, done <+: cmds → ∀ key b, (after done).orderBooks key = some b → b.PriceSorted) ∧
    ∀ done c, done ++ [c] <+: cmds →
      ((after done).processOrder c.sort c.order).2 = ((after done).fills c).map Prod.snd ∧
      ∀ fill ∈ (after done).fills c, fill.1.PriceSorted ∧ fill.1.BestPriced fill.2 := by
  constructor
  · intro done _ key b hb
    rw [← book_of_some hb]
    exact (valid_book_after done key).priceSorted
  · intro done c _
    refine ⟨(map_snd_fills _ c).symm, ?_⟩
    intro fill hfill
    have hvalid := valid_fills (valid_book_after done) c fill hfill
    obtain ⟨book', hstep⟩ := exists_matchStep_of_mem_fills hfill
    exact ⟨hvalid.priceSorted, hvalid.bestPriced hstep⟩

end TradingGateway.Engine.MatchingEngine

import TradingGateway.Common.Sort
import TradingGateway.Message.Types

/-!
# The order book

Model of `OrderBook` (`cpp-core/matching_engine/order_book.h`,
`order_book.cpp`). The vectors `m_bids` and `m_asks` hold `shared_ptr<Order>`:
an `OrderPtr` is the object pointed to together with the serial number of the
`make_shared` call that created it. Every order rests in one vector through one
pointer, so writing through the pointer is replacing the list element.

`std::sort` is a `StdSort` given to each call that sorts.

* `addOrder`, `cancelOrder`, `modifyOrder`: the methods of the same names.
* `matchStep`: one iteration of the `while` loop of `match`; `runMatch`: `match`.
* `matchFills`: the trades of `match`, each with the book at the moment it is
  made.
-/

namespace TradingGateway.Book

open Common Message

/-- `std::shared_ptr<Order>`; `serial` counts the `make_shared` calls before
    the one that created the object. -/
structure OrderPtr where
  serial : ℕ
  order : Order
  deriving DecidableEq

namespace OrderPtr

/-- `p->id` -/
abbrev id (p : OrderPtr) : UInt64 := p.order.id

/-- `p->price` -/
abbrev price (p : OrderPtr) : UInt64 := p.order.price

/-- `p->quantity` -/
abbrev quantity (p : OrderPtr) : UInt64 := p.order.quantity

/-- `p->is_buy` -/
abbrev isBuy (p : OrderPtr) : Bool := p.order.isBuy

/-- `p->quantity = q` -/
def setQuantity (p : OrderPtr) (q : UInt64) : OrderPtr :=
  { p with order := { p.order with quantity := q } }

/-- `p->price = x` -/
def setPrice (p : OrderPtr) (x : UInt64) : OrderPtr :=
  { p with order := { p.order with price := x } }

@[simp] theorem setQuantity_quantity (p : OrderPtr) (q : UInt64) :
    (p.setQuantity q).quantity = q := rfl

@[simp] theorem setQuantity_price (p : OrderPtr) (q : UInt64) :
    (p.setQuantity q).price = p.price := rfl

@[simp] theorem setQuantity_id (p : OrderPtr) (q : UInt64) : (p.setQuantity q).id = p.id := rfl

@[simp] theorem setQuantity_isBuy (p : OrderPtr) (q : UInt64) :
    (p.setQuantity q).isBuy = p.isBuy := rfl

@[simp] theorem setQuantity_serial (p : OrderPtr) (q : UInt64) :
    (p.setQuantity q).serial = p.serial := rfl

@[simp] theorem setPrice_price (p : OrderPtr) (x : UInt64) : (p.setPrice x).price = x := rfl

@[simp] theorem setPrice_quantity (p : OrderPtr) (x : UInt64) :
    (p.setPrice x).quantity = p.quantity := rfl

@[simp] theorem setPrice_id (p : OrderPtr) (x : UInt64) : (p.setPrice x).id = p.id := rfl

@[simp] theorem setPrice_isBuy (p : OrderPtr) (x : UInt64) : (p.setPrice x).isBuy = p.isBuy := rfl

@[simp] theorem setPrice_serial (p : OrderPtr) (x : UInt64) :
    (p.setPrice x).serial = p.serial := rfl

end OrderPtr

/-- `class OrderBook` (`order_book.h`, lines 10–37). -/
structure OrderBook where
  symbol : Symbol
  bids : List OrderPtr
  asks : List OrderPtr
  deriving DecidableEq

namespace OrderBook

/-- `OrderBook(Symbol symbol)` (`order_book.cpp`, line 6). -/
def new (symbol : Symbol) : OrderBook := ⟨symbol, [], []⟩

/-- `m_bids` for `true`, `m_asks` for `false`. -/
def side (book : OrderBook) : Bool → List OrderPtr
  | true => book.bids
  | false => book.asks

/-! ## `add_order` -/

/-- The comparator of `m_bids`, `a->price > b->price` (line 12). -/
def bidBefore (a b : OrderPtr) : Bool := a.price > b.price

/-- The comparator of `m_asks`, `a->price < b->price` (line 17). -/
def askBefore (a b : OrderPtr) : Bool := a.price < b.price

/-- `add_order` (lines 8–20). -/
def addOrder (S : StdSort OrderPtr) (book : OrderBook) (order : OrderPtr) : OrderBook :=
  if order.isBuy then
    { book with bids := S.run bidBefore (book.bids ++ [order]) }
  else
    { book with asks := S.run askBefore (book.asks ++ [order]) }

/-! ## `match` -/

/-- `best->quantity -= quantity; if (best->quantity == 0) erase(begin())` on
    the vector `best :: rest` (lines 41–45). -/
def fillFront (quantity : UInt64) (best : OrderPtr) (rest : List OrderPtr) : List OrderPtr :=
  let best := best.setQuantity (best.quantity - quantity)
  if best.quantity = 0 then rest else best :: rest

/-- One iteration of the loop of `match` (lines 25–49), or `none` if the loop
    is left. -/
def matchStep (book : OrderBook) : Option (Trade × OrderBook) :=
  match book.bids, book.asks with
  | bestBid :: bids, bestAsk :: asks =>
    if bestBid.price ≥ bestAsk.price then
      let quantity := min bestBid.quantity bestAsk.quantity
      let trade := Trade.make bestBid.id bestAsk.id bestAsk.price quantity book.symbol
      some (trade, { book with
        bids := fillFront quantity bestBid bids
        asks := fillFront quantity bestAsk asks })
    else none
  | _, _ => none

/-- What an iteration does: both sides have a front, the fronts cross, and the
    smaller of their quantities is traded and taken off both. -/
theorem matchStep_eq_some_iff {book book' : OrderBook} {trade : Trade} :
    book.matchStep = some (trade, book') ↔
      ∃ bid bids ask asks, book.bids = bid :: bids ∧ book.asks = ask :: asks ∧
        ask.price ≤ bid.price ∧
        trade = Trade.make bid.id ask.id ask.price (min bid.quantity ask.quantity) book.symbol ∧
        book' = ⟨book.symbol, fillFront (min bid.quantity ask.quantity) bid bids,
          fillFront (min bid.quantity ask.quantity) ask asks⟩ := by
  obtain ⟨symbol, bids, asks⟩ := book
  cases bids with
  | nil => simp [matchStep]
  | cons bid bids =>
    cases asks with
    | nil => simp [matchStep]
    | cons ask asks =>
      simp only [matchStep]
      split_ifs with h <;> simp_all [eq_comm]

/-- The loop is left when a side is empty or the fronts do not cross. -/
theorem matchStep_eq_none_iff {book : OrderBook} :
    book.matchStep = none ↔
      ∀ bid ∈ book.bids.head?, ∀ ask ∈ book.asks.head?, bid.price < ask.price := by
  obtain ⟨symbol, bids, asks⟩ := book
  cases bids with
  | nil => simp [matchStep]
  | cons bid bids =>
    cases asks with
    | nil => simp [matchStep]
    | cons ask asks => simp [matchStep]

theorem length_fillFront_le (q : UInt64) (p : OrderPtr) (rest : List OrderPtr) :
    (fillFront q p rest).length ≤ rest.length + 1 := by
  unfold fillFront
  dsimp only
  split_ifs <;> simp

theorem fillFront_self (p : OrderPtr) (rest : List OrderPtr) :
    fillFront p.quantity p rest = rest := by
  simp [fillFront]

/-- Every iteration erases an order: `min` makes one of the two quantities zero. -/
theorem matchStep_length_lt {book book' : OrderBook} {trade : Trade}
    (h : book.matchStep = some (trade, book')) :
    book'.bids.length + book'.asks.length < book.bids.length + book.asks.length := by
  obtain ⟨bid, bids, ask, asks, hb, ha, -, -, rfl⟩ := matchStep_eq_some_iff.mp h
  have h1 := length_fillFront_le (min bid.quantity ask.quantity) bid bids
  have h2 := length_fillFront_le (min bid.quantity ask.quantity) ask asks
  simp only [hb, ha, List.length_cons]
  rw [Std.min_eq_if] at h1 h2 ⊢
  split_ifs at h1 h2 ⊢ with hle
  · rw [fillFront_self]
    omega
  · rw [fillFront_self ask]
    omega

/-- `match` (lines 22–51): the trades and the book afterwards. -/
def runMatch (book : OrderBook) : List Trade × OrderBook :=
  match _h : book.matchStep with
  | none => ([], book)
  | some (trade, book') =>
    let rest := runMatch book'
    (trade :: rest.1, rest.2)
termination_by book.bids.length + book.asks.length
decreasing_by exact matchStep_length_lt _h

/-- The trades of `match`, each with the book at the start of the iteration
    that makes it. -/
def matchFills (book : OrderBook) : List (OrderBook × Trade) :=
  match _h : book.matchStep with
  | none => []
  | some (trade, book') => (book, trade) :: matchFills book'
termination_by book.bids.length + book.asks.length
decreasing_by exact matchStep_length_lt _h

/-! ## `cancel_order` -/

/-- `cancel_order` (lines 53–73): the result and the book afterwards.
    `remove_if` returns `end()` exactly when no order has the id. -/
def cancelOrder (book : OrderBook) (orderId : UInt64) : Bool × OrderBook :=
  if book.bids.any (·.id = orderId) then
    (true, { book with bids := book.bids.filter (·.id ≠ orderId) })
  else if book.asks.any (·.id = orderId) then
    (true, { book with asks := book.asks.filter (·.id ≠ orderId) })
  else (false, book)

/-! ## `modify_order` -/

/-- The lambda `find_and_remove` (lines 82–92): the first order with the id and
    the vector without it. -/
def findAndRemove (orderId : UInt64) (orders : List OrderPtr) :
    Option (OrderPtr × List OrderPtr) :=
  (orders.find? (·.id = orderId)).map fun found => (found, orders.eraseP (·.id = orderId))

/-- `modify_order` (lines 75–107): the result and the book afterwards. -/
def modifyOrder (S : StdSort OrderPtr) (book : OrderBook) (orderId : UInt64)
    (newQuantity : UInt32) (newPrice : UInt64) : Bool × OrderBook :=
  let update (found : OrderPtr) : OrderPtr :=
    (found.setQuantity newQuantity.toUInt64).setPrice newPrice
  match findAndRemove orderId book.bids with
  | some (found, bids) => (true, { book with bids := bids }.addOrder S (update found))
  | none =>
    match findAndRemove orderId book.asks with
    | some (found, asks) => (true, { book with asks := asks }.addOrder S (update found))
    | none => (false, book)

end OrderBook

end TradingGateway.Book

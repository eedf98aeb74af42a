import TradingGateway.Common.Machine
import TradingGateway.Book.Match

/-!
# The matching engine

Model of the body of the `process_orders` loop
(`cpp-core/matching_engine/matching_engine.cpp`, lines 83–119): what the worker
does with one command it has popped. The two `unordered_map`s are functions to
`Option`; latency measurement and the release of the command object are left
out.

A command can reach a book only as one of the `BookOp`s: `opOn` says which one
it is for the book of a key, and `book_processOrder` that the engine does just
that. Facts about all books after any run are facts about `applyOp`.
-/

namespace TradingGateway.Engine

open Common Message Book

/-! ## State -/

/-- The members of `MatchingEngine` that `process_orders` works on
    (`matching_engine.h`, lines 47–48); `allocated` counts the calls of
    `make_shared<Order>`. -/
structure MatchingEngine where
  orderBooks : Symbol → Option OrderBook
  orderIdToSymbol : UInt64 → Option Symbol
  allocated : ℕ

/-! ## Commands -/

/-- The command that `MatchingEngine::add_order` puts on the queue, a copy of
    `order` in storage that holds `raw` (`matching_engine.cpp`, lines 37–44). -/
def addCommand (raw order : Order) : Order := Order.copy raw order

/-- The command that `MatchingEngine::cancel_order` puts on the queue
    (lines 46–57). -/
def cancelCommand (raw : Order) (orderId : UInt64) : Order :=
  { Order.default raw with id := orderId, command := .cancel }

/-- The command that `MatchingEngine::modify_order` puts on the queue
    (lines 59–71). -/
def modifyCommand (raw : Order) (orderId : UInt64) (newQuantity : UInt32) (newPrice : UInt64) :
    Order :=
  { Order.default raw with
    id := orderId, quantity := newQuantity.toUInt64, price := newPrice, command := .modify }

/-- One command popped from the queue, with the `std::sort` that the book uses
    while it is processed. No command sorts more than once. -/
structure Input where
  sort : StdSort OrderPtr
  order : Order

namespace MatchingEngine

/-! ## Processing a command -/

/-- The state of a new engine. -/
def empty : MatchingEngine := ⟨fun _ => none, fun _ => none, 0⟩

/-- The `ADD` branch (lines 83–103). -/
def processAdd (S : StdSort OrderPtr) (e : MatchingEngine) (order : Order) :
    MatchingEngine × List Trade :=
  let symbol := order.symbolString
  let book := (e.orderBooks symbol).getD (OrderBook.new symbol)
  let result := (book.addOrder S ⟨e.allocated, order⟩).runMatch
  ({ orderBooks := Function.update e.orderBooks symbol (some result.2)
     orderIdToSymbol := Function.update e.orderIdToSymbol order.id (some symbol)
     allocated := e.allocated + 1 }, result.1)

/-- `if (m_order_books.contains(symbol)) f(*m_order_books[symbol])` -/
def onBook (e : MatchingEngine) (symbol : Symbol) (f : OrderBook → OrderBook) : MatchingEngine :=
  match e.orderBooks symbol with
  | some book => { e with orderBooks := Function.update e.orderBooks symbol (some (f book)) }
  | none => e

/-- The `CANCEL` branch (lines 104–112). -/
def processCancel (e : MatchingEngine) (order : Order) : MatchingEngine :=
  match e.orderIdToSymbol order.id with
  | some symbol =>
    let e := e.onBook symbol fun book => (book.cancelOrder order.id).2
    { e with orderIdToSymbol := Function.update e.orderIdToSymbol order.id none }
  | none => e

/-- The `MODIFY` branch (lines 113–120). `order->quantity` is narrowed to the
    `uint32_t` parameter of `modify_order`. -/
def processModify (S : StdSort OrderPtr) (e : MatchingEngine) (order : Order) : MatchingEngine :=
  match e.orderIdToSymbol order.id with
  | some symbol =>
    e.onBook symbol fun book =>
      (book.modifyOrder S order.id order.quantity.toUInt32 order.price).2
  | none => e

/-- The body of the loop of `process_orders` on a popped command: the engine
    afterwards and the trades handed to the callback. -/
def processOrder (S : StdSort OrderPtr) (e : MatchingEngine) (order : Order) :
    MatchingEngine × List Trade :=
  match order.command with
  | .add => e.processAdd S order
  | .cancel => (e.processCancel order, [])
  | .modify => (e.processModify S order, [])

/-- The engine as a machine that consumes commands. -/
def machine : Machine MatchingEngine Input where
  init := empty
  step e i := (e.processOrder i.sort i.order).1

/-- The engine after the commands `cmds`. -/
abbrev after (cmds : List Input) : MatchingEngine := machine.after cmds

theorem after_snoc (cmds : List Input) (c : Input) :
    after (cmds ++ [c]) = machine.step (after cmds) c :=
  machine.after_concat cmds c

/-! ## What a command does to a book -/

/-- The book under a key; a book that does not exist yet is an empty one. -/
def book (e : MatchingEngine) (key : Symbol) : OrderBook :=
  (e.orderBooks key).getD (OrderBook.new key)

end MatchingEngine

/-- The ways in which a command can act on one book. -/
inductive BookOp
  | idle
  | add (p : OrderPtr)
  | cancel (orderId : UInt64)
  | modify (orderId : UInt64) (newQuantity : UInt32) (newPrice : UInt64)

/-- The trades a `BookOp` makes and the book afterwards. -/
def applyOp (S : StdSort OrderPtr) (book : OrderBook) : BookOp → List Trade × OrderBook
  | .idle => ([], book)
  | .add p => (book.addOrder S p).runMatch
  | .cancel orderId => ([], (book.cancelOrder orderId).2)
  | .modify orderId q x => ([], (book.modifyOrder S orderId q x).2)

namespace MatchingEngine

/-- What the command does to the book of `key`. -/
def opOn (e : MatchingEngine) (order : Order) (key : Symbol) : BookOp :=
  match order.command with
  | .add => if order.symbolString = key then .add ⟨e.allocated, order⟩ else .idle
  | .cancel => if e.orderIdToSymbol order.id = some key then .cancel order.id else .idle
  | .modify =>
    if e.orderIdToSymbol order.id = some key then
      .modify order.id order.quantity.toUInt32 order.price
    else .idle

@[simp] theorem book_empty (key : Symbol) : empty.book key = OrderBook.new key := rfl

theorem book_of_some {e : MatchingEngine} {key : Symbol} {b : OrderBook}
    (h : e.orderBooks key = some b) : e.book key = b := by
  simp [book, h]

/-- The methods do nothing to an empty book, so it does not matter whether a
    book exists. -/
theorem book_onBook (e : MatchingEngine) (symbol key : Symbol) (f : OrderBook → OrderBook)
    (hf : f (OrderBook.new symbol) = OrderBook.new symbol) :
    (e.onBook symbol f).book key = if key = symbol then f (e.book key) else e.book key := by
  unfold onBook book
  cases he : e.orderBooks symbol with
  | none =>
    split_ifs with hk
    · subst hk
      simp [he, hf]
    · rfl
  | some b =>
    split_ifs with hk
    · subst hk
      simp [he]
    · simp [Function.update_of_ne hk]

@[simp] theorem onBook_orderIdToSymbol (e : MatchingEngine) (symbol : Symbol)
    (f : OrderBook → OrderBook) :
    (e.onBook symbol f).orderIdToSymbol = e.orderIdToSymbol := by
  unfold onBook
  split <;> rfl

@[simp] theorem onBook_allocated (e : MatchingEngine) (symbol : Symbol)
    (f : OrderBook → OrderBook) : (e.onBook symbol f).allocated = e.allocated := by
  unfold onBook
  split <;> rfl

theorem cancelOrder_new (symbol : Symbol) (orderId : UInt64) :
    ((OrderBook.new symbol).cancelOrder orderId).2 = OrderBook.new symbol := rfl

theorem modifyOrder_new (S : StdSort OrderPtr) (symbol : Symbol) (orderId : UInt64) (q : UInt32)
    (x : UInt64) : ((OrderBook.new symbol).modifyOrder S orderId q x).2 = OrderBook.new symbol :=
  rfl

theorem book_processCancel (e : MatchingEngine) (order : Order) (key : Symbol) :
    (e.processCancel order).book key =
      if e.orderIdToSymbol order.id = some key then ((e.book key).cancelOrder order.id).2
      else e.book key := by
  unfold processCancel
  cases hs : e.orderIdToSymbol order.id with
  | none => simp
  | some symbol =>
    have h := book_onBook e symbol key (fun b => (b.cancelOrder order.id).2)
      (cancelOrder_new symbol _)
    simp only [book] at h ⊢
    simp only [h, Option.some.injEq, eq_comm]

theorem book_processModify (S : StdSort OrderPtr) (e : MatchingEngine) (order : Order)
    (key : Symbol) :
    (e.processModify S order).book key =
      if e.orderIdToSymbol order.id = some key then
        ((e.book key).modifyOrder S order.id order.quantity.toUInt32 order.price).2
      else e.book key := by
  unfold processModify
  cases hs : e.orderIdToSymbol order.id with
  | none => simp
  | some symbol =>
    rw [book_onBook e symbol key _ (modifyOrder_new S symbol _ _ _)]
    simp only [Option.some.injEq, eq_comm]

/-- A command acts on the book of every key as its `BookOp` there. -/
theorem book_processOrder (S : StdSort OrderPtr) (e : MatchingEngine) (order : Order)
    (key : Symbol) :
    (e.processOrder S order).1.book key = (applyOp S (e.book key) (e.opOn order key)).2 := by
  unfold processOrder opOn
  cases order.command with
  | add =>
    by_cases hk : order.symbolString = key
    · simp [hk, processAdd, applyOp, book]
    · simp [hk, processAdd, applyOp, book, Function.update_of_ne (Ne.symm hk)]
  | cancel =>
    dsimp only
    rw [book_processCancel]
    split_ifs <;> rfl
  | modify =>
    dsimp only
    rw [book_processModify]
    split_ifs <;> rfl

theorem book_step (e : MatchingEngine) (i : Input) (key : Symbol) :
    (machine.step e i).book key = (applyOp i.sort (e.book key) (e.opOn i.order key)).2 :=
  book_processOrder i.sort e i.order key

/-- The trades of a command are those its `BookOp` makes in the book of its
    own key; only an `ADD` makes any. -/
theorem trades_processOrder (S : StdSort OrderPtr) (e : MatchingEngine) (order : Order) :
    (e.processOrder S order).2 =
      (applyOp S (e.book order.symbolString) (e.opOn order order.symbolString)).1 := by
  unfold processOrder opOn
  cases order.command with
  | add => simp [processAdd, applyOp, book]
  | cancel => dsimp only; split_ifs <;> rfl
  | modify => dsimp only; split_ifs <;> rfl

/-- What a command does to the index. -/
theorem orderIdToSymbol_step (e : MatchingEngine) (c : Input) (i : UInt64) :
    (machine.step e c).orderIdToSymbol i =
      match c.order.command with
      | .add => if i = c.order.id then some c.order.symbolString else e.orderIdToSymbol i
      | .cancel => if i = c.order.id then none else e.orderIdToSymbol i
      | .modify => e.orderIdToSymbol i := by
  show (e.processOrder c.sort c.order).1.orderIdToSymbol i = _
  unfold processOrder
  cases c.order.command with
  | add => simp [processAdd, Function.update_apply]
  | cancel =>
    dsimp only
    unfold processCancel
    cases hs : e.orderIdToSymbol c.order.id with
    | none =>
      split_ifs with hi
      · rw [hi, hs]
      · rfl
    | some symbol => simp [Function.update_apply]
  | modify =>
    dsimp only
    unfold processModify
    split <;> simp

/-! ## Invariants of all books -/

/-- What every `BookOp` keeps holds of all books after any run. -/
theorem book_after_induction {P : Symbol → OrderBook → Prop} (hnew : ∀ key, P key (.new key))
    (hop : ∀ key b S op, P key b → P key (applyOp S b op).2) (cmds : List Input) (key : Symbol) :
    P key ((after cmds).book key) := by
  refine machine.after_induction (P := fun e => P key (e.book key)) (hnew key) ?_ cmds
  intro e i h
  rw [book_step]
  exact hop key _ _ _ h

theorem valid_applyOp {b : OrderBook} (h : b.Valid) (S : StdSort OrderPtr) (op : BookOp) :
    (applyOp S b op).2.Valid := by
  cases op with
  | idle => exact h
  | add p => exact (h.addOrder S p).runMatch
  | cancel orderId => exact h.cancelOrder orderId
  | modify orderId q x => exact h.modifyOrder S orderId q x

/-- After any run every book is sorted and has its orders on their sides. -/
theorem valid_book_after (cmds : List Input) (key : Symbol) : ((after cmds).book key).Valid :=
  book_after_induction (P := fun _ b => b.Valid) OrderBook.valid_new
    (fun _ _ S op h => valid_applyOp h S op) cmds key

end MatchingEngine

end TradingGateway.Engine

import TradingGateway.Gateway.Server

/-!
# The book of an order

The symbol of a `NEW_ORDER` is read as a C string from the packed record
(`handle_new_order`), copied by `strncpy` into the eight bytes of
`Order::symbol`, and read as a C string again from there (`process_orders`). A
symbol of eight characters has no terminator in either place. The first read is
harmless, since no more than eight bytes are copied; the second goes on into
`is_buy`, which ends it for a sell and not for a buy.

* `bookKey_iff`: when the key is the symbol field, and when all orders with one
  symbol field go to one book.
* `buy_and_sell_apart`: a buy and a sell of one symbol that do not.
-/

namespace TradingGateway.Gateway

open Common Message Book Engine GatewayServer

/-- The key under which `process_orders` files a new order whose command object
    was allocated in the storage `raw`. -/
def bookKey (env : Env) (raw : Order) (order : NewOrder) : Symbol :=
  (command env raw (.newOrder order)).symbolString

/-- The symbol field up to its first NUL, or all of it. -/
def symbolField (order : NewOrder) : Symbol := cString order.symbol.toList

/-- What stands behind `symbol` in the command object. -/
def behindSymbol (env : Env) (raw : Order) (order : NewOrder) : Bytes :=
  (if (coreOrder env order).isBuy then 1 else 0) ::
    (raw.padding.toList ++ toLE 8 0 ++ [OrderCommand.add.toByte])

theorem coreOrder_symbol (env : Env) (order : NewOrder) :
    (coreOrder env order).symbol = strncpy 8 order.symbol.toList := by
  show strncpy 8 (cString (order.symbol.toList ++ _)) = _
  rw [strncpy_cString, strncpy_append (by simp)]

theorem bookKey_eq (env : Env) (raw : Order) (order : NewOrder) :
    bookKey env raw order =
      if 0 ∈ order.symbol.toList then symbolField order
      else order.symbol.toList ++ cString (behindSymbol env raw order) := by
  have htail : (command env raw (.newOrder order)).symbolTail =
      (strncpy 8 order.symbol.toList).toList ++ behindSymbol env raw order := by
    rw [← coreOrder_symbol env]
    simp [command, addCommand, Order.copy, Order.symbolTail, behindSymbol, coreOrder, Order.make]
  rw [bookKey, Order.symbolString, htail, cString_strncpy_append (by simp), symbolField]

theorem cString_behindSymbol (env : Env) (raw : Order) (order : NewOrder) :
    cString (behindSymbol env raw order) = [] ↔ order.side ≠ 'B'.toUInt8 := by
  rw [behindSymbol, coreOrder, Order.make]
  by_cases hside : order.side = 'B'.toUInt8
  · simp [hside, cString]
  · simp [hside, cString]

theorem bookKey_eq_symbolField_iff (env : Env) (raw : Order) (order : NewOrder) :
    bookKey env raw order = symbolField order ↔
      0 ∈ order.symbol.toList ∨ order.side ≠ 'B'.toUInt8 := by
  rw [bookKey_eq]
  split_ifs with h
  · simp [h]
  · rw [symbolField, cString_of_not_mem h, List.append_right_eq_self, cString_behindSymbol]
    simp [h]

/-- **Routing.** The key of a new order is its symbol field if and only if the
    field has a NUL or the order is no buy. All orders with that symbol field go
    to the same book, whatever else is in them and around them, if and only if
    the field has a NUL. -/
theorem bookKey_iff (env : Env) (raw : Order) (order : NewOrder) :
    (bookKey env raw order = symbolField order ↔
      0 ∈ order.symbol.toList ∨ order.side ≠ 'B'.toUInt8) ∧
    ((∀ (env env' : Env) (raw raw' : Order) (order₁ order₂ : NewOrder),
      order₁.symbol = order.symbol → order₂.symbol = order.symbol →
        bookKey env raw order₁ = bookKey env' raw' order₂) ↔ 0 ∈ order.symbol.toList) := by
  refine ⟨bookKey_eq_symbolField_iff env raw order, fun hall => ?_, ?_⟩
  · -- a buy and a sell
    by_contra h
    have hsame := hall env env raw raw { order with side := 'B'.toUInt8 }
      { order with side := 'S'.toUInt8 } rfl rfl
    have hsell : bookKey env raw { order with side := 'S'.toUInt8 } = symbolField order :=
      (bookKey_eq_symbolField_iff _ _ _).mpr (.inr (show 'S'.toUInt8 ≠ 'B'.toUInt8 by decide))
    rw [hsell] at hsame
    rcases (bookKey_eq_symbolField_iff env raw { order with side := 'B'.toUInt8 }).mp hsame with
      hmem | hside
    · exact h hmem
    · exact hside rfl
  · intro h env env' raw raw' order₁ order₂ h₁ h₂
    rw [bookKey_eq, bookKey_eq, symbolField, symbolField, h₁, h₂, if_pos h, if_pos h]

/-- An order for the eight characters `BTCUSDT1`. -/
def eightCharacters (side : UInt8) : NewOrder :=
  ⟨1, 100, 10, #v[66, 84, 67, 85, 83, 68, 84, 49], side⟩

/-- The buy is not filed under its symbol, and so not with the sell. -/
theorem buy_and_sell_apart :
    bookKey ⟨some .zeroed, [], .zeroed, [], 0⟩ .zeroed (eightCharacters 'B'.toUInt8) =
        [66, 84, 67, 85, 83, 68, 84, 49, 1] ∧
      bookKey ⟨some .zeroed, [], .zeroed, [], 0⟩ .zeroed (eightCharacters 'B'.toUInt8) ≠
        symbolField (eightCharacters 'B'.toUInt8) ∧
      bookKey ⟨some .zeroed, [], .zeroed, [], 0⟩ .zeroed (eightCharacters 'B'.toUInt8) ≠
        bookKey ⟨some .zeroed, [], .zeroed, [], 0⟩ .zeroed (eightCharacters 'S'.toUInt8) := by
  decide +kernel

end TradingGateway.Gateway

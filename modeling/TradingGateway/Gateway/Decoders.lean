import TradingGateway.Network.Parser
import TradingGateway.Gateway.Routing

/-!
# The two decoders of a new order

`MessageParser::parse` lays a packed record of 30 bytes over its input, type
byte first, and bounds the symbol with `strnlen`. The gateway copies the 29
bytes behind the type byte (`parse_new_order`) and reads the symbol as a C
string, which runs on if the field has no NUL. `strncpy` in the constructor of
`Order` makes up for the difference.

* `wireNewOrder_eq`: the two records hold the same fields.
* `parse_eq`: what `parse` returns.
* `decoders_agree`: it is the order that `handle_new_order` builds.
-/

namespace TradingGateway.Gateway

open Common Message Network GatewayServer

/-- The two orders agree in every member; padding is not one. -/
structure SameMembers (o o' : Order) : Prop where
  id : o.id = o'.id
  price : o.price = o'.price
  quantity : o.quantity = o'.quantity
  symbol : o.symbol = o'.symbol
  isBuy : o.isBuy = o'.isBuy
  timestamp : o.timestamp = o'.timestamp
  command : o.command = o'.command

theorem field_cons (b : UInt8) (bs : Bytes) (off len : ℕ) :
    field (b :: bs) (off + 1) len = field bs off len := rfl

/-- Behind its type byte a `WireNewOrder` is laid out like a `NewOrder`. -/
theorem wireNewOrder_eq (type : UInt8) (bs : Bytes) :
    wireNewOrderOfBytes (type :: bs) =
      ⟨type, (newOrderOfBytes bs).orderId, (newOrderOfBytes bs).price,
        (newOrderOfBytes bs).quantity, (newOrderOfBytes bs).symbol, (newOrderOfBytes bs).side⟩ := by
  unfold wireNewOrderOfBytes newOrderOfBytes
  simp only [field_cons, List.getD_cons_zero, List.getD_cons_succ, WireNewOrder.mk.injEq, true_and,
    and_true]
  congr 1
  funext i
  rw [show 21 + (i : ℕ) = 20 + i + 1 by omega, List.getD_cons_succ]

/-- `strnlen` cuts the field at its first NUL. -/
theorem take_strnlen (s : Bytes) (h : s.length = 8) : s.take (strnlen s 8) = cString s := by
  unfold strnlen
  rw [List.take_of_length_le h.le]
  exact (List.prefix_iff_eq_take.mp (List.takeWhile_prefix _)).symm

theorem parse_eq (raw : Order) (data len : ℕ) (mem : Memory) :
    (parse raw data len).value mem =
      if wireNewOrderSize ≤ len ∧ mem data = MessageType.newOrder.toByte then
        let order := (parseNewOrder (data + 1)).value mem
        some (Order.make raw order.orderId order.price order.quantity.toUInt64
          (cString order.symbol.toList) (order.side = 'B'.toUInt8))
      else none := by
  unfold parse
  by_cases hlen : len < wireNewOrderSize
  · rw [if_pos hlen, if_neg (by omega)]
    rfl
  · rw [if_neg hlen]
    have hbytes : (List.range' data wireNewOrderSize).map mem =
        mem data :: (List.range' (data + 1) (payloadSize .newOrder)).map mem := rfl
    simp only [Reads.value_bind, Reads.value_map, Reads.value_memcpy, hbytes, wireNewOrder_eq,
      parseNewOrder]
    by_cases htype : mem data = MessageType.newOrder.toByte
    · rw [if_neg (by simpa using htype), if_pos ⟨by omega, htype⟩, take_strnlen _ (by simp)]
      rfl
    · rw [if_pos htype, if_neg fun h => htype h.2]
      rfl

/-- **The two decoders agree.** On any region of memory `parse` returns an order
    if and only if the region has 30 bytes and starts with the type byte of
    `NEW_ORDER`, and that order has the members of the one that
    `handle_new_order` builds from the bytes behind the type byte, whatever the
    symbol field holds and whatever stands behind it. -/
theorem decoders_agree (raw : Order) (env : Env) (data len : ℕ) (mem : Memory) :
    (((parse raw data len).value mem).isSome ↔
      30 ≤ len ∧ mem data = MessageType.newOrder.toByte) ∧
    ∀ order ∈ (parse raw data len).value mem,
      SameMembers order (coreOrder env ((parseNewOrder (data + 1)).value mem)) := by
  rw [parse_eq]
  generalize (parseNewOrder (data + 1)).value mem = decoded
  split_ifs with h
  · refine ⟨by simpa using h, ?_⟩
    intro order horder
    rw [← Option.some.inj horder]
    refine ⟨rfl, rfl, rfl, ?_, rfl, rfl, rfl⟩
    rw [coreOrder_symbol]
    exact strncpy_cString 8 _
  · exact ⟨by simpa using h, by simp⟩

end TradingGateway.Gateway

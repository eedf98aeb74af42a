import TradingGateway.Engine.Conservation

/-!
# Orders and trades without quantity

Nothing between a client and a book checks a quantity. `match` erases an order
as soon as it has nothing left, so an order without quantity can only come from
an `ADD` or a `MODIFY` that brings it; such an `ADD` leaves the order in the book
or makes a trade of quantity zero.

* `applyOp_positive_iff`: what an operation must bring so that all quantities
  stay positive.
* `positiveStep_iff`: the same for a command.
-/

namespace TradingGateway.Book.OrderBook

open Common Message

/-- Every order in the book has a quantity. -/
def Positive (book : OrderBook) : Prop := ∀ s, ∀ p ∈ book.side s, 0 < p.quantity

theorem positive_new (symbol : Symbol) : (new symbol).Positive := by
  intro s p hp
  simp at hp

theorem Positive.of_sublist {book book' : OrderBook} (h : book.Positive)
    (hs : ∀ s, (book'.side s).Sublist (book.side s)) : book'.Positive :=
  fun s p hp => h s p ((hs s).subset hp)

/-- What is left of an order that has been filled is positive. -/
theorem Positive.matchStep {book book' : OrderBook} {trade : Trade} (h : book.Positive)
    (hstep : book.matchStep = some (trade, book')) : book'.Positive ∧ 0 < trade.quantity := by
  constructor
  · intro s p hp
    obtain ⟨front, rest, hside, -, -, hside'⟩ := matchStep_side hstep s
    have hrest : ∀ q ∈ rest, 0 < q.quantity := fun q hq => h s q (by simp [hside, hq])
    rw [hside', fillFront] at hp
    split_ifs at hp with h0
    · exact hrest p hp
    · rcases List.mem_cons.mp hp with rfl | hp
      · exact UInt64.pos_iff_ne_zero.mpr h0
      · exact hrest p hp
  · obtain ⟨bid, bids, ask, asks, hb, ha, -, rfl, -⟩ := matchStep_eq_some_iff.mp hstep
    have hbid : 0 < bid.quantity := h true bid (by simp [side, hb])
    have hask : 0 < ask.quantity := h false ask (by simp [side, ha])
    show 0 < min bid.quantity ask.quantity
    rw [Std.min_eq_if]
    split_ifs
    · exact hbid
    · exact hask

theorem Positive.runMatch {book : OrderBook} (h : book.Positive) :
    book.runMatch.2.Positive ∧ ∀ t ∈ book.runMatch.1, 0 < t.quantity := by
  obtain ⟨hlast, hfills⟩ := runMatch_invariant (P := Positive)
    (fun _ _ _ hstep h => (h.matchStep hstep).1) book h
  refine ⟨hlast, ?_⟩
  intro t ht
  rw [← map_snd_matchFills] at ht
  obtain ⟨fill, hfill, rfl⟩ := List.mem_map.mp ht
  obtain ⟨book', hstep⟩ := mem_matchFills hfill
  exact ((hfills fill hfill).matchStep hstep).2

/-- An order without quantity stays, or makes a trade without quantity. -/
theorem zero_runMatch {book : OrderBook} {s : Bool} {p : OrderPtr} (hp : p ∈ book.side s)
    (h0 : p.quantity = 0) :
    ¬ (book.runMatch.2.Positive ∧ ∀ t ∈ book.runMatch.1, 0 < t.quantity) := by
  induction book using runMatch_induction generalizing p with
  | hnone book hstep =>
    rw [runMatch_of_none hstep]
    rintro ⟨hpos, -⟩
    exact absurd (hpos s p hp) (by rw [h0]; exact UInt64.lt_irrefl 0)
  | hsome book trade book' hstep ih =>
    rw [runMatch_of_some hstep]
    rintro ⟨hpos, htrades⟩
    obtain ⟨front, rest, hside, -, hle, hside'⟩ := matchStep_side hstep s
    rw [hside] at hp
    rcases List.mem_cons.mp hp with rfl | hp
    · have htrade := htrades trade List.mem_cons_self
      rw [h0] at hle
      exact absurd htrade (UInt64.not_lt.mpr hle)
    · refine ih ?_ h0 ⟨hpos, fun t ht => htrades t (List.mem_cons_of_mem _ ht)⟩
      rw [hside', fillFront]
      split_ifs
      · exact hp
      · exact List.mem_cons_of_mem _ hp

theorem Positive.addOrder {book : OrderBook} (h : book.Positive) (S : StdSort OrderPtr)
    {p : OrderPtr} (hp : 0 < p.quantity) : (book.addOrder S p).Positive := by
  intro s x hx
  rcases mem_addOrder_side.mp hx with hx | ⟨-, rfl⟩
  · exact h s x hx
  · exact hp

theorem mem_addOrder_self (S : StdSort OrderPtr) (book : OrderBook) (p : OrderPtr) :
    p ∈ (book.addOrder S p).side p.isBuy :=
  mem_addOrder_side.mpr (.inr ⟨rfl, rfl⟩)

theorem Positive.modifyOrder_iff {book : OrderBook} (h : book.Positive) (S : StdSort OrderPtr)
    (orderId : UInt64) (q : UInt32) (x : UInt64) :
    (book.modifyOrder S orderId q x).2.Positive ↔ q = 0 → book.sideOf orderId = none := by
  rcases modifyOrder_cases S book orderId q x with ⟨hnone, heq⟩ | ⟨t, p, l₁, l₂, ht, hl, -, -, heq⟩
  · rw [heq]
    exact ⟨fun _ _ => hnone, fun _ => h⟩
  · have hrest : (book.setSide t (l₁ ++ l₂)).Positive :=
      h.of_sublist (setSide_sublist (sublist_of_eq_append_cons hl))
    rw [heq, ht]
    constructor
    · rintro hpos rfl
      exact absurd (hpos _ _ (mem_addOrder_self S _ _)) (UInt64.lt_irrefl 0)
    · intro hq
      refine hrest.addOrder S ?_
      rw [OrderPtr.setPrice_quantity, OrderPtr.setQuantity_quantity]
      have hne : q.toNat ≠ 0 := fun h0 => absurd (hq (UInt32.toNat_inj.mp h0)) (by simp)
      rw [UInt64.lt_iff_toNat_lt, UInt32.toNat_toUInt64, UInt64.toNat_zero]
      omega

end TradingGateway.Book.OrderBook

namespace TradingGateway.Engine

open Common Message Book OrderBook

/-- The operation brings no order without quantity into the book. -/
def OpPositive (b : OrderBook) : BookOp → Prop
  | .add p => p.quantity ≠ 0
  | .modify orderId q _ => q = 0 → b.sideOf orderId = none
  | _ => True

theorem applyOp_positive_iff {b : OrderBook} (h : b.Positive) (S : StdSort OrderPtr)
    (op : BookOp) :
    ((applyOp S b op).2.Positive ∧ ∀ t ∈ (applyOp S b op).1, 0 < t.quantity) ↔
      OpPositive b op := by
  cases op with
  | idle => simp [applyOp, OpPositive, h]
  | add p =>
    constructor
    · intro hpos h0
      exact zero_runMatch (mem_addOrder_self S b p) h0 hpos
    · intro hp
      exact (h.addOrder S (UInt64.pos_iff_ne_zero.mpr hp)).runMatch
  | cancel orderId =>
    simp [applyOp, OpPositive, h.of_sublist (cancelOrder_sublist b orderId)]
  | modify orderId q x => simp [applyOp, OpPositive, h.modifyOrder_iff]

namespace MatchingEngine

/-- Every order in every book has a quantity. -/
def Positive (e : MatchingEngine) : Prop := ∀ key, (e.book key).Positive

/-- The command leaves only orders with a quantity and makes only trades with
    one. -/
def PositiveStep (e : MatchingEngine) (c : Input) : Prop :=
  Positive (machine.step e c) ∧ ∀ t ∈ (e.processOrder c.sort c.order).2, 0 < t.quantity

/-- The command is no `ADD` without quantity, and no `MODIFY` to nothing of an
    order that it finds. -/
def BringsQuantity (e : MatchingEngine) (order : Order) : Prop :=
  match order.command with
  | .add => order.quantity ≠ 0
  | .modify => order.quantity.toUInt32 = 0 → ∀ key, e.orderIdToSymbol order.id = some key →
      (e.book key).sideOf order.id = none
  | .cancel => True

theorem bringsQuantity_iff (e : MatchingEngine) (order : Order) :
    e.BringsQuantity order ↔ ∀ key, OpPositive (e.book key) (e.opOn order key) := by
  unfold BringsQuantity opOn
  cases order.command with
  | add =>
    constructor
    · intro h key
      dsimp only
      split_ifs
      · exact h
      · trivial
    · intro h
      simpa [OpPositive] using h order.symbolString
  | cancel =>
    refine ⟨fun _ key => ?_, fun _ => trivial⟩
    dsimp only
    split_ifs <;> trivial
  | modify =>
    constructor
    · intro h key
      dsimp only
      split_ifs with hkey
      · exact fun h0 => h h0 key hkey
      · trivial
    · intro h h0 key hkey
      have := h key
      simp only [hkey, if_true] at this
      exact this h0

theorem positiveStep_iff {e : MatchingEngine} (h : e.Positive) (c : Input) :
    e.PositiveStep c ↔ e.BringsQuantity c.order := by
  rw [bringsQuantity_iff, PositiveStep]
  constructor
  · rintro ⟨hbooks, htrades⟩ key
    rw [← applyOp_positive_iff (h key) c.sort, ← book_step, ← emitted_eq]
    refine ⟨hbooks key, fun t ht => ?_⟩
    rw [emitted] at ht
    split_ifs at ht
    · exact htrades t ht
    · cases ht
  · intro hop
    have hpos := fun key => (applyOp_positive_iff (h key) c.sort _).mpr (hop key)
    refine ⟨fun key => ?_, ?_⟩
    · rw [book_step]
      exact (hpos key).1
    · rw [trades_processOrder]
      exact (hpos _).2

end MatchingEngine

end TradingGateway.Engine

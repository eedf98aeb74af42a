import TradingGateway.Book.Clearing
import TradingGateway.Engine.PricePriority

/-!
# Ties do not change the market

`std::sort` may arrange orders of equal price in any way, so two runs of the
same `ADD`s need not fill the same orders, nor make the same number of trades.
What they agree on is the market: the quantity that rests at every price, and
the quantity traded between every pair of prices.

* `SameLevels`: two books rest the same quantity at every price of either side.
* `SameLevels.runMatch`, `SameLevels.pairQty_matchFills`: `match` keeps it, and
  trades the same between every two prices, because both are functions of the
  levels (`Book.Clearing`).
* `ties_do_not_matter`: the two runs.
-/

namespace TradingGateway.Book.OrderBook

open Common Message

/-- The two books rest the same quantity at every price of either side. -/
def SameLevels (b b' : OrderBook) : Prop :=
  ∀ s x, levelQty x (b.side s) = levelQty x (b'.side s)

theorem SameLevels.volume {b b' : OrderBook} (h : SameLevels b b') (s : Bool)
    (P : UInt64 → Prop) [DecidablePred P] : volume P (b.side s) = volume P (b'.side s) :=
  mass_eq_of_key OrderPtr.price P (h s)

theorem SameLevels.upTo {b b' : OrderBook} (h : SameLevels b b') (s : Bool) (x : UInt64) :
    b.upTo s x = b'.upTo s x :=
  h.volume s _

theorem SameLevels.ahead {b b' : OrderBook} (h : SameLevels b b') (s : Bool) (x : UInt64) :
    b.ahead s x = b'.ahead s x :=
  h.volume s _

/-! ## One command -/

theorem levelQty_addOrder (S : StdSort OrderPtr) (book : OrderBook) (p : OrderPtr) (s : Bool)
    (x : UInt64) :
    levelQty x ((book.addOrder S p).side s) =
      levelQty x (book.side s) + if p.isBuy = s ∧ p.price = x then p.quantity.toNat else 0 := by
  by_cases hs : p.isBuy = s
  · subst hs
    unfold levelQty volume
    rw [mass_perm (addOrder_side_perm S book p), mass_append, mass_cons]
    simp
  · rw [addOrder_side, if_neg (Ne.symm hs), if_neg (fun h => hs h.1), add_zero]

/-- Orders that differ in their serial number only, added in any arrangement. -/
theorem SameLevels.addOrder {b b' : OrderBook} (h : SameLevels b b') (S S' : StdSort OrderPtr)
    (n n' : ℕ) (o : Order) : SameLevels (b.addOrder S ⟨n, o⟩) (b'.addOrder S' ⟨n', o⟩) := by
  intro s x
  rw [levelQty_addOrder, levelQty_addOrder, h s x]

section Match

variable {b b' : OrderBook} (hb : b.Sorted) (hb' : b'.Sorted) (h : SameLevels b b')

include hb hb' h

theorem SameLevels.tradedVolume : tradedVolume b.runMatch.1 = tradedVolume b'.runMatch.1 := by
  have hmax := hb.isGreatest_tradedVolume
  have hmax' := hb'.isGreatest_tradedVolume
  simp only [demand_eq_upTo, supply_eq_upTo, h.upTo] at hmax hmax'
  exact hmax.unique hmax'

theorem SameLevels.runMatch : SameLevels b.runMatch.2 b'.runMatch.2 := by
  intro s x
  rw [hb.levelQty_runMatch, hb'.levelQty_runMatch, h.upTo, h.ahead,
    SameLevels.tradedVolume hb hb' h]

theorem SameLevels.pairQty_matchFills (x y : UInt64) :
    pairQty x y b.matchFills = pairQty x y b'.matchFills := by
  rw [hb.pairQty_matchFills, hb'.pairQty_matchFills, h.upTo, h.upTo, h.ahead, h.ahead,
    SameLevels.tradedVolume hb hb' h]

end Match

end TradingGateway.Book.OrderBook

namespace TradingGateway.Engine

open Common Message Book OrderBook

/-- A command whose insertion is arranged by `first` in one run and by `second`
    in the other. -/
structure TwoSorts where
  first : StdSort OrderPtr
  second : StdSort OrderPtr
  order : Order

/-- The first of the two runs. -/
def firstRun (cmds : List TwoSorts) : List Input := cmds.map fun c => ⟨c.first, c.order⟩

/-- The second of the two runs. -/
def secondRun (cmds : List TwoSorts) : List Input := cmds.map fun c => ⟨c.second, c.order⟩

namespace MatchingEngine

/-- What the command trades in the book of `key` between bids priced `x` and
    asks priced `y`. -/
def pairTraded (key : Symbol) (x y : UInt64) (e : MatchingEngine) (c : Input) : ℤ :=
  if c.order.symbolString = key then pairQty x y (e.fills c) else 0

/-- The two engines have the same levels in the book of every key. -/
def SameLevels (e e' : MatchingEngine) : Prop := ∀ key, (e.book key).SameLevels (e'.book key)

section Step

variable {e e' : MatchingEngine} {S S' : StdSort OrderPtr} {o : Order}
  (he : ∀ key, (e.book key).Valid) (he' : ∀ key, (e'.book key).Valid) (h : e.SameLevels e')
  (hadd : o.command = .add)

include he he' h hadd

theorem SameLevels.step : (machine.step e ⟨S, o⟩).SameLevels (machine.step e' ⟨S', o⟩) := by
  intro key
  rw [book_step, book_step]
  unfold opOn
  simp only [hadd]
  split_ifs with hk
  · exact OrderBook.SameLevels.runMatch ((he key).addOrder S _).isSorted
      ((he' key).addOrder S' _).isSorted ((h key).addOrder S S' _ _ o)
  · exact h key

theorem SameLevels.pairTraded (key : Symbol) (x y : UInt64) :
    e.pairTraded key x y ⟨S, o⟩ = e'.pairTraded key x y ⟨S', o⟩ := by
  unfold MatchingEngine.pairTraded fills
  simp only [hadd]
  rw [OrderBook.SameLevels.pairQty_matchFills ((he o.symbolString).addOrder S _).isSorted
    ((he' o.symbolString).addOrder S' _).isSorted ((h o.symbolString).addOrder S S' _ _ o) x y]

end Step

/-- The two runs, as a whole: levels and traded quantities agree at the end. -/
theorem sameLevels_runs (cmds : List TwoSorts) (hadd : ∀ c ∈ cmds, c.order.command = .add) :
    (after (firstRun cmds)).SameLevels (after (secondRun cmds)) ∧
    ∀ key x y, machine.total (pairTraded key x y) (firstRun cmds) =
      machine.total (pairTraded key x y) (secondRun cmds) := by
  induction cmds using List.reverseRecOn with
  | nil => exact ⟨fun _ _ _ => rfl, fun _ _ _ => rfl⟩
  | append_singleton cmds c ih =>
    obtain ⟨hlevels, htraded⟩ := ih fun d hd => hadd d (List.mem_append_left _ hd)
    have hc : c.order.command = .add := hadd c (by simp)
    have hvalid := valid_book_after (firstRun cmds)
    have hvalid' := valid_book_after (secondRun cmds)
    have hfirst : firstRun (cmds ++ [c]) = firstRun cmds ++ [⟨c.first, c.order⟩] := by
      simp [firstRun]
    have hsecond : secondRun (cmds ++ [c]) = secondRun cmds ++ [⟨c.second, c.order⟩] := by
      simp [secondRun]
    rw [hfirst, hsecond]
    constructor
    · rw [after_snoc, after_snoc]
      exact hlevels.step hvalid hvalid' hc
    · intro key x y
      rw [machine.total_concat, machine.total_concat, htraded key x y]
      congr 1
      exact SameLevels.pairTraded hvalid hvalid' hlevels hc key x y

/-- **Ties do not change the market.** Two runs of the same `ADD`s, in which
    every insertion is arranged in two arbitrary ways, agree after every command
    on the quantity that rests at each price of each side, and on the quantity
    traded so far between each bid price and each ask price. -/
theorem ties_do_not_matter (cmds : List TwoSorts)
    (hadd : ∀ c ∈ cmds, c.order.command = .add) (done : List TwoSorts) (hdone : done <+: cmds)
    (key : Symbol) :
    (∀ s x, levelQty x (((after (firstRun done)).book key).side s) =
      levelQty x (((after (secondRun done)).book key).side s)) ∧
    ∀ x y, machine.total (pairTraded key x y) (firstRun done) =
      machine.total (pairTraded key x y) (secondRun done) := by
  obtain ⟨hlevels, htraded⟩ := sameLevels_runs done fun c hc => hadd c (hdone.subset hc)
  exact ⟨hlevels key, htraded key⟩

/-- Two bids at one price, which the second run turns around, and an ask. -/
def tieRun : List TwoSorts :=
  [⟨.insertion, .reversing, addCommand .zeroed (Order.make .zeroed 1 100 5 [66, 84, 67] true)⟩,
   ⟨.insertion, .reversing, addCommand .zeroed (Order.make .zeroed 2 100 5 [66, 84, 67] true)⟩,
   ⟨.insertion, .reversing, addCommand .zeroed (Order.make .zeroed 3 100 3 [66, 84, 67] false)⟩]

theorem tieRun_same_market :
    (((after (firstRun tieRun)).book [66, 84, 67]).bids.map fun p => (p.id, p.quantity)) =
        [(1, 2), (2, 5)] ∧
      (((after (secondRun tieRun)).book [66, 84, 67]).bids.map fun p => (p.id, p.quantity)) =
        [(2, 2), (1, 5)] ∧
      levelQty 100 ((after (firstRun tieRun)).book [66, 84, 67]).bids =
        levelQty 100 ((after (secondRun tieRun)).book [66, 84, 67]).bids :=
  ⟨by decide +kernel, by decide +kernel,
    (ties_do_not_matter tieRun (by decide +kernel) tieRun List.prefix_rfl [66, 84, 67]).1 true 100⟩

end MatchingEngine

end TradingGateway.Engine

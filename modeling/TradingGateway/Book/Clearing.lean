import TradingGateway.Common.Mass
import TradingGateway.Book.Match

/-!
# What one call of `match` computes

The loop works pair by pair. Its result has a closed form in the cumulative
quantities of the two sides: the volume that clears is the best that any single
price can clear, and each side gives it up from the front.

* `matchLoop_ends`: the loop ends, after fewer iterations than there are orders.
* `Sorted.isGreatest_tradedVolume`: the traded volume is the maximum over all
  prices of the smaller of demand and supply.
* `runMatch_filled`: the orders are filled in book order.
* `Sorted.levelQty_runMatch`, `Sorted.pairQty_matchFills`: what rests at each
  price, and what is traded between each pair of prices, in terms of cumulative
  quantities alone.
-/

namespace TradingGateway.Book

open Common Message

namespace OrderBook

/-! ## The loop ends -/

/-- The `while` loop of `match`, left after `fuel` iterations at most; `none`
    if it would go on. -/
def matchLoop : ℕ → OrderBook → Option (List Trade × OrderBook)
  | 0, book => if book.matchStep = none then some ([], book) else none
  | fuel + 1, book =>
    match book.matchStep with
    | none => some ([], book)
    | some (trade, book') => (matchLoop fuel book').map fun rest => (trade :: rest.1, rest.2)

theorem matchLoop_of_none {book : OrderBook} (h : book.matchStep = none) (fuel : ℕ) :
    book.matchLoop fuel = some ([], book) := by
  cases fuel with
  | zero => simp [matchLoop, h]
  | succ fuel => simp [matchLoop, h]

/-- Every iteration needs an order on both sides and erases one, so the loop
    makes fewer iterations than there are orders. -/
theorem length_runMatch_le (book : OrderBook) :
    book.runMatch.1.length ≤ book.bids.length + book.asks.length - 1 := by
  induction book using runMatch_induction with
  | hnone book hstep => simp [runMatch_of_none hstep]
  | hsome book trade book' hstep ih =>
    have hlt := matchStep_length_lt hstep
    obtain ⟨bid, bids, ask, asks, hb, ha, -⟩ := matchStep_eq_some_iff.mp hstep
    rw [runMatch_of_some hstep]
    simp only [hb, ha, List.length_cons] at hlt ⊢
    omega

/-- As much fuel as the call makes trades is enough. -/
theorem matchLoop_runMatch (book : OrderBook) {fuel : ℕ} (h : book.runMatch.1.length ≤ fuel) :
    book.matchLoop fuel = some book.runMatch := by
  induction book using runMatch_induction generalizing fuel with
  | hnone book hstep => rw [matchLoop_of_none hstep, runMatch_of_none hstep]
  | hsome book trade book' hstep ih =>
    rw [runMatch_of_some hstep] at h ⊢
    simp only [List.length_cons] at h
    obtain ⟨fuel, rfl⟩ : ∃ n, fuel = n + 1 := ⟨fuel - 1, by omega⟩
    simp only [matchLoop, hstep, ih (Nat.le_of_succ_le_succ h), Option.map_some]

theorem runMatch_of_side_nil {book : OrderBook} {s : Bool} (h : book.side s = []) :
    book.runMatch = ([], book) := by
  apply runMatch_of_none
  rw [matchStep_eq_none_iff]
  cases s with
  | true =>
    intro bid hbid
    rw [show book.bids = [] from h] at hbid
    simp at hbid
  | false =>
    intro bid _ ask hask
    rw [show book.asks = [] from h] at hask
    simp at hask

/-- **The loop ends and clears the crossing**, for every book: it makes no trade
    if a side is empty and fewer trades than there are orders otherwise, no
    subtraction underflows, and it leaves a side empty or the fronts uncrossed.
    Sorted sides stay sorted and end up with every bid below every ask. -/
theorem matchLoop_ends (book : OrderBook) :
    book.matchLoop (book.bids.length + book.asks.length - 1) = some book.runMatch ∧
    (∀ s, book.side s = [] → book.runMatch.1 = []) ∧
    book.runMatch.1.length ≤ book.bids.length + book.asks.length - 1 ∧
    (∀ fill ∈ book.matchFills, ∀ s, ∃ front ∈ (fill.1.side s).head?,
      fill.2.quantity ≤ front.quantity) ∧
    (∀ bid ∈ book.runMatch.2.bids.head?, ∀ ask ∈ book.runMatch.2.asks.head?,
      bid.price < ask.price) ∧
    (book.Sorted → book.runMatch.2.Sorted ∧ book.runMatch.2.Uncrossed) := by
  refine ⟨matchLoop_runMatch book (length_runMatch_le book), ?_, length_runMatch_le book, ?_,
    matchStep_eq_none_iff.mp (runMatch_matchStep book), ?_⟩
  · intro s hs
    rw [runMatch_of_side_nil hs]
  · intro fill hfill s
    obtain ⟨book', hstep⟩ := mem_matchFills hfill
    obtain ⟨front, rest, hside, -, hle, -⟩ := matchStep_side hstep s
    exact ⟨front, by simp [hside], hle⟩
  · intro h
    exact ⟨h.runMatch, h.uncrossed_runMatch⟩

/-! ## Volumes -/

/-- The quantity of the orders of `l` whose price satisfies `P`. -/
def volume (P : UInt64 → Prop) [DecidablePred P] (l : List OrderPtr) : ℕ :=
  mass (fun p => p.quantity.toNat) (fun p => P p.price) l

/-- The quantity that rests in `l` at the price `x`. -/
def levelQty (x : UInt64) (l : List OrderPtr) : ℕ := volume (· = x) l

/-- The quantity bid at the price `x` or more. -/
def demand (book : OrderBook) (x : UInt64) : ℕ := volume (x ≤ ·) book.bids

/-- The quantity offered at the price `x` or less. -/
def supply (book : OrderBook) (x : UInt64) : ℕ := volume (· ≤ x) book.asks

/-- The quantity of side `s` that is priced `x` or better. -/
def upTo (book : OrderBook) (s : Bool) (x : UInt64) : ℕ :=
  volume (fun y => cost s y ≤ cost s x) (book.side s)

/-- The quantity of side `s` that is priced better than `x`. -/
def ahead (book : OrderBook) (s : Bool) (x : UInt64) : ℕ :=
  volume (fun y => cost s y < cost s x) (book.side s)

theorem demand_eq_upTo (book : OrderBook) (x : UInt64) : book.demand x = book.upTo true x := by
  simp [demand, upTo, volume, cost, side, UInt64.le_iff_toNat_le]

theorem supply_eq_upTo (book : OrderBook) (x : UInt64) : book.supply x = book.upTo false x := by
  simp [supply, upTo, volume, cost, side, UInt64.le_iff_toNat_le]

theorem upTo_eq_ahead_add (book : OrderBook) (s : Bool) (x : UInt64) :
    book.upTo s x = book.ahead s x + levelQty x (book.side s) := by
  unfold upTo ahead levelQty volume
  refine mass_split ?_ _
  intro p
  rcases lt_trichotomy (cost s p.price) (cost s x) with h | h | h
  · have hne : p.price ≠ x := fun heq => absurd h (by rw [heq]; exact lt_irrefl _)
    simp [h, h.le, hne]
  · simp [cost_injective s h]
  · have hne : p.price ≠ x := fun heq => absurd h (by rw [heq]; exact lt_irrefl _)
    simp [not_le.mpr h, not_lt.mpr h.le, hne]

/-- The price of the front of side `s`. -/
def frontPrice (book : OrderBook) (s : Bool) : Option UInt64 := (book.side s).head?.map (·.price)

/-- An iteration on a sorted book, seen from side `s`: it takes its quantity at
    the price of the front, and nothing better than that is left. -/
theorem Sorted.matchStep_volume {book book' : OrderBook} {trade : Trade} (h : book.Sorted)
    (hstep : book.matchStep = some (trade, book')) (s : Bool) :
    ∃ c, book.frontPrice s = some c ∧ (∀ p ∈ book'.side s, cost s c ≤ cost s p.price) ∧
      ∀ (P : UInt64 → Prop) [DecidablePred P],
        volume P (book.side s) =
          volume P (book'.side s) + if P c then trade.quantity.toNat else 0 := by
  obtain ⟨front, rest, hside, -⟩ := matchStep_side hstep s
  refine ⟨front.price, by simp [frontPrice, hside], ?_, ?_⟩
  · exact forall_of_face (P := fun p => cost s front.price ≤ cost s p.price) (fun _ => Iff.rfl)
      (matchStep_face hstep s).sublist (h.rank_head_le hside)
  · intro P _
    obtain ⟨front', rest', hside', -, hmass⟩ := matchStep_mass (P := fun p => P p.price)
      (fun _ _ => Iff.rfl) hstep s
    rw [hside] at hside'
    cases hside'
    exact hmass.symm

theorem matchStep_crosses {book book' : OrderBook} {trade : Trade}
    (h : book.matchStep = some (trade, book')) {b a : UInt64} (hb : book.frontPrice true = some b)
    (ha : book.frontPrice false = some a) : a ≤ b := by
  obtain ⟨bid, bids, ask, asks, hbids, hasks, hcross, -⟩ := matchStep_eq_some_iff.mp h
  simp only [frontPrice, side, hbids, hasks, List.head?_cons, Option.map_some,
    Option.some.injEq] at hb ha
  rw [← hb, ← ha]
  exact hcross

/-- An iteration in terms of `upTo` and `ahead`, where `c` is the price of the
    front: behind the front everything moves up by the traded quantity, and before
    it there is nothing. -/
theorem Sorted.matchStep_upTo {book book' : OrderBook} {trade : Trade} (h : book.Sorted)
    (hstep : book.matchStep = some (trade, book')) (s : Bool) :
    ∃ c, book.frontPrice s = some c ∧ ∀ x,
      (c = x ∧ book.upTo s x = book'.upTo s x + trade.quantity.toNat ∧
        book.ahead s x = 0 ∧ book'.ahead s x = 0) ∨
      (cost s c < cost s x ∧ book.upTo s x = book'.upTo s x + trade.quantity.toNat ∧
        book.ahead s x = book'.ahead s x + trade.quantity.toNat) ∨
      (cost s x < cost s c ∧ book.upTo s x = 0 ∧ book'.upTo s x = 0 ∧
        book.ahead s x = 0 ∧ book'.ahead s x = 0) := by
  obtain ⟨c, hc, hleft, hvolume⟩ := h.matchStep_volume hstep s
  have hahead : ∀ x, cost s x ≤ cost s c → book.ahead s x = 0 ∧ book'.ahead s x = 0 := by
    intro x hx
    have hzero : book'.ahead s x = 0 :=
      mass_eq_zero fun p hp => not_lt.mpr (hx.trans (hleft p hp))
    refine ⟨?_, hzero⟩
    unfold ahead at hzero ⊢
    rw [hvolume, if_neg (not_lt.mpr hx), hzero]
  refine ⟨c, hc, fun x => ?_⟩
  rcases lt_trichotomy (cost s c) (cost s x) with hx | hx | hx
  · right; left
    unfold upTo ahead
    exact ⟨hx, by rw [hvolume, if_pos hx.le], by rw [hvolume, if_pos hx]⟩
  · left
    have hupTo : book.upTo s x = book'.upTo s x + trade.quantity.toNat := by
      unfold upTo
      rw [hvolume, if_pos hx.le]
    exact ⟨cost_injective s hx, hupTo, hahead x hx.ge⟩
  · right; right
    have hzero : book'.upTo s x = 0 :=
      mass_eq_zero fun p hp => not_le.mpr (hx.trans_le (hleft p hp))
    refine ⟨hx, ?_, hzero, hahead x hx.le⟩
    unfold upTo at hzero ⊢
    rw [hvolume, if_neg (not_le.mpr hx), hzero]

/-! ## The cleared volume -/

/-- The quantity of all trades together. -/
def tradedVolume (trades : List Trade) : ℕ := (trades.map (·.quantity.toNat)).sum

@[simp] theorem tradedVolume_nil : tradedVolume [] = 0 := rfl

@[simp] theorem tradedVolume_cons (t : Trade) (trades : List Trade) :
    tradedVolume (t :: trades) = t.quantity.toNat + tradedVolume trades := rfl

/-- In an uncrossed book no price clears anything. -/
theorem Uncrossed.min_eq_zero {book : OrderBook} (h : book.Uncrossed) (x : UInt64) :
    min (book.demand x) (book.supply x) = 0 := by
  by_cases hbid : ∃ bid ∈ book.bids, x ≤ bid.price
  · obtain ⟨bid, hmem, hx⟩ := hbid
    have hzero : book.supply x = 0 := by
      refine mass_eq_zero fun ask hask hax => ?_
      have hlt := h bid hmem ask hask
      exact absurd (UInt64.le_trans hax hx) (UInt64.not_le.mpr hlt)
    rw [hzero, Nat.min_zero]
  · have hzero : book.demand x = 0 :=
      mass_eq_zero fun bid hmem hx => hbid ⟨bid, hmem, hx⟩
    rw [hzero, Nat.zero_min]

/-- The traded volume is the best that any price can clear. -/
theorem Sorted.isGreatest_tradedVolume {book : OrderBook} (h : book.Sorted) :
    IsGreatest (Set.range fun x => min (book.demand x) (book.supply x))
      (tradedVolume book.runMatch.1) := by
  induction book using runMatch_induction with
  | hnone book hstep =>
    have hu := h.uncrossed_iff.mpr hstep
    rw [runMatch_of_none hstep]
    refine ⟨⟨0, hu.min_eq_zero 0⟩, ?_⟩
    rintro _ ⟨x, rfl⟩
    exact (hu.min_eq_zero x).le
  | hsome book trade book' hstep ih =>
    obtain ⟨⟨x₀, hx₀⟩, hmax⟩ := ih (h.matchStep hstep)
    obtain ⟨b, hb, hbids⟩ := h.matchStep_upTo hstep true
    obtain ⟨a, ha, hasks⟩ := h.matchStep_upTo hstep false
    have hab := UInt64.le_iff_toNat_le.mp (matchStep_crosses hstep hb ha)
    rw [runMatch_of_some hstep, tradedVolume_cons]
    simp only [demand_eq_upTo, supply_eq_upTo] at hx₀ hmax ⊢
    simp only [cost, if_true, Bool.false_eq_true, if_false] at hbids hasks
    have hupper : ∀ x, min (book.upTo true x) (book.upTo false x) ≤
        trade.quantity.toNat + tradedVolume book'.runMatch.1 := by
      intro x
      have hle : min (book'.upTo true x) (book'.upTo false x) ≤ tradedVolume book'.runMatch.1 :=
        hmax ⟨x, rfl⟩
      have hb1 : book.upTo true x ≤ book'.upTo true x + trade.quantity.toNat := by
        rcases hbids x with h | h | h <;> omega
      have ha1 : book.upTo false x ≤ book'.upTo false x + trade.quantity.toNat := by
        rcases hasks x with h | h | h <;> omega
      omega
    refine ⟨?_, ?_⟩
    · -- the whole clears best where the rest does, or at `a` if the rest clears nothing
      rcases Nat.eq_zero_or_pos (tradedVolume book'.runMatch.1) with hzero | hpos
      · refine ⟨a, ?_⟩
        have hb1 : book.upTo true a = book'.upTo true a + trade.quantity.toNat := by
          rcases hbids a with h | h | h <;> omega
        have ha1 : book.upTo false a = book'.upTo false a + trade.quantity.toNat := by
          rcases hasks a with h | h | h <;> omega
        have hup := hupper a
        dsimp only
        omega
      · refine ⟨x₀, ?_⟩
        dsimp only at hx₀ ⊢
        have hb1 : book.upTo true x₀ = book'.upTo true x₀ + trade.quantity.toNat := by
          rcases hbids x₀ with h | h | h <;> omega
        have ha1 : book.upTo false x₀ = book'.upTo false x₀ + trade.quantity.toNat := by
          rcases hasks x₀ with h | h | h <;> omega
        omega
    · rintro _ ⟨x, rfl⟩
      exact hupper x

/-! ## Prices -/

/-- What rests at a price after the call: the part of its level that the cleared
    volume does not reach. -/
theorem Sorted.levelQty_runMatch {book : OrderBook} (h : book.Sorted) (s : Bool) (x : UInt64) :
    levelQty x (book.runMatch.2.side s) =
      book.upTo s x - max (book.ahead s x) (tradedVolume book.runMatch.1) := by
  induction book using runMatch_induction with
  | hnone book hstep =>
    have hlevel := book.upTo_eq_ahead_add s x
    rw [runMatch_of_none hstep, tradedVolume_nil]
    dsimp only
    omega
  | hsome book trade book' hstep ih =>
    obtain ⟨c, -, hside⟩ := h.matchStep_upTo hstep s
    rw [runMatch_of_some hstep, tradedVolume_cons, ih (h.matchStep hstep)]
    rcases hside x with h | h | h <;> omega

/-- The quantity of the fills between a bid priced `x` and an ask priced `y`. -/
def pairQty (x y : UInt64) (fills : List (OrderBook × Trade)) : ℕ :=
  mass (fun fill => fill.2.quantity.toNat)
    (fun fill => fill.1.frontPrice true = some x ∧ fill.1.frontPrice false = some y) fills

theorem min_min_add (u v t q : ℕ) :
    min (min (u + q) (v + q)) (q + t) = min (min u v) t + q := by
  rw [Nat.add_comm q t, Nat.add_min_add_right, Nat.add_min_add_right]

/-- What is traded between two prices: on the axis of cleared volume, the overlap
    of the stretch that the bids at `x` take up and the stretch that the asks at
    `y` take up. -/
theorem Sorted.pairQty_matchFills {book : OrderBook} (h : book.Sorted) (x y : UInt64) :
    pairQty x y book.matchFills =
      min (min (book.upTo true x) (book.upTo false y)) (tradedVolume book.runMatch.1) -
        max (book.ahead true x) (book.ahead false y) := by
  induction book using runMatch_induction with
  | hnone book hstep =>
    rw [runMatch_of_none hstep, matchFills_of_none hstep, tradedVolume_nil]
    simp [pairQty]
  | hsome book trade book' hstep ih =>
    obtain ⟨b, hb, hbids⟩ := h.matchStep_upTo hstep true
    obtain ⟨a, ha, hasks⟩ := h.matchStep_upTo hstep false
    have ih := ih (h.matchStep hstep)
    unfold pairQty at ih ⊢
    rw [runMatch_of_some hstep, matchFills_of_some hstep, tradedVolume_cons, mass_cons, ih]
    simp only [hb, ha, Option.some.injEq]
    have hbx : cost true b ≠ cost true x → b ≠ x := mt (congrArg (cost true))
    have hay : cost false a ≠ cost false y → a ≠ y := mt (congrArg (cost false))
    rcases hbids x with ⟨hc, h1, h2, h3⟩ | ⟨hc, h1, h2⟩ | ⟨hc, h1, h2, -⟩
    · rcases hasks y with ⟨hd, g1, g2, g3⟩ | ⟨hd, g1, g2⟩ | ⟨hd, g1, g2, -⟩
      · rw [if_pos ⟨hc, hd⟩, h1, h2, h3, g1, g2, g3, min_min_add, Nat.max_self, Nat.sub_zero,
          Nat.sub_zero, Nat.add_comm]
      · rw [if_neg fun h => hay hd.ne h.2, h1, h2, h3, g1, g2, min_min_add, Nat.zero_max,
          Nat.zero_max, Nat.add_sub_add_right, Nat.zero_add]
      · rw [if_neg fun h => hay hd.ne' h.2, g1, g2]
        simp
    · rw [if_neg fun h => hbx hc.ne h.1, Nat.zero_add]
      rcases hasks y with ⟨hd, g1, g2, g3⟩ | ⟨hd, g1, g2⟩ | ⟨hd, g1, g2, -⟩
      · rw [h1, h2, g1, g2, g3, min_min_add, Nat.max_zero, Nat.max_zero, Nat.add_sub_add_right]
      · -- both prices lie behind the fronts: the whole picture moves up
        rw [h1, h2, g1, g2, min_min_add, Nat.add_max_add_right, Nat.add_sub_add_right]
      · rw [g1, g2]
        simp
    · rw [if_neg fun h => hbx hc.ne' h.1, h1, h2]
      simp

/-! ## Orders -/

end OrderBook

/-- `p->quantity -= d`, for `d` at most the quantity. -/
def OrderPtr.lower (p : OrderPtr) (d : ℕ) : OrderPtr :=
  p.setQuantity (UInt64.ofNat (p.quantity.toNat - d))

theorem OrderPtr.lower_zero (p : OrderPtr) : p.lower 0 = p := by
  unfold lower setQuantity
  simp

namespace OrderBook

/-- The total quantity of `l`. -/
def totalQty (l : List OrderPtr) : ℕ := (l.map (·.quantity.toNat)).sum

@[simp] theorem totalQty_nil : totalQty [] = 0 := rfl

@[simp] theorem totalQty_cons (p : OrderPtr) (l : List OrderPtr) :
    totalQty (p :: l) = p.quantity.toNat + totalQty l := rfl

/-- `l` after the volume `v` has been taken from it in list order: the `k`-th
    order gives up `min q_k (v - (q_0 + ... + q_(k-1)))`. -/
def filled (v : ℕ) (l : List OrderPtr) : List OrderPtr :=
  l.mapIdx fun k p => p.lower (min p.quantity.toNat (v - totalQty (l.take k)))

theorem filled_cons (v : ℕ) (p : OrderPtr) (l : List OrderPtr) :
    filled v (p :: l) =
      p.lower (min p.quantity.toNat v) :: filled (v - p.quantity.toNat) l := by
  unfold filled
  rw [List.mapIdx_cons]
  simp only [List.take_zero, totalQty_nil, Nat.sub_zero, List.take_succ_cons, totalQty_cons,
    Nat.sub_sub]

theorem filled_zero (l : List OrderPtr) : filled 0 l = l := by
  induction l with
  | nil => rfl
  | cons p l ih => rw [filled_cons, Nat.min_zero, OrderPtr.lower_zero, Nat.zero_sub, ih]

/-- A part of the volume that the front can give is taken from the front alone. -/
theorem filled_fillFront {q : UInt64} {p : OrderPtr} (hq : q ≤ p.quantity) (v : ℕ)
    (rest : List OrderPtr) :
    filled (q.toNat + v) (p :: rest) = p.setQuantity 0 :: filled v (fillFront q p rest) ∨
    filled (q.toNat + v) (p :: rest) = filled v (fillFront q p rest) := by
  rcases fillFront_cases rest hq with ⟨rfl, hfill⟩ | ⟨hlt, hsub, hfill⟩
  · left
    rw [filled_cons, hfill, Nat.min_eq_left (by omega), Nat.add_sub_cancel_left]
    simp [OrderPtr.lower]
  · right
    rw [hfill, filled_cons, filled_cons, OrderPtr.setQuantity_quantity, hsub]
    congr 1
    · unfold OrderPtr.lower
      simp only [OrderPtr.setQuantity_quantity, hsub]
      rw [show p.quantity.toNat - min p.quantity.toNat (q.toNat + v) =
        p.quantity.toNat - q.toNat - min (p.quantity.toNat - q.toNat) v by omega]
      rfl
    · congr 1
      omega

/-- Each side gives up the traded volume in book order; the orders that are
    erased are a front part of those that end with nothing. -/
theorem runMatch_filled (book : OrderBook) (s : Bool) :
    ∃ n, book.runMatch.2.side s = (filled (tradedVolume book.runMatch.1) (book.side s)).drop n ∧
      ∀ p ∈ (filled (tradedVolume book.runMatch.1) (book.side s)).take n, p.quantity = 0 := by
  induction book using runMatch_induction with
  | hnone book hstep =>
    rw [runMatch_of_none hstep, tradedVolume_nil, filled_zero]
    exact ⟨0, rfl, by simp⟩
  | hsome book trade book' hstep ih =>
    obtain ⟨n, hlast, hgone⟩ := ih
    obtain ⟨front, rest, hside, -, hle, hside'⟩ := matchStep_side hstep s
    have hfill := filled_fillFront hle (tradedVolume book'.runMatch.1) rest
    rw [← hside', ← hside] at hfill
    rw [runMatch_of_some hstep, tradedVolume_cons]
    rcases hfill with hfill | hfill
    · refine ⟨n + 1, ?_, ?_⟩
      · rw [hfill, List.drop_succ_cons]
        exact hlast
      · rw [hfill, List.take_succ_cons]
        intro p hp
        rcases List.mem_cons.mp hp with rfl | hp
        · rfl
        · exact hgone p hp
    · rw [hfill]
      exact ⟨n, hlast, hgone⟩

/-- The volume that clears: the maximum over all prices of the smaller of demand
    and supply. -/
noncomputable def clearingVolume (book : OrderBook) : ℕ :=
  ⨆ x, min (book.demand x) (book.supply x)

/-- **Closed form of `match`.** On a sorted book a call trades exactly the
    clearing volume, which some price attains, and takes it from each side in
    book order. -/
theorem runMatch_closed_form {book : OrderBook} (h : book.Sorted) :
    IsGreatest (Set.range fun x => min (book.demand x) (book.supply x)) book.clearingVolume ∧
    tradedVolume book.runMatch.1 = book.clearingVolume ∧
    ∀ s, ∃ n,
      book.runMatch.2.side s = (filled book.clearingVolume (book.side s)).drop n ∧
      ∀ p ∈ (filled book.clearingVolume (book.side s)).take n, p.quantity = 0 := by
  have hgreatest := h.isGreatest_tradedVolume
  have hvolume : tradedVolume book.runMatch.1 = book.clearingVolume := hgreatest.csSup_eq.symm
  refine ⟨?_, hvolume, ?_⟩
  · rw [← hvolume]
    exact hgreatest
  · rw [← hvolume]
    exact runMatch_filled book

/-- Two bids against three asks; the second bid and the dearest ask do not trade. -/
def crossedBook : OrderBook where
  symbol := [66, 84, 67]
  bids := [⟨0, Order.make .zeroed 1 101 5 [66, 84, 67] true⟩,
    ⟨1, Order.make .zeroed 2 100 4 [66, 84, 67] true⟩]
  asks := [⟨2, Order.make .zeroed 3 99 3 [66, 84, 67] false⟩,
    ⟨3, Order.make .zeroed 4 101 4 [66, 84, 67] false⟩,
    ⟨4, Order.make .zeroed 5 102 1 [66, 84, 67] false⟩]

theorem clearingVolume_crossedBook : crossedBook.Sorted ∧ crossedBook.clearingVolume = 5 := by
  have hsorted : crossedBook.Sorted := by decide +kernel
  refine ⟨hsorted, ?_⟩
  rw [← (runMatch_closed_form hsorted).2.1]
  decide +kernel

end OrderBook

end TradingGateway.Book

import TradingGateway.Common.Mass
import TradingGateway.Book.Sides

/-!
# The `match` loop

`runMatch` iterates `matchStep` until it returns `none`. What an iteration
changes is said once (`matchStep_side`): on each side it lowers the quantity of
the front order and perhaps erases it; everything else an order carries (its
`face`) stays. The facts about the loop follow from it by `runMatch_induction`
and `runMatch_invariant`.

* `runMatch_matchStep`: the loop ends only where the fronts do not cross.
* `Sorted.runMatch`, `Valid.runMatch`: the sides stay sorted.
* `Sorted.uncrossed_runMatch`: afterwards every bid is priced below every ask.
* `map_snd_matchFills`, `mem_matchFills`: `matchFills` lists the trades of
  `runMatch`, each with the book in which an iteration makes it.
-/

namespace TradingGateway.Book

open Common Message

/-- An order without its remaining quantity: what `match` never changes. -/
def OrderPtr.face (p : OrderPtr) : OrderPtr := p.setQuantity 0

namespace OrderBook

/-! ## One iteration -/

theorem fillFront_face (q : UInt64) (p : OrderPtr) (rest : List OrderPtr) :
    (fillFront q p rest).map OrderPtr.face <:+ (p :: rest).map OrderPtr.face := by
  unfold fillFront
  dsimp only
  split_ifs
  · exact List.suffix_cons _ _
  · exact List.suffix_rfl

/-- The order a trade names on side `s`. -/
def namedBy (s : Bool) (t : Trade) : UInt64 := if s then t.buyOrderId else t.sellOrderId

/-- An iteration, seen from side `s`: the trade names the front, and its quantity
    is taken off it. -/
theorem matchStep_side {book book' : OrderBook} {trade : Trade}
    (h : book.matchStep = some (trade, book')) (s : Bool) :
    ∃ front rest, book.side s = front :: rest ∧ namedBy s trade = front.id ∧
      trade.quantity ≤ front.quantity ∧ book'.side s = fillFront trade.quantity front rest := by
  obtain ⟨bid, bids, ask, asks, hb, ha, -, rfl, rfl⟩ := matchStep_eq_some_iff.mp h
  cases s with
  | true => exact ⟨bid, bids, hb, rfl, Std.min_le_left, rfl⟩
  | false => exact ⟨ask, asks, ha, rfl, Std.min_le_right, rfl⟩

theorem matchStep_face {book book' : OrderBook} {trade : Trade}
    (h : book.matchStep = some (trade, book')) (s : Bool) :
    (book'.side s).map OrderPtr.face <:+ (book.side s).map OrderPtr.face := by
  obtain ⟨front, rest, hside, -, -, hside'⟩ := matchStep_side h s
  rw [hside, hside']
  exact fillFront_face trade.quantity front rest

/-- A fill uses the front up or leaves it with a smaller, positive quantity. -/
theorem fillFront_cases {q : UInt64} {p : OrderPtr} (rest : List OrderPtr)
    (hq : q ≤ p.quantity) :
    (p.quantity = q ∧ fillFront q p rest = rest) ∨
    (q.toNat < p.quantity.toNat ∧
      (p.quantity - q).toNat = p.quantity.toNat - q.toNat ∧
      fillFront q p rest = p.setQuantity (p.quantity - q) :: rest) := by
  have hsub := UInt64.toNat_sub_of_le p.quantity q hq
  have hle := UInt64.le_iff_toNat_le.mp hq
  by_cases h0 : p.quantity = q
  · left
    subst h0
    exact ⟨rfl, fillFront_self p rest⟩
  · right
    have hlt : q.toNat < p.quantity.toNat :=
      lt_of_le_of_ne hle fun heq => h0 (UInt64.toNat_inj.mp heq).symm
    have hne : p.quantity - q ≠ 0 := by
      intro heq
      rw [heq, UInt64.toNat_zero] at hsub
      omega
    exact ⟨hlt, hsub, if_neg hne⟩

/-- A fill takes its quantity from the front and from nothing else. `P` selects
    orders by anything but their quantity. -/
theorem fillFront_mass {P : OrderPtr → Prop} [DecidablePred P]
    (hP : ∀ p q, P (OrderPtr.setQuantity p q) ↔ P p) {q : UInt64} {p : OrderPtr}
    (rest : List OrderPtr) (hq : q ≤ p.quantity) :
    mass (fun p => p.quantity.toNat) P (fillFront q p rest) + (if P p then q.toNat else 0) =
      mass (fun p => p.quantity.toNat) P (p :: rest) := by
  rw [mass_cons]
  rcases fillFront_cases rest hq with ⟨rfl, hfill⟩ | ⟨hlt, hsub, hfill⟩
  · rw [hfill, add_comm]
  · rw [hfill, mass_cons, OrderPtr.setQuantity_quantity, hsub]
    simp only [hP]
    split_ifs <;> omega

theorem matchStep_mass {P : OrderPtr → Prop} [DecidablePred P]
    (hP : ∀ p q, P (OrderPtr.setQuantity p q) ↔ P p) {book book' : OrderBook} {trade : Trade}
    (h : book.matchStep = some (trade, book')) (s : Bool) :
    ∃ front rest, book.side s = front :: rest ∧ namedBy s trade = front.id ∧
      mass (fun p => p.quantity.toNat) P (book'.side s) +
          (if P front then trade.quantity.toNat else 0) =
        mass (fun p => p.quantity.toNat) P (book.side s) := by
  obtain ⟨front, rest, hside, hid, hle, hside'⟩ := matchStep_side h s
  refine ⟨front, rest, hside, hid, ?_⟩
  rw [hside, hside']
  exact fillFront_mass hP rest hle

/-! ## The loop -/

theorem runMatch_of_none {book : OrderBook} (h : book.matchStep = none) :
    book.runMatch = ([], book) := by
  rw [runMatch]
  split <;> simp_all

theorem runMatch_of_some {book book' : OrderBook} {trade : Trade}
    (h : book.matchStep = some (trade, book')) :
    book.runMatch = (trade :: book'.runMatch.1, book'.runMatch.2) := by
  rw [runMatch]
  split <;> simp_all

theorem matchFills_of_none {book : OrderBook} (h : book.matchStep = none) :
    book.matchFills = [] := by
  rw [matchFills]
  split <;> simp_all

theorem matchFills_of_some {book book' : OrderBook} {trade : Trade}
    (h : book.matchStep = some (trade, book')) :
    book.matchFills = (book, trade) :: book'.matchFills := by
  rw [matchFills]
  split <;> simp_all

/-- Induction along the iterations of the loop. -/
theorem runMatch_induction {P : OrderBook → Prop}
    (hnone : ∀ book, book.matchStep = none → P book)
    (hsome : ∀ book trade book', book.matchStep = some (trade, book') → P book' → P book)
    (book : OrderBook) : P book := by
  induction book using runMatch.induct with
  | case1 book h => exact hnone book h
  | case2 book trade book' h ih => exact hsome book trade book' h ih

/-- What every iteration keeps holds of the final book and of the book of
    every fill. -/
theorem runMatch_invariant {P : OrderBook → Prop}
    (hP : ∀ book trade book', book.matchStep = some (trade, book') → P book → P book')
    (book : OrderBook) (h : P book) :
    P book.runMatch.2 ∧ ∀ fill ∈ book.matchFills, P fill.1 := by
  induction book using runMatch_induction with
  | hnone book hstep => simp [runMatch_of_none hstep, matchFills_of_none hstep, h]
  | hsome book trade book' hstep ih =>
    obtain ⟨hlast, hfills⟩ := ih (hP _ _ _ hstep h)
    rw [runMatch_of_some hstep, matchFills_of_some hstep]
    refine ⟨hlast, ?_⟩
    intro fill hfill
    rcases List.mem_cons.mp hfill with rfl | hfill
    · exact h
    · exact hfills fill hfill

theorem runMatch_matchStep (book : OrderBook) : book.runMatch.2.matchStep = none := by
  induction book using runMatch_induction with
  | hnone book hstep => rwa [runMatch_of_none hstep]
  | hsome book trade book' hstep ih => rwa [runMatch_of_some hstep]

theorem map_snd_matchFills (book : OrderBook) :
    book.matchFills.map Prod.snd = book.runMatch.1 := by
  induction book using runMatch_induction with
  | hnone book hstep => simp [runMatch_of_none hstep, matchFills_of_none hstep]
  | hsome book trade book' hstep ih => simp [runMatch_of_some hstep, matchFills_of_some hstep, ih]

theorem mem_matchFills {book : OrderBook} {fill : OrderBook × Trade}
    (h : fill ∈ book.matchFills) : ∃ book', fill.1.matchStep = some (fill.2, book') := by
  induction book using runMatch_induction with
  | hnone book hstep => simp [matchFills_of_none hstep] at h
  | hsome book trade book' hstep ih =>
    rw [matchFills_of_some hstep] at h
    rcases List.mem_cons.mp h with rfl | h
    · exact ⟨book', hstep⟩
    · exact ih h

/-! ## What the loop keeps -/

section Face

variable {l l' : List OrderPtr}

theorem pairwise_of_face {R : OrderPtr → OrderPtr → Prop} (hR : ∀ a b, R a.face b.face ↔ R a b)
    (hsub : (l'.map OrderPtr.face).Sublist (l.map OrderPtr.face)) (h : l.Pairwise R) :
    l'.Pairwise R := by
  have hl : (l.map OrderPtr.face).Pairwise R := List.pairwise_map.mpr (h.imp (hR _ _).mpr)
  exact (List.pairwise_map.mp (List.Pairwise.sublist hsub hl)).imp (hR _ _).mp

theorem forall_of_face {P : OrderPtr → Prop} (hP : ∀ a, P a.face ↔ P a)
    (hsub : (l'.map OrderPtr.face).Sublist (l.map OrderPtr.face)) (h : ∀ p ∈ l, P p) :
    ∀ p ∈ l', P p := by
  intro p hp
  obtain ⟨a, ha, hpa⟩ := List.mem_map.mp (hsub.subset (List.mem_map_of_mem hp))
  rw [← hP, ← hpa, hP]
  exact h a ha

end Face

theorem Sorted.of_face {book book' : OrderBook} (h : book.Sorted)
    (hs : ∀ s, ((book'.side s).map OrderPtr.face).Sublist ((book.side s).map OrderPtr.face)) :
    book'.Sorted :=
  fun s => pairwise_of_face (fun _ _ => Iff.rfl) (hs s) (h s)

theorem Sorted.matchStep {book book' : OrderBook} {trade : Trade} (h : book.Sorted)
    (hstep : book.matchStep = some (trade, book')) : book'.Sorted :=
  h.of_face fun s => (matchStep_face hstep s).sublist

theorem Sorted.runMatch {book : OrderBook} (h : book.Sorted) : book.runMatch.2.Sorted :=
  (runMatch_invariant (fun _ _ _ hstep h => h.matchStep hstep) book h).1

theorem Valid.matchStep {book book' : OrderBook} {trade : Trade} (h : book.Valid)
    (hstep : book.matchStep = some (trade, book')) : book'.Valid where
  isBuy s := forall_of_face (fun _ => Iff.rfl) (matchStep_face hstep s).sublist (h.isBuy s)
  sorted := h.isSorted.matchStep hstep

theorem Valid.runMatch {book : OrderBook} (h : book.Valid) : book.runMatch.2.Valid :=
  (runMatch_invariant (fun _ _ _ hstep h => h.matchStep hstep) book h).1

theorem Valid.matchFills {book : OrderBook} (h : book.Valid) :
    ∀ fill ∈ book.matchFills, fill.1.Valid :=
  (runMatch_invariant (fun _ _ _ hstep h => h.matchStep hstep) book h).2

theorem runMatch_face (book : OrderBook) (s : Bool) :
    (book.runMatch.2.side s).map OrderPtr.face <:+ (book.side s).map OrderPtr.face := by
  refine (runMatch_invariant
    (P := fun b => (b.side s).map OrderPtr.face <:+ (book.side s).map OrderPtr.face)
    ?_ book List.suffix_rfl).1
  intro _ _ _ hstep h
  exact (matchStep_face hstep s).trans h

/-! ## Crossing -/

/-- Every resting bid is priced strictly below every resting ask. If a side is
    empty this says nothing. -/
def Uncrossed (book : OrderBook) : Prop :=
  ∀ bid ∈ book.bids, ∀ ask ∈ book.asks, bid.price < ask.price

/-- The front of a sorted side is its best order. -/
theorem Sorted.rank_head_le {book : OrderBook} (h : book.Sorted) {s : Bool} {p : OrderPtr}
    {rest : List OrderPtr} (hs : book.side s = p :: rest) :
    ∀ x ∈ book.side s, rank s p ≤ rank s x := by
  intro x hx
  have hsorted := h s
  rw [hs] at hx hsorted
  rcases List.mem_cons.mp hx with rfl | hx
  · exact le_rfl
  · exact (List.pairwise_cons.mp hsorted).1 x hx

theorem Sorted.price_le_bid {book : OrderBook} (h : book.Sorted) {bid : OrderPtr}
    {bids : List OrderPtr} (hb : book.bids = bid :: bids) : ∀ x ∈ book.bids, x.price ≤ bid.price :=
  fun x hx => rank_le_iff_bid.mp (h.rank_head_le (s := true) hb x hx)

theorem Sorted.ask_le_price {book : OrderBook} (h : book.Sorted) {ask : OrderPtr}
    {asks : List OrderPtr} (ha : book.asks = ask :: asks) : ∀ x ∈ book.asks, ask.price ≤ x.price :=
  fun x hx => rank_le_iff_ask.mp (h.rank_head_le (s := false) ha x hx)

/-- Where the sides are sorted, comparing the fronts compares all orders. -/
theorem Sorted.uncrossed_iff {book : OrderBook} (h : book.Sorted) :
    book.Uncrossed ↔ book.matchStep = none := by
  rw [matchStep_eq_none_iff]
  constructor
  · intro hu bid hbid ask hask
    exact hu bid (List.mem_of_mem_head? hbid) ask (List.mem_of_mem_head? hask)
  · intro hfront bid hbid ask hask
    obtain ⟨bid₀, bids, hb⟩ := List.exists_cons_of_ne_nil (List.ne_nil_of_mem hbid)
    obtain ⟨ask₀, asks, ha⟩ := List.exists_cons_of_ne_nil (List.ne_nil_of_mem hask)
    have h1 := h.price_le_bid hb bid hbid
    have h2 := h.ask_le_price ha ask hask
    have h3 := hfront bid₀ (by simp [hb]) ask₀ (by simp [ha])
    exact UInt64.lt_of_le_of_lt h1 (UInt64.lt_of_lt_of_le h3 h2)

theorem Sorted.uncrossed_runMatch {book : OrderBook} (h : book.Sorted) :
    book.runMatch.2.Uncrossed :=
  h.runMatch.uncrossed_iff.mpr (runMatch_matchStep book)

end OrderBook

end TradingGateway.Book

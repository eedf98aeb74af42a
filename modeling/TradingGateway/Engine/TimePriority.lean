import TradingGateway.Engine.PricePriority
import TradingGateway.Engine.RestingOrders

/-!
# Time priority

`add_order` appends the new order and re-sorts the whole side by price with
`std::sort`, which promises nothing about orders of equal price. Whether the
earlier of two such orders stands ahead of the later one is therefore up to the
library. The serial number of an `OrderPtr` is the position of its `ADD` among
all `ADD`s.

* `later_order_trades_first`: with a conforming `std::sort` the later of two
  buys at one price trades while the earlier one rests untouched.
* `timePriority_iff`: a run of `ADD`s and `CANCEL`s keeps time priority at every
  moment exactly when each of its sorts happens to leave the orders of equal
  price as they were; it does so for every conforming sort exactly when no `ADD`
  meets an order of its price.
-/

namespace TradingGateway.Book.OrderBook

open Common Message

/-- Of two orders of a side at one price, the one added first stands ahead. -/
def TimeOrdered (book : OrderBook) : Prop :=
  ∀ s, TiesBy OrderPtr.price OrderPtr.serial (book.side s)

/-- No order of the same side and price was added before either order of the
    trade. -/
def EarliestTraded (book : OrderBook) (trade : Trade) : Prop :=
  ∃ bid ∈ book.bids, ∃ ask ∈ book.asks,
    trade.buyOrderId = bid.id ∧ trade.sellOrderId = ask.id ∧
    (∀ x ∈ book.bids, x.price = bid.price → bid.serial ≤ x.serial) ∧
    (∀ x ∈ book.asks, x.price = ask.price → ask.serial ≤ x.serial)

theorem timeOrdered_new (symbol : Symbol) : (new symbol).TimeOrdered := by
  intro s
  simp [TiesBy]

theorem TimeOrdered.of_sublist {book book' : OrderBook} (h : book.TimeOrdered)
    (hs : ∀ s, (book'.side s).Sublist (book.side s)) : book'.TimeOrdered :=
  fun s => (h s).sublist (hs s)

theorem TimeOrdered.matchStep {book book' : OrderBook} {trade : Trade} (h : book.TimeOrdered)
    (hstep : book.matchStep = some (trade, book')) : book'.TimeOrdered :=
  fun s => pairwise_of_face (fun _ _ => Iff.rfl) (matchStep_face hstep s).sublist (h s)

theorem TimeOrdered.runMatch {book : OrderBook} (h : book.TimeOrdered) :
    book.runMatch.2.TimeOrdered ∧ ∀ fill ∈ book.matchFills, fill.1.TimeOrdered :=
  runMatch_invariant (fun _ _ _ hstep h => h.matchStep hstep) book h

theorem TiesBy.head_serial_le {p : OrderPtr} {l : List OrderPtr}
    (h : TiesBy OrderPtr.price OrderPtr.serial (p :: l)) :
    ∀ x ∈ p :: l, x.price = p.price → p.serial ≤ x.serial := by
  intro x hx hprice
  rcases List.mem_cons.mp hx with rfl | hx
  · exact le_rfl
  · exact ((List.pairwise_cons.mp h).1 x hx hprice.symm).le

theorem TimeOrdered.earliestTraded {book book' : OrderBook} {trade : Trade} (h : book.TimeOrdered)
    (hstep : book.matchStep = some (trade, book')) : book.EarliestTraded trade := by
  obtain ⟨bid, bids, ask, asks, hb, ha, -, rfl, -⟩ := matchStep_eq_some_iff.mp hstep
  have htrue := h true
  have hfalse := h false
  simp only [side, hb, ha] at htrue hfalse
  exact ⟨bid, by simp [hb], ask, by simp [ha], rfl, rfl, hb ▸ TiesBy.head_serial_le htrue,
    ha ▸ TiesBy.head_serial_le hfalse⟩

theorem TimeOrdered.append {book : OrderBook} (h : book.TimeOrdered) {p : OrderPtr}
    (hp : book.SerialsBelow p.serial) (s : Bool) :
    TiesBy OrderPtr.price OrderPtr.serial (book.side s ++ [p]) := by
  refine List.pairwise_append.mpr ⟨h s, by simp, ?_⟩
  intro a ha b hb _
  rw [List.mem_singleton.mp hb]
  exact hp s a ha

/-- The sort of `add_order` leaves the orders of equal price as they were. -/
def SortKeepsTies (S : StdSort OrderPtr) (book : OrderBook) (p : OrderPtr) : Prop :=
  KeepsTies OrderPtr.price (book.side p.isBuy ++ [p])
    (S.run (before p.isBuy) (book.side p.isBuy ++ [p]))

/-- A stable sort keeps the ties of every side. -/
theorem sortKeepsTies_insertion (book : OrderBook) (p : OrderPtr) :
    book.SortKeepsTies .insertion p :=
  KeepsTies.of_injective (cost_injective p.isBuy)
    (StdSort.insertion_keepsTies (before_iff p.isBuy) _)

/-- Adding the latest order keeps the time order exactly when the sort keeps
    the ties. -/
theorem TimeOrdered.addOrder_iff {book : OrderBook} (h : book.TimeOrdered) {p : OrderPtr}
    (hp : book.SerialsBelow p.serial) (S : StdSort OrderPtr) :
    (book.addOrder S p).TimeOrdered ↔ book.SortKeepsTies S p := by
  unfold SortKeepsTies
  rw [← ties_pairwise_iff (S.perm_of_key (before_iff _) _) (h.append hp p.isBuy)]
  constructor
  · intro hadd
    have := hadd p.isBuy
    rwa [addOrder_side, if_pos rfl] at this
  · intro hside s
    rw [addOrder_side]
    split_ifs with hs
    · subst hs
      exact hside
    · exact h s

end TradingGateway.Book.OrderBook

namespace TradingGateway.Engine.MatchingEngine

open Common Message Book

/-- At every moment of the command's processing, and afterwards, the orders of
    equal price stand in the order of their `ADD`s, and only the earliest of
    them trades. -/
def TimePriorityStep (e : MatchingEngine) (c : Input) : Prop :=
  (∀ key, ((machine.step e c).book key).TimeOrdered) ∧
    ∀ fill ∈ e.fills c, fill.1.TimeOrdered ∧ fill.1.EarliestTraded fill.2

/-- If the command is an `ADD`, its sort leaves the orders of equal price as
    they were. -/
def SortKeepsTies (e : MatchingEngine) (c : Input) : Prop :=
  c.order.command = .add →
    (e.book c.order.symbolString).SortKeepsTies c.sort ⟨e.allocated, c.order⟩

/-- The state in which the next `ADD` is the latest of its price: the books are
    in time order and hold only orders allocated so far. -/
def TimeInv (e : MatchingEngine) : Prop :=
  ∀ key, (e.book key).TimeOrdered ∧ (e.book key).SerialsBelow e.allocated

theorem timeInv_init : TimeInv machine.init := by
  intro key
  refine ⟨OrderBook.timeOrdered_new key, ?_⟩
  intro s p hp
  simp [machine] at hp

/-- An `ADD` has time priority exactly when its sort keeps the ties: if it does
    not, the book is out of order before the first trade. -/
theorem timePriorityStep_add {e : MatchingEngine} (h : e.TimeInv) {c : Input}
    (hc : c.order.command = .add) :
    (e.TimePriorityStep c ↔ e.SortKeepsTies c) ∧
      (e.SortKeepsTies c → TimeInv (machine.step e c)) := by
  set key := c.order.symbolString with hkey
  set added := (e.book key).addOrder c.sort ⟨e.allocated, c.order⟩ with hadded
  have hiff : added.TimeOrdered ↔ e.SortKeepsTies c := by
    rw [hadded, (h key).1.addOrder_iff (h key).2 c.sort, SortKeepsTies]
    simp [hc, ← hkey]
  have hbook : ∀ k, (machine.step e c).book k = if k = key then added.runMatch.2 else e.book k := by
    intro k
    rw [book_step, opOn, hc]
    by_cases hk : k = key
    · simp [hk, applyOp, hadded, ← hkey]
    · simp [hk, applyOp, ← hkey, Ne.symm hk]
  have hfills : e.fills c = added.matchFills := by
    simp [fills, hc, hadded, hkey]
  refine ⟨⟨?_, ?_⟩, ?_⟩
  · rintro ⟨hafter, hfill⟩
    rw [← hiff]
    cases hstep : added.matchStep with
    | none =>
      have := hafter key
      rwa [hbook, if_pos rfl, OrderBook.runMatch_of_none hstep] at this
    | some r =>
      rw [hfills, OrderBook.matchFills_of_some hstep] at hfill
      exact (hfill _ List.mem_cons_self).1
  · intro hkeep
    obtain ⟨hlast, hmoments⟩ := (hiff.mpr hkeep).runMatch
    constructor
    · intro k
      rw [hbook]
      split_ifs
      · exact hlast
      · exact (h k).1
    · intro fill hfill
      obtain ⟨book', hstep⟩ := exists_matchStep_of_mem_fills hfill
      rw [hfills] at hfill
      exact ⟨hmoments fill hfill, (hmoments fill hfill).earliestTraded hstep⟩
  · intro hkeep k
    have halloc : (machine.step e c).allocated = e.allocated + 1 := by
      simp [machine, processOrder, hc, processAdd]
    rw [hbook, halloc]
    split_ifs
    · exact ⟨(hiff.mpr hkeep).runMatch.1, OrderBook.serialsBelow_add (h key).2 c.sort c.order⟩
    · exact ⟨(h k).1, fun s p hp => ((h k).2 s p hp).trans (Nat.lt_succ_self _)⟩

/-- A `CANCEL` only removes orders. -/
theorem timePriorityStep_cancel {e : MatchingEngine} (h : e.TimeInv) {c : Input}
    (hc : c.order.command = .cancel) :
    e.TimePriorityStep c ∧ TimeInv (machine.step e c) := by
  have hsub : ∀ k s, (((machine.step e c).book k).side s).Sublist ((e.book k).side s) := by
    intro k s
    rw [book_step, opOn, hc]
    dsimp only
    split_ifs
    · exact OrderBook.cancelOrder_sublist _ _ s
    · exact List.Sublist.refl _
  have halloc : (machine.step e c).allocated = e.allocated := by
    simp only [machine, processOrder, hc, processCancel]
    split <;> simp
  have htime : ∀ k, ((machine.step e c).book k).TimeOrdered := fun k => (h k).1.of_sublist (hsub k)
  refine ⟨⟨htime, ?_⟩, fun k => ⟨htime k, ?_⟩⟩
  · simp [fills, hc]
  · intro s p hp
    rw [halloc]
    exact (h k).2 s p ((hsub k s).subset hp)

theorem timePriorityStep_iff {e : MatchingEngine} (h : e.TimeInv) {c : Input}
    (hc : c.order.command ≠ .modify) :
    (e.TimePriorityStep c ↔ e.SortKeepsTies c) ∧
      (e.SortKeepsTies c → TimeInv (machine.step e c)) := by
  cases hcmd : c.order.command with
  | add => exact timePriorityStep_add h hcmd
  | cancel =>
    obtain ⟨hstep, hinv⟩ := timePriorityStep_cancel h hcmd
    have hkeep : e.SortKeepsTies c := by simp [SortKeepsTies, hcmd]
    exact ⟨⟨fun _ => hkeep, fun _ => hstep⟩, fun _ => hinv⟩
  | modify => exact absurd hcmd hc

/-- A given run keeps time priority exactly when each of its sorts keeps the
    ties it meets. -/
theorem timePriority_iff_sortKeepsTies (cmds : List Input)
    (hcmds : ∀ c ∈ cmds, c.order.command ≠ .modify) :
    machine.Guarded TimePriorityStep cmds ↔ machine.Guarded SortKeepsTies cmds :=
  machine.guarded_congr (P := TimeInv) timeInv_init (fun _ _ h hc => timePriorityStep_iff h hc)
    cmds hcmds

theorem timeInv_after {cmds : List Input} (hcmds : ∀ c ∈ cmds, c.order.command ≠ .modify)
    (hg : machine.Guarded SortKeepsTies cmds) : TimeInv (after cmds) := by
  refine machine.after_of_guarded
    (G := fun e c => c.order.command ≠ .modify ∧ e.SortKeepsTies c) timeInv_init ?_ cmds ?_
  · rintro e c h ⟨hc, hk⟩
    exact (timePriorityStep_iff h hc).2 hk
  · intro done c hdone
    exact ⟨hcmds c (hdone.subset (by simp)), hg done c hdone⟩

/-! ## Every sort -/

/-- If the command is an `ADD`, no order rests at its price on its side. -/
def ArrivesUntied (e : MatchingEngine) (c : Input) : Prop :=
  c.order.command = .add →
    ∀ x ∈ (e.book c.order.symbolString).side c.order.isBuy, x.price ≠ c.order.price

/-- No two orders of a side of a book have the same price. -/
def PricesDistinct (e : MatchingEngine) : Prop :=
  ∀ key s, ((e.book key).side s).Pairwise fun a b => a.price ≠ b.price

theorem ArrivesUntied.pairwise_append {e : MatchingEngine} (h : e.PricesDistinct) {c : Input}
    (hc : c.order.command = .add) (hu : e.ArrivesUntied c) :
    ((e.book c.order.symbolString).side c.order.isBuy ++
      [(⟨e.allocated, c.order⟩ : OrderPtr)]).Pairwise fun a b => a.price ≠ b.price := by
  refine List.pairwise_append.mpr ⟨h _ _, by simp, ?_⟩
  intro a ha b hb
  rw [List.mem_singleton.mp hb]
  exact hu hc a ha

theorem pricesDistinct_step {e : MatchingEngine} (h : e.PricesDistinct) {c : Input}
    (hc : c.order.command ≠ .modify) (hu : e.ArrivesUntied c) :
    PricesDistinct (machine.step e c) := by
  intro key s
  rw [book_step, opOn]
  cases hcmd : c.order.command with
  | modify => exact absurd hcmd hc
  | cancel =>
    dsimp only
    split_ifs
    · exact List.Pairwise.sublist (OrderBook.cancelOrder_sublist _ _ s) (h key s)
    · exact h key s
  | add =>
    dsimp only
    split_ifs with hk
    · refine OrderBook.pairwise_of_face (fun _ _ => Iff.rfl)
        (OrderBook.runMatch_face _ s).sublist ?_
      subst hk
      by_cases hs : s = c.order.isBuy
      · subst hs
        have hperm := OrderBook.addOrder_side_perm c.sort (e.book c.order.symbolString)
          ⟨e.allocated, c.order⟩
        exact (hperm.pairwise_iff fun hne => hne.symm).mpr (hu.pairwise_append h hcmd)
      · rw [OrderBook.addOrder_side, if_neg hs]
        exact h _ s
    · exact h key s

theorem sortKeepsTies_of_arrivesUntied {cmds : List Input}
    (hcmds : ∀ c ∈ cmds, c.order.command ≠ .modify) (hg : machine.Guarded ArrivesUntied cmds) :
    machine.Guarded SortKeepsTies cmds := by
  intro done c hdone hadd
  have hdistinct : PricesDistinct (after done) := by
    refine machine.after_of_guarded
      (G := fun e c => c.order.command ≠ .modify ∧ e.ArrivesUntied c) ?_ ?_ done ?_
    · intro key s
      simp [machine]
    · rintro e c h ⟨hc, hu⟩
      exact pricesDistinct_step h hc hu
    · intro done' c' hdone'
      have hpre := hdone'.trans ((List.prefix_append done [c]).trans hdone)
      exact ⟨hcmds c' (hpre.subset (by simp)), hg done' c' hpre⟩
  exact KeepsTies.of_pairwise_ne (c.sort.perm_of_key (OrderBook.before_iff _) _)
    ((hg done c hdone).pairwise_append hdistinct hadd)

/-- The reversing sort does not keep the ties of an order that arrives at the
    price of a resting one. -/
theorem ne_price_of_reversing_keepsTies {b : OrderBook} {p : OrderPtr}
    (hserial : b.SerialsBelow p.serial) (hk : b.SortKeepsTies .reversing p) :
    ∀ x ∈ b.side p.isBuy, x.price ≠ p.price := by
  intro x hx hprice
  have hrev := hk p.price
  simp only [← OrderBook.rank_eq_iff (s := p.isBuy)] at hrev
  rw [StdSort.reversing_filter (OrderBook.before_iff _), List.filter_append] at hrev
  -- the group starts with an order that was there before `p`, its reverse with `p`
  have hmem : x ∈ (b.side p.isBuy).filter
      fun a => OrderBook.rank p.isBuy a = OrderBook.rank p.isBuy p := by
    simpa [OrderBook.rank_eq_iff] using ⟨hx, hprice⟩
  obtain ⟨y, ys, hys⟩ := List.exists_cons_of_ne_nil (List.ne_nil_of_mem hmem)
  have hy : y ∈ b.side p.isBuy := List.mem_of_mem_filter (hys ▸ List.mem_cons_self)
  rw [hys] at hrev
  simp only [List.filter_cons, List.filter_nil, decide_true, if_true, List.reverse_append,
    List.reverse_cons, List.reverse_nil, List.nil_append, List.cons_append, List.cons.injEq] at hrev
  have := hserial p.isBuy y hy
  rw [← hrev.1] at this
  exact lt_irrefl _ this

/-- **Time priority.** For a sequence of `ADD`s and `CANCEL`s:

    * with given sorts, the run keeps time priority at every moment if and only
      if the sort of each `ADD` leaves the orders of equal price in the order
      in which it got them;
    * it does so whatever conforming sorts are used if and only if every `ADD`
      arrives at a price at which no order rests on its side of its book. -/
theorem timePriority_iff (orders : List Order) (horders : ∀ o ∈ orders, o.command ≠ .modify) :
    (∀ cmds : List Input, cmds.map Input.order = orders →
      (machine.Guarded TimePriorityStep cmds ↔ machine.Guarded SortKeepsTies cmds)) ∧
    ((∀ cmds : List Input, cmds.map Input.order = orders → machine.Guarded TimePriorityStep cmds) ↔
      ∀ cmds : List Input, cmds.map Input.order = orders → machine.Guarded ArrivesUntied cmds) := by
  have hcmds : ∀ cmds : List Input, cmds.map Input.order = orders →
      ∀ c ∈ cmds, c.order.command ≠ .modify := by
    rintro cmds rfl c hc
    exact horders _ (List.mem_map_of_mem hc)
  refine ⟨fun cmds h => timePriority_iff_sortKeepsTies cmds (hcmds cmds h), ?_⟩
  constructor
  · intro hall cmds hmap done c hdone hadd
    obtain ⟨rest, rfl⟩ := hdone
    -- the same commands, with the reversing sort for `c`
    set c' : Input := ⟨.reversing, c.order⟩ with hc'
    have hmap' : (done ++ [c'] ++ rest).map Input.order = orders := by
      simpa [hc'] using hmap
    have hkeep := (timePriority_iff_sortKeepsTies _ (hcmds _ hmap')).mp (hall _ hmap')
    have hinv : TimeInv (after done) := by
      refine timeInv_after (fun d hd => hcmds _ hmap' d (by simp [hd])) ?_
      intro pre d hpre
      exact hkeep pre d (hpre.trans ((List.prefix_append _ _).trans (List.prefix_append _ _)))
    exact ne_price_of_reversing_keepsTies (p := ⟨(after done).allocated, c.order⟩) (hinv _).2
      (hkeep done c' (List.prefix_append _ _) hadd)
  · intro hall cmds hmap
    exact (timePriority_iff_sortKeepsTies cmds (hcmds cmds hmap)).mpr
      (sortKeepsTies_of_arrivesUntied (hcmds cmds hmap) (hall cmds hmap))

/-- Two buys of 10 at the price 100, ids 1 and 2, sorted by `S`. -/
def tiedBuys (S : StdSort OrderPtr) : List Input :=
  [⟨S, addCommand .zeroed (Order.make .zeroed 1 100 10 [66, 84, 67] true)⟩,
   ⟨S, addCommand .zeroed (Order.make .zeroed 2 100 10 [66, 84, 67] true)⟩]

/-- A sell of 5 at the price 100, id 3. -/
def crossingSell (S : StdSort OrderPtr) : Input :=
  ⟨S, addCommand .zeroed (Order.make .zeroed 3 100 5 [66, 84, 67] false)⟩

/-- With insertion sort the two buys are never swapped. -/
theorem timePriority_tiedBuys :
    (∀ o ∈ (tiedBuys .insertion).map Input.order, o.command ≠ .modify) ∧
      machine.Guarded TimePriorityStep (tiedBuys .insertion) := by
  have horders : ∀ o ∈ (tiedBuys .insertion).map Input.order, o.command ≠ .modify := by
    simp [tiedBuys, addCommand, Order.copy, Order.make]
  refine ⟨horders, ((timePriority_iff _ horders).1 _ rfl).mpr ?_⟩
  intro done c hdone _
  have hsort : ∀ d ∈ tiedBuys .insertion, d.sort = .insertion := by simp [tiedBuys]
  rw [hsort c (hdone.subset (by simp))]
  exact OrderBook.sortKeepsTies_insertion _ _

/-- With a `std::sort` that reverses orders of equal price the second buy is
    put ahead of the first, and the sell then trades with the second while the
    first rests with all of its quantity. -/
theorem later_order_trades_first :
    ¬ machine.Guarded TimePriorityStep (tiedBuys .reversing) ∧
      (((after (tiedBuys .reversing)).processOrder .reversing
        (crossingSell .reversing).order).2.map (·.buyOrderId)) = [2] ∧
      (((after (tiedBuys .reversing ++ [crossingSell .reversing])).book [66, 84, 67]).bids.map
        fun p => (p.id, p.quantity)) = [(2, 5), (1, 10)] := by
  refine ⟨?_, by decide +kernel, by decide +kernel⟩
  intro h
  have hlast := h [(tiedBuys .reversing).get ⟨0, by decide⟩]
    ((tiedBuys .reversing).get ⟨1, by decide⟩) List.prefix_rfl
  exact absurd (hlast.1 [66, 84, 67] true) (by decide +kernel)

end TradingGateway.Engine.MatchingEngine

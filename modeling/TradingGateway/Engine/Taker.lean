import TradingGateway.Common.Sweep
import TradingGateway.Engine.Index
import TradingGateway.Engine.Uncrossed

/-!
# The incoming order walks the other side

`process_orders` adds an order to its side, sorts the side and then lets `match`
pair the fronts of the two sides until they no longer cross. What this does for
the incoming order is said without the loop and without the sort: it sweeps the
other side from the front, as far as its limit reaches and its quantity lasts.

* `walk`: the sweep of the other side by an order.
* `Valid.runMatch_addOrder`: on an uncrossed book `add_order` and `match` make
  exactly the trades of the walk, in its order, and leave the other side as the
  walk leaves it. The own side gets the rest of the order, if there is one.
* `add_walks`: the result for every `ADD` of every run.
-/

namespace TradingGateway.Book.OrderBook

open Common Message

/-- The limit of the order `p` reaches the price of `m` on the other side. -/
def Meets (p m : OrderPtr) : Prop := if p.isBuy then m.price ≤ p.price else p.price ≤ m.price

instance (p m : OrderPtr) : Decidable (Meets p m) :=
  inferInstanceAs (Decidable (if p.isBuy then m.price ≤ p.price else p.price ≤ m.price))

theorem meets_iff_rank (p m : OrderPtr) :
    Meets p m ↔ rank p.isBuy p + rank (!p.isBuy) m ≤ 0 := by
  unfold Meets rank cost
  cases p.isBuy with
  | true =>
    simp only [if_true, Bool.not_true, Bool.false_eq_true, if_false, UInt64.le_iff_toNat_le]
    omega
  | false =>
    simp only [if_true, Bool.not_false, Bool.false_eq_true, if_false, UInt64.le_iff_toNat_le]
    omega

/-- The sweep of the other side by the order `p`. -/
def walk (book : OrderBook) (p : OrderPtr) : Sweep OrderPtr :=
  sweep (·.quantity.toNat) OrderPtr.lower (Meets p) p.quantity.toNat (book.side (!p.isBuy))

/-- The trade of the order `p` with an order of the other side that gives up the
    quantity `fill.2`: `match` puts the ask's price on it. -/
def takerTrade (symbol : Symbol) (p : OrderPtr) (fill : OrderPtr × ℕ) : Trade :=
  if p.isBuy then Trade.make p.id fill.1.id fill.1.price (UInt64.ofNat fill.2) symbol
  else Trade.make fill.1.id p.id p.price (UInt64.ofNat fill.2) symbol

/-! ## The loop while the order stands at the front -/

theorem lower_of_le {p : OrderPtr} {q : UInt64} (h : q ≤ p.quantity) :
    p.lower q.toNat = p.setQuantity (p.quantity - q) := by
  have hsub := UInt64.toNat_sub_of_le p.quantity q h
  unfold OrderPtr.lower
  rw [← hsub, UInt64.ofNat_toNat]

/-- An iteration in which the order `p` of the own side meets `m`. -/
theorem matchStep_of_meets {book : OrderBook} {p m : OrderPtr} {r u : List OrderPtr}
    (hown : book.side p.isBuy = p :: r) (hother : book.side (!p.isBuy) = m :: u)
    (h : Meets p m) :
    ∃ book', book.matchStep =
        some (takerTrade book.symbol p (m, min p.quantity.toNat m.quantity.toNat), book') ∧
      book'.symbol = book.symbol ∧
      book'.side p.isBuy = fillFront (min p.quantity m.quantity) p r ∧
      book'.side (!p.isBuy) = fillFront (min p.quantity m.quantity) m u := by
  have hmin : UInt64.ofNat (min p.quantity.toNat m.quantity.toNat) =
      min p.quantity m.quantity := by
    rw [Nat.min_def, Std.min_eq_if]
    simp only [UInt64.le_iff_toNat_le]
    split_ifs <;> exact UInt64.ofNat_toNat
  unfold Meets at h
  unfold takerTrade
  rw [hmin]
  cases hs : p.isBuy with
  | true =>
    rw [hs] at hown hother
    rw [hs, if_pos rfl] at h
    exact ⟨_, matchStep_eq_some_iff.mpr ⟨p, r, m, u, hown, hother, h, rfl, rfl⟩, rfl, rfl, rfl⟩
  | false =>
    rw [hs] at hown hother
    rw [hs, if_neg Bool.false_ne_true] at h
    have hcomm : min p.quantity m.quantity = min m.quantity p.quantity :=
      Std.Commutative.comm _ _
    rw [hcomm]
    exact ⟨_, matchStep_eq_some_iff.mpr ⟨m, u, p, r, hother, hown, h, rfl, rfl⟩, rfl, rfl, rfl⟩

/-- If the front of one side does not meet the front of the other, the loop is
    left. -/
theorem matchStep_eq_none_of_rank {book : OrderBook} (s : Bool)
    (h : ∀ x ∈ (book.side s).head?, ∀ m ∈ (book.side (!s)).head?,
      0 < rank s x + rank (!s) m) : book.matchStep = none := by
  cases hstep : book.matchStep with
  | none => rfl
  | some result =>
    obtain ⟨trade, book'⟩ := result
    obtain ⟨f, r, g, u, hf, hg, hcross, -, -⟩ := matchStep_fronts hstep s
    have hpos := h f (by simp [hf]) g (by simp [hg])
    omega

/-- What stays on the own side when the order has walked: `r` behind the rest of
    the order, if it has one. -/
def ownAfter (p : OrderPtr) (r : List OrderPtr) : Option ℕ → List OrderPtr
  | none => r
  | some q => p.setQuantity (UInt64.ofNat q) :: r

/-- The loop with the order `p` at the front of its side and nothing behind it
    that meets the other side. Induction on the other side: each iteration uses up
    `p`, which ends the loop, or the front of the other side. -/
theorem runMatch_of_front {book : OrderBook} {p : OrderPtr} {r l : List OrderPtr}
    (hown : book.side p.isBuy = p :: r) (hother : book.side (!p.isBuy) = l)
    (hr : ∀ x ∈ r, ∀ m ∈ l, 0 < rank p.isBuy x + rank (!p.isBuy) m) :
    let w := sweep (·.quantity.toNat) OrderPtr.lower (Meets p) p.quantity.toNat l
    book.runMatch.1 = w.fills.map (takerTrade book.symbol p) ∧
      book.runMatch.2.side (!p.isBuy) = w.rest ∧
      book.runMatch.2.side p.isBuy = ownAfter p r w.left := by
  induction l generalizing book p with
  | nil =>
    have hstop : book.matchStep = none :=
      matchStep_eq_none_of_rank p.isBuy (by simp [hother])
    rw [runMatch_of_none hstop]
    refine ⟨rfl, hother, ?_⟩
    show book.side p.isBuy = p.setQuantity (UInt64.ofNat p.quantity.toNat) :: r
    rw [UInt64.ofNat_toNat]
    exact hown
  | cons m u ih =>
    dsimp only
    by_cases hmeets : Meets p m
    · obtain ⟨book', hstep, hsymbol, hown', hother'⟩ := matchStep_of_meets hown hother hmeets
      rw [runMatch_of_some hstep]
      dsimp only
      rcases Nat.lt_or_ge m.quantity.toNat p.quantity.toNat with hq | hq
      · -- the order of the other side is used up and `p` goes on
        have hle : m.quantity ≤ p.quantity := UInt64.le_iff_toNat_le.mpr hq.le
        have hlt : ¬ p.quantity ≤ m.quantity := fun h => hq.not_ge (UInt64.le_iff_toNat_le.mp h)
        have hmin : min p.quantity m.quantity = m.quantity := Std.min_eq_if.trans (if_neg hlt)
        rw [hmin] at hown' hother'
        rw [fillFront_self] at hother'
        rcases fillFront_cases r hle with ⟨heq, -⟩ | ⟨-, hsub, hfill⟩
        · rw [heq] at hq
          exact absurd hq (lt_irrefl _)
        · rw [hfill] at hown'
          obtain ⟨htrades, hrest, hside⟩ := ih (p := p.setQuantity (p.quantity - m.quantity))
            hown' hother' fun x hx y hy => hr x hx y (List.mem_cons_of_mem m hy)
          rw [OrderPtr.setQuantity_quantity, hsub] at htrades hrest hside
          rw [sweep_of_lt _ _ u hmeets hq, htrades, hsymbol, List.map_cons,
            Nat.min_eq_right hq.le]
          exact ⟨rfl, hrest, hside⟩
      · -- `p` is used up: what stands behind it does not meet the other side
        have hle : p.quantity ≤ m.quantity := UInt64.le_iff_toNat_le.mpr hq
        have hmin : min p.quantity m.quantity = p.quantity := Std.min_eq_if.trans (if_pos hle)
        rw [hmin] at hown' hother'
        rw [fillFront_self] at hown'
        have hstop : book'.matchStep = none := by
          apply matchStep_eq_none_of_rank p.isBuy
          intro x hx y hy
          have hxr : x ∈ r := hown' ▸ List.mem_of_mem_head? hx
          have hym : y ∈ fillFront p.quantity m u := hother' ▸ List.mem_of_mem_head? hy
          exact forall_of_face (P := fun y => 0 < rank p.isBuy x + rank (!p.isBuy) y)
            (fun _ => Iff.rfl) (fillFront_face p.quantity m u).sublist (hr x hxr) y hym
        rw [runMatch_of_none hstop, Nat.min_eq_left hq, hown', hother']
        rcases fillFront_cases u hle with ⟨heq, hfill⟩ | ⟨hlt, hsub, hfill⟩
        · rw [sweep_of_eq _ _ u hmeets (congrArg UInt64.toNat heq), hfill]
          exact ⟨rfl, rfl, rfl⟩
        · rw [sweep_of_gt _ _ u hmeets hlt, hfill, lower_of_le hle]
          exact ⟨rfl, rfl, rfl⟩
    · have hstop : book.matchStep = none := by
        apply matchStep_eq_none_of_rank p.isBuy
        intro x hx y hy
        rw [hown] at hx
        rw [hother] at hy
        obtain rfl : p = x := by simpa using hx
        obtain rfl : m = y := by simpa using hy
        exact not_le.mp (mt (meets_iff_rank p m).mpr hmeets)
      rw [runMatch_of_none hstop, sweep_of_not _ _ u hmeets]
      refine ⟨rfl, hother, ?_⟩
      show book.side p.isBuy = p.setQuantity (UInt64.ofNat p.quantity.toNat) :: r
      rw [UInt64.ofNat_toNat]
      exact hown

/-! ## `add_order` and `match` -/

theorem Valid.runMatch_addOrder {book : OrderBook} (h : book.Valid) (hu : book.Uncrossed)
    (S : StdSort OrderPtr) (p : OrderPtr) :
    (book.addOrder S p).runMatch.1 = (book.walk p).fills.map (takerTrade book.symbol p) ∧
      (book.addOrder S p).runMatch.2.side (!p.isBuy) = (book.walk p).rest ∧
      ((book.addOrder S p).runMatch.2.side p.isBuy).Perm
        (ownAfter p (book.side p.isBuy) (book.walk p).left) := by
  have hother := addOrder_other_side S book p
  have hperm := addOrder_side_perm S book p
  have hapart := (uncrossed_iff_rank book p.isBuy).mp hu
  obtain ⟨f, r, hown⟩ : ∃ f r, (book.addOrder S p).side p.isBuy = f :: r := by
    apply List.exists_cons_of_ne_nil
    intro hnil
    rw [hnil] at hperm
    simpa using hperm.length_eq
  have hmem : f ∈ book.side p.isBuy ++ [p] := hperm.subset (by simp [hown])
  rcases List.mem_append.mp hmem with hf | hf
  · -- an older order is priced at least as well, and it meets nothing
    have hbest := (h.addOrder S p).isSorted.rank_head_le hown p (by simp [mem_addOrder_side])
    have hnot : ∀ m ∈ book.side (!p.isBuy), ¬ Meets p m := by
      intro m hm hmeets
      have hpos := hapart f hf m hm
      rw [meets_iff_rank] at hmeets
      omega
    have hstop : (book.addOrder S p).matchStep = none := by
      apply matchStep_eq_none_of_rank p.isBuy
      intro x hx m hm
      rw [hown] at hx
      rw [hother] at hm
      obtain rfl : f = x := by simpa using hx
      exact hapart f hf m (List.mem_of_mem_head? hm)
    have hwalk : book.walk p = ⟨[], book.side (!p.isBuy), some p.quantity.toNat⟩ :=
      sweep_of_head _ _ _ fun m hm => hnot m (List.mem_of_mem_head? hm)
    rw [runMatch_of_none hstop, hwalk]
    refine ⟨rfl, hother, ?_⟩
    show ((book.addOrder S p).side p.isBuy).Perm
      (p.setQuantity (UInt64.ofNat p.quantity.toNat) :: book.side p.isBuy)
    rw [UInt64.ofNat_toNat]
    exact hperm.trans (List.perm_append_singleton p _)
  · -- the order stands at the front
    obtain rfl : f = p := by simpa using hf
    have hr : r.Perm (book.side f.isBuy) := by
      rw [hown] at hperm
      exact (hperm.trans (List.perm_append_singleton f _)).cons_inv
    obtain ⟨htrades, hrest, hside⟩ := runMatch_of_front hown hother fun x hx m hm =>
      hapart x (hr.subset hx) m hm
    rw [symbol_addOrder] at htrades
    refine ⟨htrades, hrest, ?_⟩
    rw [hside]
    show (ownAfter f r (book.walk f).left).Perm _
    cases (book.walk f).left with
    | none => exact hr
    | some q => exact hr.cons _

/-- On a sorted side the orders that the limit reaches are those at the front. -/
theorem Valid.offered_eq {book : OrderBook} (h : book.Valid) (p : OrderPtr) :
    offered (·.quantity.toNat) (Meets p) (book.side (!p.isBuy)) =
      totalQty (book.opposing p.isBuy p.price) := by
  have hsorted := h.sorted (!p.isBuy)
  rw [opposing_eq]
  generalize book.side (!p.isBuy) = l at hsorted ⊢
  induction l with
  | nil => rfl
  | cons m l ih =>
    obtain ⟨hm, hl⟩ := List.pairwise_cons.mp hsorted
    have hiff := meets_iff_rank p m
    unfold rank at hiff
    by_cases hmeets : Meets p m
    · rw [offered_cons_of_pos _ l hmeets, ih hl,
        List.filter_cons_of_pos (by simpa using hiff.mp hmeets), totalQty_cons]
    · have hnone : (m :: l).filter (fun q => cost p.isBuy p.price + cost (!p.isBuy) q.price ≤ 0) =
          [] := by
        rw [List.filter_eq_nil_iff]
        intro q hq
        have hge : rank (!p.isBuy) m ≤ rank (!p.isBuy) q := by
          rcases List.mem_cons.mp hq with rfl | hq
          · exact le_rfl
          · exact hm q hq
        have hpos := not_le.mp (mt hiff.mpr hmeets)
        unfold rank at hge
        simp only [decide_eq_true_eq]
        omega
      rw [offered_cons_of_neg _ l hmeets, hnone, totalQty_nil]

/-- The walk trades the smaller of the order's quantity and what its limit
    reaches on the other side. -/
theorem Valid.tradedVolume_walk {book : OrderBook} (h : book.Valid) (symbol : Symbol)
    (p : OrderPtr) :
    tradedVolume ((book.walk p).fills.map (takerTrade symbol p)) =
      min p.quantity.toNat (totalQty (book.opposing p.isBuy p.price)) := by
  have hqty : ∀ fill ∈ (book.walk p).fills,
      (takerTrade symbol p fill).quantity.toNat = fill.2 := by
    intro fill hfill
    have hle : fill.2 ≤ fill.1.quantity.toNat := le_size_of_mem_fills _ _ _ _ _ fill hfill
    have hlt := hle.trans_lt fill.1.quantity.toNat_lt
    unfold takerTrade
    split_ifs <;> exact UInt64.toNat_ofNat_of_lt' hlt
  have hmap : ((book.walk p).fills.map (takerTrade symbol p)).map (·.quantity.toNat) =
      (book.walk p).fills.map Prod.snd := by
    rw [List.map_map]
    exact List.map_congr_left hqty
  unfold tradedVolume
  rw [hmap]
  unfold walk
  rw [sum_fills_sweep, h.offered_eq]

end TradingGateway.Book.OrderBook

namespace TradingGateway.Engine.MatchingEngine

open Common Message Book OrderBook

/-- **An `ADD` walks the other side.** Take any run after which the book of the
    next order is uncrossed. Then the `ADD` trades with the orders of the other
    side one after the other, in book order, as far as its limit reaches and its
    quantity lasts, for the smaller of its quantity and what the limit reaches in
    total. The other side keeps the rest of the last order it traded with and all
    orders behind it; its own side keeps all its orders and gets what is left of
    the new one. -/
theorem add_walks (cmds : List Input) (c : Input) (hadd : c.order.command = .add)
    (hu : ((after cmds).book c.order.symbolString).Uncrossed) :
    let book := (after cmds).book c.order.symbolString
    let book' := (after (cmds ++ [c])).book c.order.symbolString
    let p : OrderPtr := ⟨(after cmds).allocated, c.order⟩
    let trades := ((after cmds).processOrder c.sort c.order).2
    trades = (book.walk p).fills.map (takerTrade book.symbol p) ∧
      tradedVolume trades = min p.quantity.toNat (totalQty (book.opposing p.isBuy p.price)) ∧
      book'.side (!p.isBuy) = (book.walk p).rest ∧
      (book'.side p.isBuy).Perm (ownAfter p (book.side p.isBuy) (book.walk p).left) ∧
      ∀ q ∈ (book.walk p).left,
        q = p.quantity.toNat - totalQty (book.opposing p.isBuy p.price) := by
  intro book book' p trades
  have hvalid : book.Valid := valid_book_after cmds c.order.symbolString
  have hop : (after cmds).opOn c.order c.order.symbolString = .add p := by
    unfold opOn
    rw [hadd]
    exact if_pos rfl
  have htrades : trades = (book.addOrder c.sort p).runMatch.1 := by
    show ((after cmds).processOrder c.sort c.order).2 = _
    rw [trades_processOrder, hop]
    rfl
  have hbook : book' = (book.addOrder c.sort p).runMatch.2 := by
    show (after (cmds ++ [c])).book c.order.symbolString = _
    rw [after_snoc, book_step, hop]
    rfl
  obtain ⟨hfills, hrest, hown⟩ := hvalid.runMatch_addOrder hu c.sort p
  rw [htrades, hbook, hfills]
  refine ⟨rfl, hvalid.tradedVolume_walk book.symbol p, hrest, hown, ?_⟩
  rw [← hvalid.offered_eq]
  exact left_sweep _ _ _ _ _

/-- Two sells, at 100 and at 101. -/
def twoAsks : List Input :=
  [⟨.insertion, addCommand .zeroed (Order.make .zeroed 1 101 4 [66, 84, 67] false)⟩,
   ⟨.insertion, addCommand .zeroed (Order.make .zeroed 2 100 5 [66, 84, 67] false)⟩]

/-- A buy of 7 at 102 takes the sell at 100 and a part of the one at 101. -/
theorem twoAsks_walked :
    let c : Input := ⟨.insertion, addCommand .zeroed (Order.make .zeroed 3 102 7 [66, 84, 67] true)⟩
    (((after twoAsks).processOrder c.sort c.order).2.map fun t =>
      (t.sellOrderId, t.price, t.quantity)) = [(2, 100, 5), (1, 101, 2)] := by
  intro c
  rw [(add_walks twoAsks c rfl (by decide +kernel)).1]
  decide +kernel

end TradingGateway.Engine.MatchingEngine

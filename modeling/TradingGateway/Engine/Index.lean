import TradingGateway.Book.Clearing
import TradingGateway.Engine.Uncrossed
import TradingGateway.Engine.Cancellation

/-!
# The index of ids

`m_order_id_to_symbol` gets an entry with every `ADD` and loses it with a
`CANCEL`. An order that `match` fills completely leaves its book, but its entry
stays.

* `OutOfReach`: the orders up to and including one with the id hold more than
  the other side offers at prices that meet it.
* `Sorted.has_runMatch_iff`: these are the ids that still rest after `match`.
* `indexLive_iff`: along a run every entry has a resting order behind it
  exactly when no `ADD` lets the other side reach all orders of an indexed id.
* `filled_id_stays_indexed`: a buy and a sell that fill each other.
-/

namespace TradingGateway.Book.OrderBook

open Common Message

/-! ## Which orders a call of `match` erases -/

/-- The number of orders without quantity at the end of `l`. -/
def emptyTail : List OrderPtr → ℕ
  | [] => 0
  | p :: l => emptyTail l + if totalQty (p :: l) = 0 then 1 else 0

/-- `l` holds more than `opp`, or as much and more orders without quantity at its
    end: two orders without quantity use each other up. -/
def Outlasts (l opp : List OrderPtr) : Prop :=
  totalQty opp < totalQty l ∨ totalQty opp = totalQty l ∧ emptyTail opp < emptyTail l

theorem emptyTail_cons_cases (p : OrderPtr) (l : List OrderPtr) :
    (p.quantity.toNat + totalQty l = 0 ∧ emptyTail (p :: l) = emptyTail l + 1) ∨
    (0 < p.quantity.toNat + totalQty l ∧ emptyTail (p :: l) = emptyTail l) := by
  rw [emptyTail, totalQty_cons]
  by_cases h : p.quantity.toNat + totalQty l = 0
  · exact .inl ⟨h, by rw [if_pos h]⟩
  · exact .inr ⟨Nat.pos_of_ne_zero h, by rw [if_neg h, add_zero]⟩

theorem outlasts_nil_iff (l : List OrderPtr) : Outlasts l [] ↔ l ≠ [] := by
  unfold Outlasts
  cases l with
  | nil => simp
  | cons p l =>
    have hnil : emptyTail [] = 0 := rfl
    simp only [totalQty_nil, totalQty_cons, ne_eq, reduceCtorEq, not_false_eq_true, iff_true]
    rcases emptyTail_cons_cases p l with h | h <;> omega

theorem totalQty_fillFront {q : UInt64} {p : OrderPtr} (hq : q ≤ p.quantity) (l : List OrderPtr) :
    q.toNat + totalQty (fillFront q p l) = totalQty (p :: l) := by
  rw [totalQty_cons]
  rcases fillFront_cases l hq with ⟨rfl, hfill⟩ | ⟨hlt, hsub, hfill⟩
  · rw [hfill]
  · rw [hfill, totalQty_cons, OrderPtr.setQuantity_quantity, hsub]
    omega

/-- A front that is kept has a quantity, so the end of the side is as before. -/
theorem emptyTail_fillFront {q : UInt64} {p : OrderPtr} (hq : q ≤ p.quantity)
    (l : List OrderPtr) : emptyTail (fillFront q p l) = emptyTail l := by
  rcases fillFront_cases l hq with ⟨-, hfill⟩ | ⟨hlt, hsub, hfill⟩
  · rw [hfill]
  · have htail := emptyTail_cons_cases (p.setQuantity (p.quantity - q)) l
    rw [OrderPtr.setQuantity_quantity, hsub] at htail
    rw [hfill]
    omega

/-- Filling the two fronts with the same quantity keeps the comparison. -/
theorem outlasts_fillFront {q : UInt64} {f g : OrderPtr} (hf : q ≤ f.quantity)
    (hg : q ≤ g.quantity) (t u : List OrderPtr) :
    Outlasts (f :: t) (g :: u) ↔ Outlasts (fillFront q f t) (fillFront q g u) := by
  have hft := emptyTail_cons_cases f t
  have hgu := emptyTail_cons_cases g u
  have htotal := totalQty_fillFront hf t
  have gtotal := totalQty_fillFront hg u
  unfold Outlasts
  rw [emptyTail_fillFront hf, emptyTail_fillFront hg]
  rw [totalQty_cons] at htotal gtotal
  rw [totalQty_cons, totalQty_cons]
  omega

/-- The orders of the other side whose price meets `x`. -/
def opposing (book : OrderBook) (s : Bool) (x : UInt64) : List OrderPtr :=
  if s then book.asks.filter (·.price ≤ x) else book.bids.filter (x ≤ ·.price)

theorem opposing_eq (book : OrderBook) (s : Bool) (x : UInt64) :
    book.opposing s x = (book.side (!s)).filter fun p => cost s x + cost (!s) p.price ≤ 0 := by
  unfold opposing
  cases s with
  | true =>
    simp only [side, cost, UInt64.le_iff_toNat_le, if_true, Bool.not_true, Bool.false_eq_true,
      if_false]
    apply List.filter_congr
    intro p _
    simp only [decide_eq_decide]
    omega
  | false =>
    simp only [side, cost, UInt64.le_iff_toNat_le, if_true, Bool.not_false, Bool.false_eq_true,
      if_false]
    apply List.filter_congr
    intro p _
    simp only [decide_eq_decide]
    omega

/-- Some order with the id `i` on side `s` is out of reach: the orders up to and
    including it outlast the orders of the other side that meet its price. -/
def OutOfReach (book : OrderBook) (s : Bool) (i : UInt64) : Prop :=
  ∃ l p, l ++ [p] <+: book.side s ∧ p.id = i ∧ Outlasts (l ++ [p]) (book.opposing s p.price)

/-! ## One iteration -/

/-- An iteration, seen from side `s`, with the front of the other side. -/
theorem matchStep_fronts {book book' : OrderBook} {trade : Trade}
    (h : book.matchStep = some (trade, book')) (s : Bool) :
    ∃ f r g u, book.side s = f :: r ∧ book.side (!s) = g :: u ∧ rank s f + rank (!s) g ≤ 0 ∧
      book'.side s = fillFront (min f.quantity g.quantity) f r ∧
      book'.side (!s) = fillFront (min f.quantity g.quantity) g u := by
  obtain ⟨bid, bids, ask, asks, hb, ha, hcross, -, rfl⟩ := matchStep_eq_some_iff.mp h
  have hle := UInt64.le_iff_toNat_le.mp hcross
  cases s with
  | true =>
    refine ⟨bid, bids, ask, asks, hb, ha, ?_, rfl, rfl⟩
    simp only [rank, cost, if_true, Bool.not_true, Bool.false_eq_true, if_false]
    omega
  | false =>
    have hcomm : min bid.quantity ask.quantity = min ask.quantity bid.quantity :=
      Std.Commutative.comm _ _
    rw [hcomm]
    refine ⟨ask, asks, bid, bids, ha, hb, ?_, rfl, rfl⟩
    simp only [rank, cost, if_true, Bool.not_false, Bool.false_eq_true, if_false]
    omega

theorem filter_fillFront {P : OrderPtr → Prop} [DecidablePred P]
    (hP : ∀ p q, P (OrderPtr.setQuantity p q) ↔ P p) (q : UInt64) {p : OrderPtr} (hp : P p)
    (rest : List OrderPtr) :
    (fillFront q p rest).filter P = fillFront q p (rest.filter P) := by
  unfold fillFront
  dsimp only
  split_ifs with h0
  · rfl
  · rw [List.filter_cons_of_pos (by simpa [hP] using hp)]

/-- The orders that meet a price are filled like the whole side; if the front
    does not meet it, none does. -/
theorem Sorted.opposing_matchStep {book : OrderBook} (h : book.Sorted) {s : Bool} {g : OrderPtr}
    {u : List OrderPtr} (hg : book.side (!s) = g :: u) {book' : OrderBook} {q : UInt64}
    (hg' : book'.side (!s) = fillFront q g u) (x : UInt64) :
    (cost s x + rank (!s) g ≤ 0 ∧ ∃ u', book.opposing s x = g :: u' ∧
      book'.opposing s x = fillFront q g u') ∨
    (0 < cost s x + rank (!s) g ∧ book.opposing s x = [] ∧ book'.opposing s x = []) := by
  rw [opposing_eq, opposing_eq]
  by_cases hx : cost s x + rank (!s) g ≤ 0
  · left
    refine ⟨hx, u.filter fun p => cost s x + cost (!s) p.price ≤ 0, ?_, ?_⟩
    · rw [hg, List.filter_cons_of_pos (by simpa [rank] using hx)]
    · rw [hg']
      exact filter_fillFront (fun _ _ => Iff.rfl) q hx u
  · right
    have hfar : ∀ p ∈ book.side (!s), ¬ cost s x + cost (!s) p.price ≤ 0 := by
      intro p hp hle
      have hrank : rank (!s) g ≤ cost (!s) p.price := h.rank_head_le hg p hp
      omega
    have hfar' : ∀ p ∈ book'.side (!s), ¬ cost s x + cost (!s) p.price ≤ 0 := by
      rw [hg] at hfar
      rw [hg']
      exact forall_of_face (P := fun p => ¬ cost s x + cost (!s) p.price ≤ 0) (fun _ => Iff.rfl)
        (fillFront_face q g u).sublist hfar
    refine ⟨not_le.mp hx, ?_, ?_⟩
    · rw [List.filter_eq_nil_iff]
      simpa using hfar
    · rw [List.filter_eq_nil_iff]
      simpa using hfar'

/-- What an iteration does to the comparison for the front part `f :: t` of side
    `s`, whose last order is priced `x`. -/
theorem Sorted.outlasts_matchStep {book book' : OrderBook} (h : book.Sorted) {s : Bool}
    {f g : OrderPtr} {u : List OrderPtr} (hcross : rank s f + rank (!s) g ≤ 0)
    (hg : book.side (!s) = g :: u)
    (hg' : book'.side (!s) = fillFront (min f.quantity g.quantity) g u) {t : List OrderPtr}
    {x : UInt64} (hx : t = [] → x = f.price) :
    Outlasts (f :: t) (book.opposing s x) ↔
      Outlasts (fillFront (min f.quantity g.quantity) f t) (book'.opposing s x) := by
  rcases h.opposing_matchStep hg hg' x with ⟨-, u', hopp, hopp'⟩ | ⟨hfar, hopp, hopp'⟩
  · rw [hopp, hopp']
    exact outlasts_fillFront Std.min_le_left Std.min_le_right t u'
  · -- nothing meets `x`, so it is not the front that is priced `x`
    rw [hopp, hopp', outlasts_nil_iff, outlasts_nil_iff]
    have ht : t ≠ [] := by
      intro hnil
      rw [hx hnil] at hfar
      exact absurd hcross (not_le.mpr hfar)
    unfold fillFront
    dsimp only
    split_ifs <;> simp [ht]

/-- The prefixes of `a :: l` that have a last element. -/
theorem exists_concat_prefix_cons {α : Type*} {P : List α → α → Prop} (a : α) (l : List α) :
    (∃ m x, m ++ [x] <+: a :: l ∧ P (m ++ [x]) x) ↔
      P [a] a ∨ ∃ m x, m ++ [x] <+: l ∧ P (a :: (m ++ [x])) x := by
  constructor
  · rintro ⟨m, x, hpre, hP⟩
    cases m with
    | nil =>
      obtain ⟨rfl, -⟩ := List.cons_prefix_cons.mp hpre
      exact .inl hP
    | cons b m =>
      obtain ⟨rfl, htail⟩ := List.cons_prefix_cons.mp hpre
      exact .inr ⟨m, x, htail, hP⟩
  · rintro (hP | ⟨m, x, hpre, hP⟩)
    · exact ⟨[], a, List.cons_prefix_cons.mpr ⟨rfl, List.nil_prefix⟩, hP⟩
    · exact ⟨a :: m, x, List.cons_prefix_cons.mpr ⟨rfl, hpre⟩, hP⟩

/-- An iteration brings no order into reach and takes none out of it. -/
theorem Sorted.outOfReach_matchStep {book book' : OrderBook} {trade : Trade} (h : book.Sorted)
    (hstep : book.matchStep = some (trade, book')) (s : Bool) (i : UInt64) :
    book.OutOfReach s i ↔ book'.OutOfReach s i := by
  obtain ⟨f, r, g, u, hf, hg, hcross, hf', hg'⟩ := matchStep_fronts hstep s
  have hfront : Outlasts [f] (book.opposing s f.price) ↔ _ :=
    h.outlasts_matchStep hcross hg hg' fun _ => rfl
  have hbehind : ∀ (l : List OrderPtr) (p : OrderPtr),
      Outlasts (f :: (l ++ [p])) (book.opposing s p.price) ↔ _ :=
    fun l p => h.outlasts_matchStep hcross hg hg' (t := l ++ [p]) (x := p.price) (by simp)
  have hle : min f.quantity g.quantity ≤ f.quantity := Std.min_le_left
  unfold OutOfReach
  rw [hf', hf, exists_concat_prefix_cons
    (P := fun m p => p.id = i ∧ Outlasts m (book.opposing s p.price)), hfront]
  simp only [hbehind]
  by_cases hq : f.quantity = min f.quantity g.quantity
  · -- the front is used up: it was in reach, and the orders behind it move up
    have herase : ∀ t, fillFront (min f.quantity g.quantity) f t = t := by
      intro t
      rw [← hq]
      exact fillFront_self f t
    simp only [herase]
    refine or_iff_right ?_
    rintro ⟨-, hout⟩
    simp [Outlasts, emptyTail] at hout
  · have hkeep : ∀ t, fillFront (min f.quantity g.quantity) f t =
        f.setQuantity (f.quantity - min f.quantity g.quantity) :: t := by
      intro t
      rcases fillFront_cases t hle with ⟨heq, -⟩ | ⟨-, -, hfill⟩
      · exact absurd heq hq
      · exact hfill
    simp only [hkeep]
    exact (exists_concat_prefix_cons
      (P := fun m p => p.id = i ∧ Outlasts m (book'.opposing s p.price))
      (f.setQuantity (f.quantity - min f.quantity g.quantity)) r).symm

/-! ## The whole call -/

/-- In an uncrossed book every order is out of reach. -/
theorem Uncrossed.outOfReach_iff {book : OrderBook} (h : book.Uncrossed) (s : Bool) (i : UInt64) :
    book.OutOfReach s i ↔ book.Has s i := by
  constructor
  · rintro ⟨l, p, hpre, hid, -⟩
    exact ⟨p, hpre.subset (by simp), hid⟩
  · rintro ⟨p, hp, hid⟩
    obtain ⟨l, l', hl⟩ := List.append_of_mem hp
    refine ⟨l, p, ⟨l', by rw [hl, List.append_assoc]; rfl⟩, hid, ?_⟩
    have hnil : book.opposing s p.price = [] := by
      rw [opposing_eq, List.filter_eq_nil_iff]
      intro q hq
      have hfar := (uncrossed_iff_rank book s).mp h p hp q hq
      simpa [rank] using hfar
    rw [hnil, outlasts_nil_iff]
    simp

/-- The ids that rest after `match` are those that were out of reach before. -/
theorem Sorted.has_runMatch_iff {book : OrderBook} (h : book.Sorted) (s : Bool) (i : UInt64) :
    book.runMatch.2.Has s i ↔ book.OutOfReach s i := by
  induction book using runMatch_induction with
  | hnone book hstep =>
    rw [runMatch_of_none hstep]
    exact ((h.uncrossed_iff.mpr hstep).outOfReach_iff s i).symm
  | hsome book trade book' hstep ih =>
    rw [runMatch_of_some hstep, ih (h.matchStep hstep)]
    exact (h.outOfReach_matchStep hstep s i).symm

/-- `modify_order` takes no id out of the book. -/
theorem has_modifyOrder_of_has (S : StdSort OrderPtr) (book : OrderBook) (orderId : UInt64)
    (q : UInt32) (x : UInt64) {s : Bool} {i : UInt64} (h : book.Has s i) :
    ∃ t, (book.modifyOrder S orderId q x).2.Has t i := by
  obtain ⟨p, hp, hpid⟩ := h
  rcases modifyOrder_cases S book orderId q x with
    ⟨-, heq⟩ | ⟨t, found, l₁, l₂, -, hl, hid, -, heq⟩
  · rw [heq]
    exact ⟨s, p, hp, hpid⟩
  · rw [heq]
    by_cases hsame : s = t ∧ p = found
    · obtain ⟨-, rfl⟩ := hsame
      exact ⟨_, _, mem_addOrder_side.mpr (.inr ⟨rfl, rfl⟩), hpid⟩
    · refine ⟨s, p, mem_addOrder_side.mpr (.inl ?_), hpid⟩
      rw [side_setSide]
      split_ifs with hst
      · subst hst
        rw [hl] at hp
        have hne : p ≠ found := fun heq => hsame ⟨rfl, heq⟩
        simpa [hne] using hp
      · exact hp

end TradingGateway.Book.OrderBook

namespace TradingGateway.Engine

open Common Message Book OrderBook

namespace MatchingEngine

/-- Every id in the index belongs to an order that rests in the book of the
    symbol it maps to. -/
def IndexLive (e : MatchingEngine) : Prop :=
  ∀ i key, e.orderIdToSymbol i = some key → ∃ s, (e.book key).Has s i

/-- If the command is an `ADD`: with the new order in its place in the book, the
    added id and every id that the index maps to the same symbol have an order
    out of reach of the other side. -/
def KeepsIndexed (e : MatchingEngine) (c : Input) : Prop :=
  c.order.command = .add →
    ∀ i, i = c.order.id ∨ e.orderIdToSymbol i = some c.order.symbolString →
      ∃ s, ((e.book c.order.symbolString).addOrder c.sort ⟨e.allocated, c.order⟩).OutOfReach s i

/-! ## The commands -/

/-- An `ADD` changes one book and gives one entry to it. -/
theorem indexLive_add_iff {e : MatchingEngine} (hvalid : ∀ key, (e.book key).Valid)
    (h : e.IndexLive) {c : Input} (hc : c.order.command = .add) :
    (machine.step e c).IndexLive ↔ e.KeepsIndexed c := by
  have hsorted := ((hvalid c.order.symbolString).addOrder c.sort ⟨e.allocated, c.order⟩).isSorted
  simp only [IndexLive, KeepsIndexed, hc, true_implies, orderIdToSymbol_step, book_step, opOn]
  constructor
  · intro hlive i hi
    obtain ⟨s, hs⟩ := hlive i c.order.symbolString (by rcases hi with hi | hi <;> simp [hi])
    rw [if_pos rfl] at hs
    exact ⟨s, (hsorted.has_runMatch_iff s i).mp hs⟩
  · intro hkeeps i key hi
    by_cases hkey : c.order.symbolString = key
    · subst hkey
      have hid : i = c.order.id ∨ e.orderIdToSymbol i = some c.order.symbolString := by
        split_ifs at hi with hid
        · exact .inl hid
        · exact .inr hi
      obtain ⟨s, hs⟩ := hkeeps i hid
      rw [if_pos rfl]
      exact ⟨s, (hsorted.has_runMatch_iff s i).mpr hs⟩
    · rw [if_neg hkey]
      split_ifs at hi with hid
      · exact absurd (Option.some.inj hi) hkey
      · exact h i key hi

/-- A `CANCEL` removes orders of its own id only, and the entry of that id. -/
theorem IndexLive.cancel {e : MatchingEngine} (h : e.IndexLive) {c : Input}
    (hc : c.order.command = .cancel) : (machine.step e c).IndexLive := by
  intro i key hi
  simp only [orderIdToSymbol_step, hc] at hi
  split_ifs at hi with hid
  obtain ⟨s, p, hp, hpid⟩ := h i key hi
  rw [book_step, opOn, hc]
  dsimp only
  split_ifs with hkey
  · refine ⟨s, p, ?_, hpid⟩
    have hne : p.id ≠ c.order.id := by rw [hpid]; exact hid
    simp only [applyOp]
    rw [cancelOrder_side]
    split_ifs with hs
    · exact List.mem_filter.mpr ⟨hp, by simpa using hne⟩
    · exact hp
  · exact ⟨s, p, hp, hpid⟩

theorem IndexLive.modify {e : MatchingEngine} (h : e.IndexLive) {c : Input}
    (hc : c.order.command = .modify) : (machine.step e c).IndexLive := by
  intro i key hi
  simp only [orderIdToSymbol_step, hc] at hi
  obtain ⟨s, hs⟩ := h i key hi
  rw [book_step, opOn, hc]
  dsimp only
  split_ifs with hkey
  · exact has_modifyOrder_of_has c.sort (e.book key) _ _ _ hs
  · exact ⟨s, hs⟩

theorem indexLive_step_iff {e : MatchingEngine} (hvalid : ∀ key, (e.book key).Valid)
    (h : e.IndexLive) (c : Input) : (machine.step e c).IndexLive ↔ e.KeepsIndexed c := by
  cases hc : c.order.command with
  | add => exact indexLive_add_iff hvalid h hc
  | cancel => simp [KeepsIndexed, hc, h.cancel hc]
  | modify => simp [KeepsIndexed, hc, h.modify hc]

/-! ## Runs -/

/-- **The index of ids.** After every command of a run each id in the index
    belongs to a resting order, if and only if each `ADD` of the run leaves an
    order of its own id, and of every id indexed under its symbol, out of reach
    of the other side. -/
theorem indexLive_iff (cmds : List Input) :
    (∀ done, done <+: cmds → (after done).IndexLive) ↔ machine.Guarded KeepsIndexed cmds := by
  refine machine.forall_prefix_iff_guarded (P := IndexLive)
    (Q := fun e => ∀ key, (e.book key).Valid) ?_ valid_book_after ?_ cmds
  · intro i key hi
    simp [machine, empty] at hi
  · intro e c hvalid h
    exact indexLive_step_iff hvalid h c

/-- A buy and a sell that fill each other. -/
def mutualFill : List Input :=
  [⟨.insertion, addCommand .zeroed (Order.make .zeroed 1 100 10 [66, 84, 67] true)⟩,
   ⟨.insertion, addCommand .zeroed (Order.make .zeroed 2 100 10 [66, 84, 67] false)⟩]

/-- The book is empty and the index still has both ids. -/
theorem filled_id_stays_indexed :
    (after mutualFill).orderIdToSymbol 1 = some [66, 84, 67] ∧
      (after mutualFill).orderIdToSymbol 2 = some [66, 84, 67] ∧
      ((after mutualFill).book [66, 84, 67]).bids = [] ∧
      ((after mutualFill).book [66, 84, 67]).asks = [] ∧
      ¬ ∀ done, done <+: mutualFill → (after done).IndexLive := by
  have hindex : (after mutualFill).orderIdToSymbol 1 = some [66, 84, 67] := by decide +kernel
  have hbids : ((after mutualFill).book [66, 84, 67]).bids = [] := by decide +kernel
  have hasks : ((after mutualFill).book [66, 84, 67]).asks = [] := by decide +kernel
  refine ⟨hindex, by decide +kernel, hbids, hasks, fun h => ?_⟩
  obtain ⟨s, p, hp, -⟩ := h mutualFill List.prefix_rfl 1 [66, 84, 67] hindex
  cases s with
  | true =>
    rw [show ((after mutualFill).book [66, 84, 67]).side true = [] from hbids] at hp
    simp at hp
  | false =>
    rw [show ((after mutualFill).book [66, 84, 67]).side false = [] from hasks] at hp
    simp at hp

end MatchingEngine

end TradingGateway.Engine

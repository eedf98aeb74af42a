import TradingGateway.Engine.Model

/-!
# Conservation of quantity

For every key, side and order id the engine keeps a ledger: what was added,
plus what modifications changed, minus what cancellations removed, is what
still rests plus what was traded. Ids may repeat; the ledger of an id is about
all orders that carry it.

* `matchStep_conserves`, `runMatch_conserves`: a trade takes its quantity from
  the two orders it names and from no other.
* `applyOp_conserves`: the ledger of one `BookOp`.
* `quantity_conserved`: the ledger of any run.
-/

namespace TradingGateway.Book.OrderBook

open Common Message

/-- The quantity that rests under the id `i` in `l`. -/
def restingQty (i : UInt64) (l : List OrderPtr) : ℕ :=
  ((l.filter (·.id = i)).map (·.quantity.toNat)).sum

/-- The quantity of the trades that name `i` on side `s`. -/
def tradedQty (s : Bool) (i : UInt64) (trades : List Trade) : ℕ :=
  ((trades.filter (namedBy s · = i)).map (·.quantity.toNat)).sum

@[simp] theorem restingQty_nil (i : UInt64) : restingQty i [] = 0 := rfl

@[simp] theorem tradedQty_nil (s : Bool) (i : UInt64) : tradedQty s i [] = 0 := rfl

theorem restingQty_cons (i : UInt64) (p : OrderPtr) (l : List OrderPtr) :
    restingQty i (p :: l) = (if p.id = i then p.quantity.toNat else 0) + restingQty i l :=
  mass_cons _ _ p l

theorem tradedQty_cons (s : Bool) (i : UInt64) (t : Trade) (trades : List Trade) :
    tradedQty s i (t :: trades) =
      (if namedBy s t = i then t.quantity.toNat else 0) + tradedQty s i trades :=
  mass_cons _ _ t trades

theorem restingQty_append (i : UInt64) (l l' : List OrderPtr) :
    restingQty i (l ++ l') = restingQty i l + restingQty i l' :=
  mass_append _ _ l l'

theorem restingQty_perm {i : UInt64} {l l' : List OrderPtr} (h : l.Perm l') :
    restingQty i l = restingQty i l' :=
  mass_perm h

/-! ## Matching -/

theorem matchStep_conserves {book book' : OrderBook} {trade : Trade}
    (h : book.matchStep = some (trade, book')) (s : Bool) (i : UInt64) :
    restingQty i (book'.side s) + (if namedBy s trade = i then trade.quantity.toNat else 0) =
      restingQty i (book.side s) := by
  obtain ⟨front, rest, -, hid, hmass⟩ := matchStep_mass (P := fun p => p.id = i)
    (fun _ _ => Iff.rfl) h s
  rw [hid]
  exact hmass

theorem runMatch_conserves (book : OrderBook) (s : Bool) (i : UInt64) :
    restingQty i (book.runMatch.2.side s) + tradedQty s i book.runMatch.1 =
      restingQty i (book.side s) := by
  induction book using runMatch_induction with
  | hnone book hstep => simp [runMatch_of_none hstep]
  | hsome book trade book' hstep ih =>
    have := matchStep_conserves hstep s i
    simp only [runMatch_of_some hstep, tradedQty_cons]
    omega

/-! ## The other methods -/

theorem restingQty_addOrder (S : StdSort OrderPtr) (book : OrderBook) (p : OrderPtr) (s : Bool)
    (i : UInt64) :
    restingQty i ((book.addOrder S p).side s) =
      restingQty i (book.side s) + if p.isBuy = s ∧ p.id = i then p.quantity.toNat else 0 := by
  by_cases hs : p.isBuy = s
  · subst hs
    rw [restingQty_perm (addOrder_side_perm S book p), restingQty_append, restingQty_cons]
    simp
  · rw [addOrder_side, if_neg (Ne.symm hs), if_neg (fun h => hs h.1), add_zero]

/-- What a cancellation of `orderId` removes from side `s` under the id `i`:
    the orders with the id `orderId`, if that is the side it finds them on. -/
def cancelledQty (book : OrderBook) (orderId : UInt64) (s : Bool) (i : UInt64) : ℕ :=
  if book.sideOf orderId = some s then restingQty i ((book.side s).filter (·.id = orderId)) else 0

theorem restingQty_filter_add (i orderId : UInt64) (l : List OrderPtr) :
    restingQty i (l.filter (·.id ≠ orderId)) + restingQty i (l.filter (·.id = orderId)) =
      restingQty i l := by
  have hperm := List.filter_append_perm (fun p : OrderPtr => decide (p.id = orderId)) l
  rw [← restingQty_perm hperm, restingQty_append, add_comm]
  simp

theorem restingQty_cancelOrder (book : OrderBook) (orderId : UInt64) (s : Bool) (i : UInt64) :
    restingQty i ((book.cancelOrder orderId).2.side s) + book.cancelledQty orderId s i =
      restingQty i (book.side s) := by
  rw [cancelOrder_side]
  unfold cancelledQty
  split_ifs with hs
  · exact restingQty_filter_add i orderId (book.side s)
  · rfl

/-- The net change of a modification under the id `i` on side `s`: the new
    quantity minus the remaining quantity of the order that is modified. -/
def modifiedQty (book : OrderBook) (orderId : UInt64) (newQuantity : UInt32) (s : Bool)
    (i : UInt64) : ℤ :=
  if book.sideOf orderId = some s ∧ orderId = i then
    match (book.side s).find? (·.id = orderId) with
    | some found => newQuantity.toNat - found.quantity.toNat
    | none => 0
  else 0

theorem Valid.restingQty_modifyOrder {book : OrderBook} (h : book.Valid) (S : StdSort OrderPtr)
    (orderId : UInt64) (q : UInt32) (x : UInt64) (s : Bool) (i : UInt64) :
    (restingQty i ((book.modifyOrder S orderId q x).2.side s) : ℤ) =
      restingQty i (book.side s) + book.modifiedQty orderId q s i := by
  unfold modifiedQty
  rcases modifyOrder_cases S book orderId q x with
    ⟨hnone, heq⟩ | ⟨t, p, l₁, l₂, ht, hl, hid, hl₁, heq⟩
  · simp [heq, hnone]
  · have hbuy : p.isBuy = t := h.isBuy t p (by simp [hl])
    have hfind : (book.side t).find? (·.id = orderId) = some p :=
      List.find?_eq_some_iff_append.mpr
        ⟨by simpa using hid, l₁, l₂, hl, by simpa using hl₁⟩
    rw [heq, restingQty_addOrder, side_setSide, ht]
    simp only [OrderPtr.setPrice_isBuy, OrderPtr.setQuantity_isBuy, hbuy, OrderPtr.setPrice_id,
      OrderPtr.setQuantity_id, hid, OrderPtr.setPrice_quantity, OrderPtr.setQuantity_quantity,
      Option.some.injEq, UInt32.toNat_toUInt64]
    by_cases hst : t = s
    · subst hst
      rw [if_pos rfl, hfind, hl, restingQty_append, restingQty_append, restingQty_cons, hid]
      split_ifs <;> simp_all
      ring
    · simp [hst, Ne.symm hst]

end TradingGateway.Book.OrderBook

namespace TradingGateway.Engine

open Common Message Book OrderBook

/-! ## The ledger of a `BookOp` -/

/-- What a `BookOp` adds under the id `i` to side `s`. -/
def opAdded (s : Bool) (i : UInt64) : BookOp → ℤ
  | .add p => if p.isBuy = s ∧ p.id = i then p.quantity.toNat else 0
  | _ => 0

/-- The net change of the modification that a `BookOp` makes. -/
def opModified (b : OrderBook) (s : Bool) (i : UInt64) : BookOp → ℤ
  | .modify orderId q _ => b.modifiedQty orderId q s i
  | _ => 0

/-- What the cancellation that a `BookOp` makes removes. -/
def opCancelled (b : OrderBook) (s : Bool) (i : UInt64) : BookOp → ℤ
  | .cancel orderId => b.cancelledQty orderId s i
  | _ => 0

theorem applyOp_conserves {b : OrderBook} (h : b.Valid) (S : StdSort OrderPtr) (op : BookOp)
    (s : Bool) (i : UInt64) :
    (restingQty i ((applyOp S b op).2.side s) : ℤ) =
      restingQty i (b.side s) +
        (opAdded s i op + opModified b s i op - opCancelled b s i op -
          tradedQty s i (applyOp S b op).1) := by
  cases op with
  | idle => simp [applyOp, opAdded, opModified, opCancelled]
  | add p =>
    have h1 := runMatch_conserves (b.addOrder S p) s i
    have h2 := restingQty_addOrder S b p s i
    simp only [applyOp, opAdded, opModified, opCancelled]
    split_ifs at h2 ⊢ <;> omega
  | cancel orderId =>
    have h1 := restingQty_cancelOrder b orderId s i
    simp only [applyOp, opAdded, opModified, opCancelled, tradedQty_nil]
    omega
  | modify orderId q x =>
    have h1 := h.restingQty_modifyOrder S orderId q x s i
    simp only [applyOp, opAdded, opModified, opCancelled, tradedQty_nil]
    omega

namespace MatchingEngine

/-! ## The ledger of a run -/

section Ledger

variable (key : Symbol) (s : Bool) (i : UInt64) (e : MatchingEngine) (c : Input)

/-- The trades that the book of `key` emits while the command is processed. -/
def emitted : List Trade :=
  if c.order.symbolString = key then (e.processOrder c.sort c.order).2 else []

/-- The quantity the command adds under `i` to side `s` of the book of `key`. -/
def added : ℤ := opAdded s i (e.opOn c.order key)

/-- The net change the command makes there as a modification. -/
def modified : ℤ := opModified (e.book key) s i (e.opOn c.order key)

/-- The remaining quantity the command removes there as a cancellation. -/
def cancelled : ℤ := opCancelled (e.book key) s i (e.opOn c.order key)

/-- The quantity of the trades the book emits that name `i` on side `s`. -/
def traded : ℤ := tradedQty s i (e.emitted key c)

theorem emitted_eq : e.emitted key c = (applyOp c.sort (e.book key) (e.opOn c.order key)).1 := by
  unfold emitted
  split_ifs with hk
  · rw [trades_processOrder, hk]
  · unfold opOn
    cases c.order.command with
    | add => simp [hk, applyOp]
    | cancel => dsimp only; split_ifs <;> rfl
    | modify => dsimp only; split_ifs <;> rfl

end Ledger

/-- **Conservation of quantity.** After any run, for every key, side and id:
    what was added, plus the net change of all modifications, minus what
    cancellations removed, is what still rests plus what was traded. -/
theorem quantity_conserved (cmds : List Input) (key : Symbol) (s : Bool) (i : UInt64) :
    machine.total (added key s i) cmds + machine.total (modified key s i) cmds -
        machine.total (cancelled key s i) cmds =
      restingQty i (((after cmds).book key).side s) + machine.total (traded key s i) cmds := by
  have hstep : ∀ e c, (∀ k, (book e k).Valid) →
      (restingQty i (((machine.step e c).book key).side s) : ℤ) =
        restingQty i ((e.book key).side s) + ((e.added key s i c + e.modified key s i c) +
          (-e.cancelled key s i c + -e.traded key s i c)) := by
    intro e c hvalid
    rw [book_step, applyOp_conserves (hvalid key), traded, emitted_eq]
    simp only [added, modified, cancelled]
    ring
  have htotal := machine.total_eq_sub (Φ := fun e => (restingQty i ((e.book key).side s) : ℤ))
    (fun cmds k => valid_book_after cmds k) hstep cmds
  rw [machine.total_add, machine.total_add, machine.total_add, machine.total_neg,
    machine.total_neg] at htotal
  have hinit : restingQty i ((book machine.init key).side s) = 0 := by simp [machine]
  rw [hinit] at htotal
  push_cast at htotal
  linarith

end MatchingEngine

end TradingGateway.Engine

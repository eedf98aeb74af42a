import TradingGateway.Engine.Model

/-!
# What becomes of a resting order

Serial numbers tell the orders of a book apart, also those with equal ids
(`Numbered`). With them one can say what a command does to one resting order:
unless the command is a `CANCEL` or a `MODIFY` of its id, the order keeps
everything but the quantity that it trades.

* `runMatch_onlyTraded`: `match` only trades.
* `applyOp_onlyTraded`: so does every operation that does not name the order.
* `numbered_after`: serial numbers are unique after every run.
-/

namespace TradingGateway.Book.OrderBook

open Common Message

/-! ## Serial numbers -/

/-- All serial numbers in the book are below `n`. -/
def SerialsBelow (book : OrderBook) (n : ℕ) : Prop := ∀ s, ∀ p ∈ book.side s, p.serial < n

theorem serialsBelow_add {b : OrderBook} {n : ℕ} (h : b.SerialsBelow n) (S : StdSort OrderPtr)
    (order : Order) : (b.addOrder S ⟨n, order⟩).runMatch.2.SerialsBelow (n + 1) := by
  intro s
  refine forall_of_face (fun _ => Iff.rfl) (runMatch_face _ s).sublist ?_
  intro p hp
  rcases mem_addOrder_side.mp hp with hp | ⟨-, rfl⟩
  · exact (h s p hp).trans (Nat.lt_succ_self n)
  · exact Nat.lt_succ_self n

/-- No two orders of a side have the same serial number, and all numbers are
    below `n`. -/
structure Numbered (book : OrderBook) (n : ℕ) : Prop where
  nodup : ∀ s, ((book.side s).map OrderPtr.serial).Nodup
  below : book.SerialsBelow n

theorem numbered_new (symbol : Symbol) (n : ℕ) : (new symbol).Numbered n where
  nodup s := by simp
  below s p hp := by simp at hp

theorem Numbered.mono {book : OrderBook} {n m : ℕ} (h : book.Numbered n) (hle : n ≤ m) :
    book.Numbered m :=
  ⟨h.nodup, fun s p hp => (h.below s p hp).trans_le hle⟩

theorem nodup_serial_of_face {l l' : List OrderPtr}
    (hs : (l'.map OrderPtr.face).Sublist (l.map OrderPtr.face))
    (h : (l.map OrderPtr.serial).Nodup) : (l'.map OrderPtr.serial).Nodup := by
  have hserial : ∀ l : List OrderPtr,
      (l.map OrderPtr.face).map OrderPtr.serial = l.map OrderPtr.serial := by
    intro l
    rw [List.map_map]
    rfl
  rw [← hserial] at h ⊢
  exact h.sublist (hs.map _)

theorem Numbered.of_sublist {book book' : OrderBook} {n : ℕ} (h : book.Numbered n)
    (hs : ∀ s, (book'.side s).Sublist (book.side s)) : book'.Numbered n where
  nodup s := (h.nodup s).sublist ((hs s).map _)
  below s p hp := h.below s p ((hs s).subset hp)

/-- The next order gets the next number. -/
theorem Numbered.nodup_addOrder {book : OrderBook} {p : OrderPtr} (h : book.Numbered p.serial)
    (S : StdSort OrderPtr) (s : Bool) :
    (((book.addOrder S p).side s).map OrderPtr.serial).Nodup := by
  by_cases hs : s = p.isBuy
  · subst hs
    rw [((addOrder_side_perm S book p).map _).nodup_iff, List.map_append, List.map_singleton,
      ← List.concat_eq_append, List.nodup_concat]
    refine ⟨?_, h.nodup _⟩
    intro hmem
    obtain ⟨q, hq, heq⟩ := List.mem_map.mp hmem
    exact absurd heq (h.below _ q hq).ne
  · rw [addOrder_side, if_neg hs]
    exact h.nodup s

theorem Numbered.modifyOrder {book : OrderBook} {n : ℕ} (h : book.Numbered n)
    (hvalid : book.Valid) (S : StdSort OrderPtr) (orderId : UInt64) (q : UInt32) (x : UInt64) :
    (book.modifyOrder S orderId q x).2.Numbered n := by
  rcases modifyOrder_cases S book orderId q x with ⟨-, heq⟩ | ⟨t, p, l₁, l₂, -, hl, -, -, heq⟩
  · rw [heq]
    exact h
  · have hp : p ∈ book.side t := by simp [hl]
    have hbuy : p.isBuy = t := hvalid.isBuy t p hp
    have hrest := h.of_sublist (setSide_sublist (sublist_of_eq_append_cons hl))
    rw [heq]
    constructor
    · intro s
      by_cases hs : s = t
      · subst hs
        have hperm := addOrder_side_perm S (book.setSide s (l₁ ++ l₂))
          ((p.setQuantity q.toUInt64).setPrice x)
        rw [OrderPtr.setPrice_isBuy, OrderPtr.setQuantity_isBuy, hbuy] at hperm
        have hside := h.nodup s
        rw [hl] at hside
        rw [(hperm.map _).nodup_iff]
        simp only [side_setSide, if_true, List.map_append, List.map_cons, List.map_nil,
          OrderPtr.setPrice_serial, OrderPtr.setQuantity_serial] at hside ⊢
        rw [List.append_assoc]
        exact ((List.perm_append_singleton p.serial _).append_left _).nodup_iff.mpr hside
      · rw [addOrder_side, if_neg (by simpa [hbuy] using hs)]
        exact hrest.nodup s
    · intro s y hy
      rcases mem_addOrder_side.mp hy with hy | ⟨-, rfl⟩
      · exact hrest.below s y hy
      · exact h.below t p hp

/-! ## Trading -/

/-- The quantity that the fills take from the order with the serial number `n`
    when it stands at the front of side `s`. -/
def filledQty (s : Bool) (n : ℕ) (fills : List (OrderBook × Trade)) : ℕ :=
  ((fills.filter fun f => (f.1.side s).head?.map OrderPtr.serial = some n).map
    (·.2.quantity.toNat)).sum

/-- The order `p` of side `s` has been touched by nothing but the fills: it rests
    as before, without the quantity they took, or they took all of it. -/
def OnlyTraded (s : Bool) (p : OrderPtr) (fills : List (OrderBook × Trade)) (book' : OrderBook) :
    Prop :=
  (∃ p' ∈ book'.side s, p'.face = p.face ∧
      p'.quantity.toNat + filledQty s p.serial fills = p.quantity.toNat) ∨
    (∀ p' ∈ book'.side s, p'.serial ≠ p.serial) ∧
      filledQty s p.serial fills = p.quantity.toNat

theorem onlyTraded_of_mem {s : Bool} {p : OrderPtr} {book' : OrderBook}
    (hp : p ∈ book'.side s) : OnlyTraded s p [] book' :=
  .inl ⟨p, hp, rfl, rfl⟩

theorem filledQty_cons (s : Bool) (n : ℕ) (book : OrderBook) (trade : Trade)
    (fills : List (OrderBook × Trade)) :
    filledQty s n ((book, trade) :: fills) =
      (if (book.side s).head?.map OrderPtr.serial = some n then trade.quantity.toNat else 0) +
        filledQty s n fills := by
  unfold filledQty
  rw [List.filter_cons]
  split_ifs <;> simp_all

/-- Nothing is taken from an order that is not there, and it does not come. -/
theorem filledQty_of_absent {book : OrderBook} {s : Bool} {n : ℕ}
    (h : ∀ p ∈ book.side s, p.serial ≠ n) :
    (∀ p ∈ book.runMatch.2.side s, p.serial ≠ n) ∧ filledQty s n book.matchFills = 0 := by
  obtain ⟨hlast, hfills⟩ := runMatch_invariant (P := fun b => ∀ p ∈ b.side s, p.serial ≠ n)
    (fun _ _ _ hstep h => forall_of_face (fun _ => Iff.rfl) (matchStep_face hstep s).sublist h)
    book h
  refine ⟨hlast, ?_⟩
  have hnone : book.matchFills.filter
      (fun f => (f.1.side s).head?.map OrderPtr.serial = some n) = [] := by
    refine List.filter_eq_nil_iff.mpr ?_
    intro fill hfill hfront
    simp only [decide_eq_true_eq, Option.map_eq_some_iff] at hfront
    obtain ⟨p, hp, hserial⟩ := hfront
    exact hfills fill hfill p (List.mem_of_mem_head? hp) hserial
  rw [filledQty, hnone]
  rfl

theorem runMatch_onlyTraded {book : OrderBook} {s : Bool} {p : OrderPtr}
    (hnodup : ((book.side s).map OrderPtr.serial).Nodup) (hp : p ∈ book.side s) :
    OnlyTraded s p book.matchFills book.runMatch.2 := by
  induction book using runMatch_induction generalizing p with
  | hnone book hstep =>
    rw [matchFills_of_none hstep, runMatch_of_none hstep]
    exact onlyTraded_of_mem hp
  | hsome book trade book' hstep ih =>
    obtain ⟨front, rest, hside, -, hle, hside'⟩ := matchStep_side hstep s
    have hnodup' := nodup_serial_of_face (matchStep_face hstep s).sublist hnodup
    rw [hside, List.map_cons, List.nodup_cons] at hnodup
    rw [OnlyTraded, matchFills_of_some hstep, runMatch_of_some hstep, filledQty_cons]
    have hhead : (book.side s).head?.map OrderPtr.serial = some front.serial := by
      rw [hside]
      rfl
    rw [hside] at hp
    rcases List.mem_cons.mp hp with rfl | hp
    · -- the order trades
      rw [if_pos hhead]
      have hsub := UInt64.toNat_sub_of_le p.quantity trade.quantity hle
      have hle' := UInt64.le_iff_toNat_le.mp hle
      by_cases h0 : p.quantity - trade.quantity = 0
      · have hrest : book'.side s = rest := by simp [hside', fillFront, h0]
        have habsent : ∀ q ∈ book'.side s, q.serial ≠ p.serial := by
          rw [hrest]
          intro q hq heq
          exact hnodup.1 (heq ▸ List.mem_map_of_mem hq)
        obtain ⟨hlast, hzero⟩ := filledQty_of_absent habsent
        rw [h0, UInt64.toNat_zero] at hsub
        exact .inr ⟨hlast, by omega⟩
      · have hmem : p.setQuantity (p.quantity - trade.quantity) ∈ book'.side s := by
          simp [hside', fillFront, h0]
        rcases ih hnodup' hmem with ⟨q, hq, hface, hqty⟩ | ⟨hlast, hqty⟩
        · rw [OrderPtr.setQuantity_quantity, OrderPtr.setQuantity_serial] at hqty
          exact .inl ⟨q, hq, hface, by omega⟩
        · rw [OrderPtr.setQuantity_quantity, OrderPtr.setQuantity_serial] at hqty
          exact .inr ⟨hlast, by omega⟩
    · -- another order trades
      have hne : front.serial ≠ p.serial := by
        intro heq
        exact hnodup.1 (heq ▸ List.mem_map_of_mem hp)
      rw [if_neg (by rw [hhead]; simpa using hne), zero_add]
      refine ih hnodup' ?_
      rw [hside', fillFront]
      split_ifs
      · exact hp
      · exact List.mem_cons_of_mem _ hp

end TradingGateway.Book.OrderBook

namespace TradingGateway.Engine

open Common Message Book OrderBook

/-! ## Commands -/

/-- The fills of a `BookOp`, each with the book at the moment it is made. -/
def opFills (S : StdSort OrderPtr) (b : OrderBook) : BookOp → List (OrderBook × Trade)
  | .add p => (b.addOrder S p).matchFills
  | _ => []

/-- The operation cancels or modifies orders with the id `i`. -/
def BookOp.Names (i : UInt64) : BookOp → Prop
  | .cancel orderId | .modify orderId _ _ => orderId = i
  | _ => False

/-- The serial number that an added order has. -/
def BookOp.SerialIs (n : ℕ) : BookOp → Prop
  | .add p => p.serial = n
  | _ => True

/-- The number of orders allocated after the operation. -/
def BookOp.allocates (n : ℕ) : BookOp → ℕ
  | .add _ => n + 1
  | _ => n

theorem applyOp_onlyTraded {b : OrderBook} {n : ℕ} (h : b.Numbered n) (S : StdSort OrderPtr)
    {op : BookOp} (hop : op.SerialIs n) {s : Bool} {p : OrderPtr} (hp : p ∈ b.side s)
    (hname : ¬ op.Names p.id) : OnlyTraded s p (opFills S b op) (applyOp S b op).2 := by
  cases op with
  | idle => exact onlyTraded_of_mem hp
  | add q =>
    obtain rfl : q.serial = n := hop
    exact runMatch_onlyTraded (h.nodup_addOrder S s) (mem_addOrder_side.mpr (.inl hp))
  | cancel orderId =>
    apply onlyTraded_of_mem
    rw [applyOp, cancelOrder_side]
    split_ifs
    · exact List.mem_filter.mpr ⟨hp, by simpa using fun heq => hname (Eq.symm heq)⟩
    · exact hp
  | modify orderId q x =>
    apply onlyTraded_of_mem
    rw [applyOp]
    rcases modifyOrder_cases S b orderId q x with
      ⟨-, heq⟩ | ⟨t, r, l₁, l₂, -, hl, hid, -, heq⟩
    · rwa [heq]
    · rw [heq]
      refine mem_addOrder_side.mpr (.inl ?_)
      rw [side_setSide]
      split_ifs with hs
      · -- the order that is taken out has another id
        subst hs
        rw [hl] at hp
        have hne : p ≠ r := by
          rintro rfl
          exact hname hid.symm
        simpa [hne] using hp
      · exact hp

theorem numbered_applyOp {b : OrderBook} (hvalid : b.Valid) {n : ℕ} (h : b.Numbered n)
    (S : StdSort OrderPtr) {op : BookOp} (hop : op.SerialIs n) :
    (applyOp S b op).2.Numbered (op.allocates n) := by
  cases op with
  | idle => exact h
  | add p =>
    obtain rfl : p.serial = n := hop
    refine ⟨fun s => ?_, serialsBelow_add h.below S p.order⟩
    exact nodup_serial_of_face (runMatch_face _ s).sublist (h.nodup_addOrder S s)
  | cancel orderId => exact h.of_sublist (cancelOrder_sublist b orderId)
  | modify orderId q x => exact h.modifyOrder hvalid S orderId q x

namespace MatchingEngine

/-- The fills of a command in the book of `key`. -/
def fillsIn (e : MatchingEngine) (c : Input) (key : Symbol) : List (OrderBook × Trade) :=
  opFills c.sort (e.book key) (e.opOn c.order key)

theorem opOn_serialIs (e : MatchingEngine) (order : Order) (key : Symbol) :
    (e.opOn order key).SerialIs e.allocated := by
  unfold opOn
  split <;> split_ifs <;> trivial

theorem opOn_names {e : MatchingEngine} {order : Order} {key : Symbol} {i : UInt64}
    (h : (e.opOn order key).Names i) :
    order.command ≠ .add ∧ order.id = i ∧ e.orderIdToSymbol i = some key := by
  unfold opOn at h
  cases hcommand : order.command with
  | add =>
    simp only [hcommand] at h
    split_ifs at h <;> exact h.elim
  | cancel =>
    simp only [hcommand] at h
    split_ifs at h with hindex
    · obtain rfl : order.id = i := h
      exact ⟨nofun, rfl, hindex⟩
    · exact h.elim
  | modify =>
    simp only [hcommand] at h
    split_ifs at h with hindex
    · obtain rfl : order.id = i := h
      exact ⟨nofun, rfl, hindex⟩
    · exact h.elim

theorem allocated_step (e : MatchingEngine) (c : Input) :
    (machine.step e c).allocated =
      if c.order.command = .add then e.allocated + 1 else e.allocated := by
  show (e.processOrder c.sort c.order).1.allocated = _
  unfold processOrder
  cases c.order.command with
  | add => simp [processAdd]
  | cancel =>
    simp only [processCancel]
    split <;> simp
  | modify =>
    simp only [processModify]
    split <;> simp

theorem allocates_opOn_le (e : MatchingEngine) (c : Input) (key : Symbol) :
    (e.opOn c.order key).allocates e.allocated ≤ (machine.step e c).allocated := by
  rw [allocated_step]
  unfold opOn
  cases c.order.command with
  | add =>
    simp only [if_true]
    split_ifs
    · exact le_rfl
    · exact Nat.le_succ _
  | cancel =>
    simp only [reduceCtorEq, if_false]
    split_ifs
    · exact le_rfl
    · exact le_rfl
  | modify =>
    simp only [reduceCtorEq, if_false]
    split_ifs
    · exact le_rfl
    · exact le_rfl

/-- After any run the orders of a side have different serial numbers. -/
theorem numbered_after (cmds : List Input) (key : Symbol) :
    ((after cmds).book key).Numbered (after cmds).allocated := by
  induction cmds using List.reverseRecOn with
  | nil => exact numbered_new key _
  | append_singleton cmds c ih =>
    rw [after_snoc, book_step]
    have hnum := numbered_applyOp (valid_book_after cmds key) ih c.sort
      (opOn_serialIs _ c.order key)
    exact hnum.mono (allocates_opOn_le _ c key)

/-- A command does nothing to an order but trade with it, unless it is a `CANCEL` or
    a `MODIFY` of its id and the index names its book. -/
theorem onlyTraded_step {e : MatchingEngine} {key : Symbol}
    (h : (e.book key).Numbered e.allocated) (c : Input) {s : Bool} {p : OrderPtr}
    (hp : p ∈ (e.book key).side s)
    (hc : ¬ (c.order.command ≠ .add ∧ c.order.id = p.id ∧ e.orderIdToSymbol p.id = some key)) :
    OnlyTraded s p (e.fillsIn c key) ((machine.step e c).book key) := by
  rw [book_step]
  exact applyOp_onlyTraded h c.sort (opOn_serialIs e c.order key) hp
    fun hname => hc (opOn_names hname)

end MatchingEngine

end TradingGateway.Engine

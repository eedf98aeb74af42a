import TradingGateway.Engine.Conservation

/-!
# Completeness of cancellation

A `CANCEL` goes to the book that `m_order_id_to_symbol` names for the id, which
is that of the last `ADD` with it, and `cancel_order` returns as soon as it has
removed orders from the bids. Orders that share the id and rest in another book,
or among the asks while a bid has the id, stay.

* `Gathered`: the orders under the id all rest on one side of the book that the
  index names.
* `cancelsComplete_iff`: all cancellations of a run are complete exactly when
  each of them finds its orders gathered.
* `cancelled_id_still_rests`: a bid and an ask with one id.
-/

namespace TradingGateway.Book.OrderBook

open Common Message

/-- An order with the id `i` rests on side `s`. -/
def Has (book : OrderBook) (s : Bool) (i : UInt64) : Prop := ∃ p ∈ book.side s, p.id = i

theorem Has.of_sublist {book book' : OrderBook} {s : Bool} {i : UInt64}
    (hs : (book'.side s).Sublist (book.side s)) (h : book'.Has s i) : book.Has s i := by
  obtain ⟨p, hp, hid⟩ := h
  exact ⟨p, hs.subset hp, hid⟩

theorem Has.of_face {book book' : OrderBook} {s : Bool} {i : UInt64}
    (hs : ((book'.side s).map OrderPtr.face).Sublist ((book.side s).map OrderPtr.face))
    (h : book'.Has s i) : book.Has s i := by
  by_contra hnot
  have hall : ∀ p ∈ book.side s, p.id ≠ i := fun p hp hid => hnot ⟨p, hp, hid⟩
  obtain ⟨p, hp, hid⟩ := h
  exact forall_of_face (P := fun p => p.id ≠ i) (fun _ => Iff.rfl) hs hall p hp hid

theorem has_addOrder {S : StdSort OrderPtr} {book : OrderBook} {p : OrderPtr} {s : Bool}
    {i : UInt64} (h : (book.addOrder S p).Has s i) : book.Has s i ∨ s = p.isBuy ∧ p.id = i := by
  obtain ⟨x, hx, hid⟩ := h
  rcases mem_addOrder_side.mp hx with hx | ⟨hs, rfl⟩
  · exact .inl ⟨x, hx, hid⟩
  · exact .inr ⟨hs, hid⟩

/-- `modify_order` brings no new id into the book. -/
theorem Valid.has_modifyOrder {book : OrderBook} (hvalid : book.Valid) {S : StdSort OrderPtr}
    {orderId : UInt64} {q : UInt32} {x : UInt64} {s : Bool} {i : UInt64}
    (h : (book.modifyOrder S orderId q x).2.Has s i) : book.Has s i := by
  rcases modifyOrder_cases S book orderId q x with ⟨-, heq⟩ | ⟨t, p, l₁, l₂, -, hl, -, -, heq⟩
  · rwa [heq] at h
  · rw [heq] at h
    rcases has_addOrder h with h | ⟨hs, hid⟩
    · exact h.of_sublist (setSide_sublist (sublist_of_eq_append_cons hl) s)
    · have hmem : p ∈ book.side t := by simp [hl]
      have hside : s = t := hs.trans (hvalid.isBuy t p hmem)
      exact ⟨p, hside ▸ hmem, hid⟩

/-- After `cancel_order` the id rests only where it was not looked for. -/
theorem has_cancelOrder_iff (book : OrderBook) (i : UInt64) (s : Bool) :
    (book.cancelOrder i).2.Has s i ↔ book.Has s i ∧ book.sideOf i ≠ some s := by
  rw [Has, cancelOrder_side]
  split_ifs with hs
  · simp [hs]
  · simp [Has, hs]

/-- A trade of `match` names orders that were there before. -/
theorem has_of_mem_runMatch {book : OrderBook} {t : Trade} (ht : t ∈ book.runMatch.1) (s : Bool) :
    book.Has s (namedBy s t) := by
  rw [← map_snd_matchFills] at ht
  obtain ⟨fill, hfill, rfl⟩ := List.mem_map.mp ht
  have hface := (runMatch_invariant
    (P := fun b => ((b.side s).map OrderPtr.face).Sublist ((book.side s).map OrderPtr.face))
    (fun _ _ _ hstep h => (matchStep_face hstep s).sublist.trans h) book
    (List.Sublist.refl _)).2 fill hfill
  obtain ⟨book', hstep⟩ := mem_matchFills hfill
  obtain ⟨front, rest, hside, hid, -⟩ := matchStep_side hstep s
  exact Has.of_face hface ⟨front, by simp [hside], hid.symm⟩

end TradingGateway.Book.OrderBook

namespace TradingGateway.Engine

open Common Message Book OrderBook

/-- The command is an `ADD` of the id `i`. -/
def Input.IsAddOf (c : Input) (i : UInt64) : Prop := c.order.command = .add ∧ c.order.id = i

/-- Only an `ADD` brings an id into a book. -/
theorem has_applyOp {b : OrderBook} (hvalid : b.Valid) {S : StdSort OrderPtr} {op : BookOp}
    {s : Bool} {i : UInt64} (h : (applyOp S b op).2.Has s i) :
    b.Has s i ∨ ∃ p, op = .add p ∧ p.id = i := by
  cases op with
  | idle => exact .inl h
  | add p =>
    rcases has_addOrder (h.of_face (runMatch_face _ s).sublist) with h | ⟨-, hid⟩
    · exact .inl h
    · exact .inr ⟨p, rfl, hid⟩
  | cancel orderId => exact .inl (h.of_sublist (cancelOrder_sublist b orderId s))
  | modify orderId q x => exact .inl (hvalid.has_modifyOrder h)

/-- A trade names ids that rest in the book or are just being added. -/
theorem named_applyOp {b : OrderBook} {S : StdSort OrderPtr} {op : BookOp} {t : Trade}
    (ht : t ∈ (applyOp S b op).1) (s : Bool) :
    b.Has s (namedBy s t) ∨ ∃ p, op = .add p ∧ p.id = namedBy s t := by
  cases op with
  | add p =>
    rcases has_addOrder (has_of_mem_runMatch ht s) with h | ⟨-, hid⟩
    · exact .inl h
    · exact .inr ⟨p, rfl, hid⟩
  | _ => simp [applyOp] at ht

namespace MatchingEngine

theorem isAddOf_of_opOn {e : MatchingEngine} {c : Input} {key : Symbol} {p : OrderPtr}
    (h : e.opOn c.order key = .add p) : c.IsAddOf p.id := by
  unfold opOn at h
  split at h
  · next hadd =>
    split_ifs at h
    cases h
    exact ⟨hadd, rfl⟩
  · split_ifs at h
  · split_ifs at h

/-- No order with the id `i` rests in any book. -/
def Absent (e : MatchingEngine) (i : UInt64) : Prop := ∀ key s, ¬ (e.book key).Has s i

/-- An id that rests nowhere is named by no trade and stays away, until it is
    added. -/
theorem Absent.step {e : MatchingEngine} (hvalid : ∀ key, (e.book key).Valid) {i : UInt64}
    (h : e.Absent i) {c : Input} (hc : ¬ c.IsAddOf i) :
    (machine.step e c).Absent i ∧
      ∀ t ∈ (e.processOrder c.sort c.order).2, ∀ s, namedBy s t ≠ i := by
  constructor
  · intro key s hhas
    rw [book_step] at hhas
    rcases has_applyOp (hvalid key) hhas with hhas | ⟨p, hop, rfl⟩
    · exact h key s hhas
    · exact hc (isAddOf_of_opOn hop)
  · rintro t ht s rfl
    rw [trades_processOrder] at ht
    rcases named_applyOp ht s with hhas | ⟨p, hop, hid⟩
    · exact h _ s hhas
    · exact hc (hid ▸ isAddOf_of_opOn hop)

theorem Absent.run {cmds : List Input} {i : UInt64} (h : (after cmds).Absent i)
    (later : List Input) (hlater : ∀ c ∈ later, ¬ c.IsAddOf i) :
    (after (cmds ++ later)).Absent i := by
  induction later using List.reverseRecOn with
  | nil => rwa [List.append_nil]
  | append_singleton later c ih =>
    rw [← List.append_assoc, after_snoc]
    have hpre : (after (cmds ++ later)).Absent i := ih fun d hd => hlater d (by simp [hd])
    exact (hpre.step (valid_book_after _) (hlater c (by simp))).1

/-- If the command is a `CANCEL`, the orders that rest under its id all rest on
    one side of the book that the index names for it. -/
def Gathered (e : MatchingEngine) (c : Input) : Prop :=
  c.order.command = .cancel → ∀ key s, (e.book key).Has s c.order.id →
    e.orderIdToSymbol c.order.id = some key ∧ (e.book key).sideOf c.order.id = some s

theorem absent_step_iff (e : MatchingEngine) {c : Input} (hc : c.order.command = .cancel) :
    (machine.step e c).Absent c.order.id ↔ e.Gathered c := by
  simp only [Absent, Gathered, hc, true_implies, book_step, opOn]
  apply forall₂_congr
  intro key s
  split_ifs with hkey
  · simp only [applyOp, has_cancelOrder_iff, hkey, true_and, not_and, not_not]
  · simp only [applyOp, hkey, false_and, imp_false]

/-- Right after each `CANCEL` of the run nothing rests under its id, and no
    trade names the id until it is added again. -/
def CancelsComplete (cmds : List Input) : Prop :=
  ∀ done c later, done ++ c :: later <+: cmds → c.order.command = .cancel →
    (after (done ++ [c])).Absent c.order.id ∧
      ∀ mid d, mid ++ [d] <+: later → (∀ x ∈ mid ++ [d], ¬ x.IsAddOf c.order.id) →
        ∀ t ∈ ((after (done ++ c :: mid)).processOrder d.sort d.order).2,
          ∀ s, namedBy s t ≠ c.order.id

/-- **Cancellation.** The cancellations of a run are complete if and only if each
    of them is processed when the orders under its id all rest on one side of
    the book that the index names. -/
theorem cancelsComplete_iff (cmds : List Input) :
    CancelsComplete cmds ↔ machine.Guarded Gathered cmds := by
  constructor
  · intro h done c hdone hc
    have habsent := (h done c [] hdone hc).1
    rw [after_snoc] at habsent
    exact (absent_step_iff _ hc).mp habsent hc
  · intro hg done c later hdone hc
    have hpre : done ++ [c] <+: cmds :=
      List.IsPrefix.trans ⟨later, List.append_cons done c later ▸ rfl⟩ hdone
    have habsent : (after (done ++ [c])).Absent c.order.id := by
      rw [after_snoc]
      exact (absent_step_iff _ hc).mpr (hg done c hpre)
    refine ⟨habsent, ?_⟩
    intro mid d _ hmid
    have hrun := habsent.run mid fun x hx => hmid x (by simp [hx])
    rw [List.append_cons]
    exact (hrun.step (valid_book_after _) (hmid d (by simp))).2

/-- A bid and an ask of the client's order 1, and their cancellation. -/
def sharedId : List Input :=
  [⟨.insertion, addCommand .zeroed (Order.make .zeroed 1 100 10 [66, 84, 67] true)⟩,
   ⟨.insertion, addCommand .zeroed (Order.make .zeroed 1 110 10 [66, 84, 67] false)⟩,
   ⟨.insertion, cancelCommand .zeroed 1⟩]

/-- The ask stays, and the next buy trades with it. -/
theorem cancelled_id_still_rests :
    ¬ CancelsComplete sharedId ∧
      (((after sharedId).book [66, 84, 67]).asks.map fun p => (p.id, p.quantity)) = [(1, 10)] ∧
      (((after sharedId).processOrder .insertion
        (addCommand .zeroed (Order.make .zeroed 2 110 4 [66, 84, 67] true))).2.map
          fun t => (t.sellOrderId, t.quantity)) = [(1, 4)] := by
  refine ⟨?_, by decide +kernel, by decide +kernel⟩
  intro h
  have habsent := (h (sharedId.take 2) (sharedId.get ⟨2, by decide⟩) [] List.prefix_rfl rfl).1
  refine habsent [66, 84, 67] false ?_
  exact ⟨⟨1, addCommand .zeroed (Order.make .zeroed 1 110 10 [66, 84, 67] false)⟩,
    by decide +kernel, by decide +kernel⟩

end MatchingEngine

end TradingGateway.Engine

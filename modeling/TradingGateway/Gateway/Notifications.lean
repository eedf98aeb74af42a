import TradingGateway.Gateway.Sessions

/-!
# Who is told of a trade

The trade callback looks up the descriptors of buyer and seller under
`m_session_mutex` and sends after it has released it. Between the two a
connection may be closed and its descriptor handed to another client, who then
gets the notification.

* `notified_parties`: as long as no descriptor that the callback holds is handed
  out again, only those who sent one of the two orders are notified.
* `reuse_misdelivers`: a descriptor that is handed out then takes the
  notification to a client who sent neither.
* `stranger_notified`: such a run.
-/

namespace TradingGateway.Gateway

open Common Message Book Engine

/-- The descriptors that the callback has still to send to, and the orders it
    found them for. -/
def Callback.aims : Callback → List (SocketFd × UInt64)
  | .idle => []
  | .lookedUp trade buyerFd sellerFd =>
    [(buyerFd, trade.buyOrderId), (sellerFd, trade.sellOrderId)]
  | .buyerNotified trade sellerFd => [(sellerFd, trade.sellOrderId)]

namespace Sessions

/-- The descriptor that a step opens. -/
def opened : Action → List SocketFd
  | .accept _ fd => [fd]
  | _ => []

/-- The step opens no descriptor that the callback still has to send to. -/
def KeepsApart (s : Sessions) (action : Action) : Prop :=
  ∀ fd ∈ opened action, fd ∉ s.callback.aims.map Prod.fst

instance (s : Sessions) (action : Action) : Decidable (s.KeepsApart action) :=
  inferInstanceAs (Decidable (∀ fd ∈ opened action, _))

/-- Every notification was written to a connection that sent one of the two
    orders of the trade. -/
def NotifiedParties (s : Sessions) : Prop :=
  ∀ w ∈ s.written, (w.1, w.2.buyOrderId) ∈ s.sent ∨ (w.1, w.2.sellOrderId) ∈ s.sent

instance (s : Sessions) : Decidable s.NotifiedParties :=
  inferInstanceAs (Decidable (∀ w ∈ s.written, _))

/-- What the callback is about to send goes to senders of the orders, or to
    nobody. -/
def Aimed (s : Sessions) : Prop :=
  ∀ fd id, (fd, id) ∈ s.callback.aims → ∀ c, s.descriptors fd = some c → (c, id) ∈ s.sent

/-! ## What a step does to the callback -/

theorem sent_step (s : Sessions) (action : Action) : s.sent ⊆ (s.step action).sent := by
  cases action with
  | accept c fd =>
    simp only [step]
    split_ifs <;> exact List.Subset.refl _
  | message c env request =>
    simp only [step]
    split
    · exact List.subset_append_left _ _
    · exact List.Subset.refl _
  | _ =>
    simp only [step]
    split <;> exact List.Subset.refl _

theorem descriptors_step {s : Sessions} {action : Action} {fd : SocketFd} {c : ℕ}
    (h : (s.step action).descriptors fd = some c) :
    s.descriptors fd = some c ∨ fd ∈ opened action := by
  cases action with
  | accept c' fd' =>
    simp only [step] at h
    split_ifs at h
    · rcases eq_or_ne fd fd' with rfl | hne
      · exact .inr (List.mem_singleton_self _)
      · exact .inl (Function.update_of_ne hne _ s.descriptors ▸ h)
    · exact .inl h
  | close c' =>
    simp only [step] at h
    split at h
    · next fd' _ =>
      rcases eq_or_ne fd fd' with rfl | hne
      · have hnone := (Function.update_self fd none s.descriptors).symm.trans h
        cases hnone
      · exact .inl (Function.update_of_ne hne _ s.descriptors ▸ h)
    · exact .inl h
  | _ =>
    simp only [step] at h
    split at h <;> exact .inl h

/-- Only the lookup gives the callback something to aim at. -/
theorem aims_step {s : Sessions} {action : Action} {fd : SocketFd} {id : UInt64}
    (h : (fd, id) ∈ (s.step action).callback.aims) :
    (fd, id) ∈ s.callback.aims ∨ (opened action = [] ∧ fd = s.fdOf id) := by
  cases action with
  | accept c fd' =>
    simp only [step] at h
    split_ifs at h <;> exact .inl h
  | lookUp =>
    simp only [step] at h
    split at h
    · simp only [Callback.aims, List.mem_cons, Prod.mk.injEq, List.not_mem_nil, or_false] at h
      rcases h with ⟨rfl, rfl⟩ | ⟨rfl, rfl⟩ <;> exact .inr ⟨rfl, rfl⟩
    · exact .inl h
  | notifyBuyer =>
    simp only [step] at h
    split at h
    · next hcallback =>
      rw [hcallback]
      exact .inl (List.mem_cons_of_mem _ h)
    · exact .inl h
  | notifySeller =>
    simp only [step] at h
    split at h
    · cases h
    · exact .inl h
  | _ =>
    simp only [step] at h
    split at h <;> exact .inl h

theorem mem_notified {s : Sessions} {fd : SocketFd} {trade : Trade} {w : ℕ × Trade}
    (h : w ∈ s.notified fd trade) : s.descriptors fd = some w.1 ∧ w.2 = trade := by
  rw [notified] at h
  split_ifs at h
  · cases h
  · obtain ⟨c, hc, rfl⟩ := List.mem_map.mp h
    exact ⟨Option.mem_toList.mp hc, rfl⟩

/-- What is written goes to a descriptor that the callback aims at. -/
theorem written_step {s : Sessions} {action : Action} {w : ℕ × Trade}
    (h : w ∈ (s.step action).written) :
    w ∈ s.written ∨ ∃ fd id, (fd, id) ∈ s.callback.aims ∧ s.descriptors fd = some w.1 ∧
      (id = w.2.buyOrderId ∨ id = w.2.sellOrderId) := by
  cases action with
  | accept c fd =>
    simp only [step] at h
    split_ifs at h <;> exact .inl h
  | notifyBuyer =>
    simp only [step] at h
    split at h
    · next trade buyerFd sellerFd hcallback =>
      refine (List.mem_append.mp h).imp_right fun h => ?_
      obtain ⟨hfd, rfl⟩ := mem_notified h
      exact ⟨buyerFd, _, by simp [hcallback, Callback.aims], hfd, .inl rfl⟩
    · exact .inl h
  | notifySeller =>
    simp only [step] at h
    split at h
    · next trade sellerFd hcallback =>
      refine (List.mem_append.mp h).imp_right fun h => ?_
      obtain ⟨hfd, rfl⟩ := mem_notified h
      exact ⟨sellerFd, _, by simp [hcallback, Callback.aims], hfd, .inr rfl⟩
    · exact .inl h
  | _ =>
    simp only [step] at h
    split at h <;> exact .inl h

/-! ## Runs -/

/-- What the lookup finds is held by a sender of the order, if by anybody. -/
theorem Inv.fdOf_sent {s : Sessions} (h : s.Inv) {id : UInt64} {c : ℕ}
    (hc : s.descriptors (s.fdOf id) = some c) : (c, id) ∈ s.sent := by
  rw [fdOf] at hc
  cases hroute : s.server.orderToClient id with
  | none =>
    rw [hroute] at hc
    obtain ⟨phase, hat, -⟩ := (h.held.open_iff _ _).mp hc
    exact absurd (h.held.nonneg hat) (by decide)
  | some fd =>
    rw [hroute] at hc
    obtain ⟨c', phase, hat, hs, hsent⟩ := h.mapped.route hroute
    have hfd := (h.held.open_iff fd c').mpr ⟨phase, hat, Phase.ne_closed_of_session hs⟩
    obtain rfl : c' = c := Option.some.inj (hfd.symm.trans hc)
    exact hsent

theorem Aimed.step {s : Sessions} (h : s.Aimed) (hinv : s.Inv) {action : Action}
    (hapart : s.KeepsApart action) : (s.step action).Aimed := by
  intro fd id haim c hc
  apply sent_step s action
  rcases aims_step haim with hold | ⟨hopened, rfl⟩
  · rcases descriptors_step hc with hc | hnew
    · exact h fd id hold c hc
    · exact absurd (List.mem_map_of_mem hold) (hapart fd hnew)
  · rcases descriptors_step hc with hc | hnew
    · exact hinv.fdOf_sent hc
    · rw [hopened] at hnew
      cases hnew

theorem NotifiedParties.step {s : Sessions} (h : s.NotifiedParties) (haimed : s.Aimed)
    (action : Action) : (s.step action).NotifiedParties := by
  intro w hw
  rcases written_step hw with hw | ⟨fd, id, haim, hfd, hid⟩
  · exact (h w hw).imp (sent_step s action ·) (sent_step s action ·)
  · have hsent := sent_step s action (haimed fd id haim w.1 hfd)
    rcases hid with rfl | rfl
    · exact .inl hsent
    · exact .inr hsent

/-- **Notifications.** In every state of every run in which no `accept` returns a
    descriptor that the callback has looked up and still has to send to, all
    trade notifications were written to connections that sent one of the orders
    of the trade. -/
theorem notified_parties (actions : List Action) (h : machine.Guarded KeepsApart actions) :
    (machine.after actions).NotifiedParties := by
  have hall : ∀ (s : Sessions) action, (s.Inv ∧ s.Aimed ∧ s.NotifiedParties) → s.KeepsApart action →
      ((s.step action).Inv ∧ (s.step action).Aimed ∧ (s.step action).NotifiedParties) := by
    rintro s action ⟨hinv, haimed, hparties⟩ hapart
    exact ⟨hinv.step action, haimed.step hinv hapart, hparties.step haimed action⟩
  refine (machine.after_of_guarded ⟨inv_init, ?_, ?_⟩ hall actions h).2.2
  · intro fd id haim
    cases haim
  · intro w hw
    cases hw

theorem not_notifiedParties {s : Sessions} (c : ℕ) (trade : Trade)
    (hwritten : (c, trade) ∈ s.written) (hsent : ∀ id, (c, id) ∉ s.sent) :
    ¬ s.NotifiedParties := by
  intro h
  rcases h (c, trade) hwritten with hmem | hmem
  · exact hsent _ hmem
  · exact hsent _ hmem

/-- If a descriptor that the callback still has to send to is handed to a new
    connection, the callback only has to go on for that connection to be notified
    of a trade between others. -/
theorem reuse_misdelivers {s : Sessions} (h : s.Inv) {c : ℕ} {fd : SocketFd}
    (hc : s.connection c = none) (hfd : s.descriptors fd = none) (hpos : 0 ≤ fd)
    (haim : fd ∈ s.callback.aims.map Prod.fst) :
    ∃ pre ∈ [[], [.notifyBuyer]], ∃ last ∈ [.notifyBuyer, .notifySeller],
      ¬ (((.accept c fd :: pre) ++ [last] : List Action).foldl step s).NotifiedParties := by
  have hsent : ∀ id, (c, id) ∉ s.sent := fun id hmem => h.held.known hmem hc
  have hne : fd ≠ -1 := by
    rintro rfl
    exact absurd hpos (by decide)
  cases hcallback : s.callback with
  | idle =>
    rw [hcallback] at haim
    cases haim
  | lookedUp trade buyerFd sellerFd =>
    rw [hcallback] at haim
    simp only [Callback.aims, List.map_cons, List.map_nil, List.mem_cons, List.not_mem_nil,
      or_false] at haim
    rcases haim with rfl | rfl
    · refine ⟨[], by simp, .notifyBuyer, by simp, not_notifiedParties c trade ?_ ?_⟩
      · simp [step, hc, hfd, hpos, hcallback, notified, hne]
      · simpa [step, hc, hfd, hpos, hcallback] using hsent
    · refine ⟨[.notifyBuyer], by simp, .notifySeller, by simp, not_notifiedParties c trade ?_ ?_⟩
      · simp [step, hc, hfd, hpos, hcallback, notified, hne]
      · simpa [step, hc, hfd, hpos, hcallback] using hsent
  | buyerNotified trade sellerFd =>
    rw [hcallback] at haim
    obtain rfl : fd = sellerFd := by simpa [Callback.aims] using haim
    refine ⟨[], by simp, .notifySeller, by simp, not_notifiedParties c trade ?_ ?_⟩
    · simp [step, hc, hfd, hpos, hcallback, notified, hne]
    · simpa [step, hc, hfd, hpos, hcallback] using hsent

/-- Two clients trade with each other. -/
def twoTrade : List Action :=
  [.accept 0 5, .register 0 "session_100000", .accept 1 6, .register 1 "session_100001",
    .message 0 GatewayServer.plainEnv
      (.newOrder ⟨1, 100, 10, strncpy 8 "BTC".toUTF8.toList, 'B'.toUInt8⟩),
    .push 0,
    .message 1 GatewayServer.plainEnv
      (.newOrder ⟨2, 100, 10, strncpy 8 "BTC".toUTF8.toList, 'S'.toUInt8⟩),
    .push 1, .work .insertion, .work .insertion, .lookUp]

theorem twoTrade_notified :
    (machine.after (twoTrade ++ [.notifyBuyer, .notifySeller])).written.map
        (fun w => (w.1, w.2.buyOrderId, w.2.sellOrderId)) = [(0, 1, 2), (1, 1, 2)] ∧
      (machine.after (twoTrade ++ [.notifyBuyer, .notifySeller])).NotifiedParties :=
  ⟨by decide +kernel, notified_parties _ (by decide +kernel)⟩

/-- The buyer leaves before it is notified, and its descriptor goes to a third
    client. -/
def buyerLeaves : List Action :=
  twoTrade ++ [.unregister 0, .close 0, .accept 2 5, .notifyBuyer]

theorem stranger_notified :
    (machine.after buyerLeaves).sent = [(0, 1), (1, 2)] ∧
      (machine.after buyerLeaves).written.map
        (fun w => (w.1, w.2.buyOrderId, w.2.sellOrderId)) = [(2, 1, 2)] ∧
      ¬ (machine.after buyerLeaves).NotifiedParties := by
  refine ⟨?_, ?_, ?_⟩ <;> decide +kernel

end Sessions

end TradingGateway.Gateway

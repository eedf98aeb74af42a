import TradingGateway.Queue.Delivery

/-!
# Who owns a command object

`MatchingEngine::add_order`, `cancel_order` and `modify_order` allocate a
command and push it; if `push` returns `false` they delete it
(`cpp-core/matching_engine/matching_engine.cpp`, lines 37–71). The worker
deletes what `pop` has returned once it is processed (line 129). A `push` that
fails at the last node leaves its pointer behind in that node, and threads that
collide at `m_tail` overwrite each other's pointers or move `m_tail` back.

None of this leads to an object that is used or deleted after it was deleted.
There is no condition on the run here: a collision loses objects, and that is
all it does.

* `Places`: a command is in at most one node with a successor, or taken.
* `Owned.step`: every step of every thread keeps this.
* `deleted_once`: no command is deleted twice, nor taken after it was refused.
-/

namespace TradingGateway.Queue

open Common

variable {ι α : Type*} {n : ℕ}

/-! ## Threads and nodes -/

/-- Whether the item of a thread has been stored in a node with a successor:
    `log` lists the items that were. -/
def PushPc.Entered (log : List (Item α)) : PushPc α n → Prop
  | idle => True
  | loadWritePos x | loadReadPos x _ | loadTail x _ | storeData x _ _ => x.call ∉ log.map Item.call
  | loadNext x _ i => x.call ∈ log.map Item.call ↔ i.val + 1 < n
  | storeTail x _ _ | storeWritePos x _ => x.call ∈ log.map Item.call

/-- What another thread enters does not matter. -/
theorem PushPc.Entered.append {log : List (Item α)} {pc : PushPc α n} (h : pc.Entered log)
    {x : Item α} (hx : ∀ y, pc.item? = some y → y.call ≠ x.call) : pc.Entered (log ++ [x]) := by
  cases pc <;> simp_all [Entered, item?]

/-- The item of the call `x` can be taken, and is in no other node with a
    successor than `i`. -/
structure Loose (nodes : Fin n → Node (Item α) n) (taken log : List (Item α)) (i : Fin n)
    (x : Item α) : Prop where
  log : x ∈ log
  fresh : x.call ∉ taken.map Item.call
  others : ∀ j : Fin n, j.val + 1 < n → j ≠ i → (nodes j).data.map Item.call ≠ some x.call

/-- What the worker has loaded. -/
def PopPc.Sees (nodes : Fin n → Node (Item α) n) (taken log : List (Item α)) : PopPc α n → Prop
  | loadNext i x => i.val + 1 < n → Loose nodes taken log i x
  | storeNull i x _ => Loose nodes taken log i x
  | _ => True

/-- The nodes with a successor hold items of the log that were not taken, each in
    one node. -/
structure Places (nodes : Fin n → Node (Item α) n) (taken log : List (Item α)) : Prop where
  next : ∀ i, (nodes i).next = LockFreeQueue.link i
  data : ∀ (i : Fin n) y, i.val + 1 < n → (nodes i).data = some y → Loose nodes taken log i y
  entered : ∀ x ∈ taken, x ∈ log
  nodup : (taken.map Item.call).Nodup

namespace Places

variable {q : LockFreeQueue (Item α) n} {taken log : List (Item α)}

/-- The item of a call that was not entered is nowhere. -/
theorem data_ne (h : Places q.nodes taken log) {x : Item α} (hx : x.call ∉ log.map Item.call)
    {j : Fin n} (hj : j.val + 1 < n) : (q.nodes j).data.map Item.call ≠ some x.call := by
  intro hdata
  obtain ⟨y, hy, hyx⟩ := Option.map_eq_some_iff.mp hdata
  exact hx (hyx ▸ List.mem_map_of_mem (h.data j y hj hy).log)

theorem taken_ne (h : Places q.nodes taken log) {x : Item α} (hx : x.call ∉ log.map Item.call) :
    x.call ∉ taken.map Item.call := by
  intro hmem
  obtain ⟨y, hy, hyx⟩ := List.mem_map.mp hmem
  exact hx (hyx ▸ List.mem_map_of_mem (h.entered y hy))

end Places

/-- A store of the item `x`, which is nowhere yet, in the node `i`. -/
theorem Loose.store {q : LockFreeQueue (Item α) n} {taken log : List (Item α)} {j : Fin n}
    {y : Item α} (h : Loose q.nodes taken log j y) {x : Item α}
    (hx : x.call ∉ log.map Item.call) (i : Fin n) :
    Loose (q.setData i (some x)).nodes taken (log ++ [x]) j y where
  log := List.mem_append_left _ h.log
  fresh := h.fresh
  others k hk hkj := by
    rw [LockFreeQueue.setData_data]
    split_ifs
    · intro heq
      exact hx (Option.some.inj heq ▸ List.mem_map_of_mem h.log)
    · exact h.others k hk hkj

/-- A store in the last node does not show. -/
theorem Loose.store_last {q : LockFreeQueue (Item α) n} {taken log : List (Item α)} {j : Fin n}
    {y : Item α} (h : Loose q.nodes taken log j y) {i : Fin n} (hi : i.val + 1 = n)
    (d : Option (Item α)) : Loose (q.setData i d).nodes taken log j y where
  log := h.log
  fresh := h.fresh
  others k hk hkj := by
    have hki : k ≠ i := by rintro rfl; omega
    rw [LockFreeQueue.setData_data, if_neg hki]
    exact h.others k hk hkj

namespace Places

variable {q : LockFreeQueue (Item α) n} {taken log : List (Item α)}

theorem store (h : Places q.nodes taken log) {x : Item α} (hx : x.call ∉ log.map Item.call)
    (i : Fin n) : Places (q.setData i (some x)).nodes taken (log ++ [x]) where
  next j := by simp [h.next]
  data j y hj hy := by
    rw [LockFreeQueue.setData_data] at hy
    split_ifs at hy with hji
    · obtain rfl := Option.some.inj hy
      refine ⟨by simp, h.taken_ne hx, fun k hk hkj => ?_⟩
      rw [LockFreeQueue.setData_data, if_neg (by rw [← hji]; exact hkj)]
      exact h.data_ne hx hk
    · exact (h.data j y hj hy).store hx i
  entered y hy := List.mem_append_left _ (h.entered y hy)
  nodup := h.nodup

theorem store_last (h : Places q.nodes taken log) {i : Fin n} (hi : i.val + 1 = n)
    (d : Option (Item α)) : Places (q.setData i d).nodes taken log where
  next j := by simp [h.next]
  data j y hj hy := by
    have hji : j ≠ i := by rintro rfl; omega
    rw [LockFreeQueue.setData_data, if_neg hji] at hy
    exact (h.data j y hj hy).store_last hi d
  entered := h.entered
  nodup := h.nodup

/-- The worker empties the node `i` and has `x`, which it had seen there. Another
    item may have been stored in between; that one is lost. -/
theorem take (h : Places q.nodes taken log) {i : Fin n} {x : Item α}
    (hx : Loose q.nodes taken log i x) : Places (q.setData i none).nodes (taken ++ [x]) log where
  next j := by simp [h.next]
  data j y hj hy := by
    rw [LockFreeQueue.setData_data] at hy
    split_ifs at hy with hji
    have hyj := h.data j y hj hy
    refine ⟨hyj.log, ?_, fun k hk hkj => ?_⟩
    · have hne : y.call ≠ x.call := by
        intro heq
        exact hx.others j hj hji (by rw [hy, Option.map_some, heq])
      simpa [hne] using hyj.fresh
    · rw [LockFreeQueue.setData_data]
      split_ifs
      · simp
      · exact hyj.others k hk hkj
  entered y hy := by
    rcases List.mem_append.mp hy with hy | hy
    · exact h.entered y hy
    · rw [List.mem_singleton.mp hy]
      exact hx.log
  nodup := by
    rw [List.map_append, List.map_singleton, ← List.concat_eq_append, List.nodup_concat]
    exact ⟨hx.fresh, h.nodup⟩

end Places

/-! ## The invariant -/

namespace System

/-- The account of the calls, the threads and the nodes agree on which items were
    stored in a node with a successor. -/
structure Owned (s : System ι α n) (log : List (Item α)) : Prop where
  calls : (s.callLog log).Wf
  pushes : ∀ t, (s.pushPc t).Entered log
  places : Places s.queue.nodes s.taken log
  worker : s.popPc.Sees s.queue.nodes s.taken log

theorem owned_new [NeZero n] : Owned (new : System ι α n) [] where
  calls := CallLog.wf_empty
  pushes _ := trivial
  places := ⟨fun _ => rfl, fun i y _ hy => by simp [new, LockFreeQueue.new] at hy,
    fun x hx => by simp [taken, new, PopPc.inHand] at hx, by simp [taken, new, PopPc.inHand]⟩
  worker := trivial

variable [DecidableEq ι] {s : System ι α n} {log : List (Item α)} {t : ι}

/-- A step of a thread inside `push` that leaves the nodes alone. -/
theorem Owned.move (h : s.Owned log) {s' : System ι α n} (pc : PushPc α n)
    (hpc : s'.pushPc = Function.update s.pushPc t pc) (hok : pc.Entered log)
    (hnodes : s'.queue.nodes = s.queue.nodes)
    (hpop : s'.popPc = s.popPc ∧ s'.returned = s.returned)
    (hcalls : (s.callLog log).Step (s'.callLog log)) : s'.Owned log := by
  have htaken : s'.taken = s.taken := by rw [taken, taken, hpop.1, hpop.2]
  refine ⟨h.calls.step hcalls, ?_, ?_, ?_⟩
  · rw [hpc, Function.forall_update_iff s.pushPc fun _ pc => pc.Entered log]
    exact ⟨hok, fun u _ => h.pushes u⟩
  · rw [hnodes, htaken]
    exact h.places
  · rw [hpop.1, hnodes, htaken]
    exact h.worker

theorem Owned.goto (h : s.Owned log) {pc : PushPc α n} (hitem : pc.item? = (s.pushPc t).item?)
    (hok : pc.Entered log) : (s.goto t pc).Owned log := by
  refine h.move pc rfl hok rfl ⟨rfl, rfl⟩ ?_
  rw [callLog_goto_self hitem]
  exact .stay

/-- The store of the item. In a node with a successor it is entered, in the last
    node it is out of everybody's reach. -/
theorem Owned.storeData (h : s.Owned log) {x : Item α} {w : ℕ} {i : Fin n}
    (hpc : s.pushPc t = .storeData x w i) :
    ∃ log', Owned { s.goto t (.loadNext x w i) with queue := s.queue.setData i (some x) } log' := by
  have hnew : x.call ∉ log.map Item.call := by
    have := h.pushes t
    rwa [hpc] at this
  have hcur : (s.pushPc t).item? = some x := by rw [hpc]; rfl
  have hitem : (PushPc.loadNext x w i).item? = (s.pushPc t).item? := hcur.symm
  rcases Nat.lt_or_eq_of_le (show i.val + 1 ≤ n from i.isLt) with hopen | hlast
  · refine ⟨log ++ [x], ?_, ?_, h.places.store hnew i, ?_⟩
    · show CallLog.Wf { (s.goto t (.loadNext x w i)).callLog log with log := log ++ [x] }
      rw [callLog_goto_self hitem]
      exact h.calls.enter hcur hnew
    · show ∀ u, (Function.update s.pushPc t (.loadNext x w i) u).Entered (log ++ [x])
      rw [Function.forall_update_iff s.pushPc fun _ pc => pc.Entered (log ++ [x])]
      refine ⟨by simp [PushPc.Entered, hopen], fun u hut => (h.pushes u).append ?_⟩
      intro y hy hyx
      exact hut (h.calls.distinct u t y x hy hcur hyx)
    · show s.popPc.Sees (s.queue.setData i (some x)).nodes s.taken (log ++ [x])
      have hsees := h.worker
      cases hpop : s.popPc with
      | loadNext j y =>
        rw [hpop] at hsees
        exact fun hj => (hsees hj).store hnew i
      | storeNull j y next =>
        rw [hpop] at hsees
        exact Loose.store hsees hnew i
      | _ => trivial
  · refine ⟨log, ?_, ?_, h.places.store_last hlast (some x), ?_⟩
    · show CallLog.Wf ((s.goto t (.loadNext x w i)).callLog log)
      rw [callLog_goto_self hitem]
      exact h.calls
    · show ∀ u, (Function.update s.pushPc t (.loadNext x w i) u).Entered log
      rw [Function.forall_update_iff s.pushPc fun _ pc => pc.Entered log]
      refine ⟨iff_of_false hnew (by omega), fun u _ => h.pushes u⟩
    · show s.popPc.Sees (s.queue.setData i (some x)).nodes s.taken log
      have hsees := h.worker
      cases hpop : s.popPc with
      | loadNext j y =>
        rw [hpop] at hsees
        exact fun hj => (hsees hj).store_last hlast (some x)
      | storeNull j y next =>
        rw [hpop] at hsees
        exact Loose.store_last hsees hlast (some x)
      | _ => trivial

theorem Owned.callPush (h : s.Owned log) (t : ι) (v : α) : (s.callPush t v).Owned log := by
  rw [System.callPush]
  split
  case h_1 hpc =>
    have hcur : (s.callLog log).current t = none := by
      show (s.pushPc t).item? = none
      rw [hpc]
      rfl
    have hnew : s.calls.length ∉ log.map Item.call :=
      fun hin => (h.calls.entered_lt hin).ne rfl
    refine h.move (.loadWritePos ⟨s.calls.length, v⟩) rfl hnew rfl ⟨rfl, rfl⟩ ?_
    show (s.callLog log).Step
      { (s.goto t (.loadWritePos ⟨s.calls.length, v⟩)).callLog log with calls := s.calls ++ [v] }
    rw [callLog_goto]
    exact .call t v hcur
  case h_2 => exact h

theorem Owned.pushStep (h : s.Owned log) (t : ι) : ∃ log', (s.pushStep t).Owned log' := by
  have hok := h.pushes t
  rw [System.pushStep]
  cases hpc : s.pushPc t with
  | idle => exact ⟨log, h⟩
  | loadWritePos x =>
    rw [hpc] at hok
    exact ⟨log, h.goto (by rw [hpc]; rfl) hok⟩
  | loadReadPos x w =>
    rw [hpc] at hok
    dsimp only
    split_ifs with hfull
    · refine ⟨log, h.move .idle rfl trivial rfl ⟨rfl, rfl⟩ ?_⟩
      exact step_returnPush (by rw [hpc]; rfl) (by simpa [PushPc.Entered] using hok)
    · exact ⟨log, h.goto (by rw [hpc]; rfl) hok⟩
  | loadTail x w =>
    rw [hpc] at hok
    exact ⟨log, h.goto (by rw [hpc]; rfl) hok⟩
  | storeData x w i => exact h.storeData hpc
  | loadNext x w i =>
    rw [hpc] at hok
    dsimp only
    rw [h.places.next]
    cases hlink : LockFreeQueue.link i with
    | none =>
      rw [LockFreeQueue.link_eq_none_iff] at hlink
      have hout : x.call ∉ log.map Item.call := fun hin => by
        have := hok.mp hin
        omega
      refine ⟨log, h.move .idle rfl trivial rfl ⟨rfl, rfl⟩ ?_⟩
      exact step_returnPush (by rw [hpc]; rfl) (by simpa using hout)
    | some next =>
      rw [LockFreeQueue.link_eq_some_iff] at hlink
      exact ⟨log, h.goto (by rw [hpc]; rfl) (hok.mpr (hlink ▸ next.isLt))⟩
  | storeTail x w next =>
    rw [hpc] at hok
    refine ⟨log, h.move (.storeWritePos x w) rfl hok rfl ⟨rfl, rfl⟩ ?_⟩
    show (s.callLog log).Step ((s.goto t (.storeWritePos x w)).callLog log)
    rw [callLog_goto_self (by rw [hpc]; rfl)]
    exact .stay
  | storeWritePos x w =>
    rw [hpc] at hok
    refine ⟨log, h.move .idle rfl trivial rfl ⟨rfl, rfl⟩ ?_⟩
    exact step_returnPush (by rw [hpc]; rfl) (by simpa [PushPc.Entered] using hok)

omit [DecidableEq ι] in
/-- A step of the worker that takes nothing and leaves the nodes alone. -/
theorem Owned.look (h : s.Owned log) {s' : System ι α n}
    (hpush : s'.pushPc = s.pushPc ∧ s'.calls = s.calls ∧ s'.outcome = s.outcome)
    (hnodes : s'.queue.nodes = s.queue.nodes) (htaken : s'.taken = s.taken)
    (hsees : s'.popPc.Sees s.queue.nodes s.taken log) : s'.Owned log := by
  have hlog : s'.callLog log = s.callLog log := by
    simp only [callLog, hpush.1, hpush.2.1, hpush.2.2]
  refine ⟨hlog ▸ h.calls, ?_, ?_, ?_⟩
  · rw [hpush.1]
    exact h.pushes
  · rw [hnodes, htaken]
    exact h.places
  · rw [hnodes, htaken]
    exact hsees

omit [DecidableEq ι] in
theorem Owned.popStep (h : s.Owned log) : s.popStep.Owned log := by
  have hsees := h.worker
  rw [System.popStep]
  cases hpc : s.popPc with
  | idle => exact h
  | loadHead =>
    exact h.look ⟨rfl, rfl, rfl⟩ rfl (by simp [taken, hpc, PopPc.inHand]) trivial
  | loadData i =>
    dsimp only
    split
    case h_1 => exact h.look ⟨rfl, rfl, rfl⟩ rfl (by simp [taken, hpc, PopPc.inHand]) trivial
    case h_2 x hx =>
      refine h.look ⟨rfl, rfl, rfl⟩ rfl (by simp [taken, hpc, PopPc.inHand]) ?_
      exact fun hi => h.places.data i x hi hx
  | loadNext i x =>
    rw [hpc] at hsees
    dsimp only
    rw [h.places.next]
    cases hlink : LockFreeQueue.link i with
    | none => exact h.look ⟨rfl, rfl, rfl⟩ rfl (by simp [taken, hpc, PopPc.inHand]) trivial
    | some next =>
      rw [LockFreeQueue.link_eq_some_iff] at hlink
      refine h.look ⟨rfl, rfl, rfl⟩ rfl (by simp [taken, hpc, PopPc.inHand]) ?_
      exact hsees (hlink ▸ next.isLt)
  | storeNull i x next =>
    rw [hpc] at hsees
    have htaken : taken { s with
        popPc := .storeHead x next, queue := s.queue.setData i none } = s.taken ++ [x] := by
      simp [taken, hpc, PopPc.inHand]
    refine ⟨h.calls, h.pushes, ?_, trivial⟩
    rw [htaken]
    exact h.places.take hsees
  | storeHead x next =>
    exact h.look ⟨rfl, rfl, rfl⟩ rfl (by simp [taken, hpc, PopPc.inHand]) trivial
  | loadReadPos x =>
    exact h.look ⟨rfl, rfl, rfl⟩ rfl (by simp [taken, hpc, PopPc.inHand]) trivial
  | storeReadPos x r =>
    exact h.look ⟨rfl, rfl, rfl⟩ rfl (by simp [taken, hpc, PopPc.inHand]) trivial

omit [DecidableEq ι] in
theorem Owned.callPop (h : s.Owned log) : s.callPop.Owned log := by
  rw [System.callPop]
  split
  case h_1 hpc =>
    exact h.look ⟨rfl, rfl, rfl⟩ rfl (by simp [taken, hpc, PopPc.inHand]) trivial
  case h_2 => exact h

theorem Owned.step (h : s.Owned log) (a : Action ι α) : ∃ log', (s.step a).Owned log' := by
  cases a with
  | callPush t v => exact ⟨log, h.callPush t v⟩
  | push t => exact h.pushStep t
  | callPop => exact ⟨log, h.callPop⟩
  | pop => exact ⟨log, h.popStep⟩

theorem owned_after [NeZero n] (as : List (Action ι α)) :
    ∃ log, (machine.after as : System ι α n).Owned log :=
  machine.after_induction (P := fun s => ∃ log, s.Owned log) ⟨[], owned_new⟩
    (fun _ a ⟨_, h⟩ => h.step a) as

/-! ## Deletions -/

/-- The calls that have returned `false`; their objects are deleted by the
    caller. -/
def refused (s : System ι α n) : List ℕ :=
  (List.range s.calls.length).filter fun k => s.outcome k = some false

/-- The calls whose objects have been deleted, or will be before the worker makes
    another `pop`. -/
def deleted (s : System ι α n) : List ℕ := s.refused ++ s.returned.map Item.call

/-- The nodes that hold the item of the call `k` and from which `pop` takes
    items: those with a successor. -/
def stores (s : System ι α n) (k : ℕ) : Finset (Fin n) :=
  Finset.univ.filter fun i => i.val + 1 < n ∧ (s.queue.nodes i).data.map Item.call = some k

omit [DecidableEq ι] in
theorem Owned.not_refused (h : s.Owned log) {x : Item α} (hx : x ∈ log) : x.call ∉ s.refused := by
  intro hmem
  have hout : s.outcome x.call = some false := by simpa using (List.mem_filter.mp hmem).2
  exact (h.calls.log x hx).2 hout

omit [DecidableEq ι] in
/-- An item is in one node at most, and in none if it was taken. -/
theorem Owned.card_stores (h : s.Owned log) (k : ℕ) :
    (s.taken.map Item.call).count k + (s.stores k).card ≤ 1 := by
  have hloose : ∀ i ∈ s.stores k, ∃ x, x.call = k ∧ Loose s.queue.nodes s.taken log i x := by
    intro i hi
    obtain ⟨-, hopen, hdata⟩ := Finset.mem_filter.mp hi
    obtain ⟨x, hx, rfl⟩ := Option.map_eq_some_iff.mp hdata
    exact ⟨x, rfl, h.places.data i x hopen hx⟩
  have hcard : (s.stores k).card ≤ 1 := by
    rw [Finset.card_le_one]
    intro i hi j hj
    by_contra hij
    obtain ⟨x, rfl, hx⟩ := hloose j hj
    obtain ⟨-, hopen, hdata⟩ := Finset.mem_filter.mp hi
    exact hx.others i hopen hij hdata
  by_cases hk : k ∈ s.taken.map Item.call
  · have hnone : s.stores k = ∅ := by
      apply Finset.eq_empty_of_forall_notMem
      intro i hi
      obtain ⟨x, rfl, hx⟩ := hloose i hi
      exact hx.fresh hk
    rw [hnone, Finset.card_empty, Nat.add_zero]
    exact List.nodup_iff_count_le_one.mp h.places.nodup k
  · rw [List.count_eq_zero_of_not_mem hk, Nat.zero_add]
    exact hcard

omit [DecidableEq ι] in
/-- What was refused is where no `pop` takes it from. -/
theorem Owned.stores_of_refused (h : s.Owned log) {k : ℕ} (hk : s.outcome k = some false) :
    (s.taken.map Item.call).count k + (s.stores k).card = 0 := by
  have hout : ∀ x ∈ log, x.call ≠ k := by
    rintro x hx rfl
    exact (h.calls.log x hx).2 hk
  have htaken : k ∉ s.taken.map Item.call := by
    intro hmem
    obtain ⟨x, hx, hxk⟩ := List.mem_map.mp hmem
    exact hout x (h.places.entered x hx) hxk
  have hnone : s.stores k = ∅ := by
    apply Finset.eq_empty_of_forall_notMem
    intro i hi
    obtain ⟨-, hopen, hdata⟩ := Finset.mem_filter.mp hi
    obtain ⟨x, hx, hxk⟩ := Option.map_eq_some_iff.mp hdata
    exact hout x (h.places.data i x hopen hx).log hxk
  rw [List.count_eq_zero_of_not_mem htaken, hnone, Finset.card_empty]

/-- **No object is deleted twice.** In every state of every interleaving of any
    number of threads, collisions at `m_tail` included: no command object has
    been deleted twice, the worker takes only objects that were pushed and that
    their caller has not deleted, and an object is in one place at most, among
    those taken or in a node from which `pop` takes; a refused one is in none. -/
theorem deleted_once [NeZero n] (as : List (Action ι α)) :
    let s : System ι α n := machine.after as
    s.deleted.Nodup ∧
      (∀ x ∈ s.taken, s.calls[x.call]? = some x.value ∧ x.call ∉ s.refused) ∧
      ∀ k, (s.taken.map Item.call).count k + (s.stores k).card ≤
        if s.outcome k = some false then 0 else 1 := by
  intro s
  obtain ⟨log, h⟩ := owned_after (n := n) as
  have hreturned : s.returned.Sublist s.taken := List.sublist_append_left _ _
  refine ⟨?_, fun x hx => ?_, fun k => ?_⟩
  · refine List.Nodup.append (List.nodup_range.filter _)
      (h.places.nodup.sublist (hreturned.map _)) ?_
    intro k hk hk'
    obtain ⟨x, hx, rfl⟩ := List.mem_map.mp hk'
    exact h.not_refused (h.places.entered x (hreturned.subset hx)) hk
  · have hlog := h.places.entered x hx
    exact ⟨(h.calls.log x hlog).1, h.not_refused hlog⟩
  · split_ifs with hk
    · exact (h.stores_of_refused hk).le
    · exact h.card_stores k

/-- The worker pops after the collision of `Queue.Delivery`. -/
def popAfterCollision : List (Action Bool ℕ) :=
  collision ++ [.callPop, .pop, .pop, .pop, .pop, .pop, .pop, .pop]

/-- The object of the first call is lost and never deleted, that of the second is
    deleted once. -/
theorem popAfterCollision_deleted :
    (machine.after popAfterCollision : System Bool ℕ 3).deleted = [1] ∧
      (machine.after popAfterCollision : System Bool ℕ 3).deleted.Nodup :=
  ⟨by decide, (deleted_once popAfterCollision).1⟩

end System

end TradingGateway.Queue

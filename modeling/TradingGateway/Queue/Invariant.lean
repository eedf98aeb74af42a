import TradingGateway.Queue.Interleaving

/-!
# The invariant of concurrent calls

`log` lists the items by the node in which they were stored, the last node
apart.

* `Producers`: where the threads in `push` stand, against `m_tail` and the log.
* `Stored`: what the nodes hold: the log from the first item not taken on.
* `Worker`: where the worker stands in `pop`; it takes the items of the log in
  order.
* `Inv.step`: a step keeps all of this and treats the log as `CallLog.Step`
  says, unless it loads `m_tail` while another thread is about to move it
  (`TailFree`).
* `inv_after`: the same for runs.
-/

namespace TradingGateway.Queue

open Common

variable {ι α : Type*} {n : ℕ}

/-! ## Producers -/

namespace PushPc

/-- The item of the call a thread is in. -/
def item? : PushPc α n → Option (Item α)
  | idle => none
  | loadWritePos item | loadReadPos item _ | loadTail item _ | storeData item _ _
  | loadNext item _ _ | storeTail item _ _ | storeWritePos item _ => some item

/-- The thread has loaded `m_tail` and not stored it yet. -/
def inWindow : PushPc α n → Bool
  | storeData .. | loadNext .. | storeTail .. => true
  | _ => false

/-- What is true of a thread at each point. -/
def Ok (tail : Fin n) (log : List (Item α)) : PushPc α n → Prop
  | idle => True
  | loadWritePos x | loadReadPos x _ | loadTail x _ => x.call ∉ log.map Item.call
  | storeData x _ t => t = tail ∧ x.call ∉ log.map Item.call ∧ log.length = tail.val
  | loadNext x _ t => t = tail ∧
      if tail.val + 1 < n then log[tail.val]? = some x ∧ log.length = tail.val + 1
      else x.call ∉ log.map Item.call
  | storeTail x _ next =>
      next.val = tail.val + 1 ∧ log[tail.val]? = some x ∧ log.length = tail.val + 1
  | storeWritePos x _ => x.call ∈ log.map Item.call

/-- Outside the window only the log matters. -/
theorem Ok.of_not_inWindow {tail tail' : Fin n} {log : List (Item α)} {pc : PushPc α n}
    (h : pc.Ok tail log) (hw : pc.inWindow = false) : pc.Ok tail' log := by
  cases pc <;> simp_all [Ok, inWindow]

/-- Outside the window another thread's item may be entered. -/
theorem Ok.append {tail : Fin n} {log : List (Item α)} {pc : PushPc α n} (h : pc.Ok tail log)
    (hw : pc.inWindow = false) {x : Item α} (hx : ∀ y, pc.item? = some y → y.call ≠ x.call) :
    pc.Ok tail (log ++ [x]) := by
  cases pc <;> simp_all [Ok, inWindow, item?]

end PushPc

/-- The threads in `push`. While `m_tail` has a successor at most one of them
    is between its load of `m_tail` and its store. -/
structure Producers (tail : Fin n) (pcs : ι → PushPc α n) (log : List (Item α)) : Prop where
  ok : ∀ t, (pcs t).Ok tail log
  length : (tail.val + 1 = n ∨ ∀ t, (pcs t).inWindow = false) → log.length = tail.val
  alone : tail.val + 1 < n → ∀ t u, (pcs t).inWindow → (pcs u).inWindow → t = u

namespace Producers

variable {tail : Fin n} {pcs : ι → PushPc α n} {log : List (Item α)}

/-- The log is shorter than the list of nodes. -/
theorem length_lt (h : Producers tail pcs log) : log.length < n := by
  have hlt := tail.isLt
  by_cases hw : tail.val + 1 = n ∨ ∀ t, (pcs t).inWindow = false
  · rw [h.length hw]
    exact hlt
  · push Not at hw
    obtain ⟨hopen, t, ht⟩ := hw
    have hok := h.ok t
    cases hpc : pcs t with
    | storeData x w i =>
      rw [hpc] at hok
      obtain ⟨-, -, hlen⟩ := hok
      omega
    | loadNext x w i =>
      rw [hpc, PushPc.Ok, if_pos (by omega)] at hok
      obtain ⟨-, -, hlen⟩ := hok
      omega
    | storeTail x w i =>
      rw [hpc] at hok
      obtain ⟨-, -, hlen⟩ := hok
      omega
    | _ => simp [hpc, PushPc.inWindow] at ht

/-- While `m_tail` has a successor, a thread in the window is the only one. -/
theorem others (h : Producers tail pcs log) (hopen : tail.val + 1 < n) {t : ι}
    (ht : (pcs t).inWindow) : ∀ u, u ≠ t → (pcs u).inWindow = false := by
  intro u hut
  by_contra hu
  rw [Bool.not_eq_false] at hu
  exact hut (h.alone hopen u t hu ht)

variable [DecidableEq ι] {t : ι} {pc : PushPc α n}

theorem ok_update (h : Producers tail pcs log) (hok : pc.Ok tail log) :
    ∀ u, (Function.update pcs t pc u).Ok tail log := by
  rw [Function.forall_update_iff pcs fun _ pc => pc.Ok tail log]
  exact ⟨hok, fun u _ => h.ok u⟩

/-- A step of a thread that stays inside or outside the window and moves
    neither `m_tail` nor the log. -/
theorem goto (h : Producers tail pcs log) (hok : pc.Ok tail log)
    (hw : pc.inWindow = (pcs t).inWindow) : Producers tail (Function.update pcs t pc) log := by
  have hwin : ∀ u, (Function.update pcs t pc u).inWindow = (pcs u).inWindow := by
    rw [Function.forall_update_iff pcs fun u p => p.inWindow = (pcs u).inWindow]
    exact ⟨hw, fun _ _ => rfl⟩
  refine ⟨h.ok_update hok, ?_, ?_⟩
  · simpa only [hwin] using h.length
  · simpa only [hwin] using h.alone

/-- Any step that moves neither while `m_tail` is the last node. -/
theorem goto_last (h : Producers tail pcs log) (hlast : tail.val + 1 = n) (hok : pc.Ok tail log) :
    Producers tail (Function.update pcs t pc) log :=
  ⟨h.ok_update hok, fun _ => h.length (.inl hlast), fun hopen => by omega⟩

/-- Any step of a thread while no other is in the window. -/
theorem goto_free {tail' : Fin n} {log' : List (Item α)}
    (hfree : ∀ u, u ≠ t → (pcs u).inWindow = false)
    (hothers : ∀ u, u ≠ t → (pcs u).Ok tail' log') (hok : pc.Ok tail' log')
    (hlen : tail'.val + 1 = n ∨ pc.inWindow = false → log'.length = tail'.val) :
    Producers tail' (Function.update pcs t pc) log' where
  ok := by
    rw [Function.forall_update_iff pcs fun _ pc => pc.Ok tail' log']
    exact ⟨hok, hothers⟩
  length h := by
    refine hlen (h.imp_right fun hnone => ?_)
    simpa using hnone t
  alone _ u v hu hv := by
    have hin : ∀ u, (Function.update pcs t pc u).inWindow → u = t := by
      intro u hu
      by_contra hut
      rw [Function.update_of_ne hut, hfree u hut] at hu
      cases hu
    rw [hin u hu, hin v hv]

end Producers

/-! ## Nodes -/

/-- The nodes with a successor hold the log, but for the items taken; the last
    node may hold an item that has not been entered. -/
structure Stored (q : LockFreeQueue (Item α) n) (taken : ℕ) (log : List (Item α)) : Prop where
  next : ∀ i, (q.nodes i).next = LockFreeQueue.link i
  data : ∀ i : Fin n, i.val + 1 < n →
    (q.nodes i).data = if taken ≤ i.val then log[i.val]? else none
  last : ∀ (i : Fin n) (y : Item α), i.val + 1 = n → (q.nodes i).data = some y →
    q.tail = i ∧ y.call ∉ log.map Item.call

namespace Stored

variable {q : LockFreeQueue (Item α) n} {taken : ℕ} {log : List (Item α)}

theorem lt_of_data (h : Stored q taken log) {i : Fin n} (hi : i.val + 1 < n)
    (hdata : (q.nodes i).data ≠ none) : i.val < log.length := by
  rw [h.data i hi] at hdata
  split_ifs at hdata with htaken
  · by_contra hge
    exact hdata (List.getElem?_eq_none (by omega))
  · exact absurd rfl hdata

/-- Storing the next item of the log. -/
theorem enter (h : Stored q taken log) (hopen : q.tail.val + 1 < n)
    (hlen : log.length = q.tail.val) (htaken : taken ≤ log.length) (x : Item α) :
    Stored (q.setData q.tail (some x)) taken (log ++ [x]) where
  next i := by simp [h.next]
  data i hi := by
    rw [LockFreeQueue.setData_data]
    by_cases hit : i = q.tail
    · rw [if_pos hit, if_pos (by rw [hit]; omega), hit, ← hlen, List.getElem?_concat_length]
    · have hne : i.val ≠ q.tail.val := fun e => hit (Fin.ext e)
      rw [if_neg hit, h.data i hi]
      rcases Nat.lt_or_ge i.val log.length with hin | hout
      · rw [List.getElem?_append_left hin]
      · rw [List.getElem?_eq_none hout, List.getElem?_eq_none]
        simp only [List.length_append, List.length_singleton]
        omega
  last i y hi hy := by
    -- the last node is empty as long as the tail is another one
    have hit : i ≠ q.tail := by rintro rfl; omega
    rw [LockFreeQueue.setData_data, if_neg hit] at hy
    exact absurd (h.last i y hi hy).1.symm hit

/-- Storing an item in the last node does not show. -/
theorem setData_last (h : Stored q taken log) (hlast : q.tail.val + 1 = n) {x : Item α}
    (hx : x.call ∉ log.map Item.call) : Stored (q.setData q.tail (some x)) taken log where
  next i := by simp [h.next]
  data i hi := by
    have hit : i ≠ q.tail := by rintro rfl; omega
    simp [hit, h.data i hi]
  last i y hi hy := by
    have hit : i = q.tail := Fin.ext (by omega)
    simp only [LockFreeQueue.setData_data, if_pos hit, Option.some.injEq] at hy
    exact ⟨hit.symm, hy ▸ hx⟩

/-- Moving `m_tail` from a node that is not the last. -/
theorem setTail (h : Stored q taken log) (hopen : q.tail.val + 1 < n) (next : Fin n) :
    Stored { q with tail := next } taken log where
  next := h.next
  data := h.data
  last i y hi hy := by
    have := (h.last i y hi hy).1
    subst this
    omega

/-- Emptying the node of the next item to be taken. -/
theorem take (h : Stored q q.head.val log) :
    Stored (q.setData q.head none) (q.head.val + 1) log where
  next i := by simp [h.next]
  data i hi := by
    rw [LockFreeQueue.setData_data]
    by_cases hih : i = q.head
    · rw [if_pos hih, if_neg (by rw [hih]; omega)]
    · have hne : i.val ≠ q.head.val := fun e => hih (Fin.ext e)
      rw [if_neg hih, h.data i hi]
      by_cases hle : q.head.val ≤ i.val
      · rw [if_pos hle, if_pos (by omega)]
      · rw [if_neg hle, if_neg (by omega)]
  last i y hi hy := by
    have hih : i ≠ q.head := by rintro rfl; simp at hy
    rw [LockFreeQueue.setData_data, if_neg hih] at hy
    exact h.last i y hi hy

end Stored

/-! ## The worker -/

namespace PopPc

/-- The number of items taken out of their nodes. -/
def taken (head : Fin n) : PopPc α n → ℕ
  | storeHead .. => head.val + 1
  | _ => head.val

/-- The item taken by the `pop` in progress. -/
def inHand : PopPc α n → List (Item α)
  | storeHead x _ | loadReadPos x | storeReadPos x _ => [x]
  | _ => []

/-- What is true of the worker at each point; `data` is the item in the node
    `m_head`. -/
def Ok (head : Fin n) (data : Option (Item α)) : PopPc α n → Prop
  | idle | loadHead | loadReadPos _ | storeReadPos _ _ => True
  | loadData h => h = head
  | loadNext h x => h = head ∧ (head.val + 1 < n → data = some x)
  | storeNull h x next => h = head ∧ next.val = head.val + 1 ∧ data = some x
  | storeHead _ next => next.val = head.val + 1

/-- What the worker has seen in the node `m_head`, when that has a successor,
    stays there. -/
theorem Ok.congr {head : Fin n} {data data' : Option (Item α)} {pc : PopPc α n}
    (h : pc.Ok head data) (hdata : head.val + 1 < n → data ≠ none → data' = data) :
    pc.Ok head data' := by
  cases pc with
  | loadNext i x =>
    refine ⟨h.1, fun hopen => ?_⟩
    have hx := h.2 hopen
    rw [hdata hopen (by simp [hx]), hx]
  | storeNull i x next =>
    obtain ⟨hi, hnext, hx⟩ := h
    have := next.isLt
    exact ⟨hi, hnext, by rw [hdata (by omega) (by simp [hx]), hx]⟩
  | _ => exact h

end PopPc

/-- The worker in `pop`: the items it has returned or holds are the first ones
    of the log. -/
structure Worker (q : LockFreeQueue (Item α) n) (pc : PopPc α n) (returned log : List (Item α)) :
    Prop where
  ok : pc.Ok q.head (q.nodes q.head).data
  taken_le : pc.taken q.head ≤ log.length
  taken : returned ++ pc.inHand = log.take (pc.taken q.head)

namespace Worker

variable {q : LockFreeQueue (Item α) n} {pc : PopPc α n} {returned log : List (Item α)}

theorem append (h : Worker q pc returned log) (x : Item α) : Worker q pc returned (log ++ [x]) where
  ok := h.ok
  taken_le := h.taken_le.trans (by simp)
  taken := by rw [h.taken, List.take_append_of_le_length h.taken_le]

/-- A store by a producer does not disturb the worker. -/
theorem setData (h : Worker q pc returned log) {i : Fin n} (d : Option (Item α))
    (hi : q.head.val + 1 < n → (q.nodes q.head).data ≠ none → q.head ≠ i) :
    Worker (q.setData i d) pc returned log where
  ok := by
    apply h.ok.congr
    intro hopen hdata
    rw [LockFreeQueue.setData_data, LockFreeQueue.setData_head, if_neg (hi hopen hdata)]
  taken_le := h.taken_le
  taken := h.taken

end Worker

/-! ## The invariant -/

namespace System

/-- The calls of the threads and the log. -/
def callLog (s : System ι α n) (log : List (Item α)) : CallLog ι α where
  current t := (s.pushPc t).item?
  calls := s.calls
  outcome := s.outcome
  log := log

structure Inv (s : System ι α n) (log : List (Item α)) : Prop where
  producers : Producers s.queue.tail s.pushPc log
  stored : Stored s.queue (s.popPc.taken s.queue.head) log
  worker : Worker s.queue s.popPc s.returned log
  calls : (s.callLog log).Wf

theorem inv_new [NeZero n] : Inv (new : System ι α n) [] where
  producers := ⟨fun _ => trivial, fun _ => by simp [new, LockFreeQueue.new],
    fun _ _ _ h => by simp [new, PushPc.inWindow] at h⟩
  stored := ⟨fun _ => rfl, fun i _ => by simp [new, LockFreeQueue.new],
    fun i y _ h => by simp [new, LockFreeQueue.new] at h⟩
  worker := ⟨trivial, by simp [new, LockFreeQueue.new, PopPc.taken],
    by simp [new, PopPc.inHand]⟩
  calls := CallLog.wf_empty

variable [DecidableEq ι] {s : System ι α n} {log : List (Item α)} {t : ι}

/-- A thread loads a tail that has a successor only while no other thread is
    between its load of `m_tail` and its store. -/
def TailFree (s : System ι α n) : Action ι α → Prop
  | .push t =>
    match s.pushPc t with
    | .loadTail _ _ =>
      s.queue.tail.val + 1 < n → ∀ u, u ≠ t → (s.pushPc u).inWindow = false
    | _ => True
  | _ => True

instance [Fintype ι] (s : System ι α n) (a : Action ι α) : Decidable (s.TailFree a) := by
  unfold TailFree
  split
  · split <;> infer_instance
  · infer_instance

theorem callLog_goto (s : System ι α n) (t : ι) (pc : PushPc α n) (log : List (Item α)) :
    (s.goto t pc).callLog log =
      { s.callLog log with current := Function.update (s.callLog log).current t pc.item? } := by
  simp only [callLog, goto, CallLog.mk.injEq, and_true]
  funext u
  by_cases hut : u = t
  · subst hut
    simp
  · simp [Function.update_of_ne hut]

/-- Inside a call the account of the calls stays as it is. -/
theorem callLog_goto_self {pc : PushPc α n} (h : pc.item? = (s.pushPc t).item?) :
    (s.goto t pc).callLog log = s.callLog log := by
  rw [callLog_goto, h, show (s.pushPc t).item? = (s.callLog log).current t from rfl,
    Function.update_eq_self]

/-- A step of the system keeps the invariant, and does to the account of the
    calls what `CallLog.Step` allows. -/
def Advances (s s' : System ι α n) (log : List (Item α)) : Prop :=
  ∃ log', s'.Inv log' ∧ (s.callLog log).Step (s'.callLog log')

/-- What has to be shown of a step inside `push`. -/
theorem Inv.advances {s' : System ι α n} {log' : List (Item α)} (h : s.Inv log)
    (hpop : s'.popPc = s.popPc ∧ s'.returned = s.returned ∧ s'.queue.head = s.queue.head)
    (hprod : Producers s'.queue.tail s'.pushPc log')
    (hstored : Stored s'.queue (s.popPc.taken s.queue.head) log')
    (hworker : Worker s'.queue s.popPc s.returned log')
    (hcalls : (s.callLog log).Step (s'.callLog log')) : s.Advances s' log := by
  obtain ⟨hpc, hret, hhead⟩ := hpop
  refine ⟨log', ⟨hprod, ?_, ?_, h.calls.step hcalls⟩, hcalls⟩
  · rwa [hpc, hhead]
  · rwa [hpc, hret]

/-- A step inside a call that touches nothing shared. -/
theorem Inv.advances_goto (h : s.Inv log) {pc : PushPc α n}
    (hitem : pc.item? = (s.pushPc t).item?)
    (hprod : Producers s.queue.tail (Function.update s.pushPc t pc) log) :
    s.Advances (s.goto t pc) log := by
  refine h.advances ⟨rfl, rfl, rfl⟩ hprod h.stored h.worker ?_
  rw [callLog_goto_self hitem]
  exact .stay

/-- A call returns. -/
theorem step_returnPush {x : Item α} (hx : (s.pushPc t).item? = some x) {ok : Bool}
    (hok : ok = true ↔ x.call ∈ log.map Item.call) :
    (s.callLog log).Step ((s.returnPush t x ok).callLog log) := by
  show (s.callLog log).Step
    { (s.goto t .idle).callLog log with outcome := Function.update s.outcome x.call (some ok) }
  rw [callLog_goto]
  exact .report t x ok hx hok

/-! ## One step of `push` -/

theorem Inv.loadTail (h : s.Inv log) {x : Item α} {w : ℕ} (hpc : s.pushPc t = .loadTail x w)
    (hfree : s.TailFree (.push t)) :
    s.Advances (s.goto t (.storeData x w s.queue.tail)) log := by
  have hok := h.producers.ok t
  simp only [hpc, PushPc.Ok] at hok
  simp only [TailFree, hpc] at hfree
  apply h.advances_goto (by rw [hpc]; rfl)
  rcases Nat.lt_or_eq_of_le (show s.queue.tail.val + 1 ≤ n from s.queue.tail.isLt) with
    hopen | hlast
  · have hnone : ∀ u, (s.pushPc u).inWindow = false := by
      intro u
      by_cases hut : u = t
      · rw [hut, hpc]
        rfl
      · exact hfree hopen u hut
    refine Producers.goto_free (hfree hopen) (fun u _ => h.producers.ok u)
      ⟨rfl, hok, h.producers.length (.inr hnone)⟩ ?_
    rintro (hlast | hw)
    · omega
    · cases hw
  · exact h.producers.goto_last hlast ⟨rfl, hok, h.producers.length (.inl hlast)⟩

/-- The item is entered in the log when it is stored in a node that has a
    successor. -/
theorem Inv.storeData (h : s.Inv log) {x : Item α} {w : ℕ} {i : Fin n}
    (hpc : s.pushPc t = .storeData x w i) :
    s.Advances { s.goto t (.loadNext x w i) with queue := s.queue.setData i (some x) } log := by
  have hok := h.producers.ok t
  simp only [hpc, PushPc.Ok] at hok
  obtain ⟨rfl, hnew, hlen⟩ := hok
  have hcur : (s.pushPc t).item? = some x := by rw [hpc]; rfl
  have hitem : (PushPc.loadNext x w s.queue.tail).item? = (s.pushPc t).item? := hcur.symm
  rcases Nat.lt_or_eq_of_le (show s.queue.tail.val + 1 ≤ n from s.queue.tail.isLt) with
    hopen | hlast
  · have hin : (s.pushPc t).inWindow := by rw [hpc]; rfl
    have hfree := h.producers.others hopen hin
    have hprod : Producers s.queue.tail
        (Function.update s.pushPc t (.loadNext x w s.queue.tail)) (log ++ [x]) := by
      refine Producers.goto_free hfree (fun u hut => (h.producers.ok u).append (hfree u hut) ?_)
        ⟨rfl, ?_⟩ ?_
      · intro y hy hyx
        exact hut (h.calls.distinct u t y x hy hcur hyx)
      · rw [if_pos hopen, ← hlen]
        simp
      · rintro (hlast | hw)
        · omega
        · cases hw
    refine h.advances ⟨rfl, rfl, rfl⟩ hprod (h.stored.enter hopen hlen h.worker.taken_le x) ?_ ?_
    · apply (h.worker.append x).setData
      intro hhead hdata heq
      -- an item in the head node is in the log, which ends before the tail
      have := h.stored.lt_of_data hhead hdata
      omega
    · show (s.callLog log).Step
        { (s.goto t (.loadNext x w s.queue.tail)).callLog log with log := log ++ [x] }
      rw [callLog_goto_self hitem]
      exact .enter t x hcur hnew
  · have hprod : Producers s.queue.tail
        (Function.update s.pushPc t (.loadNext x w s.queue.tail)) log :=
      h.producers.goto_last hlast ⟨rfl, by rwa [if_neg (by omega)]⟩
    refine h.advances ⟨rfl, rfl, rfl⟩ hprod (h.stored.setData_last hlast hnew) ?_ ?_
    · apply h.worker.setData
      intro hhead _ heq
      rw [heq] at hhead
      omega
    · show (s.callLog log).Step ((s.goto t (.loadNext x w s.queue.tail)).callLog log)
      rw [callLog_goto_self hitem]
      exact .stay

/-- The thread moves `m_tail` to the next node and leaves the window. -/
theorem Inv.storeTail (h : s.Inv log) {x : Item α} {w : ℕ} {next : Fin n}
    (hpc : s.pushPc t = .storeTail x w next) :
    s.Advances { s.goto t (.storeWritePos x w) with
      queue := { s.queue with tail := next } } log := by
  have hok := h.producers.ok t
  simp only [hpc, PushPc.Ok] at hok
  obtain ⟨hnext, hlog, hlen⟩ := hok
  have hin : x.call ∈ log.map Item.call := List.mem_map_of_mem (List.mem_of_getElem? hlog)
  have hopen : s.queue.tail.val + 1 < n := hnext ▸ next.isLt
  have hwin : (s.pushPc t).inWindow := by rw [hpc]; rfl
  have hfree := h.producers.others hopen hwin
  have hprod : Producers next (Function.update s.pushPc t (.storeWritePos x w)) log :=
    Producers.goto_free hfree (fun u hut => (h.producers.ok u).of_not_inWindow (hfree u hut)) hin
      (fun _ => hlen.trans hnext.symm)
  refine h.advances ⟨rfl, rfl, rfl⟩ hprod (h.stored.setTail hopen next)
    ⟨h.worker.ok, h.worker.taken_le, h.worker.taken⟩ ?_
  show (s.callLog log).Step ((s.goto t (.storeWritePos x w)).callLog log)
  rw [callLog_goto_self (by rw [hpc]; rfl)]
  exact .stay

theorem Inv.callPush (h : s.Inv log) (t : ι) (v : α) : s.Advances (s.callPush t v) log := by
  rw [System.callPush]
  split
  case h_1 hpc =>
    have hcur : (s.callLog log).current t = none := by
      show (s.pushPc t).item? = none
      rw [hpc]
      rfl
    have hnew : s.calls.length ∉ log.map Item.call :=
      fun hin => (h.calls.entered_lt hin).ne rfl
    have hprod : Producers s.queue.tail
        (Function.update s.pushPc t (.loadWritePos ⟨s.calls.length, v⟩)) log :=
      h.producers.goto hnew (by rw [hpc]; rfl)
    refine h.advances ⟨rfl, rfl, rfl⟩ hprod h.stored h.worker ?_
    show (s.callLog log).Step
      { (s.goto t (.loadWritePos ⟨s.calls.length, v⟩)).callLog log with calls := s.calls ++ [v] }
    rw [callLog_goto]
    exact .call t v hcur
  case h_2 => exact ⟨log, h, .stay⟩

theorem Inv.pushStep (h : s.Inv log) (t : ι) (hfree : s.TailFree (.push t)) :
    s.Advances (s.pushStep t) log := by
  have hok := h.producers.ok t
  rw [System.pushStep]
  cases hpc : s.pushPc t with
  | idle => exact ⟨log, h, .stay⟩
  | loadWritePos x =>
    rw [hpc] at hok
    exact h.advances_goto (by rw [hpc]; rfl) (h.producers.goto hok (by rw [hpc]; rfl))
  | loadReadPos x w =>
    rw [hpc] at hok
    have hidle : Producers s.queue.tail (Function.update s.pushPc t .idle) log :=
      h.producers.goto trivial (by rw [hpc]; rfl)
    dsimp only
    split_ifs with hfull
    · refine h.advances ⟨rfl, rfl, rfl⟩ hidle h.stored h.worker ?_
      exact step_returnPush (by rw [hpc]; rfl) (by simpa [PushPc.Ok] using hok)
    · exact h.advances_goto (by rw [hpc]; rfl) (h.producers.goto hok (by rw [hpc]; rfl))
  | loadTail x w => exact h.loadTail hpc hfree
  | storeData x w i => exact h.storeData hpc
  | loadNext x w i =>
    rw [hpc] at hok
    obtain ⟨rfl, hok⟩ := hok
    dsimp only
    rw [h.stored.next]
    cases hlink : LockFreeQueue.link s.queue.tail with
    | none =>
      -- the last node: the item stays behind in it and the call fails
      rw [LockFreeQueue.link_eq_none_iff] at hlink
      rw [if_neg (by omega)] at hok
      have hidle : Producers s.queue.tail (Function.update s.pushPc t .idle) log :=
        h.producers.goto_last hlink trivial
      refine h.advances ⟨rfl, rfl, rfl⟩ hidle h.stored h.worker ?_
      exact step_returnPush (by rw [hpc]; rfl) (by simpa using hok)
    | some next =>
      rw [LockFreeQueue.link_eq_some_iff] at hlink
      rw [if_pos (hlink ▸ next.isLt)] at hok
      exact h.advances_goto (by rw [hpc]; rfl)
        (h.producers.goto ⟨hlink, hok⟩ (by rw [hpc]; rfl))
  | storeTail x w next => exact h.storeTail hpc
  | storeWritePos x w =>
    rw [hpc] at hok
    have hidle : Producers s.queue.tail (Function.update s.pushPc t .idle) log :=
      h.producers.goto trivial (by rw [hpc]; rfl)
    refine h.advances ⟨rfl, rfl, rfl⟩ hidle ⟨h.stored.next, h.stored.data, h.stored.last⟩
      ⟨h.worker.ok, h.worker.taken_le, h.worker.taken⟩ ?_
    exact step_returnPush (by rw [hpc]; rfl) (by simpa [PushPc.Ok] using hok)

/-! ## One step of `pop` -/

omit [DecidableEq ι] in
theorem Inv.callPop (h : s.Inv log) : s.callPop.Inv log := by
  rw [System.callPop]
  split
  case h_1 hpc =>
    have hstored := h.stored
    obtain ⟨-, hle, htaken⟩ := h.worker
    rw [hpc] at hstored hle htaken
    exact ⟨h.producers, hstored, ⟨trivial, hle, htaken⟩, h.calls⟩
  case h_2 => exact h

omit [DecidableEq ι] in
theorem Inv.popStep (h : s.Inv log) : s.popStep.Inv log := by
  have hstored := h.stored
  obtain ⟨hok, hle, htaken⟩ := h.worker
  rw [System.popStep]
  cases hpc : s.popPc with
  | idle => exact h
  | loadHead =>
    rw [hpc] at hstored hle htaken
    exact ⟨h.producers, hstored, ⟨rfl, hle, htaken⟩, h.calls⟩
  | loadData i =>
    rw [hpc] at hstored hok hle htaken
    obtain rfl : i = s.queue.head := hok
    dsimp only
    split
    case h_1 => exact ⟨h.producers, hstored, ⟨trivial, hle, htaken⟩, h.calls⟩
    case h_2 x hx => exact ⟨h.producers, hstored, ⟨⟨rfl, fun _ => hx⟩, hle, htaken⟩, h.calls⟩
  | loadNext i x =>
    rw [hpc] at hstored hok hle htaken
    obtain ⟨rfl, hx⟩ := hok
    dsimp only
    rw [hstored.next]
    cases hlink : LockFreeQueue.link s.queue.head with
    | none => exact ⟨h.producers, hstored, ⟨trivial, hle, htaken⟩, h.calls⟩
    | some next =>
      rw [LockFreeQueue.link_eq_some_iff] at hlink
      have hopen : s.queue.head.val + 1 < n := hlink ▸ next.isLt
      exact ⟨h.producers, hstored, ⟨⟨rfl, hlink, hx hopen⟩, hle, htaken⟩, h.calls⟩
  | storeNull i x next =>
    rw [hpc] at hstored hok htaken
    replace hstored : Stored s.queue s.queue.head.val log := hstored
    replace htaken : s.returned ++ [] = log.take s.queue.head.val := htaken
    obtain ⟨rfl, hnext, hx⟩ := hok
    have hopen : s.queue.head.val + 1 < n := hnext ▸ next.isLt
    have hlt := hstored.lt_of_data hopen (by simp [hx])
    rw [hstored.data _ hopen, if_pos le_rfl] at hx
    refine ⟨h.producers, hstored.take, ⟨hnext, hlt, ?_⟩, h.calls⟩
    show s.returned ++ [x] = log.take (s.queue.head.val + 1)
    rw [List.take_add_one, hx, ← htaken, List.append_nil]
    rfl
  | storeHead x next =>
    rw [hpc] at hstored hok hle htaken
    replace hok : next.val = s.queue.head.val + 1 := hok
    have htakes : (PopPc.storeHead x next).taken s.queue.head =
        (PopPc.loadReadPos x).taken next := hok.symm
    rw [htakes] at hstored hle htaken
    exact ⟨h.producers, ⟨hstored.next, hstored.data, hstored.last⟩, ⟨trivial, hle, htaken⟩, h.calls⟩
  | loadReadPos x =>
    rw [hpc] at hstored hle htaken
    exact ⟨h.producers, hstored, ⟨trivial, hle, htaken⟩, h.calls⟩
  | storeReadPos x r =>
    rw [hpc] at hstored hle htaken
    refine ⟨h.producers, ⟨hstored.next, hstored.data, hstored.last⟩, ⟨trivial, hle, ?_⟩, h.calls⟩
    show (s.returned ++ [x]) ++ [] = log.take s.queue.head.val
    rw [List.append_nil]
    exact htaken

/-! ## Runs -/

theorem Inv.step (h : s.Inv log) (a : Action ι α) (hfree : s.TailFree a) :
    s.Advances (s.step a) log := by
  cases a with
  | callPush t v => exact h.callPush t v
  | push t => exact h.pushStep t hfree
  | callPop =>
    refine ⟨log, h.callPop, ?_⟩
    have hlog : (s.step (.callPop : Action ι α)).callLog log = s.callLog log := by
      rw [System.step, System.callPop]
      split <;> rfl
    rw [hlog]
    exact .stay
  | pop =>
    refine ⟨log, h.popStep, ?_⟩
    have hlog : (s.step (.pop : Action ι α)).callLog log = s.callLog log := by
      rw [System.step, System.popStep]
      cases s.popPc <;> dsimp only <;> first | rfl | (split <;> rfl)
    rw [hlog]
    exact .stay

theorem inv_after [NeZero n] (as : List (Action ι α))
    (h : (machine : Machine (System ι α n) _).Guarded TailFree as) :
    ∃ log, (machine.after as : System ι α n).Inv log :=
  machine.after_of_guarded (P := fun s => ∃ log, s.Inv log) ⟨[], inv_new⟩
    (fun _ a ⟨_, h⟩ hfree => (h.step a hfree).imp fun _ => And.left) as h

end System

end TradingGateway.Queue

import Mathlib

/-!
# `LockFreeQueue`

Model of `LockFreeQueue<T, Size>` (`cpp-core/lockfree_queue/lockfree_queue.h`)
for calls that do not overlap. `T` is a pointer type: an item is an `Option`,
`none` being `nullptr`. The nodes of the array `m_nodes` are named by their
index.

The constructor links the nodes into a list that ends at the last one. No
operation changes a link, so `m_head` and `m_tail` walk this list once; the
modulo counters `m_write_pos` and `m_read_pos` go round.
-/

namespace TradingGateway.Queue

variable {α : Type*} {n : ℕ}

/-- `struct Node` (lines 13–19). -/
structure Node (α : Type*) (n : ℕ) where
  data : Option α
  next : Option (Fin n)

/-- The members of `LockFreeQueue<T, Size>` with `Size = n` (lines 24–28). -/
structure LockFreeQueue (α : Type*) (n : ℕ) where
  head : Fin n
  tail : Fin n
  nodes : Fin n → Node α n
  writePos : ℕ
  readPos : ℕ

namespace LockFreeQueue

/-- The link that the constructor gives to a node (lines 40–43). -/
def link (i : Fin n) : Option (Fin n) := if h : i.val + 1 < n then some ⟨i.val + 1, h⟩ else none

/-- `LockFreeQueue()` (lines 31–44). -/
def new [NeZero n] : LockFreeQueue α n where
  head := 0
  tail := 0
  nodes i := ⟨none, link i⟩
  writePos := 0
  readPos := 0

/-- `m_nodes[i].m_data.store(d)` -/
def setData (q : LockFreeQueue α n) (i : Fin n) (d : Option α) : LockFreeQueue α n :=
  { q with nodes := Function.update q.nodes i { q.nodes i with data := d } }

/-- `push` (lines 60–77): the result and the queue afterwards. -/
def push (q : LockFreeQueue α n) (item : Option α) : Bool × LockFreeQueue α n :=
  let currentWrite := q.writePos
  let currentRead := q.readPos
  if (currentWrite + 1) % n = currentRead then (false, q)
  else
    let tail := q.tail
    let q := q.setData tail item
    match (q.nodes tail).next with
    | some next => (true, { q with tail := next, writePos := (currentWrite + 1) % n })
    | none => (false, q)

/-- `pop` (lines 79–95): the result and the queue afterwards. -/
def pop (q : LockFreeQueue α n) : Option α × LockFreeQueue α n :=
  let head := q.head
  match (q.nodes head).data with
  | none => (none, q)
  | some data =>
    match (q.nodes head).next with
    | none => (none, q)
    | some next =>
      let q := { q.setData head none with head := next }
      (some data, { q with readPos := (q.readPos + 1) % n })

/-- `size` (lines 97–102), from the counters alone. -/
def size (q : LockFreeQueue α n) : ℕ :=
  if q.writePos ≥ q.readPos then q.writePos - q.readPos else n - (q.readPos - q.writePos)

/-- `empty` (lines 104–106). -/
def empty (q : LockFreeQueue α n) : Bool := q.writePos = q.readPos

/-- The item in the node with index `i`. -/
def dataAt (q : LockFreeQueue α n) (i : ℕ) : Option α :=
  if h : i < n then (q.nodes ⟨i, h⟩).data else none

/-- The items that wait: those in the nodes from `m_head` up to `m_tail`. -/
def waiting (q : LockFreeQueue α n) : List α :=
  (List.range' q.head.val (q.tail.val - q.head.val)).filterMap q.dataAt

/-! ## Reading nodes -/

@[simp] theorem setData_head (q : LockFreeQueue α n) (i : Fin n) (d : Option α) :
    (q.setData i d).head = q.head := rfl

@[simp] theorem setData_tail (q : LockFreeQueue α n) (i : Fin n) (d : Option α) :
    (q.setData i d).tail = q.tail := rfl

@[simp] theorem setData_writePos (q : LockFreeQueue α n) (i : Fin n) (d : Option α) :
    (q.setData i d).writePos = q.writePos := rfl

@[simp] theorem setData_readPos (q : LockFreeQueue α n) (i : Fin n) (d : Option α) :
    (q.setData i d).readPos = q.readPos := rfl

@[simp] theorem setData_next (q : LockFreeQueue α n) (i j : Fin n) (d : Option α) :
    ((q.setData i d).nodes j).next = (q.nodes j).next := by
  by_cases h : j = i
  · subst h
    simp [setData]
  · simp [setData, Function.update_of_ne h]

@[simp] theorem setData_data (q : LockFreeQueue α n) (i j : Fin n) (d : Option α) :
    ((q.setData i d).nodes j).data = if j = i then d else (q.nodes j).data := by
  by_cases h : j = i
  · subst h
    simp [setData]
  · simp [setData, h]

theorem link_eq_some_iff {i j : Fin n} : link i = some j ↔ j.val = i.val + 1 := by
  unfold link
  split_ifs with h
  · simp [Fin.ext_iff, eq_comm]
  · simp only [false_iff]
    omega

theorem link_eq_none_iff {i : Fin n} : link i = none ↔ i.val + 1 = n := by
  unfold link
  split_ifs with h
  · simp only [false_iff]
    omega
  · simp only [true_iff]
    omega

end LockFreeQueue

end TradingGateway.Queue

import TradingGateway.Common.Bytes

/-!
# Programs that read memory

`Reads β` is a computation over a memory that yields a `β` and the indices it
reads on the way. A pointer is an index. `load` reads one byte, `memcpy` a
region; the reads of a sequence are those of its parts.
-/

namespace TradingGateway.Common

variable {β γ : Type}

/-- The bytes behind a pointer, without end. -/
abbrev Memory := ℕ → UInt8

/-- The memory that starts with the bytes `bs` and goes on as `mem`. -/
def Memory.overlay (bs : Bytes) (mem : Memory) : Memory := fun i => bs.getD i (mem i)

/-- The bytes `bs` stand at `p`. -/
def Memory.Has (mem : Memory) (p : ℕ) (bs : Bytes) : Prop :=
  (List.range' p bs.length).map mem = bs

theorem Memory.has_append {mem : Memory} {p : ℕ} {as bs : Bytes} :
    mem.Has p (as ++ bs) ↔ mem.Has p as ∧ mem.Has (p + as.length) bs := by
  simp only [Memory.Has, List.length_append]
  rw [← List.range'_append_1, List.map_append]
  constructor
  · intro h
    exact List.append_inj h (by simp)
  · rintro ⟨ha, hb⟩
    rw [ha, hb]

theorem Memory.overlay_of_lt {bs : Bytes} (mem : Memory) {i : ℕ} (h : i < bs.length) :
    Memory.overlay bs mem i = bs.getD i 0 := by
  rw [Memory.overlay, List.getD_eq_getElem _ _ h, List.getD_eq_getElem _ _ h]

theorem Memory.overlay_of_ge {bs : Bytes} (mem : Memory) {i : ℕ} (h : bs.length ≤ i) :
    Memory.overlay bs mem i = mem i :=
  List.getD_eq_default _ _ h

/-- Memories that agree with `bs` byte by byte have it at their start. -/
theorem Memory.has_zero {mem : Memory} {bs : Bytes} (h : ∀ i < bs.length, mem i = bs.getD i 0) :
    mem.Has 0 bs := by
  refine List.ext_getElem (by simp) fun i h1 h2 => ?_
  rw [List.getElem_map, List.getElem_range', Nat.zero_add, Nat.one_mul, h i h2,
    List.getD_eq_getElem _ _ h2]

/-- `memcpy` of the bytes `bs` to `p`. -/
def Memory.write (mem : Memory) (p : ℕ) (bs : Bytes) : Memory :=
  fun i => if p ≤ i ∧ i < p + bs.length then bs.getD (i - p) 0 else mem i

theorem Memory.has_write (mem : Memory) (p : ℕ) (bs : Bytes) : (mem.write p bs).Has p bs := by
  refine List.ext_getElem (by simp) fun i h1 h2 => ?_
  rw [List.getElem_map, List.getElem_range', Nat.one_mul, Memory.write, if_pos (by omega),
    Nat.add_sub_cancel_left, List.getD_eq_getElem _ _ h2]

theorem Memory.write_of_ge (mem : Memory) {p i : ℕ} {bs : Bytes} (h : p + bs.length ≤ i) :
    mem.write p bs i = mem i := by
  rw [Memory.write, if_neg (by omega)]

/-- What stands behind the bytes that are written stays. -/
theorem Memory.Has.write {mem : Memory} {q : ℕ} {cs : Bytes} (h : mem.Has q cs) {p : ℕ}
    {bs : Bytes} (hpq : p + bs.length ≤ q) : (mem.write p bs).Has q cs := by
  rw [Memory.Has] at h ⊢
  rw [← h, List.length_map, List.length_range']
  refine List.map_congr_left fun i hi => ?_
  rw [List.mem_range'_1] at hi
  exact mem.write_of_ge (by omega)

/-- A value and the indices read. -/
def Reads (β : Type) := Memory → β × List ℕ

namespace Reads

/-- The result. -/
def value (x : Reads β) (mem : Memory) : β := (x mem).1

/-- The indices read, in order. -/
def indices (x : Reads β) (mem : Memory) : List ℕ := (x mem).2

instance : Monad Reads where
  pure b := fun _ => (b, [])
  bind x f := fun mem =>
    ((f (x.value mem)).value mem, x.indices mem ++ (f (x.value mem)).indices mem)

/-- `*(p + i)` -/
def load (i : ℕ) : Reads UInt8 := fun mem => (mem i, [i])

/-- The `len` bytes from `p` on, as `memcpy` reads them. -/
def memcpy (p len : ℕ) : Reads Bytes := fun mem =>
  ((List.range' p len).map mem, List.range' p len)

@[simp] theorem value_pure (b : β) (mem : Memory) : (pure b : Reads β).value mem = b := rfl

@[simp] theorem indices_pure (b : β) (mem : Memory) : (pure b : Reads β).indices mem = [] := rfl

@[simp] theorem value_bind (x : Reads β) (f : β → Reads γ) (mem : Memory) :
    (x >>= f).value mem = (f (x.value mem)).value mem := rfl

@[simp] theorem indices_bind (x : Reads β) (f : β → Reads γ) (mem : Memory) :
    (x >>= f).indices mem = x.indices mem ++ (f (x.value mem)).indices mem := rfl

@[simp] theorem value_map (f : β → γ) (x : Reads β) (mem : Memory) :
    (f <$> x).value mem = f (x.value mem) := rfl

@[simp] theorem indices_map (f : β → γ) (x : Reads β) (mem : Memory) :
    (f <$> x).indices mem = x.indices mem := List.append_nil _

@[simp] theorem value_load (i : ℕ) (mem : Memory) : (load i).value mem = mem i := rfl

@[simp] theorem indices_load (i : ℕ) (mem : Memory) : (load i).indices mem = [i] := rfl

@[simp] theorem value_memcpy (p len : ℕ) (mem : Memory) :
    (memcpy p len).value mem = (List.range' p len).map mem := rfl

@[simp] theorem indices_memcpy (p len : ℕ) (mem : Memory) :
    (memcpy p len).indices mem = List.range' p len := rfl

end Reads

end TradingGateway.Common

import Mathlib

/-!
# Bytes, C strings and little-endian integers

Memory regions are lists of `UInt8`. `cString` is what `std::string(const
char*)` reads from a region, `strncpy` is the C function of that name on a
destination of `n` bytes, and `ofLE`/`toLE` are the little-endian encodings of
unsigned integers. `cut` cuts a stream into chunks.
-/

namespace TradingGateway.Common

/-- A region of memory, or the contents of a `std::string`. -/
abbrev Bytes := List UInt8

/-! ## C strings -/

/-- The C string at the start of `mem`: the bytes before the first NUL. -/
def cString (mem : Bytes) : Bytes := mem.takeWhile (· ≠ 0)

/-- `strncpy(dst, src.c_str(), n)` on a destination of `n` bytes: at most `n`
    bytes up to the first NUL, padded with NULs. -/
def strncpy (n : ℕ) (src : Bytes) : Vector UInt8 n :=
  Vector.ofFn fun i => (cString src).getD i 0

theorem cString_append_of_mem {a : Bytes} (h : 0 ∈ a) (b : Bytes) :
    cString (a ++ b) = cString a := by
  induction a with
  | nil => simp at h
  | cons c a ih =>
    by_cases hc : c = 0
    · simp [cString, hc]
    · have ha : 0 ∈ a := by simpa [Ne.symm hc] using h
      simpa [cString, hc] using ih ha

theorem cString_append_of_not_mem {a : Bytes} (h : 0 ∉ a) (b : Bytes) :
    cString (a ++ b) = a ++ cString b := by
  apply List.takeWhile_append_of_pos
  rintro c hc
  simpa using fun h0 : c = 0 => h (h0 ▸ hc)

theorem cString_of_not_mem {a : Bytes} (h : 0 ∉ a) : cString a = a := by
  simpa [cString] using cString_append_of_not_mem h []

theorem not_mem_cString (a : Bytes) : 0 ∉ cString a := by
  intro h
  simpa using List.mem_takeWhile_imp h

/-- Copying a C string that was read from memory is copying the memory. -/
theorem strncpy_cString (n : ℕ) (src : Bytes) : strncpy n (cString src) = strncpy n src := by
  rw [strncpy, cString_of_not_mem (not_mem_cString src), strncpy]

/-- `strncpy` does not look at more bytes than it writes. -/
theorem strncpy_append {n : ℕ} {a : Bytes} (ha : a.length = n) (b : Bytes) :
    strncpy n (a ++ b) = strncpy n a := by
  by_cases h : 0 ∈ a
  · rw [strncpy, cString_append_of_mem h, strncpy]
  · rw [strncpy, strncpy, cString_append_of_not_mem h, cString_of_not_mem h]
    congr 1
    funext i
    exact List.getD_append _ _ _ _ (ha ▸ i.isLt)

/-- Nor at the NULs that fill up its source. -/
theorem strncpy_append_zeros (n : ℕ) (a : Bytes) (k : ℕ) :
    strncpy n (a ++ List.replicate k 0) = strncpy n a := by
  have hzeros : cString (List.replicate k 0) = [] := by
    cases k <;> simp [cString, List.replicate_succ]
  by_cases h : 0 ∈ a
  · rw [strncpy, cString_append_of_mem h, strncpy]
  · rw [strncpy, strncpy, cString_append_of_not_mem h, hzeros, List.append_nil,
      cString_of_not_mem h]

theorem length_cString_le (a : Bytes) : (cString a).length ≤ a.length :=
  (List.takeWhile_sublist _).length_le

theorem toList_strncpy {n : ℕ} {src : Bytes} (h : (cString src).length ≤ n) :
    (strncpy n src).toList = cString src ++ List.replicate (n - (cString src).length) 0 := by
  apply List.ext_getElem
  · simp only [Vector.length_toList, List.length_append, List.length_replicate]
    omega
  · intro i hi hi'
    simp only [strncpy, Vector.getElem_toList, Vector.getElem_ofFn]
    rcases Nat.lt_or_ge i (cString src).length with hlt | hge
    · rw [List.getElem_append_left hlt, List.getD_eq_getElem _ _ hlt]
    · rw [List.getElem_append_right hge, List.getElem_replicate, List.getD_eq_default _ _ hge]

/-- The C string in a copy of `n` bytes that is followed by `b`: the read goes
    on into `b` if the copy has no NUL. -/
theorem cString_strncpy_append {n : ℕ} {a : Bytes} (ha : a.length = n) (b : Bytes) :
    cString ((strncpy n a).toList ++ b) = if 0 ∈ a then cString a else a ++ cString b := by
  have hle : (cString a).length ≤ n := ha ▸ length_cString_le a
  rw [toList_strncpy hle]
  split_ifs with h
  · -- a NUL that was copied or padded ends the string
    have hlt : (cString a).length < n := by
      refine lt_of_le_of_ne hle fun heq => not_mem_cString a ?_
      have hself : cString a = a :=
        List.Sublist.eq_of_length (List.takeWhile_sublist _) (heq.trans ha.symm)
      rwa [hself]
    have hzero : 0 ∈ List.replicate (n - (cString a).length) (0 : UInt8) :=
      List.mem_replicate.mpr ⟨by omega, rfl⟩
    rw [List.append_assoc, cString_append_of_not_mem (not_mem_cString a),
      cString_append_of_mem hzero]
    simp [cString]
  · rw [cString_of_not_mem h, ha, Nat.sub_self, List.replicate_zero, List.append_nil,
      cString_append_of_not_mem h]

/-! ## Little-endian integers -/

/-- The number whose little-endian digits to base 256 are `bs`. -/
def ofLE : Bytes → ℕ
  | [] => 0
  | b :: bs => b.toNat + 256 * ofLE bs

/-- The `k` low little-endian bytes of `x`. -/
def toLE : ℕ → ℕ → Bytes
  | 0, _ => []
  | k + 1, x => UInt8.ofNat x :: toLE k (x / 256)

@[simp] theorem length_toLE (k x : ℕ) : (toLE k x).length = k := by
  induction k generalizing x with
  | zero => rfl
  | succ k ih => simp [toLE, ih]

theorem ofLE_toLE (k x : ℕ) : ofLE (toLE k x) = x % 256 ^ k := by
  induction k generalizing x with
  | zero => simp [toLE, ofLE, Nat.mod_one]
  | succ k ih =>
    have hb : (UInt8.ofNat x).toNat = x % 256 := UInt8.toNat_ofNat'
    rw [toLE, ofLE, ih, hb, pow_succ', Nat.mod_mul]

/-- `k` bytes are enough for a number below `256 ^ k`. -/
theorem ofLE_toLE_of_lt {k x : ℕ} (hx : x < 256 ^ k) : ofLE (toLE k x) = x := by
  rw [ofLE_toLE, Nat.mod_eq_of_lt hx]

/-! ## Chunks of a stream -/

/-- The chunks of the given lengths. -/
def cut : List ℕ → Bytes → List Bytes
  | [], _ => []
  | l :: ls, bs => bs.take l :: cut ls (bs.drop l)

theorem flatten_cut {cuts : List ℕ} {bs : Bytes} (h : cuts.sum = bs.length) :
    (cut cuts bs).flatten = bs := by
  induction cuts generalizing bs with
  | nil =>
    rw [List.sum_nil] at h
    rw [List.eq_nil_of_length_eq_zero h.symm]
    rfl
  | cons l ls ih =>
    rw [List.sum_cons] at h
    rw [cut, List.flatten_cons, ih (by rw [List.length_drop]; omega), List.take_append_drop]

theorem map_length_cut {cuts : List ℕ} {bs : Bytes} (h : cuts.sum = bs.length) :
    (cut cuts bs).map List.length = cuts := by
  induction cuts generalizing bs with
  | nil => rfl
  | cons l ls ih =>
    rw [List.sum_cons] at h
    rw [cut, List.map_cons, ih (by rw [List.length_drop]; omega), List.length_take,
      Nat.min_eq_left (by omega)]

end TradingGateway.Common

import TradingGateway.Common.Bytes

/-!
# Integers, text and `struct` in Python

What programs that exchange messages use of Python: `&` on integers without
bound, the `ascii` codec, methods of ASCII strings, `int`, and `pack` and `unpack`
of the module `struct` for formats that start with `<` (little-endian, no
padding). What raises an exception returns `none`.

* `land_mask`: `x & (2 ** k - 1)` is the remainder also for negative `x`.
* `decodeAscii_asciiBytes`, `int_toString`: what was encoded is decoded.
* `fields_append`: a field is unpacked from its own bytes.
-/

namespace TradingGateway.Common.Python

/-! ## Integers -/

/-- Masking an integer keeps its `k` low bits in two's complement. -/
theorem land_mask (x : ℤ) (k : ℕ) : Int.land x ((2 ^ k - 1 : ℕ) : ℤ) = x % (2 ^ k : ℕ) := by
  have hpos : 0 < 2 ^ k := Nat.two_pow_pos k
  cases x with
  | ofNat m =>
    show ((m &&& (2 ^ k - 1) : ℕ) : ℤ) = _
    rw [Nat.and_two_pow_sub_one_eq_mod]
    rfl
  | negSucc m =>
    -- the low bits are those that `m` does not have
    have hlt : m % 2 ^ k < 2 ^ k := Nat.mod_lt _ hpos
    have hbits : Nat.ldiff (2 ^ k - 1) m = 2 ^ k - (m % 2 ^ k + 1) := by
      apply Nat.eq_of_testBit_eq
      intro i
      rw [Nat.testBit_ldiff, Nat.testBit_two_pow_sub_one, Nat.testBit_two_pow_sub_succ hlt,
        Nat.testBit_mod_two_pow]
      by_cases hi : i < k <;> simp [hi]
    show ((Nat.ldiff (2 ^ k - 1) m : ℕ) : ℤ) = _
    rw [hbits, Int.negSucc_emod m (by exact_mod_cast hpos), Nat.cast_sub hlt]
    push_cast
    ring

/-! ## Text -/

/-- All characters of the string are ASCII characters. -/
def IsAscii (s : String) : Prop := ∀ ch ∈ s.toList, ch.val < 128

instance (s : String) : Decidable (IsAscii s) :=
  inferInstanceAs (Decidable (∀ ch ∈ s.toList, ch.val < 128))

/-- The bytes of an ASCII string. -/
def asciiBytes (s : String) : Bytes := s.toList.map fun ch => ch.val.toUInt8

/-- `s.encode('ascii')` -/
def encodeAscii (s : String) : Option Bytes := if IsAscii s then some (asciiBytes s) else none

/-- The string whose characters have the codes `bs`. -/
def asciiString (bs : Bytes) : String := .ofList (bs.map fun b => .ofNat b.toNat)

/-- `bs.decode('ascii')` -/
def decodeAscii (bs : Bytes) : Option String :=
  if ∀ b ∈ bs, b < 128 then some (asciiString bs) else none

theorem decodeAscii_asciiBytes {s : String} (h : IsAscii s) :
    decodeAscii (asciiBytes s) = some s := by
  have hval : ∀ ch ∈ s.toList, (ch.val.toUInt8).toNat = ch.toNat := by
    intro ch hch
    have hlt : ch.val.toNat < 128 := UInt32.lt_iff_toNat_lt.mp (h ch hch)
    show ch.val.toNat % 2 ^ 8 = ch.val.toNat
    omega
  have hascii : ∀ b ∈ asciiBytes s, b < 128 := by
    intro b hb
    obtain ⟨ch, hch, rfl⟩ := List.mem_map.mp hb
    have hlt : ch.val.toNat < 128 := UInt32.lt_iff_toNat_lt.mp (h ch hch)
    rw [UInt8.lt_iff_toNat_lt, hval ch hch]
    exact hlt
  rw [decodeAscii, if_pos hascii, asciiString, asciiBytes, List.map_map]
  congr 1
  conv_rhs => rw [← String.ofList_toList (s := s)]
  congr 1
  conv_rhs => rw [← List.map_id s.toList]
  apply List.map_congr_left
  intro ch hch
  show Char.ofNat (ch.val.toUInt8).toNat = ch
  rw [hval ch hch, Char.ofNat_toNat]

/-- `bs.ljust(n, b'\x00')` -/
def ljust (n : ℕ) (bs : Bytes) : Bytes := bs ++ List.replicate (n - bs.length) 0

/-- `s.rstrip('\x00')` -/
def rstripNul (s : String) : String := .ofList (s.toList.rdropWhile (· = '\x00'))

theorem length_ljust {n : ℕ} {bs : Bytes} (h : bs.length ≤ n) : (ljust n bs).length = n := by
  rw [ljust, List.length_append, List.length_replicate]
  omega

/-! ## Parsing text -/

/-- White space for `strip`, among the ASCII characters. -/
def isSpace (ch : Char) : Bool :=
  ch ∈ [' ', '\t', '\n', '\x0b', '\x0c', '\r', '\x1c', '\x1d', '\x1e', '\x1f']

/-- White space for `int`, to which the separators from `\x1c` to `\x1f` do not
    belong. -/
def isIntSpace (ch : Char) : Bool := ch ∈ [' ', '\t', '\n', '\x0b', '\x0c', '\r']

/-- The string without the characters of the kind `p` at its ends. -/
def stripBy (p : Char → Bool) (s : String) : String :=
  .ofList ((s.toList.dropWhile p).rdropWhile p)

/-- `s.strip()` -/
def strip (s : String) : String := stripBy isSpace s

/-- `sub in s` -/
def isIn (sub s : String) : Bool := sub.toList <:+: s.toList

/-- `s.split(sep)` -/
def split (sep : Char) (s : String) : List String := (s.toList.splitOn sep).map .ofList

/-- The digits of a number, in groups that single underscores separate. -/
def unsigned (cs : List Char) : Option ℕ :=
  let groups := cs.splitOn '_'
  if ∀ g ∈ groups, g ≠ [] ∧ ∀ ch ∈ g, ch.isDigit then some (Nat.ofDigitChars 10 groups.flatten 0)
  else none

/-- `int(s)`, of an ASCII string -/
def int (s : String) : Option ℤ :=
  match (stripBy isIntSpace s).toList with
  | '-' :: cs => (unsigned cs).map fun n => -n
  | '+' :: cs => (unsigned cs).map fun n => n
  | cs => (unsigned cs).map fun n => n

theorem stripBy_eq_self {p : Char → Bool} {s : String} (hhead : ∀ ch ∈ s.toList.head?, ¬ p ch)
    (hlast : ∀ ch ∈ s.toList.getLast?, ¬ p ch) : stripBy p s = s := by
  have hdrop : s.toList.dropWhile p = s.toList := by
    cases hs : s.toList with
    | nil => rfl
    | cons ch cs =>
      rw [hs] at hhead
      exact List.dropWhile_cons_of_neg (hhead ch rfl)
  rw [stripBy, hdrop, List.rdropWhile_eq_self_iff.mpr, String.ofList_toList]
  intro hne
  exact hlast _ (List.getLast?_eq_some_getLast hne)

theorem not_isIntSpace_of_isDigit {ch : Char} (h : ch.isDigit) : ¬ isIntSpace ch := by
  intro hspace
  simp only [isIntSpace, List.mem_cons, List.not_mem_nil, or_false, decide_eq_true_eq] at hspace
  rcases hspace with rfl | rfl | rfl | rfl | rfl | rfl <;> cases h

theorem int_toString (n : ℕ) : int (toString n) = some n := by
  have hdigit : ∀ ch ∈ Nat.toDigits 10 n, ch.isDigit := fun ch hch =>
    Nat.isDigit_of_mem_toDigits (by decide) (by decide) hch
  have htoList : (toString n).toList = Nat.toDigits 10 n := Nat.toList_repr
  have hstrip : stripBy isIntSpace (toString n) = toString n := by
    apply stripBy_eq_self
    · intro ch hch
      rw [htoList] at hch
      exact not_isIntSpace_of_isDigit (hdigit ch (List.mem_of_mem_head? hch))
    · intro ch hch
      rw [htoList] at hch
      exact not_isIntSpace_of_isDigit (hdigit ch (List.mem_of_mem_getLast? hch))
  have hunsigned : unsigned (Nat.toDigits 10 n) = some n := by
    unfold unsigned
    rw [List.splitOn_eq_singleton Nat.underscore_not_in_toDigits]
    dsimp only
    rw [if_pos, List.flatten_singleton, Nat.ofDigitChars_ten_toDigits]
    rw [List.forall_mem_singleton]
    exact ⟨Nat.toDigits_ne_nil, hdigit⟩
  unfold int
  rw [hstrip, htoList]
  split
  · next hcs =>
    have := hdigit '-' (by rw [hcs]; exact List.mem_cons_self)
    cases this
  · next hcs =>
    have := hdigit '+' (by rw [hcs]; exact List.mem_cons_self)
    cases this
  · rw [hunsigned]
    rfl

/-! ## `struct` -/

/-- A format character. -/
inductive Code
  /-- an unsigned integer of the given size -/
  | uint (size : ℕ)
  /-- `c` -/
  | char
  /-- `ns` -/
  | str (n : ℕ)

/-- `B` -/
abbrev B : Code := .uint 1
/-- `I` -/
abbrev I : Code := .uint 4
/-- `Q` -/
abbrev Q : Code := .uint 8

/-- What is packed, or unpacked. -/
inductive Value
  | int (x : ℤ)
  | bytes (bs : Bytes)
  deriving DecidableEq

namespace Code

def size : Code → ℕ
  | .uint k => k
  | .char => 1
  | .str n => n

/-- One field of `pack`: integers must fit, byte strings are cut or padded. -/
def pack : Code → Value → Option Bytes
  | .uint k, .int x => if 0 ≤ x ∧ x < 256 ^ k then some (toLE k x.toNat) else none
  | .char, .bytes bs => if bs.length = 1 then some bs else none
  | .str n, .bytes bs => some (ljust n (bs.take n))
  | _, _ => none

/-- One field of `unpack`. -/
def unpack : Code → Bytes → Value
  | .uint _, bs => .int (ofLE bs)
  | _, bs => .bytes bs

end Code

/-- `struct.calcsize` -/
def calcsize (fmt : List Code) : ℕ := (fmt.map Code.size).sum

/-- `struct.pack` -/
def pack : List Code → List Value → Option Bytes
  | [], [] => some []
  | code :: fmt, v :: vs => do
    let bs ← code.pack v
    let rest ← pack fmt vs
    return bs ++ rest
  | _, _ => none

/-- The fields of `struct.unpack`, one after another. -/
def fields : List Code → Bytes → List Value
  | [], _ => []
  | code :: fmt, bs => code.unpack (bs.take code.size) :: fields fmt (bs.drop code.size)

/-- `struct.unpack` -/
def unpack (fmt : List Code) (bs : Bytes) : Option (List Value) :=
  if bs.length = calcsize fmt then some (fields fmt bs) else none

theorem fields_append (code : Code) (fmt : List Code) {bs : Bytes} (h : bs.length = code.size)
    (rest : Bytes) : fields (code :: fmt) (bs ++ rest) = code.unpack bs :: fields fmt rest := by
  rw [fields, ← h, List.take_left, List.drop_left]

theorem pack_cons {code : Code} {fmt : List Code} {v : Value} {vs : List Value}
    {bs rest : Bytes} (h : code.pack v = some bs) (hrest : pack fmt vs = some rest) :
    pack (code :: fmt) (v :: vs) = some (bs ++ rest) := by
  rw [pack, h, hrest]
  rfl

theorem pack_uint {k : ℕ} {x : ℤ} (h0 : 0 ≤ x) (h : x < 256 ^ k) :
    (Code.uint k).pack (.int x) = some (toLE k x.toNat) :=
  if_pos ⟨h0, h⟩

theorem pack_nat {k n : ℕ} (h : n < 256 ^ k) :
    (Code.uint k).pack (.int n) = some (toLE k n) :=
  pack_uint (Int.natCast_nonneg n) (by exact_mod_cast h)

end TradingGateway.Common.Python

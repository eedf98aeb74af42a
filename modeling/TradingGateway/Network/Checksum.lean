import TradingGateway.Network.Parser

/-!
# What the checksum detects

`calculate_checksum` shifts the `i`-th byte by `8 * (i % 4)` bits, after it was
sign-extended to 32 bits: a byte from 0x80 on also flips the bits above its own
lane. Sign extension and shifts are linear over XOR, so the checksum is a
function of the four lanes, the XORs of the bytes at the positions of one
residue; and the lanes can be read off it from the lowest upwards.

* `checksumOf_eq_spread`: the checksum of a byte string from its lanes.
* `spread_inj`: the lanes from the checksum.
* `checksum_detects`: equal checksums are equal lanes; a change of four
  consecutive bytes changes a lane and is rejected.
-/

namespace TradingGateway.Network

open Common Message

/-! ## Lanes -/

/-- The XOR of the bytes of `bs` at the positions `k` with `(i + k) % 4 = r`. -/
def laneFrom (i r : ℕ) : Bytes → UInt8
  | [] => 0
  | c :: cs => (if i % 4 = r then c else 0) ^^^ laneFrom (i + 1) r cs

/-- The XOR of the bytes of `bs` at the positions congruent to `r` modulo 4. -/
def lane (r : ℕ) (bs : Bytes) : UInt8 := laneFrom 0 r bs

/-- A byte, sign-extended and moved to lane `r`. -/
def inLane (r : ℕ) (c : UInt8) : UInt32 := charToUInt32 c <<< UInt32.ofNat (r * 8)

/-- Four lanes put together. -/
def spread (x : ℕ → UInt8) : UInt32 :=
  inLane 0 (x 0) ^^^ inLane 1 (x 1) ^^^ inLane 2 (x 2) ^^^ inLane 3 (x 3)

theorem toBitVec_charToUInt32 (c : UInt8) :
    (charToUInt32 c).toBitVec = c.toBitVec.signExtend 32 := rfl

theorem charToUInt32_xor (a b : UInt8) :
    charToUInt32 (a ^^^ b) = charToUInt32 a ^^^ charToUInt32 b := by
  apply UInt32.toBitVec_inj.mp
  rw [UInt32.toBitVec_xor, toBitVec_charToUInt32, toBitVec_charToUInt32, toBitVec_charToUInt32,
    UInt8.toBitVec_xor]
  apply BitVec.eq_of_getLsbD_eq
  intro i hi
  simp only [BitVec.getLsbD_xor, BitVec.getLsbD_signExtend, hi, decide_true, Bool.true_and,
    BitVec.msb_xor]
  split_ifs <;> rfl

theorem inLane_xor (r : ℕ) (a b : UInt8) : inLane r (a ^^^ b) = inLane r a ^^^ inLane r b := by
  unfold inLane
  rw [charToUInt32_xor]
  apply UInt32.toBitVec_inj.mp
  simp only [UInt32.toBitVec_shiftLeft, UInt32.toBitVec_xor, BitVec.shiftLeft_eq',
    BitVec.shiftLeft_xor_distrib]

theorem inLane_zero (r : ℕ) : inLane r 0 = 0 := by
  have h := inLane_xor r 0 0
  rwa [UInt8.xor_self, UInt32.xor_self] at h

theorem xor_xor_four (a b c d a' b' c' d' : UInt32) :
    (a ^^^ a') ^^^ (b ^^^ b') ^^^ (c ^^^ c') ^^^ (d ^^^ d') =
      a ^^^ b ^^^ c ^^^ d ^^^ (a' ^^^ b' ^^^ c' ^^^ d') := by
  ac_rfl

theorem spread_xor (x y : ℕ → UInt8) :
    spread (fun r => x r ^^^ y r) = spread x ^^^ spread y := by
  unfold spread
  rw [inLane_xor, inLane_xor, inLane_xor, inLane_xor]
  exact xor_xor_four _ _ _ _ _ _ _ _

/-- One byte in the lane `k`. -/
theorem spread_single {k : ℕ} (hk : k < 4) (c : UInt8) :
    spread (fun r => if k = r then c else 0) = inLane k c := by
  unfold spread
  interval_cases k <;> simp [inLane_zero]

/-! ## The checksum from the lanes -/

theorem checksumStep_eq (checksum : UInt32) (i : ℕ) (c : UInt8) :
    checksumStep checksum i c = checksum ^^^ inLane (i % 4) c := rfl

/-- The loop adds up the bytes of the four lanes. -/
theorem checksumOf_eq_xor (i : ℕ) (checksum : UInt32) (bs : Bytes) :
    checksumOf i checksum bs = checksum ^^^ spread fun r => laneFrom i r bs := by
  induction bs generalizing i checksum with
  | nil =>
    have hzero : spread (fun _ => 0) = 0 := by simp [spread, inLane_zero]
    simp only [checksumOf, laneFrom]
    rw [hzero, UInt32.xor_zero]
  | cons c bs ih =>
    have hlt : i % 4 < 4 := Nat.mod_lt i (by omega)
    simp only [checksumOf, laneFrom]
    rw [ih, checksumStep_eq, spread_xor (fun r => if i % 4 = r then c else 0), spread_single hlt,
      UInt32.xor_assoc]

theorem checksumOf_eq_spread (bs : Bytes) : checksumOf 0 0 bs = spread fun r => lane r bs := by
  rw [checksumOf_eq_xor, UInt32.zero_xor]
  rfl

/-! ## The lanes from the checksum -/

/-- Below its lane a byte leaves no bits, and in its lane it leaves its own. -/
theorem getLsbD_inLane {r : ℕ} (hr : r < 4) (c : UInt8) {j : ℕ} (hj : j < r * 8 + 8) :
    (inLane r c).toBitVec.getLsbD j =
      if j < r * 8 then false else c.toBitVec.getLsbD (j - r * 8) := by
  have hshift : ((UInt32.ofNat (r * 8)).toBitVec % 32).toNat = r * 8 := by
    interval_cases r <;> rfl
  have hlow : j - r * 8 < 8 := by omega
  unfold inLane
  rw [UInt32.toBitVec_shiftLeft, BitVec.shiftLeft_eq', hshift, toBitVec_charToUInt32,
    BitVec.getLsbD_shiftLeft, BitVec.getLsbD_signExtend, if_pos hlow]
  split_ifs with hj'
  · simp [hj']
  · have h1 : j < 32 := by omega
    have h2 : j - r * 8 < 32 := by omega
    simp [hj', h1, h2]

theorem getLsbD_spread (x : ℕ → UInt8) (j : ℕ) :
    (spread x).toBitVec.getLsbD j =
      ((inLane 0 (x 0)).toBitVec.getLsbD j ^^ (inLane 1 (x 1)).toBitVec.getLsbD j ^^
        (inLane 2 (x 2)).toBitVec.getLsbD j ^^ (inLane 3 (x 3)).toBitVec.getLsbD j) := by
  unfold spread
  simp only [UInt32.toBitVec_xor, BitVec.getLsbD_xor]

/-- The lanes of a word are determined by it, from the lowest upwards: what the
    lanes below have spilt into a lane is known by then, and the lanes above
    spill nothing into it. -/
theorem spread_inj {x y : ℕ → UInt8} (h : spread x = spread y) {r : ℕ} (hr : r < 4) :
    x r = y r := by
  induction r using Nat.strongRecOn with
  | ind r ih =>
    have hbelow : ∀ k < r, x k = y k := fun k hk => ih k hk (by omega)
    apply UInt8.toBitVec_inj.mp
    apply BitVec.eq_of_getLsbD_eq
    intro j hj
    have hbit : (spread x).toBitVec.getLsbD (r * 8 + j) =
        (spread y).toBitVec.getLsbD (r * 8 + j) := by rw [h]
    rw [getLsbD_spread, getLsbD_spread] at hbit
    have hown : ∀ c, (inLane r c).toBitVec.getLsbD (r * 8 + j) = c.toBitVec.getLsbD j := by
      intro c
      rw [getLsbD_inLane hr c (by omega), if_neg (by omega), Nat.add_sub_cancel_left]
    have habove : ∀ k, r < k → k < 4 → ∀ c, (inLane k c).toBitVec.getLsbD (r * 8 + j) = false := by
      intro k hrk hk c
      rw [getLsbD_inLane hk c (by omega), if_pos (by omega)]
    interval_cases r
    · simpa only [hown, habove 1 (by omega) (by omega), habove 2 (by omega) (by omega),
        habove 3 (by omega) (by omega), Bool.xor_false] using hbit
    · simpa only [hown, hbelow 0 (by omega), habove 2 (by omega) (by omega),
        habove 3 (by omega) (by omega), Bool.xor_false, Bool.xor_right_inj] using hbit
    · simpa only [hown, hbelow 0 (by omega), hbelow 1 (by omega),
        habove 3 (by omega) (by omega), Bool.xor_false, Bool.xor_right_inj] using hbit
    · simpa only [hown, hbelow 0 (by omega), hbelow 1 (by omega), hbelow 2 (by omega),
        Bool.xor_right_inj] using hbit

theorem checksumOf_eq_iff (as bs : Bytes) :
    checksumOf 0 0 as = checksumOf 0 0 bs ↔ ∀ r < 4, lane r as = lane r bs := by
  rw [checksumOf_eq_spread, checksumOf_eq_spread]
  constructor
  · intro h r hr
    exact spread_inj h hr
  · intro h
    unfold spread
    dsimp only
    rw [h 0 (by omega), h 1 (by omega), h 2 (by omega), h 3 (by omega)]

/-! ## Corruption -/

/-- A lane does not see changes at positions of other residues. -/
theorem laneFrom_congr {i r : ℕ} {as bs : Bytes} (hlength : as.length = bs.length)
    (h : ∀ j, (i + j) % 4 = r → as[j]? = bs[j]?) : laneFrom i r as = laneFrom i r bs := by
  induction as generalizing i bs with
  | nil =>
    rw [List.eq_nil_of_length_eq_zero hlength.symm]
  | cons a as ih =>
    obtain ⟨b, bs, rfl⟩ := List.exists_cons_of_length_eq_add_one hlength.symm
    have htail : laneFrom (i + 1) r as = laneFrom (i + 1) r bs := by
      refine ih (by simpa using hlength) fun j hj => ?_
      have := h (j + 1) (by rw [← hj]; congr 1; omega)
      simpa using this
    rw [laneFrom, laneFrom, htail]
    split_ifs with hi
    · have := h 0 (by simpa using hi)
      rw [show a = b by simpa using this]
    · rfl

/-- A lane sees a change at one of its positions. -/
theorem laneFrom_ne {i r m : ℕ} {as bs : Bytes} (hlength : as.length = bs.length)
    (hm : (i + m) % 4 = r) (hne : as[m]? ≠ bs[m]?)
    (h : ∀ j, j ≠ m → (i + j) % 4 = r → as[j]? = bs[j]?) :
    laneFrom i r as ≠ laneFrom i r bs := by
  induction as generalizing i m bs with
  | nil =>
    rw [List.eq_nil_of_length_eq_zero hlength.symm] at hne
    exact absurd rfl hne
  | cons a as ih =>
    obtain ⟨b, bs, rfl⟩ := List.exists_cons_of_length_eq_add_one hlength.symm
    have hlength' : as.length = bs.length := by simpa using hlength
    rw [laneFrom, laneFrom]
    cases m with
    | zero =>
      have htail : laneFrom (i + 1) r as = laneFrom (i + 1) r bs := by
        refine laneFrom_congr hlength' fun j hj => ?_
        have := h (j + 1) (by omega) (by rw [← hj]; congr 1; omega)
        simpa using this
      have hab : a ≠ b := by simpa using hne
      rw [if_pos (by simpa using hm), if_pos (by simpa using hm), htail]
      exact fun heq => hab (UInt8.xor_left_inj _ |>.mp heq)
    | succ m =>
      have htail : laneFrom (i + 1) r as ≠ laneFrom (i + 1) r bs := by
        have hm' : (i + 1 + m) % 4 = r := by rw [← hm]; congr 1; omega
        refine ih hlength' hm' (by simpa using hne) fun j hj hr => ?_
        have := h (j + 1) (by omega) (by rw [← hr]; congr 1; omega)
        simpa using this
      have hhead : (if i % 4 = r then a else 0) = if i % 4 = r then b else 0 := by
        split_ifs with hi
        · simpa using h 0 (Nat.succ_ne_zero m).symm (by simpa using hi)
        · rfl
      rw [hhead]
      exact fun heq => htail (UInt8.xor_right_inj _ |>.mp heq)

/-- A change confined to four consecutive positions changes the lane of every
    byte that it changes. -/
theorem checksumOf_ne {as bs : Bytes} (hlength : as.length = bs.length) {k m : ℕ}
    (hout : ∀ j, ¬ (k ≤ j ∧ j < k + 4) → as[j]? = bs[j]?) (hne : as[m]? ≠ bs[m]?) :
    checksumOf 0 0 as ≠ checksumOf 0 0 bs := by
  intro heq
  have hmem : k ≤ m ∧ m < k + 4 := by
    by_contra hnot
    exact hne (hout m hnot)
  have hlane := (checksumOf_eq_iff as bs).mp heq (m % 4) (Nat.mod_lt m (by omega))
  refine laneFrom_ne hlength (by rw [Nat.zero_add]) hne ?_ hlane
  intro j hj hr
  exact hout j (by omega)

/-- **What the checksum detects.** Two regions of equal length have the same
    checksum if and only if, for each residue modulo 4, the XOR of the bytes at
    the positions of this residue is the same in both. So a message that is
    accepted is rejected after any change confined to four consecutive bytes of
    its payload. -/
theorem checksum_detects :
    (∀ (mem mem' : Memory) (data data' : ℕ) (length : UInt64),
      (calculateChecksum data length).value mem = (calculateChecksum data' length).value mem' ↔
        ∀ r < 4, lane r ((List.range' data length.toNat).map mem) =
          lane r ((List.range' data' length.toNat).map mem')) ∧
    ∀ (header : MessageHeader) (payload k : ℕ) (mem mem' : Memory),
      (validateMessage header payload).value mem = true →
      (∀ j < (header.length - UInt64.ofNat headerSize).toNat, ¬ (k ≤ j ∧ j < k + 4) →
        mem' (payload + j) = mem (payload + j)) →
      (∃ j < (header.length - UInt64.ofNat headerSize).toNat,
        mem' (payload + j) ≠ mem (payload + j)) →
      (validateMessage header payload).value mem' = false := by
  constructor
  · intro mem mem' data data' length
    rw [value_calculateChecksum, value_calculateChecksum]
    exact checksumOf_eq_iff _ _
  · intro header payload k mem mem' hvalid hout hchanged
    obtain ⟨m, hm, hne⟩ := hchanged
    rw [value_validateMessage, decide_eq_true_eq] at hvalid
    rw [value_validateMessage, decide_eq_false_iff_not, hvalid]
    generalize (header.length - UInt64.ofNat headerSize).toNat = n at hout hm ⊢
    refine checksumOf_ne (by simp) (k := k) (m := m) (fun j hj => ?_) ?_
    · by_cases hjn : j < n
      · simp [hjn, hout j hjn hj]
      · simp [Nat.le_of_not_lt hjn]
    · simpa [hm] using Ne.symm hne

/-- A payload of five bytes and its header. The first byte spills into every lane. -/
def intactPayload : Memory := Memory.overlay [128, 1, 2, 3, 7] fun _ => 0

def intactHeader : MessageHeader := ⟨1, 26, 0, checksumOf 0 0 [128, 1, 2, 3, 7]⟩

theorem corrupted_payload_rejected :
    (validateMessage intactHeader 0).value intactPayload = true ∧
      (validateMessage intactHeader 0).value (intactPayload.write 0 [127, 254]) = false :=
  ⟨by decide +kernel, checksum_detects.2 intactHeader 0 0 intactPayload _ (by decide +kernel)
    (by decide +kernel) (by decide +kernel)⟩

end TradingGateway.Network

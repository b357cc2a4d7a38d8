import MapAlgebra.Number.Single
import MapAlgebra.Proofs.Number.Whole

/-!
# Values of samples

The rational number that a finite sample is, and the samples that are put together from a sign, a
significand and an exponent. Truncation cuts the fraction of the value off
(`Number.truncate_eq_cut`). Main statements: **`Number.reading_ofInt`**, a whole number of at most
53 bits is the value of its sample; and **`Number.reading_toFloat`**, so is an exact number of at
most 53 bits in the normal range.
-/

namespace MapAlgebra.Number

open Float.Model UnpackedFloat

/-! ### Values -/

/-- One or minus one, the sign of a number. -/
def Exact.sign (x : Exact) : ℤ := if x.negative then -1 else 1

/-- The rational number that a number is. -/
def Exact.value (x : Exact) : ℚ := x.sign * (x.significand * 2 ^ x.exponent)

variable {x : Float} {e : Exact}

theorem abs_sign (e : Exact) : |e.sign| = 1 := by
  unfold Exact.sign
  split <;> rfl

theorem abs_sign_mul (e : Exact) (q : ℚ) : |e.sign * q| = |q| := by
  rw [abs_mul, ← Int.cast_abs, abs_sign, Int.cast_one, one_mul]

theorem magnitude_nonneg (e : Exact) : (0 : ℚ) ≤ e.significand * 2 ^ e.exponent := by positivity

theorem abs_value (e : Exact) : |e.value| = e.significand * 2 ^ e.exponent := by
  rw [Exact.value, abs_sign_mul, abs_of_nonneg (magnitude_nonneg e)]

/-- The magnitude of a number in steps of the least positive double. -/
theorem abs_value_eq_steps (h : -1074 ≤ e.exponent) : |e.value| * stepsToOne = e.steps := by
  obtain ⟨k, hk⟩ : ∃ k : Nat, e.exponent + 1074 = k := ⟨_, (Int.toNat_of_nonneg (by omega)).symm⟩
  have hexponent : e.exponent + (leastPlaces : ℤ) = k := by rw [leastPlaces_eq]; exact hk
  rw [abs_value, stepsToOne, Exact.steps, hk, Int.toNat_natCast, Nat.cast_mul, Nat.cast_pow,
    Nat.cast_pow, Nat.cast_ofNat, mul_assoc, ← zpow_natCast, ← zpow_natCast,
    ← zpow_add₀ two_ne_zero, hexponent]

/-! ### Whole parts -/

/-- A number with its fraction cut off toward zero. -/
def cut (q : ℚ) : ℤ := if 0 ≤ q then ⌊q⌋ else ⌈q⌉

theorem cut_neg (q : ℚ) : cut (-q) = -cut q := by
  unfold cut
  rcases lt_trichotomy q 0 with hneg | rfl | hpos
  · rw [if_pos (by linarith), if_neg (by linarith), Int.floor_neg]
  · simp
  · rw [if_neg (by linarith), if_pos hpos.le, Int.ceil_neg]

/-- The whole part of a number without a minus sign. -/
theorem floor_magnitude (m : Nat) (exponent : ℤ) :
    ⌊(m * 2 ^ exponent : ℚ)⌋ =
      ((if 0 ≤ exponent then m <<< exponent.toNat else m >>> (-exponent).toNat : Nat) : ℤ) := by
  split
  · next hwhole =>
    obtain ⟨k, rfl⟩ := Int.eq_ofNat_of_zero_le hwhole
    rw [Int.toNat_natCast, Nat.shiftLeft_eq, zpow_natCast]
    exact_mod_cast Int.floor_natCast (R := ℚ) (m * 2 ^ k)
  · next hpart =>
    obtain ⟨k, hk⟩ : ∃ k : Nat, -exponent = k := ⟨_, (Int.toNat_of_nonneg (by omega)).symm⟩
    obtain rfl : exponent = -(k : ℤ) := by omega
    rw [hk, Int.toNat_natCast, Nat.shiftRight_eq_div_pow, zpow_neg, zpow_natCast, ← div_eq_mul_inv]
    exact_mod_cast Rat.floor_natCast_div_natCast m (2 ^ k)

/-- Truncation gives the value with its fraction cut off. -/
theorem truncate_eq_cut (e : Exact) : e.truncate = cut e.value := by
  have hmagnitude : cut (e.significand * 2 ^ e.exponent) =
      ⌊(e.significand * 2 ^ e.exponent : ℚ)⌋ := if_pos (magnitude_nonneg e)
  unfold Exact.truncate Exact.value Exact.sign
  dsimp only
  split
  · rw [Int.cast_neg, Int.cast_one, neg_one_mul, cut_neg, hmagnitude, floor_magnitude]
  · rw [Int.cast_one, one_mul, hmagnitude, floor_magnitude]

/-! ### Samples put together -/

/-- The other sign goes with the other number. -/
theorem value_neg (e : Exact) : ({ e with negative := !e.negative } : Exact).value = -e.value := by
  obtain ⟨negative, significand, exponent⟩ := e
  cases negative <;> simp [Exact.value, Exact.sign]

/-- The negation of a sample. -/
theorem reading_neg (h : Reading.ofFloat x = .finite e) :
    Reading.ofFloat (-x) = .finite { e with negative := !e.negative } := by
  obtain ⟨negative, significand, exponent⟩ := e
  have hcanonical := (canonical_of_reading h).1
  have hneg : -signOf negative = signOf !negative := by cases negative <;> rfl
  show Reading.ofFloat (.ofModel (.pack x.toModel.unpack.neg)) = _
  rw [unpack_eq, h]
  rcases Nat.eq_zero_or_pos significand with rfl | hpos
  · -- a zero has the least exponent
    obtain rfl : exponent = -1074 := hcanonical.full.resolve_left (Nat.not_succ_le_zero _)
    rw [Reading.unpacked_zero rfl]
    cases negative <;> decide +kernel
  · rw [Reading.unpacked_finite hpos]
    show Reading.ofFloat (.ofModel (.pack (.finite (-signOf negative) significand exponent hpos))) =
      _
    rw [hneg]
    exact reading_pack (!negative) hpos ⟨hcanonical.1, hcanonical.2, hcanonical.3, hcanonical.4⟩

/-- The value of a number without a minus sign, told by its steps. -/
theorem value_of_steps {n : Nat} (hsign : e.negative = false) (hexponent : -1074 ≤ e.exponent)
    (hsteps : e.steps = n * stepsToOne) : e.value = n := by
  have hvalue : |e.value| = e.value := by
    rw [abs_value, Exact.value, Exact.sign, hsign, if_neg Bool.false_ne_true, Int.cast_one,
      one_mul]
  have hones : (stepsToOne : ℚ) ≠ 0 := Nat.cast_ne_zero.2 (Nat.ne_of_gt stepsToOne_pos)
  have habs := abs_value_eq_steps hexponent
  rw [hvalue, hsteps, Nat.cast_mul] at habs
  exact mul_right_cancel₀ hones habs

/-- **Whole numbers** of at most 53 bits are samples of their value. -/
theorem reading_ofInt {n : ℤ} (hn : n.natAbs < 2 ^ 53) :
    ∃ e, Reading.ofFloat (Float.ofInt n) = .finite e ∧ e.negative = decide (n < 0) ∧
      e.value = n := by
  obtain ⟨e, hreading, hsign, hsteps⟩ := exists_reading_ofNat hn
  have hexponent := (canonical_of_reading hreading).1.exponent_ge
  cases n with
  | ofNat n =>
    refine ⟨e, hreading, hsign.trans (decide_eq_false (Int.not_lt.2 ?_)).symm, ?_⟩
    · exact Int.natCast_nonneg n
    · exact value_of_steps hsign hexponent hsteps
  | negSucc n =>
    refine ⟨{ e with negative := !e.negative }, reading_neg hreading, ?_, ?_⟩
    · rw [hsign]
      exact (decide_eq_true (Int.negSucc_lt_zero n)).symm
    · rw [value_neg, value_of_steps hsign hexponent hsteps, Int.cast_negSucc]
      rfl

/-- Bits that a full significand can be read off are those of a sample. -/
theorem reading_ofBits {bits : UInt64} {negative : Bool} {m : Nat} {exponent : Int}
    (h : Reading.ofBits bits.toNat = .finite ⟨negative, m, exponent⟩)
    (hm : 2 ^ 52 ≤ m) (hm' : m < 2 ^ 53) (hlow : -1074 ≤ exponent) (hhigh : exponent < 972) :
    Reading.ofFloat (Float.ofBits bits) = .finite ⟨negative, m, exponent⟩ := by
  have hpos : 0 < m := Nat.lt_of_lt_of_le (by decide) hm
  have hread : Reading.ofBits bits.toBitVec.toNat = .finite ⟨negative, m, exponent⟩ := h
  show Reading.ofFloat (.ofModel (.pack (UnpackedFloat.unpack Format.binary64 bits.toBitVec))) = _
  rw [unpack_bits, hread, Reading.unpacked_finite hpos]
  exact reading_pack negative hpos ⟨hm', hlow, hhigh, .inl hm⟩

theorem lt_two_pow_bitLength (n : Nat) : n < 2 ^ bitLength n := by
  unfold bitLength
  split
  · next h => rw [h]; exact Nat.one_pos
  · exact Nat.lt_log2_self

theorem bitLength_le {n k : Nat} (h : n < 2 ^ k) : bitLength n ≤ k := by
  unfold bitLength
  split
  · exact Nat.zero_le k
  · next hn => exact (Nat.log2_lt hn).2 h

theorem two_pow_le {n k : Nat} (hn : n ≠ 0) (hk : bitLength n = k + 1) : 2 ^ k ≤ n := by
  unfold bitLength at hk
  rw [if_neg hn] at hk
  obtain rfl : n.log2 = k := by omega
  exact Nat.log2_self_le hn

/-- **Exact numbers** of at most 53 bits in the normal range are samples of their value, and so are
zeros. -/
theorem reading_toFloat (hbits : bitLength e.significand ≤ 53)
    (hlow : e.significand ≠ 0 → -1022 < e.exponent + bitLength e.significand)
    (hhigh : e.significand ≠ 0 → e.exponent + bitLength e.significand ≤ 1024) :
    ∃ r, Reading.ofFloat e.toFloat = .finite r ∧ r.negative = e.negative ∧ r.value = e.value := by
  obtain ⟨negative, significand, exponent⟩ := e
  dsimp only at hbits hlow hhigh
  by_cases hzero : significand = 0
  · subst hzero
    refine ⟨⟨negative, 0, -1074⟩, ?_, rfl, ?_⟩
    · show Reading.ofFloat (Float.ofBits (UInt64.ofNat (if negative then 1 <<< 63 else 0))) = _
      cases negative <;> decide +kernel
    · simp [Exact.value]
  obtain ⟨length, hlength⟩ : ∃ length, bitLength significand = length + 1 :=
    Nat.exists_eq_add_one_of_ne_zero (by unfold bitLength; rw [if_neg hzero]; omega)
  obtain ⟨zeros, hzeros⟩ : ∃ zeros, length + zeros = 52 := ⟨52 - length, by omega⟩
  obtain ⟨field, hfield⟩ : ∃ field : Nat, exponent + bitLength significand + 1022 = field :=
    ⟨_, (Int.toNat_of_nonneg (by have := hlow hzero; omega)).symm⟩
  have hpositive : 0 < field := by have := hlow hzero; omega
  have hbelow : field < 2047 := by have := hhigh hzero; omega
  -- the first bit of the significand becomes the implicit one
  let m := significand * 2 ^ zeros
  have hm : 2 ^ 52 ≤ m := by
    rw [← hzeros, Nat.pow_add]
    exact Nat.mul_le_mul_right _ (two_pow_le hzero hlength)
  have hm' : m < 2 ^ 53 := by
    have hsum : length + 1 + zeros = 53 := by omega
    rw [← hsum, Nat.pow_add, ← hlength]
    exact Nat.mul_lt_mul_of_pos_right (lt_two_pow_bitLength _) (Nat.two_pow_pos _)
  have hfloat : Exact.toFloat ⟨negative, significand, exponent⟩ = Float.ofBits (UInt64.ofNat
      ((if negative then 2 ^ 63 else 0) + field * 2 ^ 52 + (m - 2 ^ 52))) := by
    unfold Exact.toFloat
    dsimp only
    rw [if_neg hzero, hfield, Int.toNat_natCast, show 53 - bitLength significand = zeros by omega]
    simp only [Nat.shiftLeft_eq, Nat.one_mul]
    rfl
  have hword : (UInt64.ofNat ((if negative then 2 ^ 63 else 0) + field * 2 ^ 52 +
      (m - 2 ^ 52))).toNat = (if negative then 2 ^ 63 else 0) + field * 2 ^ 52 + (m - 2 ^ 52) :=
    UInt64.toNat_ofNat_of_lt' (by show _ < 2 ^ 64; split <;> omega)
  refine ⟨⟨negative, m, field - 1075⟩, ?_, rfl, ?_⟩
  · rw [hfloat]
    refine reading_ofBits ?_ hm hm' (by omega) (by omega)
    rw [hword, Reading.ofBits_fields negative (by omega) (by omega), if_neg (by omega),
      if_neg (by omega), Nat.add_sub_cancel' hm]
  · have hexponent : (zeros : ℤ) + (field - 1075) = exponent := by omega
    show _ * ((significand * 2 ^ zeros : Nat) * 2 ^ ((field : ℤ) - 1075) : ℚ) = _
    rw [Nat.cast_mul, Nat.cast_pow, Nat.cast_ofNat, mul_assoc, ← zpow_natCast,
      ← zpow_add₀ two_ne_zero, hexponent]
    rfl

end MapAlgebra.Number

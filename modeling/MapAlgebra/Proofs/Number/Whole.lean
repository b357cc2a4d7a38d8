import MapAlgebra.Proofs.Number.Order

/-!
# Whole numbers among doubles

A double that is no infinity is a whole number of steps of the least positive double, and doubles
compare as their numbers of steps do (`Number.le_iff_steps`). A whole number of at most 53 bits is a
double (`Number.exists_reading_ofNat`): it is shifted until its first bit is the implicit one, and
rounding has nothing to do. Main statements: **`Number.truncate_of_between`** and
**`Number.between_of_truncate`**. What lies between one and such a number has a whole part between
them, and a whole number whose whole part lies between them does so too.
-/

namespace MapAlgebra.Number

open Float.Model UnpackedFloat

/-! ### Steps -/

/-- The number of steps of the least positive double from zero to a number, in either direction. -/
def Exact.steps (x : Exact) : Nat := x.significand * 2 ^ (x.exponent + 1074).toNat

/-- The numeric key of a double that denotes a number, its sign left out. -/
def Exact.key (x : Exact) : Int := (x.exponent + 1074) * 2 ^ 52 + x.significand

/-- A number as a double denotes it: the significand has at most 53 bits, and no fewer unless the
exponent is the least. -/
structure Exact.Canonical (x : Exact) : Prop where
  /-- The significand has at most 53 bits. -/
  significand_lt : x.significand < 2 ^ 53
  /-- The exponent is not below the least. -/
  exponent_ge : -1074 ≤ x.exponent
  /-- The exponent is below those of the infinities. -/
  exponent_lt : x.exponent < 972
  /-- Fewer bits go with the least exponent only. -/
  full : 2 ^ 52 ≤ x.significand ∨ x.exponent = -1074

variable {x y : Float} {e e' : Exact}

/-- What a double that is a number and no infinity denotes, and its numeric key. -/
theorem canonical_of_reading (h : Reading.ofFloat x = .finite e) :
    e.Canonical ∧ numericKey x = (signOf e.negative).apply e.key := by
  have hfraction : x.toBits.toNat % (1 <<< 52) < 1 <<< 52 := Nat.mod_lt _ (by decide)
  have hfield : x.toBits.toNat >>> 52 % (1 <<< 11) < 1 <<< 11 := Nat.mod_lt _ (by decide)
  rw [numericKey_eq, magnitude_eq]
  unfold Reading.ofFloat Reading.ofBits at h
  dsimp only at h
  generalize x.toBits.toNat % (1 <<< 52) = fraction at *
  generalize x.toBits.toNat >>> 52 % (1 <<< 11) = field at *
  simp only [Nat.one_shiftLeft] at *
  change _ ∧ (signOf (decide (2 ^ 63 ≤ x.toBits.toNat))).apply _ = _
  generalize decide (2 ^ 63 ≤ x.toBits.toNat) = negative at *
  split at h
  · split at h <;> cases h
  · split at h <;> cases h
    · next hleast =>
      subst hleast
      exact ⟨⟨by dsimp only; omega, Int.le_refl _, by dsimp only; omega, .inr rfl⟩,
        congrArg (Sign.apply _) (by unfold Exact.key; dsimp only; omega)⟩
    · exact ⟨⟨by dsimp only; omega, by dsimp only; omega, by dsimp only; omega,
          .inl (by dsimp only; omega)⟩,
        congrArg (Sign.apply _) (by unfold Exact.key; dsimp only; omega)⟩

theorem numericKey_of_infinite {negative : Bool} (h : Reading.ofFloat x = .infinite negative) :
    numericKey x = (signOf negative).apply (2047 * 2 ^ 52) := by
  have hnumber : x.isNaN = false := by
    refine Bool.eq_false_iff.2 fun hnan => ?_
    rw [isNaN_eq_true_iff.1 hnan] at h
    cases h
  rw [← (parted_unpack hnumber).2, unpack_eq, h]
  rfl

/-- A greater key goes with more steps: the exponent decides, and then the significand. -/
theorem steps_lt_of_key_lt (h : e.Canonical) (h' : e'.Canonical) (hlt : e.key < e'.key) :
    e.steps < e'.steps := by
  obtain ⟨hm, hexponent, -, hfull⟩ := h
  obtain ⟨hm', hexponent', -, hfull'⟩ := h'
  unfold Exact.key at hlt
  unfold Exact.steps
  obtain ⟨a, ha⟩ : ∃ a : Nat, e.exponent + 1074 = a := ⟨_, (Int.toNat_of_nonneg (by omega)).symm⟩
  obtain ⟨b, hb⟩ : ∃ b : Nat, e'.exponent + 1074 = b :=
    ⟨_, (Int.toNat_of_nonneg (by omega)).symm⟩
  rw [ha, hb, Int.toNat_natCast, Int.toNat_natCast]
  rw [ha, hb] at hlt
  rcases Nat.lt_trichotomy a b with hab | rfl | hab
  · have hfull : 2 ^ 52 ≤ e'.significand := hfull'.resolve_right (by omega)
    calc e.significand * 2 ^ a < 2 ^ 53 * 2 ^ a := Nat.mul_lt_mul_of_pos_right hm (by positivity)
      _ = 2 ^ 52 * 2 ^ (a + 1) := by rw [Nat.pow_succ 2 a]; ring
      _ ≤ 2 ^ 52 * 2 ^ b := Nat.mul_le_mul_left _ (Nat.pow_le_pow_right (by decide) hab)
      _ ≤ e'.significand * 2 ^ b := Nat.mul_le_mul_right _ hfull
  · exact Nat.mul_lt_mul_of_pos_right (by omega) (by positivity)
  · have hfull : 2 ^ 52 ≤ e.significand := hfull.resolve_right (by omega)
    omega

theorem key_le_iff (h : e.Canonical) (h' : e'.Canonical) : e.key ≤ e'.key ↔ e.steps ≤ e'.steps := by
  constructor
  · intro hle
    rcases Int.lt_or_eq_of_le hle with hlt | heq
    · exact Nat.le_of_lt (steps_lt_of_key_lt h h' hlt)
    · -- One key belongs to one significand and one exponent.
      obtain ⟨hm, hexponent, -, hfull⟩ := h
      obtain ⟨hm', hexponent', -, hfull'⟩ := h'
      unfold Exact.key at heq
      have hsame : e.exponent = e'.exponent ∧ e.significand = e'.significand := by omega
      rw [Exact.steps, Exact.steps, hsame.1, hsame.2]
  · intro hle
    by_contra hgt
    exact absurd (steps_lt_of_key_lt h' h (by omega)) (by omega)

theorem isNaN_of_reading (h : Reading.ofFloat x = .finite e) : x.isNaN = false := by
  refine Bool.eq_false_iff.2 fun hnan => ?_
  rw [isNaN_eq_true_iff.1 hnan] at h
  cases h

/-- Doubles without a minus sign compare as their numbers of steps. -/
theorem le_iff_steps (hx : Reading.ofFloat x = .finite e) (hy : Reading.ofFloat y = .finite e')
    (hsign : e.negative = false) (hsign' : e'.negative = false) : x ≤ y ↔ e.steps ≤ e'.steps := by
  obtain ⟨hcanonical, hkey⟩ := canonical_of_reading hx
  obtain ⟨hcanonical', hkey'⟩ := canonical_of_reading hy
  rw [le_iff (isNaN_of_reading hx) (isNaN_of_reading hy), hkey, hkey', hsign, hsign']
  exact key_le_iff hcanonical hcanonical'

/-! ### Whole parts -/

/-- The number of binary places of the least positive double. -/
@[irreducible]
def leastPlaces : Nat := 1074

theorem leastPlaces_eq : leastPlaces = 1074 := by rw [leastPlaces]

/-- The number of steps from zero to one. -/
def stepsToOne : Nat := 2 ^ leastPlaces

theorem stepsToOne_pos : 0 < stepsToOne := Nat.two_pow_pos _

theorem stepsToOne_eq {k l : Nat} (h : k + l = 1074) : stepsToOne = 2 ^ k * 2 ^ l := by
  rw [← Nat.pow_add, h.trans leastPlaces_eq.symm, stepsToOne]

/-- A number is whole: a whole number of ones leads to it. -/
def Exact.IsWhole (x : Exact) : Prop := stepsToOne ∣ x.steps

/-- The whole part of a number without a minus sign. -/
theorem truncate_eq (hsign : e.negative = false) (hexponent : -1074 ≤ e.exponent) :
    e.truncate = (e.steps / stepsToOne : Nat) := by
  unfold Exact.truncate Exact.steps
  simp only [hsign, Bool.false_eq_true, if_false]
  refine congrArg Nat.cast ?_
  split
  · next hwhole =>
    have hpower : 2 ^ (e.exponent + 1074).toNat = 2 ^ e.exponent.toNat * stepsToOne := by
      have hsum : (e.exponent + 1074).toNat = e.exponent.toNat + leastPlaces := by
        rw [leastPlaces_eq]
        omega
      rw [hsum, Nat.pow_add, stepsToOne]
    rw [Nat.shiftLeft_eq, hpower, ← Nat.mul_assoc, Nat.mul_div_cancel _ stepsToOne_pos]
  · next hpart =>
    obtain ⟨k, hk⟩ : ∃ k : Nat, -e.exponent = k := ⟨_, (Int.toNat_of_nonneg (by omega)).symm⟩
    have hpower : k + (e.exponent + 1074).toNat = 1074 := by omega
    rw [hk, Int.toNat_natCast, Nat.shiftRight_eq_div_pow, stepsToOne_eq hpower,
      Nat.mul_div_mul_right _ _ (Nat.two_pow_pos _)]

theorem truncate_nonpos (hsign : e.negative = true) : e.truncate ≤ 0 := by
  unfold Exact.truncate
  simp only [hsign, if_true]
  omega

/-! ### Whole numbers of at most 53 bits -/

theorem log2_mul_two_pow {m : Nat} (h : 2 ^ 52 ≤ m) (h' : m < 2 ^ 53) (k : Nat) :
    (m * 2 ^ k).log2 = 52 + k := by
  have hlow : 2 ^ (52 + k) ≤ m * 2 ^ k := Nat.pow_add 2 52 k ▸ Nat.mul_le_mul_right _ h
  have hhigh : m * 2 ^ k < 2 ^ (53 + k) :=
    Nat.pow_add 2 53 k ▸ Nat.mul_lt_mul_of_pos_right h' (Nat.two_pow_pos k)
  have hne : m * 2 ^ k ≠ 0 := Nat.ne_of_gt (Nat.lt_of_lt_of_le (Nat.two_pow_pos _) hlow)
  have := mt (Nat.log2_lt hne).1 (Nat.not_lt.2 hlow)
  have := (Nat.log2_lt hne).2 hhigh
  omega

theorem log2_of_full {m : Nat} (h : 2 ^ 52 ≤ m) (h' : m < 2 ^ 53) : m.log2 = 52 := by
  have hlog := log2_mul_two_pow h h' 0
  rwa [Nat.pow_zero, Nat.mul_one] at hlog

/-- The bits that a sign, an exponent field and a significand are packed into. -/
theorem toNat_packComponents (negative : Bool) {field : Nat} (hfield : field < 2 ^ 11) (m : Nat) :
    (packComponents Format.binary64 (signOf negative) (BitVec.ofNat 11 field)
      (BitVec.ofNat 52 m)).toNat =
      (if negative then 2 ^ 63 else 0) + field * 2 ^ 52 + m % 2 ^ 52 := by
  have hlow : (BitVec.ofNat 52 m).toNat < 2 ^ 52 := BitVec.isLt _
  have hmiddle : (BitVec.ofNat 11 field).toNat < 2 ^ 11 := BitVec.isLt _
  show ((signOf negative).toBitVec ++ BitVec.ofNat 11 field ++ BitVec.ofNat 52 m).toNat = _
  rw [BitVec.toNat_append, ← Nat.shiftLeft_add_eq_or_of_lt hlow, BitVec.toNat_append,
    ← Nat.shiftLeft_add_eq_or_of_lt hmiddle, BitVec.toNat_ofNat, BitVec.toNat_ofNat,
    Nat.mod_eq_of_lt hfield, Nat.shiftLeft_eq, Nat.shiftLeft_eq]
  cases negative with
  | false =>
    show (0 * 2 ^ 11 + field) * 2 ^ 52 + _ = 0 + _ + _
    omega
  | true =>
    show (1 * 2 ^ 11 + field) * 2 ^ 52 + _ = 2 ^ 63 + _ + _
    omega

/-- The reading of bits whose fields are known. -/
theorem Reading.ofBits_fields (negative : Bool) {field fraction : Nat} (hfield : field < 2 ^ 11)
    (hfraction : fraction < 2 ^ 52) :
    Reading.ofBits ((if negative then 2 ^ 63 else 0) + field * 2 ^ 52 + fraction) =
      if field = 2047 then if fraction = 0 then .infinite negative else .nan
      else if field = 0 then .finite ⟨negative, fraction, -1074⟩
      else .finite ⟨negative, 2 ^ 52 + fraction, field - 1075⟩ := by
  have hsign : decide (2 ^ 63 ≤ (if negative then 2 ^ 63 else 0) + field * 2 ^ 52 + fraction) =
      negative := by
    cases negative <;> simp only [Bool.false_eq_true, if_false, if_true, decide_eq_true_eq,
      decide_eq_false_iff_not] <;> omega
  have hmiddle : ((if negative then 2 ^ 63 else 0) + field * 2 ^ 52 + fraction) / 2 ^ 52 % 2 ^ 11 =
      field := by
    split <;> omega
  have hlow : ((if negative then 2 ^ 63 else 0) + field * 2 ^ 52 + fraction) % 2 ^ 52 =
      fraction := by
    split <;> omega
  unfold Reading.ofBits
  simp only [Nat.one_shiftLeft, Nat.shiftRight_eq_div_pow]
  rw [hsign, hmiddle, hlow]

/-- What a double denotes is read off the bits it is packed into. -/
theorem reading_pack (negative : Bool) {m : Nat} {exponent : Int} (h : 0 < m)
    (hcanonical : (⟨negative, m, exponent⟩ : Exact).Canonical) :
    Reading.ofFloat (.ofModel (.pack (.finite (signOf negative) m exponent h))) =
      .finite ⟨negative, m, exponent⟩ := by
  obtain ⟨hm, hlow, hhigh, hfull⟩ := hcanonical
  dsimp only at hm hlow hhigh hfull
  obtain ⟨field, hpos, hlt, rfl⟩ : ∃ field : Nat, 0 < field ∧ field < 2047 ∧
      exponent = field - 1075 := ⟨(exponent + 1075).toNat, by omega, by omega, by omega⟩
  have hbiased : ((field : Int) - 1075 + Format.binary64.exponentBias +
      Format.binary64.mantissaBitsWithoutImplicit).toNat = field := by
    show ((field : Int) - 1075 + 1023 + 52).toNat = field
    omega
  show Reading.ofBits (UnpackedFloat.pack Format.binary64
    (.finite (signOf negative) m (field - 1075) h)).toNat = _
  unfold UnpackedFloat.pack
  dsimp only
  rw [hbiased, if_neg (show ¬2 ^ 11 ≤ field + 1 by omega)]
  by_cases hm' : 2 ^ 52 ≤ m
  · have hbits : m.log2 + 1 = Format.binary64.mantissaBits :=
      congrArg (· + 1) (log2_of_full hm' hm)
    rw [if_pos hbits, toNat_packComponents negative (by omega),
      Reading.ofBits_fields negative (by omega) (Nat.mod_lt _ (by decide)), if_neg (by omega),
      if_neg (by omega)]
    have hfraction : 2 ^ 52 + m % 2 ^ 52 = m := by omega
    rw [hfraction]
  · -- fewer bits go with the least exponent, whose field is zero
    obtain rfl : field = 1 := by omega
    have hbits : m.log2 + 1 ≠ Format.binary64.mantissaBits := by
      have := (Nat.log2_lt (Nat.ne_of_gt h)).2 (Nat.lt_of_not_le hm')
      show m.log2 + 1 ≠ 53
      omega
    have hfraction : m % 2 ^ 52 = m := Nat.mod_eq_of_lt (Nat.lt_of_not_le hm')
    rw [if_neg hbits]
    show Reading.ofBits (packComponents Format.binary64 (signOf negative) (BitVec.ofNat 11 0)
      (BitVec.ofNat 52 m)).toNat = _
    rw [toNat_packComponents negative (by decide), hfraction,
      Reading.ofBits_fields negative (by decide) (Nat.lt_of_not_le hm')]
    rfl

section Full

variable {m : Nat} {exponent : Int} (h : 0 < m) (hm : 2 ^ 52 ≤ m) (hm' : m < 2 ^ 53)
include hm hm'

omit hm hm' in
/-- Zeros are shifted out without a remainder. -/
theorem shiftRight_zeros (k m : Nat) :
    (⟨m * 2 ^ k, false, false⟩ : ExtendedMantissa) >>> k = ⟨m, false, false⟩ := by
  induction k generalizing m with
  | zero =>
    rw [Nat.pow_zero, Nat.mul_one]
    rfl
  | succ k ih =>
    have hpower : m * 2 ^ (k + 1) = 2 * m * 2 ^ k := by rw [Nat.pow_succ]; ring
    show ExtendedMantissa.shiftRightOne
      ((⟨m * 2 ^ (k + 1), false, false⟩ : ExtendedMantissa) >>> k) = _
    rw [hpower, ih (2 * m)]
    simp [ExtendedMantissa.shiftRightOne]

/-- A full significand with zeros behind it is shifted back to its place. -/
theorem shiftToTargetExponent_eq (k : Nat) (hlow : -1074 ≤ exponent) :
    shiftToTargetExponent Format.binary64 (m * 2 ^ k) (exponent - k) .exact =
      (⟨m, false, false⟩, exponent) := by
  have hlog := log2_mul_two_pow hm hm' k
  have hamount : (Format.binary64.targetExponent (totalExponent (m * 2 ^ k) (exponent - k)) -
      (exponent - k)).toNat = k := by
    show (max (totalExponent (m * 2 ^ k) (exponent - k) - 53) (-1074) - (exponent - k)).toNat = k
    unfold totalExponent
    omega
  unfold shiftToTargetExponent shiftToExponent
  dsimp only [ExtendedMantissa.ofMantissaAndAccuracy]
  rw [hamount, shiftRight_zeros, Int.sub_add_cancel]

/-- Rounding gives a full significand that zeros have been put behind. -/
theorem roundWithAccuracy_eq (k : Nat) (hlow : -1074 ≤ exponent) :
    roundWithAccuracy Format.binary64 .positive (m * 2 ^ k) (exponent - k) .exact =
      .finite .positive m exponent h := by
  have hsecond := shiftToTargetExponent_eq hm hm' 0 hlow
  rw [Nat.pow_zero, Nat.mul_one, Int.ofNat_zero, Int.sub_zero] at hsecond
  have hrounded : (⟨m, false, false⟩ : ExtendedMantissa).roundedMantissa = m := rfl
  unfold roundWithAccuracy
  rw [shiftToTargetExponent_eq hm hm' k hlow]
  dsimp only
  simp only [hrounded, hsecond]
  exact dif_neg (Nat.ne_of_gt h)

/-- Multiplied by one, a full significand stays what it is. -/
theorem pack_mul_one (hlow : -1074 ≤ exponent) (hhigh : exponent < 972) :
    .ofModel (.pack (.finite .positive m exponent h)) * Float.ofBits 4607182418800017408 =
      .ofModel (.pack (.finite .positive m exponent h)) := by
  have hunpacked : (Float.ofModel (.pack (.finite .positive m exponent h))).toModel.unpack =
      .finite .positive m exponent h := by
    have hreading := reading_pack false h ⟨hm', hlow, hhigh, .inl hm⟩
    exact (unpack_eq _).trans (congrArg Reading.unpacked hreading ▸ Reading.unpacked_finite h)
  have hone : (Float.ofBits 4607182418800017408).toModel.unpack =
      .finite .positive (2 ^ 52) (-52) (by decide) := by
    rw [unpack_eq, show Reading.ofFloat (Float.ofBits 4607182418800017408) =
      .finite ⟨false, 2 ^ 52, -52⟩ by decide +kernel, Reading.unpacked_finite (by decide)]
    rfl
  show Float.ofModel (.pack (UnpackedFloat.mul Format.binary64
    (Float.ofModel (.pack (.finite .positive m exponent h))).toModel.unpack
    (Float.ofBits 4607182418800017408).toModel.unpack)) = _
  rw [hunpacked, hone]
  exact congrArg (fun u => Float.ofModel (.pack u)) (roundWithAccuracy_eq h hm hm' 52 hlow)

end Full

/-- A number of at most 53 bits is a full significand with zeros behind it. -/
theorem exists_full {n : Nat} (hpos : 0 < n) (hn : n < 2 ^ 53) :
    ∃ k, n.log2 + k = 52 ∧ 2 ^ 52 ≤ n * 2 ^ k ∧ n * 2 ^ k < 2 ^ 53 := by
  have hlog : n.log2 < 53 := (Nat.log2_lt (by omega)).2 hn
  obtain ⟨k, hk⟩ : ∃ k, n.log2 + k = 52 := ⟨52 - n.log2, by omega⟩
  refine ⟨k, hk, ?_, ?_⟩
  · rw [← hk, Nat.pow_add]
    exact Nat.mul_le_mul_right _ (Nat.log2_self_le (by omega))
  · have hbits : 2 ^ 53 = 2 ^ (n.log2 + 1) * 2 ^ k := by
      rw [← Nat.pow_add]
      congr 1
      omega
    rw [hbits]
    exact Nat.mul_lt_mul_of_pos_right Nat.lt_log2_self (Nat.two_pow_pos k)

/-- A whole number of at most 53 bits is taken for what it is. -/
theorem ofNat_eq {n m k : Nat} (h : 0 < m) (hn : n.log2 + k = 52) (hvalue : m = n * 2 ^ k)
    (hm : 2 ^ 52 ≤ m) (hm' : m < 2 ^ 53) :
    UnpackedFloat.ofNat Format.binary64 n = .finite .positive m (-k) h := by
  have hpos : 0 < n := Nat.pos_of_mul_pos_right (hvalue ▸ h)
  have hcompare : compare (n : Int) 0 = .gt := Int.compare_eq_gt.2 (by omega)
  have hamount : (0 - max (totalExponent n 0 - 53) (-1074)).toNat = k := by
    unfold totalExponent
    omega
  have hexponent : -1074 ≤ -(k : Int) := by omega
  have hround := roundWithAccuracy_eq h hm hm' 0 hexponent
  rw [Nat.pow_zero, Nat.mul_one, Int.ofNat_zero, Int.sub_zero] at hround
  unfold UnpackedFloat.ofNat UnpackedFloat.ofInt UnpackedFloat.normalize
  rw [hcompare]
  show roundWithAccuracy Format.binary64 .positive
    (n <<< (0 - max (totalExponent n 0 - 53) (-1074)).toNat)
    (0 - (0 - max (totalExponent n 0 - 53) (-1074)).toNat) .exact = _
  rw [hamount, Nat.shiftLeft_eq, ← hvalue, Int.zero_sub, hround]

/-- **Whole numbers** of at most 53 bits are doubles. -/
theorem exists_reading_ofNat {n : Nat} (hn : n < 2 ^ 53) :
    ∃ e, Reading.ofFloat (Float.ofNat n) = .finite e ∧ e.negative = false ∧
      e.steps = n * stepsToOne := by
  rcases Nat.eq_zero_or_pos n with rfl | hpos
  · exact ⟨⟨false, 0, -1074⟩, by decide +kernel, rfl, by unfold Exact.steps; simp⟩
  · obtain ⟨k, hk, hm, hm'⟩ := exists_full hpos hn
    have hmpos : 0 < n * 2 ^ k := by omega
    have hword : n.toUInt64.toNat = n := UInt64.toNat_ofNat_of_lt' (by show n < 2 ^ 64; omega)
    have hfloat : n.toUInt64.toFloat =
        .ofModel (.pack (.finite .positive (n * 2 ^ k) (-k) hmpos)) := by
      show Float.ofModel (.pack (UnpackedFloat.ofNat Format.binary64 n.toUInt64.toNat)) = _
      rw [hword, ofNat_eq hmpos hk rfl hm hm']
    -- A literal without decimals is multiplied by the first power of ten, which is one.
    have hofNat : Float.ofNat n = n.toUInt64.toFloat * Float.ofBits 4607182418800017408 :=
      dif_pos ⟨hn, by decide⟩
    have hreading : Reading.ofFloat (Float.ofNat n) = .finite ⟨false, n * 2 ^ k, -k⟩ := by
      rw [hofNat, hfloat, pack_mul_one hmpos hm hm' (by omega) (by omega)]
      exact reading_pack false hmpos
        ⟨hm', by dsimp only; omega, by dsimp only; omega, .inl hm⟩
    refine ⟨⟨false, n * 2 ^ k, -k⟩, hreading, rfl, ?_⟩
    have hpower : k + (-(k : Int) + 1074).toNat = 1074 := by omega
    unfold Exact.steps
    dsimp only
    rw [stepsToOne_eq hpower, Nat.mul_assoc]

/-! ### Between one and a whole number -/

theorem reading_one : Reading.ofFloat 1.0 = .finite ⟨false, 2 ^ 52, -52⟩ := by decide +kernel

theorem steps_one : (⟨false, 2 ^ 52, -52⟩ : Exact).steps = stepsToOne := by
  unfold Exact.steps
  have hpower : 52 + ((-52 : Int) + 1074).toNat = 1074 := by decide
  rw [stepsToOne_eq hpower]

theorem isNaN_of_ne (h : x.toModel.unpack ≠ .notANumber) : x.isNaN = false := by
  show x.toModel.unpack.isNaN = false
  cases hx : x.toModel.unpack with
  | notANumber => exact absurd hx h
  | infinity => rfl
  | zero => rfl
  | finite => rfl

/-- Only numbers compare. -/
theorem isNaN_of_le (h : x ≤ y) : x.isNaN = false ∧ y.isNaN = false := by
  have hcompare : (x.toModel.unpack.compare y.toModel.unpack).any (·.isLE) = true :=
    of_decide_eq_true (show decide (x.toModel ≤ y.toModel) = true from h)
  constructor
  · refine isNaN_of_ne fun hx => ?_
    rw [hx] at hcompare
    exact Bool.false_ne_true hcompare
  · refine isNaN_of_ne fun hy => ?_
    rw [hy] at hcompare
    have hnone : x.toModel.unpack.compare .notANumber = none := by
      cases x.toModel.unpack <;> rfl
    rw [hnone] at hcompare
    exact Bool.false_ne_true hcompare

variable {n : Nat}

/-- What lies between one and a whole number has a whole part between them. -/
theorem truncate_of_between (hn : n < 2 ^ 53) (hlow : 1.0 ≤ x) (hhigh : x ≤ Float.ofNat n) :
    ∃ e, Reading.ofFloat x = .finite e ∧ 1 ≤ e.truncate ∧ e.truncate ≤ n := by
  obtain ⟨last, hlast, hsignLast, hstepsLast⟩ := exists_reading_ofNat hn
  have hnumber := (isNaN_of_le hhigh).1
  obtain ⟨hcanonicalLast, hkeyLast⟩ := canonical_of_reading hlast
  have hkeyLow := (le_iff (isNaN_of_reading reading_one) hnumber).1 hlow
  have hkeyHigh := (le_iff hnumber (isNaN_of_reading hlast)).1 hhigh
  have hkeyOne : 0 < numericKey 1.0 := by
    rw [(canonical_of_reading reading_one).2]
    decide
  rw [hkeyLast, hsignLast] at hkeyHigh
  match hx : Reading.ofFloat x with
  | .nan => exact absurd (isNaN_eq_true_iff.2 hx) (Bool.eq_false_iff.1 hnumber)
  | .infinite negative =>
    -- The infinities are farther out than every whole number.
    have hkey := numericKey_of_infinite hx
    have hbelow : last.key < 2047 * 2 ^ 52 := by
      have := hcanonicalLast.exponent_lt
      have := hcanonicalLast.significand_lt
      unfold Exact.key
      omega
    change numericKey x ≤ last.key at hkeyHigh
    rw [hkey, apply_signOf] at hkeyLow hkeyHigh
    cases negative
    · exact absurd hkeyHigh (by simp only [Bool.false_eq_true, if_false]; omega)
    · exact absurd hkeyLow (by simp only [if_true]; omega)
  | .finite e =>
    obtain ⟨hcanonical, hkey⟩ := canonical_of_reading hx
    have hsign : e.negative = false := by
      by_contra hnegative
      have hexponent := hcanonical.exponent_ge
      rw [hkey, apply_signOf, if_pos (Bool.not_eq_false _ ▸ hnegative), Exact.key] at hkeyLow
      omega
    have hone := (le_iff_steps reading_one hx rfl hsign).1 hlow
    have hlast := (le_iff_steps hx hlast hsign hsignLast).1 hhigh
    rw [steps_one] at hone
    rw [hstepsLast] at hlast
    refine ⟨e, rfl, ?_⟩
    rw [truncate_eq hsign hcanonical.exponent_ge]
    have hlow : 1 ≤ e.steps / stepsToOne := (Nat.one_le_div_iff stepsToOne_pos).2 hone
    have hhigh : e.steps / stepsToOne ≤ n := Nat.div_le_of_le_mul (Nat.mul_comm n _ ▸ hlast)
    omega

/-- A whole number lies between one and another when its whole part does. -/
theorem between_of_truncate (hn : n < 2 ^ 53) (hx : Reading.ofFloat x = .finite e)
    (hwhole : e.IsWhole) (hlow : 1 ≤ e.truncate) (hhigh : e.truncate ≤ n) :
    1.0 ≤ x ∧ x ≤ Float.ofNat n := by
  obtain ⟨last, hlast, hsignLast, hstepsLast⟩ := exists_reading_ofNat hn
  have hsign : e.negative = false := by
    by_contra hnegative
    have := truncate_nonpos (Bool.not_eq_false _ ▸ hnegative)
    omega
  obtain ⟨ones, hones⟩ := hwhole
  rw [truncate_eq hsign (canonical_of_reading hx).1.exponent_ge, hones,
    Nat.mul_div_cancel_left _ stepsToOne_pos] at hlow hhigh
  constructor
  · rw [le_iff_steps reading_one hx rfl hsign, steps_one, hones]
    exact Nat.le_mul_of_pos_right _ (by omega)
  · rw [le_iff_steps hx hlast hsign hsignLast, hstepsLast, hones, Nat.mul_comm]
    exact Nat.mul_le_mul_right _ (by omega)

end MapAlgebra.Number

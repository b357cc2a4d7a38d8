import Mathlib
import MapAlgebra.Number.Exact

/-!
# The order of samples

Order statistics go by keys that are read off the bits of samples; formulas compare samples with
`==`, `<` and `≤`. Main statement: **`Number.compare_unpack`**, of two samples that are numbers the
numeric keys compare as the samples do. From it come `beq_iff`, `lt_iff` and `le_iff`, and
**`Number.orderKey_lt_iff`**: the total order of samples refines the numeric one by putting the
negative zero before the positive one. Two samples of one order key are the same sample.

A comparison of doubles takes both apart into sign, significand and exponent. What they are taken
apart into is what the reading of their bits says (`Number.unpack_eq`).
-/

namespace MapAlgebra.Number

open Float.Model UnpackedFloat

/-! ### Fields of a bit pattern -/

section Fields

variable (b : BitVec Format.binary64.numBits)

theorem toNat_unpackExponent : (unpackExponent b).toNat = b.toNat >>> 52 % (1 <<< 11) := by
  simp [unpackExponent, BitVec.extractLsb_toNat]

theorem toNat_unpackMantissa : (unpackMantissa b).toNat = b.toNat % (1 <<< 52) := by
  simp [unpackMantissa, BitVec.extractLsb_toNat]

theorem toNat_unpackSign : (unpackSign b).toNat = b.toNat / 2 ^ 63 := by
  have hb : b.toNat < 2 ^ 64 := b.isLt
  simp only [unpackSign, BitVec.toNat_cast, BitVec.extractLsb_toNat, Nat.shiftRight_eq_div_pow]
  omega

/-- The sign of a truth value that says whether there is a minus sign. -/
def signOf (negative : Bool) : Sign :=
  if negative then .negative else .positive

theorem apply_signOf (negative : Bool) (n : Int) :
    (signOf negative).apply n = if negative then -n else n := by
  cases negative <;> rfl

theorem ofBitVec_unpackSign :
    Sign.ofBitVec (unpackSign b) = signOf (decide (1 <<< 63 ≤ b.toNat)) := by
  have hb : b.toNat < 2 ^ 64 := b.isLt
  have hpositive : unpackSign b = 0#1 ↔ ¬1 <<< 63 ≤ b.toNat := by
    rw [← BitVec.toNat_inj, toNat_unpackSign, Nat.one_shiftLeft, BitVec.toNat_ofNat]
    omega
  unfold Sign.ofBitVec signOf
  by_cases h : 1 <<< 63 ≤ b.toNat
  · rw [if_neg fun hzero => hpositive.1 hzero h, if_pos (decide_eq_true h)]
  · rw [if_pos (hpositive.2 h), decide_eq_false h, if_neg Bool.false_ne_true]

end Fields

/-! ### Doubles taken apart -/

namespace Reading

/-- The double that a reading describes, taken apart. -/
def unpacked : Reading → UnpackedFloat
  | .nan => .notANumber
  | .infinite negative => .infinity (signOf negative)
  | .finite ⟨negative, significand, exponent⟩ =>
    if h : 0 < significand then .finite (signOf negative) significand exponent h
    else .zero (signOf negative)

variable {negative : Bool} {significand : Nat} {exponent : Int}

theorem unpacked_zero (h : significand = 0) :
    unpacked (.finite ⟨negative, significand, exponent⟩) = .zero (signOf negative) :=
  dif_neg (by omega)

theorem unpacked_finite (h : 0 < significand) :
    unpacked (.finite ⟨negative, significand, exponent⟩) =
      .finite (signOf negative) significand exponent h :=
  dif_pos h

end Reading

/-- Bits are taken apart into what their reading says. -/
theorem unpack_bits (b : BitVec Format.binary64.numBits) :
    UnpackedFloat.unpack Format.binary64 b = (Reading.ofBits b.toNat).unpacked := by
  have hfraction := toNat_unpackMantissa b
  have hfield := toNat_unpackExponent b
  have hones : unpackExponent b = -BitVec.ofNat Format.binary64.exponentBits 1 ↔
      b.toNat >>> 52 % (1 <<< 11) = 2047 := by
    rw [← BitVec.toNat_inj, hfield]
    rfl
  have hleast : unpackExponent b = BitVec.ofNat Format.binary64.exponentBits 0 ↔
      b.toNat >>> 52 % (1 <<< 11) = 0 := by
    rw [← BitVec.toNat_inj, hfield]
    rfl
  have hzero : unpackMantissa b = BitVec.ofNat Format.binary64.mantissaBitsWithoutImplicit 0 ↔
      b.toNat % (1 <<< 52) = 0 := by
    rw [← BitVec.toNat_inj, hfraction]
    rfl
  unfold UnpackedFloat.unpack Reading.ofBits
  dsimp only
  simp only [hones, hleast, hzero, ofBitVec_unpackSign]
  split
  · split <;> rfl
  · split
    · split
      · next h => rw [Reading.unpacked_zero h]
      · next hexponent h =>
        rw [Reading.unpacked_finite (Nat.pos_of_ne_zero h), UnpackedFloat.finite.injEq]
        exact ⟨rfl, hfraction, by rw [hfield, hexponent]; rfl⟩
    · -- A full significand has its first bit in front of the fraction.
      have hfull : (1#1 ++ unpackMantissa b).toNat = 1 <<< 52 + b.toNat % (1 <<< 52) := by
        rw [← hfraction, BitVec.toNat_append,
          Nat.shiftLeft_add_eq_or_of_lt (unpackMantissa b).isLt]
        rfl
      rw [Reading.unpacked_finite (Nat.add_pos_left (by decide) _), UnpackedFloat.finite.injEq]
      refine ⟨rfl, hfull, ?_⟩
      rw [hfield]
      rfl

/-- A sample is taken apart into what its reading says. -/
theorem unpack_eq (x : Float) : x.toModel.unpack = (Reading.ofFloat x).unpacked :=
  unpack_bits x.toBits.toBitVec

/-- What a double that is a number is taken apart into. A finite one has a significand of at most 53
bits, and of no fewer unless its exponent is the least. -/
inductive Parted : UnpackedFloat → Prop where
  /-- A zero. -/
  | zero (s : Sign) : Parted (.zero s)
  /-- An infinity. -/
  | infinity (s : Sign) : Parted (.infinity s)
  /-- Any other number. -/
  | finite (s : Sign) {m : Nat} {e : Int} (h : 0 < m) : m < 2 ^ 53 → -1074 ≤ e → e < 972 →
      2 ^ 52 ≤ m ∨ e = -1074 → Parted (.finite s m e h)

/-- The numeric key of a double that has been taken apart. -/
def partedKey : UnpackedFloat → Int
  | .notANumber => 0
  | .infinity s => s.apply (2047 * 2 ^ 52)
  | .zero _ => 0
  | .finite s m e _ => s.apply ((e + 1074) * 2 ^ 52 + m)

theorem magnitude_eq (x : Float) : magnitude x =
    x.toBits.toNat >>> 52 % (1 <<< 11) * (1 <<< 52) + x.toBits.toNat % (1 <<< 52) := by
  have hx : x.toBits.toNat < 2 ^ 64 := x.toBits.toNat_lt
  unfold magnitude
  simp only [Nat.one_shiftLeft, Nat.shiftRight_eq_div_pow]
  omega

theorem numericKey_eq (x : Float) :
    numericKey x = (signOf (isNegative x)).apply (magnitude x) := by
  rw [apply_signOf]
  rfl

variable {x y : Float}

/-- A sample is no number exactly when its reading says so. -/
theorem isNaN_eq_true_iff : x.isNaN = true ↔ Reading.ofFloat x = .nan := by
  show x.toModel.unpack.isNaN = true ↔ _
  rw [unpack_eq]
  match Reading.ofFloat x with
  | .nan => exact iff_of_true rfl rfl
  | .infinite _ => exact iff_of_false Bool.false_ne_true nofun
  | .finite ⟨_, significand, _⟩ =>
    refine iff_of_false ?_ nofun
    rcases Nat.eq_zero_or_pos significand with rfl | hpos
    · exact Bool.false_ne_true
    · rw [Reading.unpacked_finite hpos]
      exact Bool.false_ne_true

/-- What a sample that is a number is taken apart into, and the key that this has. -/
theorem parted_unpack (h : x.isNaN = false) :
    Parted x.toModel.unpack ∧ partedKey x.toModel.unpack = numericKey x := by
  have hnumber : Reading.ofFloat x ≠ .nan := fun hnan =>
    Bool.false_ne_true (h.symm.trans (isNaN_eq_true_iff.2 hnan))
  have hfraction : x.toBits.toNat % (1 <<< 52) < 1 <<< 52 := Nat.mod_lt _ (by decide)
  have hfield : x.toBits.toNat >>> 52 % (1 <<< 11) < 1 <<< 11 := Nat.mod_lt _ (by decide)
  rw [unpack_eq, numericKey_eq, magnitude_eq]
  unfold Reading.ofFloat Reading.ofBits at hnumber ⊢
  dsimp only at hnumber ⊢
  generalize x.toBits.toNat % (1 <<< 52) = fraction at *
  generalize x.toBits.toNat >>> 52 % (1 <<< 11) = field at *
  simp only [Nat.one_shiftLeft] at *
  change _ ∧ _ = (signOf (decide (2 ^ 63 ≤ x.toBits.toNat))).apply _
  generalize decide (2 ^ 63 ≤ x.toBits.toNat) = negative at *
  split
  · next hones =>
    split
    · next hzero =>
      subst hzero hones
      exact ⟨.infinity _, rfl⟩
    · next hnonzero =>
      rw [if_pos hones, if_neg hnonzero] at hnumber
      exact absurd rfl hnumber
  · split
    · next hleast =>
      subst hleast
      rcases Nat.eq_zero_or_pos fraction with rfl | hpos
      · rw [Reading.unpacked_zero rfl]
        exact ⟨.zero _, by cases negative <;> rfl⟩
      · rw [Reading.unpacked_finite hpos]
        refine ⟨.finite _ _ (by omega) (by omega) (by omega) (by omega), ?_⟩
        exact congrArg (Sign.apply _) (by omega)
    · rw [Reading.unpacked_finite (by omega)]
      refine ⟨.finite _ _ (by omega) (by omega) (by omega) (by omega), ?_⟩
      exact congrArg (Sign.apply _) (by omega)

/-! ### Comparing -/

theorem some_lt {a b : Int} (h : a < b) : some Ordering.lt = some (compare a b) := by
  rw [Int.compare_eq_lt.2 h]

theorem some_gt {a b : Int} (h : b < a) : some Ordering.gt = some (compare a b) := by
  rw [Int.compare_eq_gt.2 h]

theorem swap_compare (a b : Int) : (compare a b).swap = compare (-a) (-b) := by
  rcases Int.lt_trichotomy a b with hlt | rfl | hgt
  · rw [Int.compare_eq_lt.2 hlt, Int.compare_eq_gt.2 (by omega)]
    rfl
  · rw [Int.compare_eq_eq.2 rfl, Int.compare_eq_eq.2 rfl]
    rfl
  · rw [Int.compare_eq_gt.2 hgt, Int.compare_eq_lt.2 (by omega)]
    rfl

/-- Exponents are compared before significands. As significands are full unless the exponent is the
least, this compares the keys. -/
theorem then_compare {m m' : Nat} {e e' : Int} (hm : m < 2 ^ 53) (hm' : m' < 2 ^ 53)
    (he : -1074 ≤ e) (he' : -1074 ≤ e') (hfull : 2 ^ 52 ≤ m ∨ e = -1074)
    (hfull' : 2 ^ 52 ≤ m' ∨ e' = -1074) :
    (compare e e').then (compare m m') =
      compare ((e + 1074) * 2 ^ 52 + m) ((e' + 1074) * 2 ^ 52 + m') := by
  rcases Int.lt_trichotomy e e' with hlt | rfl | hgt
  · rw [Int.compare_eq_lt.2 hlt, Int.compare_eq_lt.2 (by omega)]
    rfl
  · rw [Int.compare_eq_eq.2 rfl, Ordering.eq_then]
    rcases Nat.lt_trichotomy m m' with hlt | rfl | hgt
    · rw [Nat.compare_eq_lt.2 hlt, Int.compare_eq_lt.2 (by omega)]
    · rw [Nat.compare_eq_eq.2 rfl, Int.compare_eq_eq.2 rfl]
    · rw [Nat.compare_eq_gt.2 hgt, Int.compare_eq_gt.2 (by omega)]
  · rw [Int.compare_eq_gt.2 hgt, Int.compare_eq_gt.2 (by omega)]
    rfl

theorem compare_parted {u v : UnpackedFloat} (hu : Parted u) (hv : Parted v) :
    u.compare v = some (compare (partedKey u) (partedKey v)) := by
  cases hu with
  | zero s =>
    cases hv with
    | zero s' => rfl
    | infinity s' => cases s' <;> rfl
    | finite s' h' _ he' =>
      cases s' with
      | negative => exact some_gt (by simp only [partedKey, Sign.apply]; omega)
      | positive => exact some_lt (by simp only [partedKey, Sign.apply]; omega)
  | infinity s =>
    cases hv with
    | zero s' => cases s <;> rfl
    | infinity s' => cases s <;> cases s' <;> rfl
    | finite s' h' hm' he' hlt' =>
      cases s with
      | negative => exact some_lt (by cases s' <;> simp only [partedKey, Sign.apply] <;> omega)
      | positive => exact some_gt (by cases s' <;> simp only [partedKey, Sign.apply] <;> omega)
  | finite s h hm he hlt hfull =>
    cases hv with
    | zero s' =>
      cases s with
      | negative => exact some_lt (by simp only [partedKey, Sign.apply]; omega)
      | positive => exact some_gt (by simp only [partedKey, Sign.apply]; omega)
    | infinity s' =>
      cases s' with
      | negative => cases s <;> exact some_gt (by simp only [partedKey, Sign.apply]; omega)
      | positive => cases s <;> exact some_lt (by simp only [partedKey, Sign.apply]; omega)
    | finite s' h' hm' he' hlt' hfull' =>
      have hthen := then_compare hm hm' he he' hfull hfull'
      match s, s' with
      | .negative, .negative =>
        show some _ = some _
        rw [hthen, swap_compare]
        rfl
      | .negative, .positive => exact some_lt (by simp only [partedKey, Sign.apply]; omega)
      | .positive, .negative => exact some_gt (by simp only [partedKey, Sign.apply]; omega)
      | .positive, .positive => exact congrArg some hthen

/-- **Comparing samples**: of two samples that are numbers, the numeric keys compare as the samples
do. -/
theorem compare_unpack (hx : x.isNaN = false) (hy : y.isNaN = false) :
    x.toModel.unpack.compare y.toModel.unpack =
      some (compare (numericKey x) (numericKey y)) := by
  obtain ⟨hpartedX, hkeyX⟩ := parted_unpack hx
  obtain ⟨hpartedY, hkeyY⟩ := parted_unpack hy
  rw [compare_parted hpartedX hpartedY, hkeyX, hkeyY]

theorem lt_iff (hx : x.isNaN = false) (hy : y.isNaN = false) :
    x < y ↔ numericKey x < numericKey y := by
  rw [← Int.compare_eq_lt]
  show decide (x.toModel < y.toModel) = true ↔ _
  rw [decide_eq_true_iff]
  show (x.toModel.unpack.compare y.toModel.unpack == some Ordering.lt) = true ↔ _
  rw [compare_unpack hx hy, beq_iff_eq, Option.some_inj]

theorem le_iff (hx : x.isNaN = false) (hy : y.isNaN = false) :
    x ≤ y ↔ numericKey x ≤ numericKey y := by
  rw [← Int.compare_ne_gt]
  show decide (x.toModel ≤ y.toModel) = true ↔ _
  rw [decide_eq_true_iff]
  show (x.toModel.unpack.compare y.toModel.unpack).any (·.isLE) = true ↔ _
  rw [compare_unpack hx hy]
  exact Ordering.isLE_iff_ne_gt

theorem beq_iff (hx : x.isNaN = false) (hy : y.isNaN = false) :
    (x == y) = true ↔ numericKey x = numericKey y := by
  rw [← Int.compare_eq_eq]
  show (x.toModel.unpack.compare y.toModel.unpack == some Ordering.eq) = true ↔ _
  rw [compare_unpack hx hy, beq_iff_eq, Option.some_inj]

/-! ### The total order -/

/-- Two samples of one order key are the same sample. -/
theorem orderKey_injective : Function.Injective orderKey := by
  intro x y h
  refine Float.toBits_inj.1 (UInt64.toNat_inj.1 ?_)
  have hx : x.toBits.toNat < 2 ^ 64 := x.toBits.toNat_lt
  have hy : y.toBits.toNat < 2 ^ 64 := y.toBits.toNat_lt
  unfold orderKey isNegative magnitude at h
  simp only [Nat.one_shiftLeft, decide_eq_true_eq] at h
  split at h <;> split at h <;> omega

/-- The total order of samples goes by the numeric one; of numerically equal samples, one with a
minus sign comes before one without. -/
theorem orderKey_lt_iff_keys : orderKey x < orderKey y ↔ numericKey x < numericKey y ∨
    numericKey x = numericKey y ∧ isNegative x = true ∧ isNegative y = false := by
  unfold orderKey numericKey
  cases isNegative x <;> cases isNegative y <;>
    simp only [Bool.false_eq_true, if_true, if_false, and_true, and_false, or_false,
      reduceCtorEq] <;>
    omega

theorem numericKey_le (h : orderKey x ≤ orderKey y) : numericKey x ≤ numericKey y := by
  have := mt orderKey_lt_iff_keys.2 (Int.not_lt.2 h)
  omega

/-- **The total order**: of two samples that are numbers, one comes before the other in the total
order when it is smaller, or when they are numerically equal and it alone has a minus sign. -/
theorem orderKey_lt_iff (hx : x.isNaN = false) (hy : y.isNaN = false) :
    orderKey x < orderKey y ↔
      x < y ∨ (x == y) = true ∧ isNegative x = true ∧ isNegative y = false := by
  rw [lt_iff hx hy, beq_iff hx hy, orderKey_lt_iff_keys]

end MapAlgebra.Number

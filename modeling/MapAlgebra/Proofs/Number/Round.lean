import MapAlgebra.Number.Round
import MapAlgebra.Proofs.Number.Value

/-!
# Rounding

Samples are rounded in two ways, to whole numbers and to single precision. Main statements:
**`Number.nearestWhole_nearest`**, rounding gives the whole number nearest to a sample, and the one
farther from zero in a tie; and **`Number.narrows_single`**, single precision keeps the nearest of
its numbers, and the one with an even significand in a tie.

A significand is rounded to a multiple of a step (`roundShift`). A single is such a multiple too, or
it lies below a power of two that the sample does not lie below, and that is a multiple. So no
single is nearer.
-/

namespace MapAlgebra.Number

variable {x : Float} {e : Exact}

/-! ### Rounding to whole numbers -/

/-- Adding half a one before the digits behind the point are cut off. -/
theorem roundWhole_bounds (hpart : e.exponent < 0) :
    |(e.significand * 2 ^ e.exponent : ℚ) - e.roundWhole.significand| ≤ 1 / 2 ∧
    (|(e.significand * 2 ^ e.exponent : ℚ) - e.roundWhole.significand| = 1 / 2 →
      (e.significand * 2 ^ e.exponent : ℚ) < e.roundWhole.significand) := by
  obtain ⟨p, hp⟩ : ∃ p : Nat, -e.exponent = p + 1 := ⟨(-e.exponent - 1).toNat, by omega⟩
  have hexponent : e.exponent = -((p + 1 : Nat) : ℤ) := by omega
  have hrounded : e.roundWhole.significand = (e.significand + 2 ^ p) / 2 ^ (p + 1) := by
    show (e.significand + 1 <<< ((-e.exponent).toNat - 1)) >>> (-e.exponent).toNat = _
    rw [hexponent, neg_neg, Int.toNat_natCast, Nat.add_sub_cancel, Nat.one_shiftLeft,
      Nat.shiftRight_eq_div_pow]
  generalize e.roundWhole.significand = n at hrounded ⊢
  have hlow : n * 2 ^ (p + 1) ≤ e.significand + 2 ^ p := by
    rw [hrounded]
    exact Nat.div_mul_le_self _ _
  have hhigh : e.significand + 2 ^ p < (n + 1) * 2 ^ (p + 1) := by
    rw [hrounded]
    exact Nat.lt_mul_of_div_lt (Nat.lt_succ_self _) (Nat.two_pow_pos _)
  have hpow : (0 : ℚ) < 2 ^ p := by positivity
  have hvalue : (e.significand * 2 ^ e.exponent : ℚ) * (2 * 2 ^ p) = e.significand := by
    rw [hexponent, zpow_neg, zpow_natCast, pow_succ', mul_assoc,
      inv_mul_cancel₀ (by positivity), mul_one]
  generalize (e.significand * 2 ^ e.exponent : ℚ) = q at hvalue ⊢
  have hlow' : (n : ℚ) * (2 * 2 ^ p) ≤ e.significand + 2 ^ p := by
    rw [pow_succ'] at hlow
    exact_mod_cast hlow
  have hhigh' : (e.significand : ℚ) + 2 ^ p < (n + 1) * (2 * 2 ^ p) := by
    rw [pow_succ'] at hhigh
    exact_mod_cast hhigh
  have hbelow : (n : ℚ) - q ≤ 1 / 2 := by nlinarith
  have habove : q - n < 1 / 2 := by nlinarith
  refine ⟨abs_le.2 ⟨by linarith, by linarith⟩, fun htie => ?_⟩
  rcases abs_choice (q - n) with hsame | hflip
  · linarith
  · linarith

/-- What is rounded to a whole number keeps within the digits of a double. -/
theorem bitLength_roundWhole (hpart : e.exponent < 0) (hm : e.significand < 2 ^ 53) :
    bitLength e.roundWhole.significand ≤ 53 := by
  have hhalf : (2 : ℚ) ^ e.exponent ≤ 2 ^ (-1 : ℤ) := zpow_le_zpow_right₀ one_le_two (by omega)
  have hm' : (e.significand : ℚ) < 2 ^ 53 := by exact_mod_cast hm
  have hle : (e.significand * 2 ^ e.exponent : ℚ) ≤ e.significand * 2 ^ (-1 : ℤ) :=
    mul_le_mul_of_nonneg_left hhalf (Nat.cast_nonneg _)
  have hlt : (e.roundWhole.significand : ℚ) < 2 ^ 53 := by
    have := (abs_le.1 (roundWhole_bounds hpart).1).1
    rw [zpow_neg_one] at hle
    linarith
  exact bitLength_le (by exact_mod_cast hlt)

/-- **Rounding** a sample gives the whole number nearest to it, with the same sign, and the one
farther from zero in a tie. -/
theorem nearestWhole_nearest (h : Reading.ofFloat x = .finite e) :
    ∃ (r : Exact) (n : ℤ), Reading.ofFloat (nearestWhole x) = .finite r ∧
      r.negative = e.negative ∧ r.value = n ∧ |e.value - n| ≤ 1 / 2 ∧
      (|e.value - n| = 1 / 2 → |e.value| < |(n : ℚ)|) := by
  unfold nearestWhole
  rw [h]
  dsimp only
  split
  · next hwhole =>
    obtain ⟨k, hk⟩ := Int.eq_ofNat_of_zero_le hwhole
    have hvalue : e.value = (e.sign * (e.significand * 2 ^ k) : ℤ) := by
      rw [Exact.value, hk, zpow_natCast]
      push_cast
      rfl
    refine ⟨e, e.sign * (e.significand * 2 ^ k), h, rfl, hvalue, ?_, ?_⟩ <;>
      rw [hvalue, sub_self, abs_zero] <;> norm_num
  · next hpart =>
    have hpart := Int.not_le.1 hpart
    obtain ⟨hnear, htie⟩ := roundWhole_bounds hpart
    have hbits := bitLength_roundWhole hpart (canonical_of_reading h).1.1
    obtain ⟨r, hreading, hsign, hvalue⟩ := reading_toFloat hbits
      (fun hne => by show (-1022 : ℤ) < 0 + _; omega) (fun _ => by show (0 : ℤ) + _ ≤ 1024; omega)
    have hrounded : e.roundWhole.value = (e.sign * e.roundWhole.significand : ℤ) := by
      show (e.sign : ℚ) * (e.roundWhole.significand * 2 ^ (0 : ℤ)) = _
      rw [zpow_zero, mul_one, Int.cast_mul, Int.cast_natCast]
    have hdistance : e.value - (e.sign * e.roundWhole.significand : ℤ) =
        e.sign * (e.significand * 2 ^ e.exponent - e.roundWhole.significand) := by
      rw [Exact.value, Int.cast_mul, Int.cast_natCast]
      ring
    refine ⟨r, e.sign * e.roundWhole.significand, hreading, hsign, hvalue.trans hrounded, ?_, ?_⟩
    · rw [hdistance, abs_sign_mul]
      exact hnear
    · rw [hdistance, abs_sign_mul, abs_value, Int.cast_mul, abs_sign_mul, Int.cast_natCast,
        Nat.abs_cast]
      exact htie

/-- What rounding gives is whole. -/
theorem isWhole_nearestWhole (h : Reading.ofFloat (nearestWhole x) = .finite e) : e.IsWhole := by
  cases hx : Reading.ofFloat x with
  | nan =>
    rw [nearestWhole, hx, hx] at h
    cases h
  | infinite negative =>
    rw [nearestWhole, hx, hx] at h
    cases h
  | finite e' =>
    obtain ⟨r, n, hreading, -, hvalue, -, -⟩ := nearestWhole_nearest hx
    obtain rfl : r = e := Reading.finite.inj (hreading.symm.trans h)
    have hsteps := abs_value_eq_steps (canonical_of_reading h).1.exponent_ge
    rw [hvalue, ← Int.cast_abs, ← Int.natCast_natAbs, Int.cast_natCast] at hsteps
    exact ⟨n.natAbs, by rw [Nat.mul_comm]; exact_mod_cast hsteps.symm⟩

/-! ### Singles -/

/-- `q` has the significand `m` and the exponent `k` of a single, exponents being unbounded at the
top. -/
structure IsSingle (q : ℚ) (m k : ℤ) : Prop where
  /-- The number is the significand scaled by a power of two. -/
  eq_mul : q = m * 2 ^ k
  /-- The significand has at most 24 bits. -/
  significand_lt : |m| < 2 ^ 24
  /-- The exponent is not below the least. -/
  exponent_ge : -149 ≤ k

/-- `r` is the single nearest to `q`, exponents being unbounded at the top; in a tie it is one with
an even significand. -/
structure NearestSingle (q r : ℚ) : Prop where
  /-- It is a single. -/
  isSingle : ∃ m k, IsSingle r m k
  /-- No single is nearer. -/
  nearest : ∀ p m k, IsSingle p m k → |q - r| ≤ |q - p|
  /-- If another single is as near, the significand is even. -/
  even : ∀ p m k, IsSingle p m k → p ≠ r → |q - p| = |q - r| → ∃ m k, IsSingle r (2 * m) k

/-- `n / 2 ^ shift` is within half a one of what it is rounded to, and exactly half a one away only
from an even number. -/
theorem roundShift_spec (n shift : Nat) :
    2 * |(n : ℤ) - roundShift n shift * 2 ^ shift| ≤ 2 ^ shift ∧
    (2 * |(n : ℤ) - roundShift n shift * 2 ^ shift| = 2 ^ shift → Even (roundShift n shift)) := by
  have hdiv := Nat.div_add_mod n (2 ^ shift)
  have hmod := Nat.mod_lt n (Nat.two_pow_pos shift)
  unfold roundShift
  simp only [Nat.one_shiftLeft, Nat.shiftRight_eq_div_pow]
  generalize n / 2 ^ shift = below at hdiv ⊢
  generalize n % 2 ^ shift = rest at hdiv hmod ⊢
  have hpow : ((2 ^ shift : Nat) : ℤ) = 2 ^ shift := by push_cast; rfl
  rw [← hpow]
  generalize 2 ^ shift = step at hdiv hmod ⊢
  have hn : (n : ℤ) = step * below + rest := by exact_mod_cast hdiv.symm
  have hdown : |(n : ℤ) - below * step| = rest := by
    rw [hn, show (step : ℤ) * below + rest - below * step = rest by ring]
    exact Nat.abs_cast rest
  have hup : |(n : ℤ) - (below + 1 : Nat) * step| = step - rest := by
    rw [hn, show (step : ℤ) * below + rest - (below + 1 : Nat) * step = -(step - rest) by
      push_cast; ring, abs_neg, abs_of_nonneg (by omega)]
  split
  · next hlow =>
    rw [hdown]
    omega
  · split
    · next hhigh =>
      rw [hup]
      omega
    · next htie =>
      have heven : Even (below + below % 2) := by
        rw [Nat.even_iff]
        omega
      refine ⟨?_, fun _ => heven⟩
      rcases Nat.mod_two_eq_zero_or_one below with hzero | hone
      · rw [hzero, Nat.add_zero, hdown]
        omega
      · rw [hone, hup]
        omega

variable {n shift : Nat}

/-- No multiple of the step is nearer than the rounded one, and one that is as near has it even. -/
theorem roundShift_nearest (n shift : Nat) (j : ℤ) :
    |(n : ℤ) - roundShift n shift * 2 ^ shift| ≤ |n - j * 2 ^ shift| ∧
    (|(n : ℤ) - j * 2 ^ shift| = |(n : ℤ) - roundShift n shift * 2 ^ shift| →
      j ≠ roundShift n shift → Even (roundShift n shift)) := by
  obtain ⟨hhalf, heven⟩ := roundShift_spec n shift
  by_cases hj : j = roundShift n shift
  · rw [hj]
    exact ⟨le_rfl, fun _ hne => absurd rfl hne⟩
  · -- two different multiples are a step apart at least
    have hstep : (2 ^ shift : ℤ) ≤ |(roundShift n shift - j) * 2 ^ shift| := by
      rw [abs_mul, abs_of_pos (show (0 : ℤ) < 2 ^ shift by positivity)]
      exact le_mul_of_one_le_left (by positivity) (Int.one_le_abs (sub_ne_zero.2 (Ne.symm hj)))
    have htriangle : |((roundShift n shift : ℤ) - j) * 2 ^ shift| ≤
        |(n : ℤ) - j * 2 ^ shift| + |(n : ℤ) - roundShift n shift * 2 ^ shift| := by
      rw [show ((roundShift n shift : ℤ) - j) * 2 ^ shift =
        (n - j * 2 ^ shift) - (n - roundShift n shift * 2 ^ shift) by ring]
      exact abs_sub _ _
    exact ⟨by omega, fun hsame _ => heven (by omega)⟩

/-- An even number is reached from half a step below it on. -/
theorem le_roundShift_iff {j : Nat} (hj : Even j) :
    j ≤ roundShift n shift ↔ 2 * (j * 2 ^ shift) ≤ 2 * n + 2 ^ shift := by
  obtain ⟨hhalf, heven⟩ := roundShift_spec n shift
  have hpow : ((2 ^ shift : Nat) : ℤ) = 2 ^ shift := by push_cast; rfl
  rw [← hpow] at hhalf heven
  have hpos := Nat.two_pow_pos shift
  generalize 2 ^ shift = step at hhalf heven hpos ⊢
  generalize roundShift n shift = s at hhalf heven ⊢
  constructor
  · intro hle
    have hmul : j * step ≤ s * step := Nat.mul_le_mul_right _ hle
    have hlow := neg_abs_le ((n : ℤ) - s * step)
    zify at hmul ⊢
    omega
  · intro hle
    by_contra hlt
    have hmul : (s + 1) * step ≤ j * step := Nat.mul_le_mul_right _ (by omega)
    have hhigh := le_abs_self ((n : ℤ) - s * step)
    rw [Nat.succ_mul] at hmul
    zify at hmul hle
    -- it is half a step above an even number, which the next even one lies two steps above
    obtain ⟨i, hi⟩ := heven (by omega)
    obtain ⟨l, hl⟩ := hj
    have hnext : (s + 2) * step ≤ j * step := Nat.mul_le_mul_right _ (by omega)
    rw [Nat.add_mul] at hnext
    zify at hnext hpos
    omega

theorem roundShift_le {j : Nat} (h : n < j * 2 ^ shift) : roundShift n shift ≤ j := by
  have hbelow : n / 2 ^ shift < j := Nat.div_lt_of_lt_mul (by rwa [Nat.mul_comm])
  unfold roundShift
  simp only [Nat.one_shiftLeft, Nat.shiftRight_eq_div_pow]
  split
  · omega
  · split <;> omega

theorem le_roundShift {k : Nat} (hk : k ≠ 0) (h : 2 ^ k * 2 ^ shift ≤ n) :
    2 ^ k ≤ roundShift n shift :=
  (le_roundShift_iff (Even.pow_of_ne_zero even_two hk)).2
    (Nat.le_add_right_of_le (Nat.mul_le_mul_left 2 h))

/-- What a double is rounded to: its significand is cut to 24 bits, or to the least exponent. -/
theorem roundSingle_eq (h : e.Canonical) :
    ∃ d : Nat, e.roundSingle =
        ⟨e.negative, roundShift e.significand d, e.exponent + d⟩ ∧
      -149 ≤ e.exponent + d ∧ e.significand < 2 ^ 24 * 2 ^ d ∧
      (-149 < e.exponent + d → 2 ^ 23 * 2 ^ d ≤ e.significand) := by
  obtain ⟨hm, hlow, -, hfull⟩ := h
  have hbits : bitLength e.significand ≤ 53 := bitLength_le hm
  have hlt : e.exponent < singleExponent e := by
    unfold singleExponent
    rcases hfull with hfull | hleast
    · have := (Nat.pow_lt_pow_iff_right (by decide)).1
        (Nat.lt_of_le_of_lt hfull (lt_two_pow_bitLength e.significand))
      omega
    · omega
  obtain ⟨d, hd⟩ : ∃ d : Nat, singleExponent e - e.exponent = d :=
    ⟨_, (Int.toNat_of_nonneg (by omega)).symm⟩
  have hexponent : singleExponent e = e.exponent + d := by omega
  refine ⟨d, ?_, ?_, ?_, fun habove => ?_⟩
  · unfold Exact.roundSingle
    dsimp only
    rw [if_neg (by omega), hd, Int.toNat_natCast, hexponent]
  · rw [← hexponent]
    exact le_max_left _ _
  · refine Nat.lt_of_lt_of_le (lt_two_pow_bitLength _) ?_
    rw [← Nat.pow_add]
    refine Nat.pow_le_pow_right (by decide) ?_
    have : e.exponent + bitLength e.significand - 24 ≤ singleExponent e := le_max_right _ _
    omega
  · rw [← Nat.pow_add]
    have hlength : bitLength e.significand = 23 + d + 1 := by
      unfold singleExponent at hexponent
      omega
    refine two_pow_le (fun hzero => ?_) hlength
    rw [hzero] at hlength
    cases hlength

/-- A number is as near to the rounded multiple of the step as to any other multiple, and nearer
than to anything below a multiple that it is not below. -/
theorem nearest_scaled {n d : Nat} {u p : ℚ} (hu : 0 < u)
    (hp : (∃ j : ℤ, p = j * 2 ^ d * u) ∨ p < 2 ^ 23 * 2 ^ d * u ∧ 2 ^ 23 * 2 ^ d ≤ n) :
    |n * u - roundShift n d * 2 ^ d * u| ≤ |n * u - p| ∧
    (|n * u - p| = |n * u - roundShift n d * 2 ^ d * u| → p ≠ roundShift n d * 2 ^ d * u →
      Even (roundShift n d)) := by
  have hscale : ∀ j : ℤ, |(n : ℚ) * u - j * 2 ^ d * u| = (|(n : ℤ) - j * 2 ^ d| : ℤ) * u := by
    intro j
    rw [← sub_mul, abs_mul, abs_of_pos hu]
    push_cast
    rfl
  have hrounded := hscale (roundShift n d)
  rw [Int.cast_natCast] at hrounded
  rw [hrounded]
  rcases hp with ⟨j, rfl⟩ | ⟨hp, hn⟩
  · obtain ⟨hle, heven⟩ := roundShift_nearest n d j
    rw [hscale]
    refine ⟨mul_le_mul_of_nonneg_right (Int.cast_le.2 hle) hu.le, fun hsame hne => ?_⟩
    refine heven (Int.cast_injective (mul_right_cancel₀ hu.ne' hsame)) fun hj => hne ?_
    rw [hj, Int.cast_natCast]
  · obtain ⟨hle, -⟩ := roundShift_nearest n d (2 ^ 23)
    have hpower := mul_le_mul_of_nonneg_right (Int.cast_le (R := ℚ).2 hle) hu.le
    have hn' : (2 ^ 23 * 2 ^ d : ℚ) * u ≤ n * u :=
      mul_le_mul_of_nonneg_right (by exact_mod_cast hn) hu.le
    rw [← hscale (2 ^ 23)] at hpower
    have hcloser : |(n : ℚ) * u - (2 ^ 23 : ℤ) * 2 ^ d * u| < |n * u - p| := by
      push_cast
      rw [abs_of_nonneg (by linarith), abs_of_pos (by linarith)]
      linarith
    have hlt := hpower.trans_lt hcloser
    exact ⟨hlt.le, fun hsame _ => absurd hsame hlt.ne'⟩

/-- A single is a multiple of the step a double has been rounded to, or lies below a power of two
that the double does not. -/
theorem IsSingle.multiple_or_below {n d : Nat} {exponent : ℤ} {p : ℚ} {m k : ℤ}
    (h : IsSingle p m k) (hlow : -149 ≤ exponent + d)
    (hfull : -149 < exponent + d → 2 ^ 23 * 2 ^ d ≤ n) :
    (∃ j : ℤ, p = j * 2 ^ d * 2 ^ exponent) ∨
      p < 2 ^ 23 * 2 ^ d * 2 ^ exponent ∧ 2 ^ 23 * 2 ^ d ≤ n := by
  obtain ⟨rfl, hm, hk⟩ := h
  have htwo : (2 : ℚ) ≠ 0 := two_ne_zero
  by_cases hle : exponent + d ≤ k
  · obtain ⟨l, hl⟩ := Int.le.dest hle
    refine .inl ⟨m * 2 ^ l, ?_⟩
    rw [← hl, zpow_add₀ htwo, zpow_add₀ htwo, zpow_natCast, zpow_natCast]
    push_cast
    ring
  · refine .inr ⟨?_, hfull (by omega)⟩
    have hm' : (m : ℚ) < 2 ^ 24 := by exact_mod_cast (le_abs_self m).trans_lt hm
    calc (m : ℚ) * 2 ^ k < 2 ^ 24 * 2 ^ k := mul_lt_mul_of_pos_right hm' (by positivity)
      _ ≤ 2 ^ 24 * 2 ^ (exponent + d - 1) :=
        mul_le_mul_of_nonneg_left (zpow_le_zpow_right₀ one_le_two (by omega)) (by positivity)
      _ = 2 ^ 23 * 2 ^ d * 2 ^ exponent := by
        rw [zpow_sub_one₀ htwo, zpow_add₀ htwo, zpow_natCast]
        ring

/-- A significand of at most 24 bits, or the one after these, goes with a single; if it is even, so
is the significand of the single. -/
theorem exists_isSingle {s : Nat} {sign k : ℤ} (hsign : |sign| = 1) (hs : s ≤ 2 ^ 24)
    (hk : -149 ≤ k) : (∃ m l, IsSingle (sign * (s * 2 ^ k)) m l) ∧
      (Even s → ∃ m l, IsSingle (sign * (s * 2 ^ k)) (2 * m) l) := by
  have habs : ∀ n : Nat, |sign * n| = n := fun n => by
    rw [abs_mul, hsign, one_mul, Nat.abs_cast]
  rcases Nat.lt_or_eq_of_le hs with hlt | rfl
  · have hsingle : IsSingle (sign * (s * 2 ^ k)) (sign * s) k :=
      ⟨by push_cast; ring, by rw [habs]; exact_mod_cast hlt, hk⟩
    refine ⟨⟨_, _, hsingle⟩, ?_⟩
    rintro ⟨t, rfl⟩
    have hdouble : sign * (t + t : Nat) = 2 * (sign * t) := by push_cast; ring
    exact ⟨_, _, hdouble ▸ hsingle⟩
  · -- it has a bit too much, and 24 zeros at the end
    have hsingle : IsSingle (sign * ((2 ^ 24 : Nat) * 2 ^ k))
        (2 * (sign * (2 ^ 22 : Nat))) (k + 1) :=
      ⟨by rw [zpow_add_one₀ two_ne_zero]; push_cast; ring,
        by rw [abs_mul, habs]; decide, by omega⟩
    exact ⟨⟨_, _, hsingle⟩, fun _ => ⟨_, _, hsingle⟩⟩

/-- A single with a sign in front of it is a single, and the sign can be taken off again. -/
theorem IsSingle.exists_sign_mul {sign : ℤ} (hsign : |sign| = 1) {p : ℚ} {m k : ℤ}
    (hp : IsSingle p m k) : ∃ p', p = sign * p' ∧ IsSingle p' (sign * m) k := by
  have hsquare : (sign : ℚ) * sign = 1 := by
    rw [← abs_mul_abs_self, ← Int.cast_abs, hsign, Int.cast_one, one_mul]
  refine ⟨sign * p, by rw [← mul_assoc, hsquare, one_mul], ?_, ?_, hp.exponent_ge⟩
  · rw [hp.eq_mul]
    push_cast
    ring
  · rw [abs_mul, hsign, one_mul]
    exact hp.significand_lt

/-- A double is rounded to the nearest single. -/
theorem nearestSingle_roundSingle (h : e.Canonical) :
    NearestSingle e.value e.roundSingle.value := by
  obtain ⟨d, hround, hlow, hlt, hfull⟩ := roundSingle_eq h
  have hs : roundShift e.significand d ≤ 2 ^ 24 := roundShift_le hlt
  obtain ⟨hsingle, heven⟩ := exists_isSingle (abs_sign e) hs hlow
  have hscaled : (roundShift e.significand d * 2 ^ (e.exponent + d) : ℚ) =
      roundShift e.significand d * 2 ^ d * 2 ^ e.exponent := by
    rw [zpow_add₀ two_ne_zero, zpow_natCast]
    ring
  have hvalue : e.roundSingle.value =
      e.sign * (roundShift e.significand d * 2 ^ (e.exponent + d)) := by
    rw [hround]
    rfl
  have hdistance : ∀ q : ℚ, |e.value - e.sign * q| = |e.significand * 2 ^ e.exponent - q| := by
    intro q
    rw [Exact.value, ← mul_sub, abs_sign_mul]
  rw [hvalue]
  refine ⟨hsingle, fun p m k hp => ?_, fun p m k hp hne hsame => heven ?_⟩
  · obtain ⟨p', rfl, hp'⟩ := hp.exists_sign_mul (abs_sign e)
    rw [hdistance, hdistance, hscaled]
    exact (nearest_scaled (by positivity) (hp'.multiple_or_below hlow hfull)).1
  · obtain ⟨p', rfl, hp'⟩ := hp.exists_sign_mul (abs_sign e)
    rw [hdistance, hdistance, hscaled] at hsame
    refine (nearest_scaled (by positivity) (hp'.multiple_or_below hlow hfull)).2 hsame ?_
    rw [← hscaled]
    exact fun heq => hne (congrArg _ heq)

/-! ### Overflow -/

/-- A number has more than 128 digits in front of the point when it is `2 ^ 128` or more. -/
theorem lt_add_bitLength_iff {s : Nat} {k : ℤ} (h : s ≠ 0 ∨ k ≤ 128) :
    128 < k + bitLength s ↔ (2 : ℚ) ^ 128 ≤ s * 2 ^ k := by
  have htwo : (2 : ℚ) ≠ 0 := two_ne_zero
  by_cases hs : s = 0
  · subst hs
    rw [Nat.cast_zero, zero_mul]
    refine iff_of_false ?_ (by norm_num)
    have : bitLength 0 = 0 := rfl
    have := h.resolve_left (absurd rfl)
    omega
  obtain ⟨l, hl⟩ : ∃ l, bitLength s = l + 1 :=
    Nat.exists_eq_add_one_of_ne_zero (by unfold bitLength; rw [if_neg hs]; omega)
  have hlow : (2 : ℚ) ^ (l + k) ≤ s * 2 ^ k := by
    rw [zpow_add₀ htwo, zpow_natCast]
    exact mul_le_mul_of_nonneg_right (by exact_mod_cast two_pow_le hs hl) (by positivity)
  have hhigh : (s * 2 ^ k : ℚ) < 2 ^ (l + k + 1) := by
    rw [add_right_comm, zpow_add₀ htwo (l + 1 : ℤ)]
    have hlt : (s : ℚ) < 2 ^ (l + 1) := by exact_mod_cast hl ▸ lt_two_pow_bitLength s
    exact mul_lt_mul_of_pos_right (by exact_mod_cast hlt) (by positivity)
  have hpower : (2 : ℚ) ^ 128 = 2 ^ (128 : ℤ) := by norm_cast
  rw [hpower, hl]
  constructor
  · intro hlong
    exact (zpow_le_zpow_right₀ one_le_two (by push_cast at hlong; omega)).trans hlow
  · intro hlarge
    have := (zpow_lt_zpow_iff_right₀ one_lt_two).1 (hlarge.trans_lt hhigh)
    push_cast
    omega

/-- A number is rounded to `2 ^ 128` or more from half a step below it on. -/
theorem overflow_iff {n d : Nat} {exponent : ℤ} (hlt : n < 2 ^ 24 * 2 ^ d)
    (hfull : -149 < exponent + d → 2 ^ 23 * 2 ^ d ≤ n) :
    (2 : ℚ) ^ 128 ≤ roundShift n d * 2 ^ (exponent + d) ↔
      (2 : ℚ) ^ 128 - 2 ^ 103 ≤ n * 2 ^ exponent := by
  have htwo : (2 : ℚ) ≠ 0 := two_ne_zero
  have hsplit : (2 : ℚ) ^ (exponent + d) = 2 ^ d * 2 ^ exponent := by
    rw [zpow_add₀ htwo, zpow_natCast, mul_comm]
  have hu : (0 : ℚ) < 2 ^ exponent := by positivity
  have hs : (roundShift n d : ℚ) ≤ 2 ^ 24 := by exact_mod_cast roundShift_le hlt
  rcases lt_trichotomy (exponent + d) 104 with hless | heq | hmore
  · -- both lie below `2 ^ 127`
    have hstep : (2 : ℚ) ^ (exponent + d) ≤ 2 ^ (103 : ℤ) :=
      zpow_le_zpow_right₀ one_le_two (by omega)
    have hn : (n : ℚ) * 2 ^ exponent ≤ 2 ^ 24 * 2 ^ (exponent + d) := by
      rw [hsplit, ← mul_assoc]
      exact mul_le_mul_of_nonneg_right (by exact_mod_cast hlt.le) hu.le
    have hrounded : (roundShift n d : ℚ) * 2 ^ (exponent + d) ≤ 2 ^ 24 * 2 ^ (exponent + d) :=
      mul_le_mul_of_nonneg_right hs (by positivity)
    have hpower : (2 : ℚ) ^ (103 : ℤ) = 2 ^ 103 := by norm_cast
    rw [hpower] at hstep
    refine iff_of_false (fun h => ?_) (fun h => ?_) <;> norm_num at h hstep <;> linarith
  · have hpower : (2 : ℚ) ^ (exponent + d) = 2 ^ 104 := by
      rw [heq]
      norm_cast
    have hunit : (2 ^ d : ℚ) * 2 ^ exponent = 2 ^ 104 := hsplit.symm.trans hpower
    have hrounded : (2 : ℚ) ^ 128 ≤ roundShift n d * 2 ^ (exponent + d) ↔
        2 ^ 24 ≤ roundShift n d := by
      rw [hpower, show (2 : ℚ) ^ 128 = 2 ^ 24 * 2 ^ 104 by norm_num,
        mul_le_mul_iff_left₀ (by positivity)]
      exact_mod_cast Iff.rfl
    have hhalf : (2 : ℚ) ^ 128 - 2 ^ 103 ≤ n * 2 ^ exponent ↔
        2 * (2 ^ 24 * 2 ^ d) * 2 ^ exponent ≤ (2 * n + 2 ^ d : ℚ) * 2 ^ exponent := by
      rw [add_mul, mul_assoc, mul_assoc, mul_assoc, hunit]
      norm_num
      constructor <;> intro <;> linarith
    rw [hrounded, hhalf, mul_le_mul_iff_left₀ hu, le_roundShift_iff (by decide)]
    exact_mod_cast Iff.rfl
  · -- both lie above `2 ^ 128`
    have hn := hfull (by omega)
    have hs : 2 ^ 23 ≤ roundShift n d := le_roundShift (by decide) hn
    have hstep : (2 : ℚ) ^ 105 ≤ 2 ^ (exponent + d) := by
      have hpower : (2 : ℚ) ^ (105 : ℤ) = 2 ^ 105 := by norm_cast
      rw [← hpower]
      exact zpow_le_zpow_right₀ one_le_two (by omega)
    have hs' : (2 : ℚ) ^ 23 ≤ roundShift n d := by exact_mod_cast hs
    have hn' : (2 : ℚ) ^ 23 * 2 ^ (exponent + d) ≤ n * 2 ^ exponent := by
      rw [hsplit, ← mul_assoc]
      exact mul_le_mul_of_nonneg_right (by exact_mod_cast hn) hu.le
    refine iff_of_true ?_ ?_
    · calc (2 : ℚ) ^ 128 = 2 ^ 23 * 2 ^ 105 := by norm_num
        _ ≤ (roundShift n d : ℚ) * 2 ^ (exponent + d) := by gcongr
    · norm_num at hstep hn' ⊢
      linarith

/-- What a sample is narrowed to in single precision. -/
inductive Narrows : Reading → Reading → Prop where
  /-- What is no number stays. -/
  | nan : Narrows .nan .nan
  /-- An infinity stays. -/
  | infinite (negative : Bool) : Narrows (.infinite negative) (.infinite negative)
  /-- Below half a step above the greatest finite single, a number goes to the nearest single and
  keeps its sign. -/
  | finite {e r : Exact} : |e.value| < 2 ^ 128 - 2 ^ 103 → |r.value| < 2 ^ 128 →
      NearestSingle e.value r.value → r.negative = e.negative → Narrows (.finite e) (.finite r)
  /-- From there on, it goes to the infinity of its sign. -/
  | overflow {e : Exact} : 2 ^ 128 - 2 ^ 103 ≤ |e.value| →
      Narrows (.finite e) (.infinite e.negative)

theorem reading_infinity (negative : Bool) :
    Reading.ofFloat (if negative then -infinity else infinity) = .infinite negative := by
  cases negative <;> decide +kernel

/-- The rounded significand keeps within the digits of a double, and the exponent within its range,
and the three ways to see an overflow agree: by the digits, by the rounded value, by the value. -/
theorem roundSingle_spec (h : e.Canonical) :
    e.roundSingle.negative = e.negative ∧ bitLength e.roundSingle.significand ≤ 53 ∧
      -149 ≤ e.roundSingle.exponent ∧
      (128 < e.roundSingle.exponent + bitLength e.roundSingle.significand ↔
        2 ^ 128 ≤ |e.roundSingle.value|) ∧
      (2 ^ 128 ≤ |e.roundSingle.value| ↔ 2 ^ 128 - 2 ^ 103 ≤ |e.value|) := by
  obtain ⟨d, hround, hlow, hlt, hfull⟩ := roundSingle_eq h
  rw [abs_value, abs_value, hround]
  dsimp only
  have hs : roundShift e.significand d ≤ 2 ^ 24 := roundShift_le hlt
  have hnonzero : roundShift e.significand d ≠ 0 ∨ e.exponent + d ≤ 128 := by
    by_cases habove : -149 < e.exponent + d
    · have := le_roundShift (by decide) (hfull habove)
      exact .inl (by omega)
    · exact .inr (by omega)
  exact ⟨rfl, bitLength_le (by omega), hlow, lt_add_bitLength_iff hnonzero,
    overflow_iff hlt hfull⟩

/-- **Single precision**: a sample is narrowed to the nearest single. -/
theorem narrows_single (x : Float) : Narrows (Reading.ofFloat x) (Reading.ofFloat (single x)) := by
  unfold single
  cases hx : Reading.ofFloat x with
  | nan =>
    have hnan : Reading.ofFloat nan = .nan := by decide +kernel
    dsimp only
    rw [hnan]
    exact .nan
  | infinite negative =>
    dsimp only
    rw [reading_infinity]
    exact .infinite negative
  | finite e =>
    have hcanonical := (canonical_of_reading hx).1
    obtain ⟨hsign, hdigits, hlow, hlong, hoverflow⟩ := roundSingle_spec hcanonical
    dsimp only
    split
    · next hbits =>
      rw [reading_infinity, hsign]
      exact .overflow (hoverflow.1 (hlong.1 hbits))
    · next hbits =>
      obtain ⟨r, hreading, hsignR, hvalue⟩ :=
        reading_toFloat hdigits (fun _ => by omega) (fun _ => by omega)
      have hfits := mt hlong.2 hbits
      rw [hreading]
      refine .finite (not_le.1 (mt hoverflow.2 hfits)) ?_ ?_ (hsignR.trans hsign)
      · rw [hvalue]
        exact not_le.1 hfits
      · rw [hvalue]
        exact nearestSingle_roundSingle hcanonical

end MapAlgebra.Number

import MapAlgebra.Proofs.Number.Round
import MapAlgebra.Raster.PixelType

/-!
# What a cell keeps of a sample

Storing converts a sample to the type of the raster. Main statement: **`PixelType.keeps_store`**. A
whole type cuts the fraction off, stops at the ends of its range and makes a zero of what is no
number; single precision keeps the nearest single; double precision keeps the sample. What a cell
keeps is said on values, as rational numbers (`PixelType.Keeps`).
-/

namespace MapAlgebra

open Number

/-- A whole type holds the whole numbers of its bits. -/
inductive PixelType.Spans : PixelType → ℤ → ℤ → Prop where
  /-- Eight bits. -/
  | u8 : Spans .u8 0 (2 ^ 8 - 1)
  /-- Eight bits, one for the sign. -/
  | i8 : Spans .i8 (-2 ^ 7) (2 ^ 7 - 1)
  /-- Sixteen bits. -/
  | u16 : Spans .u16 0 (2 ^ 16 - 1)
  /-- Sixteen bits, one for the sign. -/
  | i16 : Spans .i16 (-2 ^ 15) (2 ^ 15 - 1)
  /-- Thirty-two bits. -/
  | u32 : Spans .u32 0 (2 ^ 32 - 1)
  /-- Thirty-two bits, one for the sign. -/
  | i32 : Spans .i32 (-2 ^ 31) (2 ^ 31 - 1)

/-- `n` is what a cell of the whole numbers from `low` to `high` keeps of a sample. -/
inductive Saturates (low high : ℤ) : Reading → ℤ → Prop where
  /-- What is no number becomes zero. -/
  | nan : Saturates low high .nan 0
  /-- An infinity becomes the end on its side. -/
  | infinite (negative : Bool) :
      Saturates low high (.infinite negative) (if negative then low else high)
  /-- What lies below the range becomes the least number. -/
  | below {e : Exact} : e.value < low → Saturates low high (.finite e) low
  /-- What lies above the range becomes the greatest number. -/
  | above {e : Exact} : high < e.value → Saturates low high (.finite e) high
  /-- What lies in the range loses its fraction. -/
  | between {e : Exact} : low ≤ e.value → e.value ≤ high →
      Saturates low high (.finite e) (cut e.value)

/-- `y` is the sample that a cell of a type keeps of the sample `x`. -/
inductive PixelType.Keeps : PixelType → Float → Float → Prop where
  /-- A cell of a whole type keeps a whole number of its range, and no minus sign at a zero. -/
  | whole {t : PixelType} {low high n : ℤ} {x y : Float} {r : Exact} :
      t.Spans low high → Saturates low high (Reading.ofFloat x) n →
      Reading.ofFloat y = .finite r → r.value = n → r.negative = decide (n < 0) → Keeps t x y
  /-- A cell of single precision keeps the nearest single. -/
  | single {x y : Float} : Narrows (Reading.ofFloat x) (Reading.ofFloat y) → Keeps .f32 x y
  /-- A cell of double precision keeps the sample. -/
  | double (x : Float) : Keeps .f64 x x

variable {low high : ℤ}

theorem cut_le {q : ℚ} (h : q ≤ high) : cut q ≤ high := by
  unfold cut
  split
  · exact Int.cast_le.1 ((Int.floor_le q).trans h)
  · exact Int.ceil_le.2 h

theorem le_cut {q : ℚ} (h : low ≤ q) : low ≤ cut q := by
  unfold cut
  split
  · exact Int.le_floor.2 h
  · exact Int.cast_le.1 (h.trans (Int.le_ceil q))

/-- Truncation saturates at the ends of the range. -/
theorem saturates_truncateInto (hrange : low ≤ high) (x : Float) :
    Saturates low high (Reading.ofFloat x) (truncateInto low high x) := by
  unfold truncateInto
  cases Reading.ofFloat x with
  | nan => exact .nan
  | infinite negative => cases negative <;> exact .infinite _
  | finite e =>
    dsimp only
    rw [truncate_eq_cut]
    by_cases hbelow : e.value < low
    · have := cut_le hbelow.le
      rw [max_eq_left (by omega)]
      exact .below hbelow
    by_cases habove : high < e.value
    · have := le_cut habove.le
      rw [min_eq_left (by omega), max_eq_right hrange]
      exact .above habove
    · have := le_cut (not_lt.1 hbelow)
      have := cut_le (not_lt.1 habove)
      rw [min_eq_right (by omega), max_eq_right (by omega)]
      exact .between (not_lt.1 hbelow) (not_lt.1 habove)

/-- Truncation stays in the range. -/
theorem truncateInto_mem (hlow : low ≤ 0) (hhigh : 0 ≤ high) (x : Float) :
    low ≤ truncateInto low high x ∧ truncateInto low high x ≤ high := by
  unfold truncateInto
  split <;> omega

namespace PixelType

/-- The range of a whole type is that of its bits. -/
theorem spans_of_wholeRange? {t : PixelType} (h : t.wholeRange? = some (low, high)) :
    t.Spans low high := by
  cases t with
  | f32 | f64 => cases h
  | u8 => cases h; exact .u8
  | i8 => cases h; exact .i8
  | u16 => cases h; exact .u16
  | i16 => cases h; exact .i16
  | u32 => cases h; exact .u32
  | i32 => cases h; exact .i32

/-- Whole types have a zero, and their numbers are doubles. -/
theorem Spans.bounds {t : PixelType} (h : t.Spans low high) :
    (low ≤ 0 ∧ 0 ≤ high) ∧ -2 ^ 32 ≤ low ∧ high ≤ 2 ^ 32 := by
  cases h <;> decide

/-- **Storing** keeps of a sample what the type can hold. -/
theorem keeps_store (t : PixelType) (x : Float) : t.Keeps x (t.store x) := by
  unfold store
  cases hrange : t.wholeRange? with
  | none =>
    cases t with
    | f32 => exact .single (narrows_single x)
    | f64 => exact .double x
    | u8 | i8 | u16 | i16 | u32 | i32 => cases hrange
  | some range =>
    obtain ⟨low, high⟩ := range
    have hspans := spans_of_wholeRange? hrange
    obtain ⟨⟨hlow, hhigh⟩, hlow', hhigh'⟩ := hspans.bounds
    have hbounds := truncateInto_mem hlow hhigh x
    obtain ⟨r, hreading, hsign, hvalue⟩ :=
      reading_ofInt (n := truncateInto low high x) (by omega)
    exact .whole hspans (saturates_truncateInto (by omega) x) hreading hvalue hsign

end PixelType

end MapAlgebra

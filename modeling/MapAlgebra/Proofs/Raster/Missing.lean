import MapAlgebra.Proofs.Number.Order
import MapAlgebra.Proofs.Pass.Output
import MapAlgebra.Proofs.Raster.Statistics
import MapAlgebra.Raster.Basic

/-!
# Missing samples and statistics

Types with fractions tell a missing sample by its difference from the mark. The difference of equal
samples is a zero, whatever the sample; only infinities have a difference from themselves that is no
number (`Number.sub_of_beq`, `Number.sub_of_isInf`). Main statement:
**`Raster.statistics_present`**. Unless the mark is an infinity in a type with fractions, statistics
are those of samples that are numbers and differ from the mark, and do not change when a marked
sample becomes no number. Such an infinite mark marks nothing.
-/

namespace MapAlgebra

/-! ### Differences -/

namespace Number

open Float.Model UnpackedFloat

/-- Two numbers that compare as equal and are not infinite differ by a zero. -/
theorem sub_of_compare_eq {u v : UnpackedFloat} (h : u.compare v = some .eq)
    (hv : ∀ s, v ≠ .infinity s) : ∃ s, UnpackedFloat.sub Format.binary64 u v = .zero s := by
  cases v with
  | notANumber => cases u <;> cases h
  | infinity s' => exact absurd rfl (hv s')
  | zero s' =>
    cases u with
    | notANumber => cases h
    | infinity s => cases s <;> cases h
    | zero s => cases s <;> cases s' <;> exact ⟨_, rfl⟩
    | finite s m e hm => cases s <;> cases h
  | finite s' m' e' hm' =>
    cases u with
    | notANumber => cases h
    | infinity s => cases s <;> cases h
    | zero s => cases s' <;> cases h
    | finite s m e hm =>
      have hsame : s = s' ∧ m = m' ∧ e = e' := by
        cases s <;> cases s' <;>
          simp [UnpackedFloat.compare, Ordering.then_eq_eq] at h ⊢ <;> omega
      obtain ⟨rfl, rfl, rfl⟩ := hsame
      refine ⟨.positive, ?_⟩
      simp only [UnpackedFloat.sub, Int.sub_self, UnpackedFloat.normalize]
      rfl

/-- What differs from an infinity differs from it by an infinity, or by no number. -/
theorem sub_infinity (u : UnpackedFloat) (s : Sign) :
    UnpackedFloat.sub Format.binary64 u (.infinity s) = .notANumber ∨
      ∃ s', UnpackedFloat.sub Format.binary64 u (.infinity s) = .infinity s' := by
  cases u with
  | notANumber => exact .inl rfl
  | infinity s' =>
    cases s <;> cases s'
    · exact .inl rfl
    · exact .inr ⟨_, rfl⟩
    · exact .inr ⟨_, rfl⟩
    · exact .inl rfl
  | zero => exact .inr ⟨_, rfl⟩
  | finite => exact .inr ⟨_, rfl⟩

theorem isInf_iff {x : Float} : x.isInf = true ↔ ∃ s, x.toModel.unpack = .infinity s := by
  show x.toModel.unpack.isInf = true ↔ _
  cases x.toModel.unpack with
  | notANumber => exact iff_of_false Bool.false_ne_true nofun
  | infinity s => exact iff_of_true rfl ⟨s, rfl⟩
  | zero => exact iff_of_false Bool.false_ne_true nofun
  | finite => exact iff_of_false Bool.false_ne_true nofun

variable {x mark : Float}

/-- Samples that are equal and not infinite differ by a zero. -/
theorem sub_of_beq (h : (x == mark) = true) (hmark : mark.isInf = false) :
    x - mark = 0.0 ∨ x - mark = -0.0 := by
  have hcompare : x.toModel.unpack.compare mark.toModel.unpack = some .eq :=
    beq_iff_eq.1 (show (x.toModel.unpack.compare mark.toModel.unpack == some .eq) = true from h)
  have hfinite : ∀ s, mark.toModel.unpack ≠ .infinity s := fun s hs =>
    Bool.false_ne_true (hmark.symm.trans (isInf_iff.2 ⟨s, hs⟩))
  obtain ⟨s, hs⟩ := sub_of_compare_eq hcompare hfinite
  have hsub : x - mark = .ofModel (.pack (.zero s)) :=
    congrArg (fun u => Float.ofModel (.pack u)) hs
  rw [hsub]
  cases s with
  | negative => exact .inr rfl
  | positive => exact .inl rfl

/-- The difference from an infinity is infinite or no number. -/
theorem sub_of_isInf (hmark : mark.isInf = true) :
    x - mark = .ofModel (.pack .notANumber) ∨
      ∃ s, x - mark = .ofModel (.pack (.infinity s)) := by
  obtain ⟨s, hs⟩ := isInf_iff.1 hmark
  have hsub : x - mark = .ofModel (.pack (UnpackedFloat.sub Format.binary64 x.toModel.unpack
      (.infinity s))) := hs ▸ rfl
  rw [hsub]
  rcases sub_infinity x.toModel.unpack s with hnan | ⟨s', hinfinity⟩
  · exact .inl (hnan ▸ rfl)
  · exact .inr ⟨s', hinfinity ▸ rfl⟩

end Number

/-! ### Missing samples -/

namespace PixelType

variable {t : PixelType} {x mark : Float}

/-- Whether a difference from the mark is below the tolerance of a type. -/
def isSmall (t : PixelType) (difference : Float) : Bool :=
  (if t = .f32 then Number.single difference else difference).abs < t.tolerance

theorem isMissing_of_isFloat (ht : t.isFloat = true) (noData? : Option Float) :
    t.isMissing noData? x = (x.isNaN || noData?.any fun mark => t.isSmall (x - mark)) :=
  if_pos ht

theorem isMissing_of_not_isFloat (ht : t.isFloat = false) (noData? : Option Float) :
    t.isMissing noData? x = noData?.any (x == ·) := by
  unfold isMissing
  rw [ht]
  rfl

theorem isSmall_zero : ∀ t : PixelType, t.isSmall 0.0 = true ∧ t.isSmall (-0.0) = true := by
  rintro (_ | _ | _ | _ | _ | _ | _ | _) <;> decide +kernel

theorem isSmall_infinite : ∀ t : PixelType,
    t.isSmall (.ofModel (.pack .notANumber)) = false ∧
      ∀ s, t.isSmall (.ofModel (.pack (.infinity s))) = false := by
  rintro (_ | _ | _ | _ | _ | _ | _ | _) <;> refine ⟨?_, ?_⟩ <;>
    first | rintro (_ | _) <;> decide +kernel | decide +kernel

/-- A sample that is equal to the mark is missing, unless the mark is an infinity. -/
theorem isMissing_of_beq (hmark : t.isFloat = true → mark.isInf = false)
    (h : (x == mark) = true) : t.isMissing (some mark) x = true := by
  cases ht : t.isFloat with
  | false => rwa [isMissing_of_not_isFloat ht]
  | true =>
    have hsmall : t.isSmall (x - mark) = true := by
      rcases Number.sub_of_beq h (hmark ht) with hzero | hzero <;> rw [hzero]
      · exact (isSmall_zero t).1
      · exact (isSmall_zero t).2
    rw [isMissing_of_isFloat ht, Option.any_some, hsmall, Bool.or_true]

/-- Beside an infinite mark only a sample that is no number is missing. -/
theorem isMissing_of_isInf (ht : t.isFloat = true) (hmark : mark.isInf = true) :
    t.isMissing (some mark) x = x.isNaN := by
  have hlarge : t.isSmall (x - mark) = false := by
    rcases Number.sub_of_isInf hmark with hnan | ⟨s, hinfinity⟩
    · exact hnan ▸ (isSmall_infinite t).1
    · exact hinfinity ▸ (isSmall_infinite t).2 s
  rw [isMissing_of_isFloat ht, Option.any_some, hlarge, Bool.or_false]

/-- What is no number is stored as such by types with fractions, and is missing. -/
theorem isMissing_store_nan (ht : t.isFloat = true) (noData? : Option Float) :
    t.isMissing noData? (t.store Number.nan) = true := by
  have hnan : (t.store Number.nan).isNaN = true := by
    cases t <;> first | cases ht; done | decide +kernel
  rw [isMissing_of_isFloat ht, hnan, Bool.true_or]

end PixelType

/-! ### How many samples there are -/

theorem Tally.count_ofList {α : Type} [Scalar α] [LT α] [DecidableLT α] (xs : List α) :
    (Tally.ofList xs).count = xs.length := by
  induction xs using List.reverseRecOn with
  | nil => rfl
  | append_singleton xs x ih =>
    rw [ofList_append, List.length_append, ← ih]
    rfl

theorem Statistics.validCount_ofList? (xs : List Float) :
    ((Statistics.ofList? xs).getD .none).validCount = xs.length := by
  rcases List.eq_nil_or_concat' xs with rfl | ⟨front, x, rfl⟩
  · rfl
  · obtain ⟨low, high, -, hstatistics⟩ := exists_ofList? (List.append_ne_nil_of_right_ne_nil front
      (List.cons_ne_nil x []))
    rw [hstatistics]
    exact Tally.count_ofList _

/-! ### Exchanging samples -/

section Exchange

variable {α : Type} {p : α → Bool} {a : α}

/-- Exchanging an item that a test refuses for another such item. -/
theorem filter_set (ha : p a = false) : ∀ {l : List α} {i : Nat},
    (∀ b, l[i]? = some b → p b = false) → (l.set i a).filter p = l.filter p
  | [], _, _ => rfl
  | b :: l, 0, h => by
    rw [List.set_cons_zero, List.filter_cons, List.filter_cons, ha, h b rfl]
    rfl
  | b :: l, i + 1, h => by
    have hrest : (l.set i a).filter p = l.filter p := filter_set ha h
    rw [List.set_cons_succ, List.filter_cons, hrest, List.filter_cons]

/-- Such an exchange, seen in a part of the list. -/
theorem filter_extract_set (ha : p a = false) {l : List α} {i : Nat}
    (h : ∀ b, l[i]? = some b → p b = false) (low high : Nat) :
    ((l.set i a).extract low high).filter p = (l.extract low high).filter p := by
  rw [List.extract_eq_take_drop, List.extract_eq_take_drop, List.drop_set]
  split
  · rfl
  · next hlow =>
    rw [List.take_set]
    refine filter_set ha fun b hb => h b ?_
    rw [List.getElem?_take] at hb
    split at hb
    · rwa [List.getElem?_drop, Nat.add_sub_cancel' (by omega)] at hb
    · cases hb

end Exchange

namespace Raster

variable {r r' : Raster}

/-- A type with fractions does not mark missing data with an infinity. -/
def NoInfiniteMark (r : Raster) : Prop :=
  ∀ mark, r.pixelType.isFloat = true → r.noData? = some mark → mark.isInf = false

/-- Whether a sample is a number and differs from the mark for missing data. -/
def isUnmarked (r : Raster) (x : Float) : Bool :=
  !x.isNaN && !r.noData?.any (x == ·)

/-- The samples of a list that statistics go by. -/
def present (r : Raster) (xs : List Float) : List Float :=
  (xs.filter (!r.pixelType.isMissing r.noData? ·)).filter (!·.isNaN)

theorem statistics_eq {band : Nat} {xs : List Float} (h : r.band band = .ok xs) :
    r.statistics band = .ok ((Statistics.ofList? (r.present xs)).getD .none) := by
  unfold statistics
  rw [h]
  rfl

/-- A sample that is equal to the mark is missing. -/
theorem NoInfiniteMark.isMissing (h : r.NoInfiniteMark) {x : Float}
    (hx : r.noData?.any (x == ·) = true) : r.pixelType.isMissing r.noData? x = true := by
  cases hmark : r.noData? with
  | none =>
    rw [hmark] at hx
    cases hx
  | some mark =>
    rw [hmark] at hx
    exact PixelType.isMissing_of_beq (fun ht => h mark ht hmark) hx

theorem NoInfiniteMark.isUnmarked_of_mem (h : r.NoInfiniteMark) {xs : List Float} {x : Float}
    (hx : x ∈ r.present xs) : r.isUnmarked x = true := by
  obtain ⟨hx, hnumber⟩ := List.mem_filter.1 hx
  have hfound := (List.mem_filter.1 hx).2
  have hdiffers : r.noData?.any (x == ·) = false := by
    by_contra hmarked
    rw [h.isMissing (Bool.not_eq_false _ ▸ hmarked)] at hfound
    cases hfound
  unfold isUnmarked
  rw [hdiffers, hnumber]
  rfl

/-- Not more samples enter statistics than there are unmarked ones. -/
theorem NoInfiniteMark.length_present_le (h : r.NoInfiniteMark) (xs : List Float) :
    (r.present xs).length ≤ xs.countP r.isUnmarked := by
  have hsublist : (r.present xs).Sublist xs := List.filter_sublist.trans List.filter_sublist
  rw [← List.countP_eq_length.2 fun _ hx => h.isUnmarked_of_mem hx]
  exact hsublist.countP_le

theorem exists_of_get_eq_ok {band row col : Nat} {x : Float} (h : r.get band row col = .ok x) :
    r.Has (band, row, col) ∧ r.samples.toList[r.index band row col]? = some x := by
  by_cases hhas : r.Has (band, row, col)
  · refine ⟨hhas, ?_⟩
    have hget : r.get? band row col = r.samples[r.index band row col]? := at?_of_has hhas
    unfold get at h
    split at h
    · next found hfound =>
      cases h
      rw [Array.getElem?_toList, ← hget, hfound]
    · cases h
  · have hget : r.get? band row col = none := at?_of_not_has hhas
    rw [get, hget] at h
    cases h

/-- Exchanging a missing sample for another one leaves the statistics of every band as they are. -/
theorem statistics_putAt {place : Nat × Nat × Nat} {x y : Float}
    (hplace : r.samples.toList[r.index place.1 place.2.1 place.2.2]? = some x)
    (hx : r.pixelType.isMissing r.noData? x = true)
    (hy : r.pixelType.isMissing r.noData? (r.pixelType.store y) = true) (band : Nat) :
    (r.putAt place y).statistics band = r.statistics band := by
  have hfilter : ∀ low high,
      ((r.putAt place y).samples.extract low high).toList.filter
          (!r.pixelType.isMissing r.noData? ·) =
        (r.samples.extract low high).toList.filter (!r.pixelType.isMissing r.noData? ·) := by
    intro low high
    show (((r.samples.setIfInBounds _ _).extract low high).toList).filter _ = _
    rw [Array.toList_extract, Array.toList_extract, Array.toList_setIfInBounds]
    refine filter_extract_set (by rw [hy]; rfl) (fun b hb => ?_) low high
    rw [hplace] at hb
    cases hb
    rw [hx]
    rfl
  by_cases hband : band < r.bands
  · have hslice : r.band band = .ok (r.samples.extract (band * (r.rows * r.cols))
        ((band + 1) * (r.rows * r.cols))).toList := if_pos hband
    have hslice' : (r.putAt place y).band band = .ok ((r.putAt place y).samples.extract
        (band * (r.rows * r.cols)) ((band + 1) * (r.rows * r.cols))).toList := if_pos hband
    have hpresent := congrArg (List.filter (!·.isNaN)) (hfilter (band * (r.rows * r.cols))
      ((band + 1) * (r.rows * r.cols)))
    rw [statistics_eq hslice, statistics_eq hslice']
    exact congrArg (fun xs => Except.ok ((Statistics.ofList? xs).getD .none)) hpresent
  · have hout : r.band band = .error (.bandOutOfRange (band + 1) r.bands) := if_neg hband
    have hout' : (r.putAt place y).band band = .error (.bandOutOfRange (band + 1) r.bands) :=
      if_neg hband
    rw [statistics, statistics, hout, hout']
    rfl

/-- **Missing samples** do not enter statistics. Unless an infinity marks missing data in a type
with fractions, the statistics of a band are those of the samples of it that are kept, each of which
is a number and differs from the mark, and they stay the same when a marked sample becomes no
number. In a type with fractions an infinite mark makes no difference. -/
theorem statistics_present (r : Raster) (band : Nat) (xs : List Float)
    (hband : r.band band = .ok xs) :
    (∃ s, r.statistics band = .ok s ∧ s = (Statistics.ofList? (r.present xs)).getD .none ∧
      s.validCount = (r.present xs).length ∧
      (r.NoInfiniteMark → (∀ x ∈ r.present xs, r.isUnmarked x = true) ∧
        s.validCount ≤ xs.countP r.isUnmarked)) ∧
    (r.NoInfiniteMark → r.pixelType.isFloat = true → ∀ b row col x, r.get b row col = .ok x →
      r.noData?.any (x == ·) = true → ∃ r', r.set b row col Number.nan = .ok r' ∧
        ∀ b', r'.statistics b' = r.statistics b') ∧
    (r.pixelType.isFloat = true → ∀ mark, r.noData? = some mark → mark.isInf = true →
      r.statistics band = r.rawStatistics band) := by
  refine ⟨?_, fun hmark hfloat b row col x hget hx => ?_, fun hfloat mark hmark hinfinite => ?_⟩
  · have hcount := Statistics.validCount_ofList? (r.present xs)
    refine ⟨_, statistics_eq hband, rfl, hcount, fun hmark => ⟨fun x hx => ?_, ?_⟩⟩
    · exact hmark.isUnmarked_of_mem hx
    · rw [hcount]
      exact hmark.length_present_le xs
  · obtain ⟨hhas, hplace⟩ := exists_of_get_eq_ok hget
    exact ⟨r.putAt (b, row, col) Number.nan, set_of_has hhas, statistics_putAt hplace
      (hmark.isMissing hx) (PixelType.isMissing_store_nan hfloat r.noData?)⟩
  · have hpresent : r.present xs = xs.filter (!·.isNaN) := by
      unfold present
      rw [hmark, List.filter_filter]
      refine List.filter_congr fun x _ => ?_
      rw [PixelType.isMissing_of_isInf hfloat hinfinite, Bool.and_self]
    rw [statistics_eq hband, hpresent, rawStatistics, hband]
    rfl

namespace Sample

/-- A raster of doubles whose second sample has the mark for missing data. -/
def marked (mark : Float) : Raster :=
  { pixelType := .f64, bands := 1, rows := 1, cols := 2, samples := #[1.0, mark],
    size_samples := rfl, transform := .unit, noData? := some mark }

end Sample

/-- A finite mark: the sample beside it is the only one that enters. -/
theorem statistics_marked :
    let r := Sample.marked (-9999.0)
    r.band 0 = .ok [1.0, -9999.0] ∧ r.NoInfiniteMark ∧ r.pixelType.isFloat = true ∧
      r.get 0 0 1 = .ok (-9999.0) ∧ r.noData?.any ((-9999.0 : Float) == ·) = true ∧
      (∃ s, r.statistics 0 = .ok s ∧ s.validCount ≤ 1) ∧
      ∃ r', r.set 0 0 1 Number.nan = .ok r' ∧ r'.statistics 0 = r.statistics 0 := by
  intro r
  have hband : r.band 0 = .ok [1.0, -9999.0] := rfl
  have hmark : r.NoInfiniteMark := by
    intro mark _ h
    cases h
    decide +kernel
  have hget : r.get 0 0 1 = .ok (-9999.0) := rfl
  have hany : r.noData?.any ((-9999.0 : Float) == ·) = true := by decide +kernel
  have hcount : [1.0, -9999.0].countP r.isUnmarked = 1 := by decide +kernel
  obtain ⟨⟨s, hs, -, -, hunmarked⟩, hset, -⟩ := statistics_present r 0 _ hband
  obtain ⟨r', hr', hsame⟩ := hset hmark rfl 0 0 1 _ hget hany
  exact ⟨hband, hmark, rfl, hget, hany, ⟨s, hs, hcount ▸ (hunmarked hmark).2⟩, r', hr', hsame 0⟩

/-- An infinite mark: the sample that has it is counted, until it becomes no number. -/
theorem statistics_infiniteMark :
    let r := Sample.marked Number.infinity
    r.band 0 = .ok [1.0, Number.infinity] ∧ [1.0, Number.infinity].countP r.isUnmarked = 1 ∧
      (r.statistics 0).toOption.map (·.validCount) = some 2 ∧
      (r.set 0 0 1 Number.nan >>= (·.statistics 0)).toOption.map (·.validCount) = some 1 := by
  refine ⟨rfl, ?_⟩
  decide +kernel

end Raster

end MapAlgebra

import MapAlgebra.Pass.Cache
import MapAlgebra.Proofs.RowMajor
import Mathlib.Data.List.Basic

/-!
# Windows and the windows read last

A window is read around a cell of the grid, with what is no number wherever it sticks out. Windows
that have been read are kept: the same window around the same cell is not read again, and one a
column further to the right is made from the one before. **`Cache.get_eq_windowAt`** says that none
of this can be seen: as long as the cells asked for lie in the grid, what comes out is the window
read afresh. The invariant is `Cache.Faithful`: every window kept is the one around the cell it
claims to stand around.
-/

namespace MapAlgebra

namespace Raster

/-- The samples of a row of a window around a cell, each looked up in the whole grid. -/
def windowRowAt (r : Raster) (band row col : Nat) (w : Window) (i : Nat) : List Float :=
  (List.range w.width).map fun (j : Nat) =>
    r.sampleAt band (row + (i - w.halfHeight)) (col + (j - w.halfWidth))

/-- The samples of a window around a cell, row by row, each looked up in the whole grid. -/
def windowAt (r : Raster) (band row col : Nat) (w : Window) : List Float :=
  (List.range w.height).flatMap (r.windowRowAt band row col w)

variable {r : Raster} {band row col : Nat} {w : Window}

theorem length_windowRowAt (i : Nat) : (r.windowRowAt band row col w i).length = w.width := by
  rw [windowRowAt, List.length_map, List.length_range]

theorem length_windowAt : (r.windowAt band row col w).length = w.height * w.width :=
  RowMajor.length_rows length_windowRowAt w.height

/-- Near a cell of the grid, a sample is looked up by its distance from the cell. -/
theorem sampleNear_eq (hrow : row < r.rows) (hcol : col < r.cols) (down right : Int) :
    r.sampleNear band row col down right = r.sampleAt band (row + down) (col + right) := by
  rw [sampleNear, linePlace_of_lt hrow, linePlace_of_lt hcol]

/-- A window around a cell of the grid is read sample by sample. -/
theorem readWindow_eq_windowAt (hrow : row < r.rows) (hcol : col < r.cols) :
    r.readWindow band row col w = r.windowAt band row col w := by
  unfold readWindow Window.offsets windowAt
  rw [List.map_flatMap]
  refine congrArg (fun f => List.flatMap f (List.range w.height)) (funext fun i => ?_)
  rw [List.map_map, windowRowAt]
  exact List.map_congr_left fun j _ => sampleNear_eq hrow hcol _ _

/-- A row of a window around the next cell to the right: the old one without its first sample, and
one more sample at its end. -/
theorem windowRowAt_succ (i : Nat) :
    r.windowRowAt band row (col + 1) w i = (r.windowRowAt band row col w i).drop 1 ++
      [r.sampleAt band (row + (i - w.halfHeight)) ((col + 1 : Nat) + w.halfWidth)] := by
  have hodd := w.odd_width
  obtain ⟨n, hn⟩ : ∃ n, w.width = n + 1 := ⟨w.width - 1, by omega⟩
  have hhalf : w.halfWidth + w.halfWidth = n := by unfold Window.halfWidth; omega
  have hold : (r.windowRowAt band row col w i).drop 1 = (List.range n).map fun j =>
      r.sampleAt band (row + (i - w.halfHeight)) (col + ((j + 1 : Nat) - w.halfWidth)) := by
    rw [windowRowAt, hn, List.range_succ_eq_map, List.map_cons, List.drop_one, List.tail_cons,
      List.map_map]
    rfl
  rw [hold, windowRowAt, hn, List.range_succ, List.map_append]
  congr 1
  · refine List.map_congr_left fun j _ => ?_
    congr 1
    push_cast
    omega
  · rw [List.map_cons, List.map_nil]
    congr 2
    push_cast
    omega

/-- The piece of a window that stands for one of its rows. -/
theorem take_drop_windowAt {i : Nat} (hi : i < w.height) :
    ((r.windowAt band row col w).drop (i * w.width)).take w.width =
      r.windowRowAt band row col w i :=
  RowMajor.take_drop_rows length_windowRowAt hi

end Raster

namespace Cache

open Raster

/-- A window around a cell, moved one column to the right, is the window around the next cell. -/
theorem slideRight_windowAt {r : Raster} {key : WindowKey} {row col : Nat} (hrow : row < r.rows)
    (hcol : col + 1 < r.cols) :
    slideRight r key row (col + 1) (r.windowAt key.band row col key.window) =
      r.windowAt key.band row (col + 1) key.window := by
  have hodd := key.window.odd_width
  refine List.flatMap_congr fun i hi => ?_
  have hi' : i < key.window.height := List.mem_range.1 hi
  rw [windowRowAt_succ, ← take_drop_windowAt hi', sampleNear_eq hrow hcol, List.drop_take,
    List.drop_drop]

/-! ### The invariant -/

/-- Forgetting one key leaves what is known of another. -/
theorem lookup_filter_ne {key key' : WindowKey} (h : key' ≠ key) :
    ∀ entries : List (WindowKey × CachedWindow),
      (entries.filter (·.1 ≠ key)).lookup key' = entries.lookup key'
  | [] => rfl
  | (k, w) :: entries => by
    have ih := lookup_filter_ne h entries
    by_cases hk : k = key
    · subst hk
      rw [List.filter_cons_of_neg (by simp), ih, List.lookup_cons, beq_false_of_ne h]
    · rw [List.filter_cons_of_pos (by simp [hk]), List.lookup_cons, List.lookup_cons, ih]

/-- Reading a window changes what is known of its key and of no other. -/
theorem lookup_get (c : Cache) (r : Raster) (key : WindowKey) (row col : Nat) (key' : WindowKey) :
    (c.get r key row col).2.entries.lookup key' =
      if key' = key then some ⟨row, col, (c.get r key row col).1⟩ else c.entries.lookup key' := by
  simp only [get, List.lookup_cons]
  by_cases hkey : key' = key
  · simp [hkey]
  · rw [beq_false_of_ne hkey, if_neg hkey]
    exact lookup_filter_ne hkey c.entries

/-- Every window kept is the one around the cell it claims to stand around, which lies in the grid
of its input. -/
def Faithful (inputs : List Source) (c : Cache) : Prop :=
  ∀ key last s, c.entries.lookup key = some last → inputs[key.image]? = some s →
    last.row < s.raster.rows ∧ last.col < s.raster.cols ∧
      last.samples = s.raster.windowAt key.band last.row last.col key.window

theorem faithful_empty (inputs : List Source) : empty.Faithful inputs := by
  intro key last s h
  cases h

variable {inputs : List Source} {c : Cache} {key : WindowKey} {s : Source} {row col : Nat}

/-- What is read with the help of the window read last is the window read afresh. -/
theorem read_eq_windowAt {r : Raster} {last? : Option CachedWindow} (hrow : row < r.rows)
    (hcol : col < r.cols)
    (hlast : ∀ last, last? = some last → last.row < r.rows ∧ last.col < r.cols ∧
      last.samples = r.windowAt key.band last.row last.col key.window) :
    read r key row col last? = r.windowAt key.band row col key.window := by
  unfold read
  split
  · -- the cell lies in the grid, so it is not the place of a window that has not been read
    have hread : isUnreadPlace r row col = false := by simp [isUnreadPlace, hrow, hcol]
    rw [hread]
    exact readWindow_eq_windowAt hrow hcol
  · next last =>
    obtain ⟨-, -, hsamples⟩ := hlast last rfl
    split
    · next h => rw [hsamples, h.1, h.2]
    · split
      · next h =>
        obtain ⟨rfl, rfl⟩ := h
        rw [hsamples]
        exact slideRight_windowAt hrow hcol
      · exact readWindow_eq_windowAt hrow hcol

/-- **Windows read last**: a window read through the cache around a cell of the grid is the window
read afresh, and the cache stays faithful. -/
theorem get_eq_windowAt (hc : c.Faithful inputs) (hs : inputs[key.image]? = some s)
    (hrow : row < s.raster.rows) (hcol : col < s.raster.cols) :
    (c.get s.raster key row col).1 = s.raster.windowAt key.band row col key.window ∧
      (c.get s.raster key row col).2.Faithful inputs := by
  have hsamples : read s.raster key row col (c.entries.lookup key) =
      s.raster.windowAt key.band row col key.window :=
    read_eq_windowAt hrow hcol fun last hlast => hc key last s hlast hs
  refine ⟨hsamples, fun key' last s' hlast hs' => ?_⟩
  rw [lookup_get] at hlast
  split at hlast
  · next hkey =>
    subst hkey
    rw [hs] at hs'
    cases hs'
    cases hlast
    exact ⟨hrow, hcol, hsamples⟩
  · exact hc key' last s' hlast hs'

end Cache

end MapAlgebra

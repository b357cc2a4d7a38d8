import MapAlgebra.Proofs.Pass.Window
import MapAlgebra.Proofs.Result
import Mathlib.Algebra.Order.BigOperators.Group.List
import Mathlib.Algebra.Order.Group.Nat

/-!
# Many windows from one cache

A cache that begins empty serves any number of windows: of any inputs and bands, with any odd sides,
around cells of the grids in any order. Main statement: **`Cache.isMetBy_getEach_empty`**. What it
gives for each of them is the window as it stands in the raster, sample by sample, with what is no
number outside the grid, and so what would be read afresh.

The invariant is `Cache.Faithful` over the inputs that the windows are of. One window keeps it
(`Cache.Faithful.isMetBy_get`), any number do by induction on their list.
-/

namespace MapAlgebra

/-! ### Windows sample by sample -/

/-- Some samples are a window around a cell of a raster. -/
structure Raster.IsWindow (r : Raster) (band row col : Nat) (w : Window) (samples : List Float) :
    Prop where
  /-- There is one for each cell of the window. -/
  length_eq : samples.length = w.height * w.width
  /-- Where the window lies in the grid, they are the samples of the band, the cell being that of
  the sample in the middle. -/
  inside : ∀ i < w.height, ∀ j < w.width, ∀ row' < r.rows, ∀ col' < r.cols,
    row + i = row' + w.height / 2 → col + j = col' + w.width / 2 →
      samples[i * w.width + j]? = some (r.sample band row' col')
  /-- Where it does not, they are what is no number. -/
  outside : ∀ i < w.height, ∀ j < w.width,
    (¬∃ row' < r.rows, ∃ col' < r.cols, row + i = row' + w.height / 2 ∧
      col + j = col' + w.width / 2) → samples[i * w.width + j]? = some Number.nan
  /-- They are what is read afresh. -/
  eq_readWindow : samples = r.readWindow band row col w

namespace Raster

variable {r : Raster} {band row col : Nat} {w : Window}

theorem getElem?_windowAt_eq_sampleAt {i j : Nat} (hi : i < w.height) (hj : j < w.width) :
    (r.windowAt band row col w)[i * w.width + j]? =
      some (r.sampleAt band (row + (i - w.halfHeight)) (col + (j - w.halfWidth))) := by
  rw [windowAt, RowMajor.getElem?_rows length_windowRowAt hi hj, windowRowAt, List.getElem?_map,
    List.getElem?_range hj]
  rfl

/-- A place that is a cell of the grid has its sample. -/
theorem sampleAt_of_eq {row' col' : Nat} {down right : Int} (hrow : down = row')
    (hcol : right = col') : r.sampleAt band down right = r.sample band row' col' := by
  subst hrow hcol
  unfold sampleAt
  simp

/-- Outside the grid there is no number. -/
theorem sample_of_outside (h : ¬(row < r.rows ∧ col < r.cols)) :
    r.sample band row col = Number.nan := by
  have hnone : r.get? band row col = none := by
    unfold get?
    split
    · next hin =>
      simp only [Bool.and_eq_true, decide_eq_true_eq] at hin
      exact absurd ⟨hin.1.2, hin.2⟩ h
    · rfl
  rw [sample, hnone, Option.getD_none]

theorem sampleAt_of_outside {down right : Int}
    (h : ¬∃ row' < r.rows, ∃ col' < r.cols, down = (row' : Nat) ∧ right = (col' : Nat)) :
    r.sampleAt band down right = Number.nan := by
  unfold sampleAt
  split
  · next hsigns =>
    simp only [Bool.and_eq_true, decide_eq_true_eq] at hsigns
    refine sample_of_outside fun hin => h ⟨down.toNat, hin.1, right.toNat, hin.2, ?_, ?_⟩
    · exact (Int.toNat_of_nonneg hsigns.1).symm
    · exact (Int.toNat_of_nonneg hsigns.2).symm
  · rfl

theorem isWindow_windowAt (hrow : row < r.rows) (hcol : col < r.cols) :
    r.IsWindow band row col w (r.windowAt band row col w) where
  length_eq := length_windowAt
  inside i hi j hj row' _ col' _ hdown hright := by
    rw [getElem?_windowAt_eq_sampleAt hi hj]
    refine congrArg some (sampleAt_of_eq ?_ ?_) <;>
      simp only [Window.halfHeight, Window.halfWidth] <;> omega
  outside i hi j hj houtside := by
    rw [getElem?_windowAt_eq_sampleAt hi hj]
    refine congrArg some (sampleAt_of_outside ?_)
    rintro ⟨row', hrow', col', hcol', hdown, hright⟩
    simp only [Window.halfHeight, Window.halfWidth] at hdown hright
    exact houtside ⟨row', hrow', col', hcol', by omega, by omega⟩
  eq_readWindow := (readWindow_eq_windowAt hrow hcol).symm

end Raster

namespace Cache

/-! ### Many windows -/

/-- A window that a cache is asked for. -/
structure Ask where
  /-- The input, the band and the sides. -/
  key : WindowKey
  /-- The row of the cell it stands around. -/
  row : Nat
  /-- The column of that cell. -/
  col : Nat

/-- The cell that a window stands around lies in the grid of its input. -/
def Ask.InGrid (rasters : Nat → Raster) (a : Ask) : Prop :=
  a.row < (rasters a.key.image).rows ∧ a.col < (rasters a.key.image).cols

instance (rasters : Nat → Raster) (a : Ask) : Decidable (a.InGrid rasters) :=
  inferInstanceAs (Decidable (_ ∧ _))

/-- Some samples are the window that was asked for. -/
def Ask.IsMetBy (rasters : Nat → Raster) (a : Ask) (samples : List Float) : Prop :=
  (rasters a.key.image).IsWindow a.key.band a.row a.col a.key.window samples

/-- What a cache gives that is asked for one window after the other, when the inputs are the rasters
of their numbers. -/
def getEach (rasters : Nat → Raster) : Cache → List Ask → List (List Float)
  | _, [] => []
  | c, a :: asks =>
    let (samples, c) := c.get (rasters a.key.image) a.key a.row a.col
    samples :: c.getEach rasters asks

/-- The first inputs. -/
def firstInputs (rasters : Nat → Raster) (count : Nat) : List Source :=
  (List.range count).map fun image => ⟨rasters image, false⟩

section Faithful

variable {rasters : Nat → Raster} {count : Nat}

theorem getElem?_firstInputs {image : Nat} (h : image < count) :
    (firstInputs rasters count)[image]? = some ⟨rasters image, false⟩ := by
  rw [firstInputs, List.getElem?_map, List.getElem?_range h, Option.map_some]

/-- One window: a faithful cache gives the window it is asked for and stays faithful. -/
theorem Faithful.isMetBy_get {c : Cache} {a : Ask} (hc : c.Faithful (firstInputs rasters count))
    (himage : a.key.image < count) (hgrid : a.InGrid rasters) :
    a.IsMetBy rasters (c.get (rasters a.key.image) a.key a.row a.col).1 ∧
      (c.get (rasters a.key.image) a.key a.row a.col).2.Faithful (firstInputs rasters count) := by
  obtain ⟨hsamples, hnext⟩ :=
    get_eq_windowAt hc (getElem?_firstInputs himage) hgrid.1 hgrid.2
  refine ⟨?_, hnext⟩
  unfold Ask.IsMetBy
  rw [hsamples]
  exact Raster.isWindow_windowAt hgrid.1 hgrid.2

/-- Any number of windows: a faithful cache gives each of them. -/
theorem Faithful.isMetBy_getEach : ∀ {asks : List Ask} {c : Cache},
    c.Faithful (firstInputs rasters count) →
      (∀ a ∈ asks, a.key.image < count ∧ a.InGrid rasters) →
      List.Forall₂ (Ask.IsMetBy rasters) asks (c.getEach rasters asks)
  | [], _, _, _ => .nil
  | a :: _, _, hc, hasks => by
    obtain ⟨himage, hgrid⟩ := hasks a List.mem_cons_self
    obtain ⟨hmet, hnext⟩ := hc.isMetBy_get himage hgrid
    exact .cons hmet (hnext.isMetBy_getEach fun b hb => hasks b (List.mem_cons_of_mem _ hb))

end Faithful

/-- **Windows from one cache**: whatever windows around cells of the grids it is asked for, and in
whatever order, a cache that begins empty gives each of them as it stands in its raster. -/
theorem isMetBy_getEach_empty (rasters : Nat → Raster) (asks : List Ask)
    (h : ∀ a ∈ asks, a.InGrid rasters) :
    List.Forall₂ (Ask.IsMetBy rasters) asks (empty.getEach rasters asks) := by
  have hcount : ∀ a ∈ asks, a.key.image < (asks.map (·.key.image)).sum + 1 := fun a ha =>
    Nat.lt_succ_of_le (List.le_sum_of_mem (List.mem_map_of_mem ha))
  exact (faithful_empty _).isMetBy_getEach fun a ha => ⟨hcount a ha, h a ha⟩

namespace Sample

/-- A raster of two by two cells beside one of a single row. -/
def rasters (image : Nat) : Raster :=
  if image = 0 then valueOf (Raster.ofSamples .f64 1 2 2 [8, -1, 0, 5]) (by decide +kernel)
  else valueOf (Raster.ofSamples .f64 2 1 3 [1, 2, 3, 4, 5, 6]) (by decide +kernel)

/-- A window of the first raster and one of a band of the second, both larger than the grid. -/
def square : WindowKey := ⟨0, 0, ⟨3, 3, rfl, rfl⟩⟩

@[inherit_doc square]
def wide : WindowKey := ⟨1, 1, ⟨5, 1, rfl, rfl⟩⟩

/-- Both windows in turn: going right, standing still, going to the next row and back. -/
def asks : List Ask :=
  [⟨square, 0, 0⟩, ⟨wide, 0, 1⟩, ⟨square, 0, 1⟩, ⟨square, 0, 1⟩, ⟨wide, 0, 2⟩, ⟨square, 1, 0⟩,
    ⟨wide, 0, 0⟩, ⟨square, 0, 0⟩]

end Sample

theorem isMetBy_getEach_sample :
    (∀ a ∈ Sample.asks, a.InGrid Sample.rasters) ∧
      List.Forall₂ (Ask.IsMetBy Sample.rasters) Sample.asks
        (empty.getEach Sample.rasters Sample.asks) := by
  have hgrids : ∀ a ∈ Sample.asks, a.InGrid Sample.rasters := by decide +kernel
  exact ⟨hgrids, isMetBy_getEach_empty Sample.rasters Sample.asks hgrids⟩

end Cache

end MapAlgebra

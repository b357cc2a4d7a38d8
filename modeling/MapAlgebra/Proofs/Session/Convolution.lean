import MapAlgebra.Proofs.Catalog.Positional
import MapAlgebra.Proofs.Catalog.Writable
import MapAlgebra.Proofs.Expr.Call
import MapAlgebra.Proofs.Pass.Convolution
import MapAlgebra.Proofs.Session.Recompilation
import MapAlgebra.Proofs.Session.Restriction

/-!
# Convolutions from the text to the output

A formula that calls for the convolution of a declared matrix with a window of a band, from its text
to what passes write. Main statement: **`Session.Reachable.convolution`**. The formula is refused if
the matrix and the window have not equally many cells. Else it is compiled, and however the session
goes on, at every cell of the grid it has the value of the sum over the window, whichever cells of
the grid a worker has visited before, and every pass over a region writes this value, clamped and
stored, at the cells of the region.
-/

namespace MapAlgebra

open MapAlgebra.Expr

/-! ### Compiling -/

namespace Catalog

variable {c c' : Catalog} {kernel window text : String} {slot slot' : Nat} {v v' : Variable}
  {m : Matrix} {key : WindowKey}

theorem identifiers_convolution (hne : kernel ≠ window) : Formula.identifiers
    ⟨text, .call .conv [.variable kernel, .variable window]⟩ = [kernel, window] := by
  show [kernel, window].eraseDups = _
  rw [List.eraseDups_cons, List.filter_cons_of_pos (by simpa using Ne.symm hne)]
  rfl

/-- The convolution of a name that is there with one that leads to a window is resolved and bound
to their slots. -/
theorem compile_of_parse (hparse : Formula.parse text =
      .ok ⟨text, .call .conv [.variable kernel, .variable window]⟩) (hne : kernel ≠ window)
    (hkernel : c.names.lookup kernel = some slot) (hwindow : c.resolve window = .ok (slot', c'))
    (t : PixelType) : c.compile text t =
      (c'.finish ⟨text, .call .conv [.variable kernel, .variable window]⟩
        ⟨.call .conv [.variable slot, .variable slot']⟩ t, c') := by
  have hresolved : c.resolveAll [kernel, window] =
      (.ok ⟨[(kernel, slot), (window, slot')], []⟩, c') := by
    rw [resolveAll, resolve_of_lookup hkernel]
    dsimp only
    rw [resolveAll, hwindow]
    rfl
  have hbound : bindResolved ⟨text, .call .conv [.variable kernel, .variable window]⟩
      [(kernel, slot), (window, slot')] = .ok ⟨.call .conv [.variable slot, .variable slot']⟩ := by
    have hsecond : [(kernel, slot), (window, slot')].lookup window = some slot' := by
      rw [lookup_cons_of_ne (Ne.symm hne), List.lookup_cons_self]
    unfold bindResolved Formula.bind
    simp only [Expr.Tree.traverse, Expr.Tree.traverseAll, List.lookup_cons_self, hsecond]
    rfl
  unfold compile
  rw [hparse]
  dsimp only
  rw [identifiers_convolution hne, hresolved]
  dsimp only
  rw [List.isEmpty_nil, if_pos rfl, hbound]

/-- The convolution of a declared matrix with a window, tried on placeholders: it writes one band if
both have equally many cells, and is refused if not. -/
theorem finish_convolution (hkernel : c.slots[slot]? = some v) (hmatrix : v.kind = .matrix m)
    (hwindow : c.slots[slot']? = some v') (hkey : v'.kind = .window key) (f : Formula)
    (t : PixelType) :
    c.finish f ⟨.call .conv [.variable slot, .variable slot']⟩ t =
      if m.rows * m.cols = key.window.width * key.window.height then
        .ok ⟨f.source, ⟨.call .conv [.variable slot, .variable slot']⟩, f.identifiers, ⟨1, 1⟩,
          ⟨1, t⟩, c.generation⟩
      else .error (.dimensionality f.source (.function .conv) (.kernelElements m.shape)
        (.window ⟨key.window.height, key.window.width⟩)) := by
  let zeros : Matrix := .constant key.window.height key.window.width 0.0
  have hfirst : c.placeholders[slot]? = some (.matrix m) := by
    rw [c.getElem?_placeholders, hkernel, Option.map_some, hmatrix]
    rfl
  have hsecond : c.placeholders[slot']? = some (.matrix zeros) := by
    rw [c.getElem?_placeholders, hwindow, Option.map_some, hkey]
    rfl
  have hprobe : Program.probe ⟨.call .conv [.variable slot, .variable slot']⟩ c.placeholders =
      (weightedSum (.matrix m) (.matrix zeros)).map fun sum => .row [sum] :=
    Tree.eval_convolution hfirst hsecond
  have hlength : (Value.matrix zeros).cells.length = (Value.matrix m).cells.length ↔
      m.rows * m.cols = key.window.width * key.window.height := by
    show zeros.cells.length = m.cells.length ↔ _
    rw [zeros.length_cells, m.length_cells, Nat.mul_comm key.window.width]
    exact eq_comm
  unfold finish
  rw [hprobe]
  unfold weightedSum
  by_cases hsize : m.rows * m.cols = key.window.width * key.window.height
  · rw [if_pos (hlength.2 hsize), if_pos hsize]
    rfl
  · rw [if_neg (mt hlength.1 hsize), if_neg hsize]
    rfl

/-- A name that leads to a variable leads to its slot. -/
theorem exists_slot_of_lookup {name : String} (h : c.lookup name = .ok v) :
    ∃ slot, c.names.lookup name = some slot ∧ c.slots[slot]? = some v := by
  unfold Catalog.lookup at h
  split at h
  · next held hheld =>
    cases h
    exact Option.bind_eq_some_iff.1 hheld
  · cases h

/-- A declared matrix is found under its name, with its values row by row. -/
theorem lookup_of_declareMatrix {name : String} {rows cols : Nat} {values : List Float}
    (h : c.declareMatrix name rows cols values = .ok c') :
    ∃ hlength, c'.lookup name = .ok ⟨name, .matrix ⟨rows, cols, values, hlength⟩⟩ := by
  obtain ⟨-, -, -, hlength, rfl⟩ := declareMatrix_eq_ok_iff.1 h
  refine ⟨hlength, ?_⟩
  simp [Catalog.lookup, push, advance]

/-- The convolution of a declared matrix with a window of an input, as a text: what comes of
compiling it, and the slots it is bound to. -/
theorem Reachable.compile_convolution (hc : c.Reachable) (hkernel : c.lookup kernel = .ok v)
    (hmatrix : v.kind = .matrix m) {image : Nat} {s : Source} (hs : c.inputs[image]? = some s)
    {band width height : String} {j : Nat} {w : Window} (hband : Spells band j)
    (hwidth : Spells width w.width) (hheight : Spells height w.height) (hpos : 1 ≤ j)
    (hle : j ≤ s.raster.bands) (t : PixelType) :
    let window := positionalRoot image ++ windowSpelling band width height
    let text := callText "conv" [kernel, window]
    ∃ slot slot' v' c', c'.slots[slot]? = some v ∧ c'.slots[slot']? = some v' ∧
      v'.kind = .window ⟨image, j - 1, w⟩ ∧
      c.compile text t =
        (if m.rows * m.cols = w.width * w.height then
          .ok ⟨text, ⟨.call .conv [.variable slot, .variable slot']⟩, [kernel, window], ⟨1, 1⟩,
            ⟨1, t⟩, c'.generation⟩
        else .error (.dimensionality text (.function .conv) (.kernelElements m.shape)
          (.window ⟨w.height, w.width⟩)), c') := by
  intro window text
  obtain ⟨slot, hname, hslot⟩ := exists_slot_of_lookup hkernel
  obtain ⟨slot', c', name, ⟨image', band', window'⟩, hresolve, hslot', himage, hnumber, hw, hh⟩ :=
    (hc.positional hs).window band width height j w.width w.height hband hwidth hheight hpos hle
      w.odd_width w.odd_height
  obtain rfl : image' = image := himage
  obtain rfl : band' = j - 1 := by
    have : band' + 1 = j := hnumber
    omega
  obtain rfl : window' = w := by
    cases w
    cases window'
    obtain rfl := hw
    obtain rfl := hh
    rfl
  -- a name that has the letter of windows and is like a positional one does not lead to a matrix
  have hne : kernel ≠ window := by
    rintro rfl
    obtain ⟨key, -, hkey⟩ := hc.accounted.window_of_lookup (isPositionalName_root_append image' _)
      (mem_windowSpelling (positionalRoot image') band width height) hname
    rw [hslot] at hkey
    cases hkey
    cases hmatrix
  have hwritable : ∀ name ∈ [kernel, window], Writable name := by
    refine List.forall_mem_cons.2 ⟨hc.allWritable _ (mem_of_lookup hname),
      List.forall_mem_singleton.2 ?_⟩
    exact writable_windowSpelling (isName_positionalRoot image') hband hwidth hheight
  have hparse : Formula.parse text = .ok ⟨text, .call .conv [.variable kernel, .variable window]⟩ :=
    Formula.parse_call (by decide +kernel) (List.cons_ne_nil _ _) hwritable rfl
  have hgrown := (hc.wellFormed.resolve hresolve).2.1.slots slot v hslot
  refine ⟨slot, slot', _, c', hgrown, hslot', rfl, ?_⟩
  rw [compile_of_parse hparse hne hname hresolve t, finish_convolution hgrown hmatrix hslot' rfl,
    identifiers_convolution hne]

end Catalog

namespace Session

variable {s : Session}

/-! ### Passes -/

/-- What can be relied on of the formula in place `i` of a session: it has the text `text`, it
writes one band of samples of type `t`, and at the cells of the grid of `r` it is worth `x`. -/
structure Writes (s : Session) (i : Nat) (text : String) (t : PixelType) (r : Raster)
    (x : Nat → Nat → Float) : Prop where
  /-- The value before clamping is the same whichever cells of the grid a worker has visited. -/
  value : ∃ plan e, Plan.ofCompiled s.catalog s.expressions = .ok plan ∧
    s.expressions[i]? = some e ∧ e.source = text ∧ e.output = ⟨1, t⟩ ∧
    ∀ ctx : Context, ctx.VisitedIn s.catalog.inputs plan → ∀ row col, row < r.rows → col < r.cols →
      e.program.evaluate (ctx.moveTo plan row col).slots = .ok (.row [x row col])
  /-- A pass over a region inside the grid succeeds if it is not called off. -/
  succeeds : s.isCancelled = false → ∀ cores region, region.checkWithin r.rows r.cols = .ok () →
    ∃ outs, (s.runRegion cores region).1 = .ok outs
  /-- A pass over a region writes the value at its cells, clamped and stored. -/
  written : ∀ cores region outs, (s.runRegion cores region).1 = .ok outs →
    ∃ o, outs[i]? = some o ∧ o.source = text ∧ ∀ row col, row < region.rows → col < region.cols →
      o.raster.get? 0 row col =
        some (t.store (t.clamp (x (region.rowOffset + row) (region.colOffset + col))).1)

/-- A formula writes what the interpreter makes of the slots of the cells, all inputs having the
extent of any one of them. -/
theorem Settled.writes (h : s.Settled) {i : Nat} {e : Compiled} (he : s.expressions[i]? = some e)
    {t : PixelType} (houtput : e.output = ⟨1, t⟩) {source : Source}
    (hsource : source ∈ s.catalog.inputs) {x : Nat → Nat → Float}
    (hx : ∀ row col, e.program.evaluate (s.catalog.slotsAt row col) = .ok (.row [x row col])) :
    s.Writes i e.source t source.raster x := by
  have hmem := List.mem_of_getElem? he
  have hsettled := h.expressions e hmem
  refine ⟨?_, fun hcancelled cores region hwithin => ?_, fun cores region outs hrun => ?_⟩
  · obtain ⟨plan, hplan⟩ := h.catalog.wellFormed.exists_plan s.expressions
    refine ⟨plan, e, hplan, he, rfl, houtput, fun ctx hctx row col hrow hcol => ?_⟩
    have hcell : InGrids s.catalog.inputs row col := by
      intro other hother
      obtain ⟨hrows, hcols⟩ := h.catalog.oneExtent other hother source hsource
      exact ⟨hrows ▸ hrow, hcols ▸ hcol⟩
    rw [hctx.evaluate_moveTo hplan hmem hcell, hx]
  · obtain ⟨first, rest, hinputs⟩ := List.exists_cons_of_ne_nil (List.ne_nil_of_mem hsource)
    have hfirst : s.catalog.inputs.head? = some first := by rw [hinputs]; rfl
    obtain ⟨hrows, hcols⟩ :=
      h.catalog.oneExtent source hsource first (List.mem_of_mem_head? hfirst)
    have hcheck : s.checkPass region = .ok first.raster.transform :=
      checkPass_eq_ok_iff.2 ⟨first, hfirst, List.ne_nil_of_mem hmem, hrows ▸ hcols ▸ hwithin, rfl⟩
    obtain ⟨outs, hrun, -⟩ := h.runRegion_holds hcancelled hcheck cores
    exact ⟨outs, congrArg Prod.fst hrun⟩
  · obtain ⟨transform, houts⟩ := h.holds_of_runRegion hrun
    obtain ⟨o, ho, hholds⟩ := exists_getElem?_of_forall₂ houts he
    refine ⟨o, ho, hholds.source, fun row col hrow hcol => ?_⟩
    have hsample : (e.samplesAt s.catalog (region.rowOffset + row)
        (region.colOffset + col)).1[0]? =
          some (t.clamp (x (region.rowOffset + row) (region.colOffset + col))).1 := by
      rw [Compiled.samplesAt, hx, houtput]
      rfl
    have hband : 0 < e.output.bands := by rw [houtput]; exact Nat.one_pos
    have hget := hholds.get?_eq hsettled hband hrow hcol hsample
    rwa [houtput] at hget

/-- A formula that is compiled has its place behind the others, and however the session goes on, it
stays there, and so do the variables that it reads. -/
theorem Reachable.added (h : s.Reachable) {text : String} {t : PixelType} {e : Compiled}
    {c : Catalog} (hcompile : s.catalog.compile text t = (.ok e, c)) :
    ∃ next, s.compileTyped text t = (.ok s.expressions.length, next) ∧ ∀ requests,
      (next.performAll requests).Reachable ∧ c.Grows (next.performAll requests).catalog ∧
      ∃ generation, (next.performAll requests).expressions[s.expressions.length]? =
        some { e with generation } := by
  obtain ⟨next, hadded⟩ : ∃ next, s.compileTyped text t = (.ok s.expressions.length, next) :=
    ⟨_, compileTyped_of_ok (congrArg Prod.fst hcompile)⟩
  obtain ⟨e', hmade, hplace⟩ := getElem?_of_compileTyped hadded
  rw [hcompile] at hmade
  obtain rfl : e = e' := Except.ok.inj hmade
  have hnext : next.Reachable := by
    have hstep := h.compileTyped text t
    rwa [hadded] at hstep
  obtain rfl : next.catalog = c := by
    have hcatalog := s.catalog_compileTyped text t
    rwa [hadded, hcompile] at hcatalog
  exact ⟨next, hadded, fun requests => ⟨hnext.performAll requests,
    (hnext.settled.catalog.wellFormed.leadsTo (hnext.leadsTo_performAll requests)).2,
    hnext.keepsFormulas requests _ _ hplace⟩⟩

/-- **Convolutions**: compiling the convolution of a declared matrix with a window of a band is
refused with a dimensionality fault if the matrix and the window have not equally many cells. Else
it adds a formula of one band, and whatever requests come after, this formula is worth at each cell
of the grid the sum over the window: the cells of the matrix, row by row, times the samples of the
band that they lie on, those outside the grid being no number, added up in this order from the
negative zero. Neither where a worker has been before nor the region, the parts and the workers of a
pass can be seen in what is written. -/
theorem Reachable.convolution (h : s.Reachable) {kernel : String} {v : Variable} {m : Matrix}
    (hkernel : s.catalog.lookup kernel = .ok v) (hmatrix : v.kind = .matrix m) {image : Nat}
    {source : Source} (hsource : s.catalog.inputs[image]? = some source)
    {band width height : String} {j : Nat} {w : Window} (hband : Catalog.Spells band j)
    (hwidth : Catalog.Spells width w.width) (hheight : Catalog.Spells height w.height)
    (hpos : 1 ≤ j) (hle : j ≤ source.raster.bands) (t : PixelType) :
    let text := callText "conv"
      [kernel, Catalog.positionalRoot image ++ Catalog.windowSpelling band width height]
    (m.rows * m.cols ≠ w.width * w.height → (s.compileTyped text t).1 =
      .error (.dimensionality text (.function .conv) (.kernelElements m.shape)
        (.window ⟨w.height, w.width⟩))) ∧
    (m.rows * m.cols = w.width * w.height →
      ∃ next, s.compileTyped text t = (.ok s.expressions.length, next) ∧
        ∀ requests, (next.performAll requests).Writes s.expressions.length text t source.raster
          fun row col => convolutionAt m source.raster (j - 1) row col w) := by
  intro text
  obtain ⟨slot, slot', v', c', hslot, hslot', hkey, hcompile⟩ :=
    h.settled.catalog.compile_convolution hkernel hmatrix hsource hband hwidth hheight hpos hle t
  refine ⟨fun hsize => ?_, fun hsize => ?_⟩
  · rw [if_neg hsize] at hcompile
    rw [compileTyped_of_error (congrArg Prod.fst hcompile)]
  · rw [if_pos hsize] at hcompile
    obtain ⟨next, hadded, hlater⟩ := h.added hcompile
    refine ⟨next, hadded, fun requests => ?_⟩
    obtain ⟨hreachable, hgrows, generation, hplace⟩ := hlater requests
    have hmid : (s.catalog.compile text t).2 = c' := congrArg Prod.snd hcompile
    have hinput : (next.performAll requests).catalog.inputs[image]? = some source := by
      refine getElem?_of_isPrefix hgrows.inputs ?_
      rw [← hmid, Catalog.inputs_compile]
      exact hsource
    have hvalue := Catalog.evaluate_convolution (hgrows.slots _ _ hslot) hmatrix
      (hgrows.slots _ _ hslot') hkey hinput (by show j - 1 < _; omega) hsize
    exact hreachable.settled.writes hplace rfl (List.mem_of_getElem? hinput) hvalue

namespace Sample

/-- A kernel of three rows. -/
def edge : Matrix := ⟨3, 1, [-1, 0, 2], rfl⟩

/-- The session of two by two cells in which the kernel has been declared. -/
def edged : Session :=
  valueOf (registered.2.declareMatrix "edge" 3 1 [-1, 0, 2]) (by decide +kernel)

theorem edged_reachable : edged.Reachable := by
  have hregister : (initial .standard).register MapAlgebra.Sample.source none = .ok registered :=
    eq_ok_valueOf _
  have hdeclare : registered.2.declareMatrix "edge" 3 1 [-1, 0, 2] = .ok edged := eq_ok_valueOf _
  exact .declareMatrix (.register (.initial _) hregister) hdeclare

theorem lookup_edge : edged.catalog.lookup "edge" = .ok ⟨"edge", .matrix edge⟩ := by
  have hdeclare : registered.2.declareMatrix "edge" 3 1 [-1, 0, 2] = .ok edged := eq_ok_valueOf _
  obtain ⟨c, hcatalog, h⟩ := bind_eq_ok_iff.1 hdeclare
  have hsame : c = edged.catalog := congrArg Session.catalog (Except.ok.inj h)
  rw [hsame] at hcatalog
  exact (Catalog.lookup_of_declareMatrix hcatalog).2

end Sample

/-- The kernel of three rows over windows of three columns: as many cells is all that is asked for.
In the right column of the sample the windows reach the left column and what lies outside. -/
theorem compileTyped_edge :
    let s := Sample.edged
    let source := MapAlgebra.Sample.source
    let w : Window := ⟨3, 1, rfl, rfl⟩
    s.Reachable ∧ s.catalog.lookup "edge" = .ok ⟨"edge", .matrix Sample.edge⟩ ∧
      s.catalog.inputs[0]? = some source ∧ 1 ≤ source.raster.bands ∧
      (s.compileTyped "conv(edge, im1b1N3x3)" .f64).1 =
        .error (.dimensionality "conv(edge, im1b1N3x3)" (.function .conv)
          (.kernelElements ⟨3, 1⟩) (.window ⟨3, 3⟩)) ∧
      ∃ next outs o, s.compileTyped "conv(edge, im1b1N3x1)" .f64 = (.ok 0, next) ∧
        (next.runRegion 2 ⟨0, 1, 2, 1⟩).1 = .ok outs ∧ outs[0]? = some o ∧
        ∀ row < 2, o.raster.get? 0 row 0 = some (PixelType.store .f64
          (PixelType.clamp .f64 (convolutionAt Sample.edge source.raster 0 row 1 w)).1) := by
  intro s source w
  have hsource : s.catalog.inputs[0]? = some source := rfl
  have hbands : 1 ≤ source.raster.bands := by decide +kernel
  have hone : Catalog.Spells "1" 1 := Catalog.spells_iff.2 (by decide)
  have hthree : Catalog.Spells "3" 3 := Catalog.spells_iff.2 (by decide)
  have hrefused := (Sample.edged_reachable.convolution Sample.lookup_edge rfl hsource hone
    (w := ⟨3, 3, rfl, rfl⟩) hthree hthree (Nat.le_refl 1) hbands .f64).1 (by decide)
  obtain ⟨next, hnext, hwrites⟩ := (Sample.edged_reachable.convolution Sample.lookup_edge rfl
    hsource hone (w := w) hthree hone (Nat.le_refl 1) hbands .f64).2 rfl
  have hcancelled : (s.compileTyped "conv(edge, im1b1N3x1)" .f64).2.isCancelled = false := by
    decide +kernel
  have hadded : s.compileTyped "conv(edge, im1b1N3x1)" .f64 = (.ok 0, next) := hnext
  rw [hadded] at hcancelled
  obtain ⟨outs, hrun⟩ := (hwrites []).succeeds hcancelled 2 ⟨0, 1, 2, 1⟩ rfl
  obtain ⟨o, ho, -, hget⟩ := (hwrites []).written 2 ⟨0, 1, 2, 1⟩ outs hrun
  refine ⟨Sample.edged_reachable, Sample.lookup_edge, hsource, hbands, hrefused, next, outs, o,
    hadded, hrun, ho, fun row hrow => ?_⟩
  have hsample := hget row 0 hrow Nat.one_pos
  rwa [Nat.zero_add] at hsample

end Session

end MapAlgebra

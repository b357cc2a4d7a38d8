import MapAlgebra.Proofs.Catalog.Generation

/-!
# Operations in place

The operations of a catalog give back a new catalog, so one that is refused can leave nothing
behind. A catalog that is written in place has no such protection: a check that fails ends the
operation, but what has been written until then stays (`Catalog.Update`). This module has the
operations as updates of one catalog, each check and each write where it takes place
(`Operation.inPlace`), and shows that they answer what the operations answer and leave the catalog
that these leave (**`Operation.on_inPlace`**). A registration and a declaration make all their
checks before the first write; a compilation looks up one name after the other, and writes in
between.
-/

namespace MapAlgebra.Catalog

open MapAlgebra.Expr

variable {c c' : Catalog}

/-! ### Updates -/

/-- Checks and writes on one catalog, one after the other. A check that fails ends them, and what
has been written until then stays written. -/
abbrev Update := ExceptT Failure (StateM Catalog)

namespace Update

variable {α β : Type}

/-- The answer of an update of a catalog, and the catalog that it leaves. -/
def on (x : Update α) (c : Catalog) : Except Failure α × Catalog := x.run.run c

/-- A check of the catalog as it is at this point. -/
def check (f : Catalog → Except Failure α) : Update α := do
  match f (← get) with
  | .ok a => return a
  | .error e => throw e

@[simp] theorem on_pure (a : α) (c : Catalog) : (pure a : Update α).on c = (.ok a, c) := rfl

@[simp] theorem on_throw (e : Failure) (c : Catalog) :
    (throw e : Update α).on c = (.error e, c) := rfl

@[simp] theorem on_get (c : Catalog) : (get : Update Catalog).on c = (.ok c, c) := rfl

@[simp] theorem on_modify (f : Catalog → Catalog) (c : Catalog) :
    (modify f : Update Unit).on c = (.ok (), f c) := rfl

@[simp] theorem on_bind (x : Update α) (f : α → Update β) (c : Catalog) :
    (x >>= f).on c =
      match x.on c with
      | (.ok a, c) => (f a).on c
      | (.error e, c) => (.error e, c) := by
  show (match x.on c with | (r, c') => (ExceptT.bindCont f r).run c') = _
  rcases x.on c with ⟨_ | _, _⟩ <;> rfl

@[simp] theorem on_check (f : Catalog → Except Failure α) (c : Catalog) :
    (check f).on c = (f c, c) := by
  unfold check
  rw [on_bind, on_get]
  dsimp only
  cases f c <;> rfl

/-- An update whose refusal is looked at goes on, with what has been written. -/
@[simp] theorem on_observing (x : Update α) (c : Catalog) :
    (observing x).on c = (.ok (x.on c).1, (x.on c).2) := by
  unfold observing
  simp only [Update.on, tryCatch, tryCatchThe, MonadExceptOf.tryCatch, ExceptT.tryCatch, bind,
    ExceptT.bind, ExceptT.run, ExceptT.mk, StateT.bind, StateT.run, ExceptT.bindCont, pure,
    ExceptT.pure]
  rcases x c with ⟨_ | _, _⟩ <;> rfl

theorem on_discard (x : Update α) (c : Catalog) :
    (discard x).on c = ((x.on c).1.map fun _ => (), (x.on c).2) := by
  have hbind : discard x = x >>= fun _ => pure () := by
    simp only [discard, Functor.discard, map_const, bind_pure_comp, Function.comp_apply]
  rw [hbind, on_bind]
  rcases x.on c with ⟨_ | _, _⟩ <;> rfl

end Update

/-! ### The operations -/

namespace InPlace

open Update

/-- Put a variable in a new slot, under its name. -/
def push (name : String) (kind : Kind) : Update Nat := do
  let slot := (← get).slots.size
  modify fun c => { c with names := (name, slot) :: c.names }
  modify fun c => { c with slots := c.slots.push ⟨name, kind⟩ }
  return slot

/-- Enter a name of a slot. -/
def enterName (name : String) (slot : Nat) : Update Unit :=
  modify fun c => { c with names := (name, slot) :: c.names }

/-- Enter a root of an input. -/
def enterRoot (image : Nat) (root : String) : Update Unit :=
  modify fun c => { c with roots := (root, image) :: c.roots }

/-- Refuse a root that is in use, or one of whose names is in use. -/
def refuseTaken (entries : List (String × Kind)) (root : String) : Update Unit := do
  if (← get).hasRoot root then throw (.nameCollision root)
  forM entries fun e => do
    if (← get).hasName (root ++ e.1) then throw (.nameCollision (root ++ e.1))

/-- Make a variable of an input, under its root and its aliases. -/
def pushEntry (root : String) (aliases : List String) (e : String × Kind) : Update Unit := do
  let slot ← push (root ++ e.1) e.2
  forM aliases fun a => enterName (a ++ e.1) slot

/-- Register an input. -/
def register (source : Source) (alias? : Option String) : Update Nat := do
  check (·.checkInput source.raster)
  let image := (← get).inputs.length
  let root := positionalRoot image
  let aliases ← check (·.checkAlias root alias?)
  let entries := endings image source.raster.bands
  forM (root :: aliases) (refuseTaken entries)
  -- everything has been checked before the first write
  forM entries (pushEntry root aliases)
  forM (root :: aliases).reverse (enterRoot image)
  modify fun c => { c with inputs := c.inputs ++ [source] }
  modify advance
  return image

/-- Declare a number. -/
def declareConstant (name : String) (x : Float) : Update Unit := do
  check (·.checkAvailable name)
  discard <| push name (.constant x)
  modify advance

/-- Declare a matrix. -/
def declareMatrix (name : String) (rows cols : Nat) (values : List Float) : Update Unit := do
  check (·.checkAvailable name)
  let fault := Failure.dimensionality name .declaration (.matrixValues ⟨rows, cols⟩)
    (.values values.length)
  if rows = 0 || cols = 0 then throw fault
  match Matrix.ofCells? rows cols values with
  | some m =>
    discard <| push name (.matrix m)
    modify advance
  | none => throw fault

/-- Declare the matrix that a text spells. -/
def declareMatrixText (name text : String) : Update Unit := do
  let m ← check fun _ => MatrixText.parse text
  declareMatrix name m.rows m.cols m.values

/-- The slot of a window, which is made if it is not there. -/
def window (key : WindowKey) : Update Nat := do
  match (← get).windows.lookup key with
  | some slot => return slot
  | none =>
    let slot ← push (windowName key) (.window key)
    modify fun c => { c with windows := (key, slot) :: c.windows }
    return slot

/-- Look up a name, making the window that it asks for. -/
def resolve (name : String) : Update Nat := do
  match (← get).names.lookup name with
  | some slot => return slot
  | none =>
    let key ← check (·.asked name)
    let slot ← window key
    enterName name slot
    return slot

/-- Look up names in order, gathering the unknown ones. -/
def resolveAll : List String → Update Resolution
  | [] => return ⟨[], []⟩
  | name :: rest => do
    match ← observing (resolve name) with
    | .ok slot =>
      let r ← resolveAll rest
      return { r with slots := (name, slot) :: r.slots }
    | .error (.unknownVariables _ names) =>
      let r ← resolveAll rest
      return { r with unknown := names ++ r.unknown }
    | .error e => throw e

/-- Compile a text. -/
def compile (text : String) (t : PixelType) : Update Compiled := do
  match Formula.parse text with
  | .error e => throw (.ofSyntaxError text e)
  | .ok f =>
    match ← observing (resolveAll f.identifiers) with
    | .error e => throw (e.inFormula text)
    | .ok r =>
      if !r.unknown.isEmpty then throw (.unknownVariables text r.unknown)
      let program ← check fun _ => bindResolved f r.slots
      check (·.finish f program t)

end InPlace

/-- An operation in place. -/
def Operation.inPlace : Operation → Update Unit
  | .register source alias? => discard <| InPlace.register source alias?
  | .declareConstant name x => InPlace.declareConstant name x
  | .declareMatrix name rows cols values => InPlace.declareMatrix name rows cols values
  | .declareMatrixText name text => InPlace.declareMatrixText name text
  | .resolve name => discard <| InPlace.resolve name
  | .compile text t => discard <| InPlace.compile text t

namespace InPlace

open Update

@[simp] theorem on_push (name : String) (kind : Kind) (c : Catalog) :
    (push name kind).on c = (.ok (c.push name kind).1, (c.push name kind).2) := rfl

/-! ### Registration -/

theorem on_refuseTaken (entries : List (String × Kind)) (root : String) (c : Catalog) :
    (refuseTaken entries root).on c = match c.collision? entries root with
      | some name => (.error (.nameCollision name), c)
      | none => (.ok (), c) := by
  unfold refuseTaken collision?
  rw [on_bind, on_get]
  dsimp only
  cases c.hasRoot root with
  | true => exact on_throw _ c
  | false =>
    simp only [Bool.false_eq_true, ↓reduceIte]
    induction entries with
    | nil => exact on_pure () c
    | cons e rest ih =>
      rw [List.forM_cons, List.map_cons, List.find?_cons, on_bind, on_bind, on_get]
      dsimp only
      cases c.hasName (root ++ e.1) with
      | true => rfl
      | false => exact ih

theorem on_refuseAll (entries : List (String × Kind)) (roots : List String) (c : Catalog) :
    (forM roots (refuseTaken entries)).on c = match roots.findSome? (c.collision? entries) with
      | some name => (.error (.nameCollision name), c)
      | none => (.ok (), c) := by
  induction roots with
  | nil => rfl
  | cons root rest ih =>
    rw [List.forM_cons, on_bind, on_refuseTaken, List.findSome?_cons]
    cases c.collision? entries root with
    | some name => rfl
    | none => exact ih

theorem on_enterNames (aliases : List String) (ending : String) (slot : Nat) (c : Catalog) :
    (forM aliases fun a => enterName (a ++ ending) slot).on c =
      (.ok (), { c with
        names := aliases.reverse.map (fun a => (a ++ ending, slot)) ++ c.names }) := by
  induction aliases generalizing c with
  | nil => rfl
  | cons a as ih =>
    rw [List.forM_cons, on_bind, enterName, on_modify]
    dsimp only
    rw [ih]
    simp

theorem on_pushEntries (root : String) (aliases : List String) (entries : List (String × Kind))
    (c : Catalog) : (forM entries (pushEntry root aliases)).on c =
      (.ok (), c.addEntries root aliases.reverse entries) := by
  induction entries generalizing c with
  | nil => rfl
  | cons e rest ih =>
    obtain ⟨ending, kind⟩ := e
    rw [List.forM_cons, on_bind, pushEntry, on_bind, on_push]
    dsimp only
    rw [on_enterNames]
    exact ih _

theorem on_enterRoots (image : Nat) (roots : List String) (c : Catalog) :
    (forM roots.reverse (enterRoot image)).on c =
      (.ok (), { c with roots := roots.map (·, image) ++ c.roots }) := by
  induction roots generalizing c with
  | nil => rfl
  | cons r rs ih =>
    rw [List.reverse_cons, List.forM_append, on_bind, ih]
    exact on_modify _ _

theorem on_register (source : Source) (alias? : Option String) (c : Catalog) :
    (register source alias?).on c = match c.register source alias? with
      | .ok (image, c') => (.ok image, c')
      | .error e => (.error e, c) := by
  unfold register Catalog.register
  simp only [on_bind, on_check, on_get]
  cases c.checkInput source.raster with
  | error e => rfl
  | ok =>
    dsimp only
    cases halias : c.checkAlias (positionalRoot c.inputs.length) alias? with
    | error e => rfl
    | ok aliases =>
      -- there is one alias at most, so it does not show that names are entered in front
      have hreverse : aliases.reverse = aliases := by
        rcases checkAlias_eq_ok halias with rfl | ⟨name, rfl, -⟩ <;> rfl
      dsimp only
      rw [on_refuseAll]
      simp only [bind, Except.bind]
      cases List.findSome? (c.collision? (endings c.inputs.length source.raster.bands))
          (positionalRoot c.inputs.length :: aliases) with
      | some name => rfl
      | none =>
        dsimp only
        rw [on_pushEntries, hreverse]
        dsimp only
        rw [on_enterRoots]
        rfl

/-! ### Declarations -/

theorem on_declareConstant (name : String) (x : Float) (c : Catalog) :
    (declareConstant name x).on c = c.settle (c.declareConstant name x) id := by
  unfold declareConstant Catalog.declareConstant
  rw [on_bind, on_check]
  cases c.checkAvailable name <;> rfl

theorem on_declareMatrix (name : String) (rows cols : Nat) (values : List Float) (c : Catalog) :
    (declareMatrix name rows cols values).on c =
      c.settle (c.declareMatrix name rows cols values) id := by
  unfold declareMatrix Catalog.declareMatrix
  rw [on_bind, on_check]
  cases c.checkAvailable name with
  | error e => rfl
  | ok =>
    simp only [bind, Except.bind]
    cases (decide (rows = 0) || decide (cols = 0)) with
    | true => rfl
    | false => cases Matrix.ofCells? rows cols values <;> rfl

theorem on_declareMatrixText (name text : String) (c : Catalog) :
    (declareMatrixText name text).on c = c.settle (c.declareMatrixText name text) id := by
  unfold declareMatrixText Catalog.declareMatrixText
  rw [on_bind, on_check]
  cases MatrixText.parse text with
  | error e => rfl
  | ok m => exact on_declareMatrix name m.rows m.cols m.values c

/-! ### Looking up names -/

theorem on_window (name : String) (key : WindowKey) (c : Catalog) :
    (window key >>= fun slot => enterName name slot >>= fun _ => pure slot).on c =
      (.ok (c.addWindow name key).1, (c.addWindow name key).2) := by
  unfold window addWindow
  rw [on_bind, on_bind, on_get]
  dsimp only
  cases c.windows.lookup key <;> rfl

theorem on_resolve (name : String) (c : Catalog) :
    (resolve name).on c = match c.resolve name with
      | .ok (slot, c') => (.ok slot, c')
      | .error e => (.error e, c) := by
  unfold resolve
  rw [on_bind, on_get]
  dsimp only
  cases hname : c.names.lookup name with
  | some slot =>
    rw [resolve_of_lookup hname]
    rfl
  | none =>
    rw [resolve_of_not_used hname]
    dsimp only
    rw [on_bind, on_check]
    cases c.asked name with
    | error e => rfl
    | ok key => exact on_window name key c

theorem on_resolveAll (names : List String) (c : Catalog) :
    (resolveAll names).on c = c.resolveAll names := by
  induction names generalizing c with
  | nil => rfl
  | cons name rest ih =>
    unfold resolveAll Catalog.resolveAll
    rw [on_bind, on_observing, on_resolve]
    cases hresolve : c.resolve name with
    | ok r =>
      obtain ⟨slot, c'⟩ := r
      simp only [on_bind, ih]
      rcases c'.resolveAll rest with ⟨_ | _, _⟩ <;> rfl
    | error e =>
      cases e with
      | unknownVariables text names =>
        simp only [on_bind, ih]
        rcases c.resolveAll rest with ⟨_ | _, _⟩ <;> rfl
      | _ => rfl

theorem on_compile (text : String) (t : PixelType) (c : Catalog) :
    (compile text t).on c = c.compile text t := by
  unfold compile Catalog.compile
  cases Formula.parse text with
  | error e => rfl
  | ok f =>
    dsimp only
    rw [on_bind, on_observing, on_resolveAll]
    rcases c.resolveAll f.identifiers with ⟨e | r, c'⟩
    · rfl
    · dsimp only
      cases r.unknown.isEmpty with
      | false => rfl
      | true =>
        simp only [Bool.not_true, Bool.false_eq_true, ↓reduceIte, on_bind, on_check]
        cases bindResolved f r.slots <;> rfl

end InPlace

/-- **Operations in place** answer what the operations answer, and leave the catalog that these
leave, whether they are refused or not. -/
theorem Operation.on_inPlace (op : Operation) (c : Catalog) : op.inPlace.on c = op.outcome c := by
  cases op with
  | register source alias? =>
    rw [inPlace, Update.on_discard, InPlace.on_register, outcome]
    cases c.register source alias? <;> rfl
  | declareConstant name x => exact InPlace.on_declareConstant name x c
  | declareMatrix name rows cols values => exact InPlace.on_declareMatrix name rows cols values c
  | declareMatrixText name text => exact InPlace.on_declareMatrixText name text c
  | resolve name =>
    rw [inPlace, Update.on_discard, InPlace.on_resolve, outcome]
    cases c.resolve name <;> rfl
  | compile text t =>
    rw [inPlace, Update.on_discard, InPlace.on_compile]
    rfl

end MapAlgebra.Catalog

import MapAlgebra.Proofs.Value.Alike

/-!
# Faults that lie in values

What an operator or a function finds wrong with its operands is their shape or a number among their
samples (`EvalError.OfValues`); where an operand came from makes no difference to it. Main
statements: **`BinaryOp.overValues_apply`** and **`Function.overValues_apply`**.
-/

namespace MapAlgebra

/-- A fault that lies in values, and not in a variable that has none. -/
def EvalError.OfValues : EvalError → Prop
  | .unboundSlot _ => False
  | _ => True

/-- Whatever goes wrong in a computation lies in values. -/
def OverValues {α : Type} (x : Except EvalError α) : Prop :=
  Meets (fun _ => True) EvalError.OfValues x

namespace OverValues

variable {α β : Type}

theorem bind {x : Except EvalError α} {f : α → Except EvalError β} (hx : OverValues x)
    (hf : ∀ a, OverValues (f a)) : OverValues (x >>= f) :=
  Meets.bind hx fun a _ => hf a

theorem mapM {f : α → Except EvalError β} (hf : ∀ a, OverValues (f a)) (as : List α) :
    OverValues (as.mapM f) :=
  (Meets.mapM hf as).mono (fun _ _ => trivial) fun _ he => he

end OverValues

/-! ### Operands of a required shape -/

namespace Value

theorem overValues_expectScalar (op : Operation) (v : Value) : OverValues (v.expectScalar op) := by
  unfold expectScalar
  split <;> trivial

theorem overValues_expectRow (op : Operation) (required : Requirement) (v : Value) :
    OverValues (v.expectRow op required) := by
  unfold expectRow
  split <;> trivial

theorem overValues_zipWith (op : Operation) (f : Float → Float → Float) (a b : Value) :
    OverValues (zipWith op f a b) := by
  unfold zipWith
  split <;> trivial

end Value

theorem Matrix.overValues_ofCells (rows cols : Nat) (cells : List Float) :
    OverValues (ofCells rows cols cells) := by
  unfold ofCells
  split <;> trivial

/-! ### Operators -/

/-- **Operators** find nothing wrong but with values. -/
theorem BinaryOp.overValues_apply (op : BinaryOp) (a b : Value) : OverValues (op.apply a b) := by
  unfold apply
  split
  · exact Value.overValues_zipWith ..
  · have hscalar := b.overValues_expectScalar (.binary op)
    split
    · trivial
    · next e he => rwa [he] at hscalar
  · split
    · next l r =>
      unfold Matrix.product
      split <;> trivial
    · exact Value.overValues_zipWith ..

/-! ### Functions -/

theorem overValues_selectBands (vector indices : Value) :
    OverValues (selectBands vector indices) := by
  have hpick : ∀ components index, OverValues (pick components index) := by
    intro components index
    refine (meets_pick components index).mono (fun _ h => h) ?_
    rintro _ ⟨_, _, rfl⟩
    trivial
  exact (vector.overValues_expectRow ..).bind fun components =>
    (indices.overValues_expectRow ..).bind fun picks =>
      (OverValues.mapM (hpick components) picks).bind fun _ => trivial

theorem overValues_concatenate (args : List Value) : OverValues (concatenate args) :=
  (OverValues.mapM (fun a => a.overValues_expectRow _ _) args).bind fun _ => trivial

theorem overValues_correlate (a b : Value) : OverValues (correlate a b) := by
  unfold correlate
  split
  · split <;> trivial
  · trivial

theorem overValues_convolve (kernel : Value) (windows : List Value) :
    OverValues (convolve kernel windows) := by
  have hsum : ∀ window, OverValues (weightedSum kernel window) := by
    intro window
    unfold weightedSum
    split <;> trivial
  exact (OverValues.mapM hsum windows).bind fun _ => trivial

/-- **Functions** find nothing wrong but with values. -/
theorem Function.overValues_apply (f : Function) (args : List Value) :
    OverValues (f.apply args) := by
  unfold apply
  dsimp only
  split
  case h_1 a | h_11 a => exact (a.overValues_expectScalar _).bind fun _ => trivial
  case h_4 a b | h_5 a b =>
    exact (a.overValues_expectScalar _).bind fun _ =>
      (b.overValues_expectScalar _).bind fun _ => trivial
  case h_6 a b => exact overValues_selectBands a b
  case h_7 => exact overValues_concatenate _
  case h_12 a b => exact overValues_correlate a b
  case h_13 kernel window rest => exact overValues_convolve kernel (window :: rest)
  all_goals trivial

end MapAlgebra

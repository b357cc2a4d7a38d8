import MapAlgebra.Operator

/-!
# Functions of the formula language

Which functions there are, the names they answer to, and how many arguments each takes. Most belong
to one of three families: an elementary function of one scalar, the same function applied to every
cell of a matrix (its name starts with `v`), and a reduction of each argument to one number.
-/

namespace MapAlgebra

/-- The elementary functions of one number. -/
inductive Elementary where
  | sin | cos | tan | asin | acos | atan | sinh | cosh | tanh | exp
  /-- The natural logarithm. -/
  | log
  | log10 | log2 | sqrt | abs | floor | ceil
  /-- The nearest whole number, halves away from zero. -/
  | round
  | sign
  deriving DecidableEq, Repr

/-- The reductions of a list of samples to one number. -/
inductive Reduction where
  | min | max | mean
  /-- The variance. -/
  | var
  | median | sum
  /-- The most frequent sample. -/
  | maj
  deriving DecidableEq, Repr

/-- The functions a formula can call. -/
inductive Function where
  /-- An elementary function of a scalar. -/
  | scalar (f : Elementary)
  /-- An elementary function of every cell. -/
  | cellwise (f : Elementary)
  /-- A reduction of each argument. -/
  | reduce (r : Reduction)
  /-- The angle of a point, ordinate first. -/
  | atan2
  /-- The normalised difference of two samples. -/
  | ndvi
  /-- The components of a row that a second row numbers. -/
  | bands
  /-- The row of all components of rows and scalars. -/
  | cat
  /-- The least cell. -/
  | vmin
  /-- The greatest cell. -/
  | vmax
  /-- The Euclidean norm of the cells. -/
  | vnorm
  /-- A matrix of one cell as a scalar. -/
  | vect2scal
  /-- The correlation of two matrices. -/
  | corr
  /-- The weighted sums of windows under a kernel. -/
  | conv
  deriving DecidableEq, Repr

/-- The name of an elementary function. -/
def Elementary.name : Elementary → String
  | .sin => "sin"
  | .cos => "cos"
  | .tan => "tan"
  | .asin => "asin"
  | .acos => "acos"
  | .atan => "atan"
  | .sinh => "sinh"
  | .cosh => "cosh"
  | .tanh => "tanh"
  | .exp => "exp"
  | .log => "log"
  | .log10 => "log10"
  | .log2 => "log2"
  | .sqrt => "sqrt"
  | .abs => "abs"
  | .floor => "floor"
  | .ceil => "ceil"
  | .round => "round"
  | .sign => "sign"

/-- The name of a reduction. -/
def Reduction.name : Reduction → String
  | .min => "min"
  | .max => "max"
  | .mean => "mean"
  | .var => "var"
  | .median => "median"
  | .sum => "sum"
  | .maj => "maj"

/-! ### Arity -/

/-- How many arguments a function takes. -/
inductive Arity where
  /-- So many and no others. -/
  | exactly (n : Nat)
  /-- So many or more. -/
  | atLeast (n : Nat)
  deriving DecidableEq, Repr

/-- Whether an argument count is allowed. -/
def Arity.accepts : Arity → Nat → Bool
  | .exactly n, count => count == n
  | .atLeast n, count => n ≤ count

/-- A count of arguments in words. -/
def argumentsText (n : Nat) : String :=
  if n = 1 then "1 argument" else s!"{n} arguments"

/-- An arity in words. -/
def Arity.text : Arity → String
  | .exactly n => argumentsText n
  | .atLeast n => "at least " ++ argumentsText n

namespace Function

/-- The name a function is reported under. -/
def name : Function → String
  | .scalar f => f.name
  | .cellwise f => "v" ++ f.name
  | .reduce r => r.name
  | .atan2 => "atan2"
  | .ndvi => "ndvi"
  | .bands => "bands"
  | .cat => "cat"
  | .vmin => "vmin"
  | .vmax => "vmax"
  | .vnorm => "vnorm"
  | .vect2scal => "vect2scal"
  | .corr => "corr"
  | .conv => "conv"

/-- The arity of a function. -/
def arity : Function → Arity
  | .atan2 | .ndvi | .corr | .bands => .exactly 2
  | .cat | .reduce _ => .atLeast 1
  | .conv => .atLeast 2
  | _ => .exactly 1

/-! ### Names in formulas -/

/-- The elementary functions of a scalar, each under its names. -/
def scalarNames : List (String × Function) :=
  [("sin", .scalar .sin), ("cos", .scalar .cos), ("tan", .scalar .tan), ("asin", .scalar .asin),
    ("acos", .scalar .acos), ("atan", .scalar .atan), ("sinh", .scalar .sinh),
    ("cosh", .scalar .cosh), ("tanh", .scalar .tanh), ("exp", .scalar .exp), ("log", .scalar .log),
    ("ln", .scalar .log), ("log10", .scalar .log10), ("log2", .scalar .log2),
    ("sqrt", .scalar .sqrt), ("abs", .scalar .abs), ("floor", .scalar .floor),
    ("ceil", .scalar .ceil), ("round", .scalar .round), ("sign", .scalar .sign)]

/-- The elementary functions that also apply to every cell of a matrix. -/
def cellwiseNames : List (String × Function) :=
  [("vsin", .cellwise .sin), ("vcos", .cellwise .cos), ("vtan", .cellwise .tan),
    ("vasin", .cellwise .asin), ("vacos", .cellwise .acos), ("vatan", .cellwise .atan),
    ("vsinh", .cellwise .sinh), ("vcosh", .cellwise .cosh), ("vtanh", .cellwise .tanh),
    ("vexp", .cellwise .exp), ("vlog", .cellwise .log), ("vlog10", .cellwise .log10),
    ("vsqrt", .cellwise .sqrt), ("vabs", .cellwise .abs)]

/-- Every name of a function, in the order in which they are listed. -/
def registry : List (String × Function) :=
  scalarNames ++ [("atan2", .atan2), ("ndvi", .ndvi)] ++ cellwiseNames ++
    [("bands", .bands), ("cat", .cat), ("min", .reduce .min), ("max", .reduce .max),
      ("mean", .reduce .mean), ("var", .reduce .var), ("median", .reduce .median),
      ("sum", .reduce .sum), ("maj", .reduce .maj), ("vmin", .vmin), ("vmax", .vmax),
      ("vnorm", .vnorm), ("vect2scal", .vect2scal), ("corr", .corr), ("conv", .conv),
      ("dotpr", .conv)]

/-- The function that answers to `name`. -/
def lookup (name : String) : Option Function :=
  registry.lookup name

end Function

/-- The names that stand for a number: the circle constant and the base of the natural logarithm,
each as the nearest double. -/
def namedConstants : List (String × Float) :=
  [("pi", Float.ofBits 0x400921fb54442d18), ("e", Float.ofBits 0x4005bf0a8b145769)]

/-- The names that no declaration may take: those of functions, of constants and of word
operators. -/
def reservedNames : List String :=
  Function.registry.map (·.1) ++ namedConstants.map (·.1) ++ BinaryOp.words.map (·.symbol)

end MapAlgebra

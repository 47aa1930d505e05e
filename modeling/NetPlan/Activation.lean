import NetPlan.Single
import NetPlan.Text.Named

/-!
# Activation — functions applied to a result

An activation is a function with up to two scalar parameters `m` and `n`; `none` leaves the result
as it is.
-/

namespace NetPlan

/-- The functions that can be applied to a result. -/
inductive ActivationFunction where
  | none
  | logistic
  | hyperbolic
  | relu
  | reluNegativeSlope
  | clamp
  | linear
  | abs
  | sqrt
  | square
  | elu
  deriving DecidableEq, Inhabited

namespace ActivationFunction

/-- Every function, in the order of the source kernels. -/
def all : List ActivationFunction :=
  [.none, .logistic, .hyperbolic, .relu, .reluNegativeSlope, .clamp, .linear, .abs, .sqrt, .square,
    .elu]

/-- The function as it is spelled in dumps. -/
def name : ActivationFunction → String
  | .none => "None"
  | .logistic => "Logistic"
  | .hyperbolic => "Hyperbolic"
  | .relu => "Relu"
  | .reluNegativeSlope => "ReluNegativeSlope"
  | .clamp => "Clamp"
  | .linear => "Linear"
  | .abs => "Abs"
  | .sqrt => "Sqrt"
  | .square => "Square"
  | .elu => "Elu"

end ActivationFunction

instance : Named ActivationFunction := ⟨ActivationFunction.all, ActivationFunction.name⟩

/-- A function and its two scalar parameters. -/
structure Activation where
  function : ActivationFunction
  m : Single
  n : Single
  deriving DecidableEq, Inhabited

namespace Activation

/-- No activation. -/
def none : Activation := ⟨.none, Single.zero, Single.zero⟩

/-- Whether nothing is applied; the parameters do not matter then. -/
def isNone (a : Activation) : Bool := a.function = .none

end Activation

end NetPlan

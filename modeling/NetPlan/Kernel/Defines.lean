import NetPlan.Kernel.Request
import NetPlan.Single.Decimal

/-!
# Kernel/Defines — constants compiled into kernel source

A list of names and values, in the order in which they are defined; a later definition of a name
hides an earlier one.
-/

namespace NetPlan.Kernel

/-- Definitions, in order. -/
abbrev Defines := List (String × String)

namespace Defines

/-- The value a name ends up with. -/
def get? (ds : Defines) (name : String) : Option String :=
  (ds.reverse.find? (·.1 = name)).map (·.2)

/-- One numeric definition. -/
def num (name : String) (value : Nat) : String × String := (name, toString value)

/-- Type, arrangement, sizes, pitches and offset of a data tensor. -/
def ofTensor (stem : String) (t : DataTensor) : Defines :=
  let axis (suffix : String) (a : Axis) : Defines :=
    [num s!"{stem}_SIZE_{suffix}" (t.extent a), num s!"{stem}_PITCH_{suffix}" (t.pitch a)]
  [(s!"{stem}_TYPE", t.element.sourceName), (s!"{stem}_LAYOUT", t.layout.name.toLower)]
    ++ axis "X" .x ++ axis "Y" .y ++ axis "FEATURE_NUM" .feature ++ axis "BATCH_NUM" .batch
    ++ [num s!"{stem}_OFFSET" t.offset]

/-- Type, arrangement and sizes of weights. -/
def ofWeights (stem : String) (w : WeightTensor) : Defines :=
  [(s!"{stem}_TYPE", w.element.sourceName), (s!"{stem}_LAYOUT", w.layout.name.toLower),
    num s!"{stem}_OFM_NUM" w.outputs, num s!"{stem}_IFM_NUM" w.inputs,
    num s!"{stem}_SIZE_X" w.x, num s!"{stem}_SIZE_Y" w.y]

/-- The activation as the kernel source spells it. -/
def functionName : ActivationFunction → String
  | .none => "NONE"
  | .logistic => "LOGISTIC"
  | .hyperbolic => "HYPERBOLIC_TAN"
  | .relu => "RELU"
  | .reluNegativeSlope => "RELU_NEGATIVE_SLOPE"
  | .clamp => "CLAMP"
  | .linear => "LINEAR"
  | .abs => "ABS"
  | .sqrt => "SQRT"
  | .square => "SQUARE"
  | .elu => "ELU"

/-- The activation, with its parameters unless there is none. -/
def ofActivation (a : Activation) : Defines :=
  ("ACTIVATION_FUNCTION", functionName a.function)
    :: (if a.isNone then [] else [("NL_M", a.m.text), ("NL_N", a.n.text)])

/-- Every input, the output and the activation. -/
def ofOperands (o : Operands) : Defines :=
  (o.inputs.zipIdx.flatMap fun (t, i) => ofTensor s!"INPUT{i}" t)
    ++ ofTensor "OUTPUT" o.output ++ ofActivation o.activation

/-- The weights, and the bias if there is one. -/
def ofFilter (f : Filter) : Defines :=
  ofWeights "FILTER" f.weights
    ++ match f.bias with
      | [] => [num "BIAS_TERM" 0]
      | b :: _ => num "BIAS_TERM" 1 :: ofTensor "BIAS" b

end Defines

end NetPlan.Kernel

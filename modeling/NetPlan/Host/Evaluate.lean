import NetPlan.Activation
import NetPlan.Graph.Node
import NetPlan.Host.Tensor

/-!
# Host/Evaluate — the values of constant nodes

An `Evaluator` says which nodes it takes, and computes the buffer of one from the buffers of its
dependencies.  `Evaluator.reference` unpacks them, works on dense tensors, and packs the result.
-/

namespace NetPlan

/-! ## Activations on values -/

namespace Single

/-- Moved to the nearest bound if outside; a NaN stays one. -/
def clamp (a low high : Single) : Single :=
  if a.lt low then low else if high.lt a then high else a

end Single

/-- Applies an activation to a value.  Only bounds that do not enclose anything have no result. -/
def Activation.apply (a : Activation) (x : Single) : Except EvalError Single :=
  match a.function with
  | .none => .ok x
  | .logistic => .ok (Single.one / (Single.one + x.neg.exp))
  | .hyperbolic => .ok x.tanh
  | .relu => .ok (x.max Single.zero)
  | .reluNegativeSlope => .ok (if Single.zero.lt x then x else x * a.m)
  | .clamp => if a.m.le a.n then .ok (x.clamp a.m a.n) else .error (.fault .invertedBounds)
  | .linear => .ok (a.m * x + a.n)
  | .abs => .ok x.abs
  | .sqrt => .ok x.sqrt
  | .square => .ok (x * x)
  | .elu => .ok (if Single.zero.lt x then x else a.m * (x.exp - Single.one))

/-! ## Evaluators -/

/-- A buffer and its layout. -/
structure ConstantValue where
  layout : Layout
  values : Buffer
  deriving DecidableEq

/-- A way to compute nodes whose dependencies are known. -/
structure Evaluator where
  name : String
  canEvaluate : Node → List Layout → Layout → Bool
  evaluate : Node → List ConstantValue → Layout → Except EvalError Buffer

namespace Host

/-- Stops with a reason. -/
def fail {α : Type} (reason : String) : Except EvalError α := .error (.failed reason)

/-- The input less a value per feature. -/
def reorderValues (r : Reorder) (inputs : List HostTensor) : Except EvalError HostTensor :=
  match inputs with
  | [input] =>
    if r.subtract.isEmpty then .ok input
    else if r.subtract.length ≠ input.size.feature then
      fail s!"{r.subtract.length} subtract values for {input.size.feature} features"
    else
      let subtract := r.subtract.toArray
      HostTensor.tabulate input.size fun c => do
        return (← input.get c) - (← readAt subtract (some c.f))
  | _ => fail "reorder expects one input"

/-- Two operands of an element-wise combination. -/
def combine (mode : Kernel.EltwiseMode) (a b : Single) : Single :=
  match mode with
  | .sum => a + b
  | .sub => a - b
  | .prod => a * b
  | .max => a.max b
  | .min => a.min b

/-- The inputs combined element by element, each times its coefficient. -/
def eltwiseValues (e : Eltwise) (inputs : List HostTensor) (output : Shape) :
    Except EvalError HostTensor :=
  if inputs.isEmpty then fail "eltwise needs at least one input"
  else
    HostTensor.tabulate output fun c => do
      let operands ← inputs.zipIdx.mapM fun (input, i) => do
        return (← input.getBroadcast c) * (e.coefficients[i]?.getD Single.one)
      match operands with
      | [] => return Single.zero
      | first :: rest => return rest.foldl (combine e.mode) first

/-- The activation of every element; a second input gives a slope per feature. -/
def activationValues (a : ActivationOp) (inputs : List HostTensor) : Except EvalError HostTensor :=
  match inputs with
  | [input] => input.mapM a.activation.apply
  | [input, slope] =>
    if slope.values.size ≠ input.size.feature then
      fail s!"{slope.values.size} slopes for {input.size.feature} features"
    else
      HostTensor.tabulate input.size fun c => do
        let m ← readAt slope.values (some c.f)
        { a.activation with m := m }.apply (← input.get c)
  | _ => fail "activation expects an input and an optional slope"

/-- Every element times the factor of its feature, plus the bias if there is one. -/
def scaleValues (inputs : List HostTensor) (output : Shape) : Except EvalError HostTensor :=
  match inputs with
  | input :: scale :: rest =>
    HostTensor.tabulate output fun c => do
      let bias ←
        match rest with
        | [] => pure Single.zero
        | bias :: _ => bias.getBroadcast c
      return (← input.get c) * (← scale.getBroadcast c) + bias
  | _ => fail "scale expects an input and a scale"

/-- Every element less the mean of its feature, over the standard deviation. -/
def batchNormValues (b : BatchNorm) (inputs : List HostTensor) (output : Shape) :
    Except EvalError HostTensor :=
  match inputs with
  | [input, mean, variance] =>
    HostTensor.tabulate output fun c => do
      let spread := ((← variance.getBroadcast c) + b.epsilon).sqrt
      return ((← input.get c) - (← mean.getBroadcast c)) / spread
  | _ => fail "batch norm expects an input, a mean and a variance"

/-- Writes an input into a concatenation, `offset` further along the axis. -/
def place (axis : Axis) (offset : Nat) (input out : HostTensor) : Except EvalError HostTensor :=
  (Coord.all input.size).foldlM
    (fun out c => do out.set (c.set axis (c.get axis + offset)) (← input.get c)) out

/-- The inputs written one behind the other; every element of the result must be covered. -/
def concatenationValues (axis : Axis) (inputs : List HostTensor) (output : Shape) :
    Except EvalError HostTensor := do
  let (out, covered) ← inputs.foldlM
    (fun (out, offset) input => do
      return (← place axis offset input out, offset + input.size.get axis))
    (HostTensor.zeros output, 0)
  if covered ≠ output.get axis then
    fail s!"inputs cover {covered} of {output.get axis} along {axis.name}"
  else
    return out

/-- A softmax over each line along the axis: exponentials of the distance to the greatest value,
divided by their sum. -/
def softmaxValues (axis : Axis) (inputs : List HostTensor) : Except EvalError HostTensor :=
  match inputs with
  | [input] =>
    HostTensor.tabulate input.size fun c => do
      let line ← (List.range (input.size.get axis)).mapM fun i => input.get (c.set axis i)
      let greatest := line.foldl Single.max Single.negInfinity
      let sum := (line.map fun v => (v - greatest).exp).foldl (· + ·) Single.zero
      return ((← input.get c) - greatest).exp / sum
  | _ => fail "softmax expects one input"

/-- Positions along one axis of a window that starts at `start`, those outside the input left
out. -/
def windowIndices (start : Int) (window extent : Nat) : List Nat :=
  (List.range window).filterMap fun (w : Nat) =>
    let i := start + w
    if i < 0 || (extent : Int) ≤ i then none else some i.toNat

/-- The maximum or the average over each window; what lies outside the input is left out. -/
def poolingValues (p : Pooling) (inputs : List HostTensor) (output : Shape) :
    Except EvalError HostTensor :=
  match inputs with
  | [input] =>
    HostTensor.tabulate output fun c => do
      let xs := windowIndices (p.offset.x + (c.x * p.stride.x : Nat)) p.window.x input.size.x
      let ys := windowIndices (p.offset.y + (c.y * p.stride.y : Nat)) p.window.y input.size.y
      let values ← (ys.flatMap fun y => xs.map fun x => (x, y)).mapM fun (x, y) =>
        input.get ⟨c.b, c.f, x, y⟩
      let sum := values.foldl (· + ·) Single.zero
      match p.mode with
      | .max =>
        return if values.isEmpty then Single.zero else values.foldl Single.max Single.negInfinity
      | .average => return sum / Single.ofNat (p.window.x * p.window.y)
      | .averageNoPadding => return sum / Single.ofNat (Nat.max values.length 1)
  | _ => fail "pooling expects one input"

/-- The result of a node's operation, before its activation. -/
def operationValues (n : Node) (inputs : List HostTensor) (output : Shape) :
    Except EvalError HostTensor :=
  match n.operation with
  | .reorder r => reorderValues r inputs
  | .eltwise e => eltwiseValues e inputs output
  | .activation a => activationValues a inputs
  | .scale _ => scaleValues inputs output
  | .batchNorm b => batchNormValues b inputs output
  | .concatenation c => concatenationValues c.axis inputs output
  | .softmax s => softmaxValues s.axis.toAxis inputs
  | .pooling p => poolingValues p inputs output
  | op => fail s!"{op.kind.name} is not evaluated on the host"

/-- The value of a node as a dense tensor. -/
def evaluateDense (n : Node) (inputs : List HostTensor) (output : Shape) :
    Except EvalError HostTensor := do
  let result ← operationValues n inputs output
  if result.size ≠ output then
    fail s!"{n.id} produced {result.size.text}, expected {output.text}"
  else if n.activation.isNone then
    return result
  else
    result.mapM n.activation.apply

/-- Kinds that are evaluated on the host. -/
def isEvaluated : OpKind → Bool
  | .reorder | .eltwise | .activation | .scale | .batchNorm | .concatenation | .softmax
  | .pooling => true
  | _ => false

end Host

/-- Evaluates every kind but those with weights, in layouts whose elements have known places. -/
def Evaluator.reference : Evaluator where
  name := "ref-cpu"
  canEvaluate n inputs output :=
    Host.isEvaluated n.kind && output.isAddressable && inputs.all Layout.isAddressable
  evaluate n inputs output := do
    let tensors ← inputs.mapM fun v => unpack v.layout v.values
    pack (← Host.evaluateDense n tensors output.size) output

end NetPlan

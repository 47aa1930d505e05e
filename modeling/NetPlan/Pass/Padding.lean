import NetPlan.Pass.Transform

/-!
# Pass/Padding — padding for convolutions

The zeros that a convolution reads around its input become padding of the node that produces the
input, so that kernels need no bounds checks.  Inputs of the network and literals keep their
buffers, and a padded reorder is put behind them instead.
-/

namespace NetPlan.Pass

open Machine in
/-- Padding before and after an input that the windows along one axis read.  Sizes are taken for signed
words, whatever they are, and no step may leave these. -/
def edgePadding? (offset : Int) (positions stride window dilation input : Nat) :
    Option (Nat × Nat) := do
  let steps ← int? ((← int? (signed positions - 1)) * signed stride)
  let taps ← int? ((← int? (signed window - 1)) * signed dilation)
  let limit ← int? ((← int? ((← int? (offset + steps)) + taps)) + 1)
  let rest ← int? (limit - signed input)
  return ((-offset).toNat, rest.toNat)

/-- The padding that a convolution with `plane` positions reads, at least what is there. -/
def neededPadding? (c : Convolution) (input weights : Layout) (plane : Planar) : Option Padding := do
  let x ← edgePadding? c.offset.x plane.x c.stride.x weights.size.x c.dilation.x input.size.x
  let y ← edgePadding? c.offset.y plane.y c.stride.y weights.size.y c.dilation.y input.size.y
  return (Padding.spatial x.1 y.1 x.2 y.2).max input.padding

/-- The data input of a node. -/
def inputOf (id : String) : Edit String := do
  let n ← Edit.node id
  match n.dependency? 0 with
  | some input => return input
  | none => throw (.invalidPrimitive id .noInput)

/-- Gives the input of a node a padding; tells whether that changed anything. -/
def padInput (id : String) (needed : Padding) : Edit Bool := do
  let input ← inputOf id
  let current ← Edit.layout input
  if current.padding = needed then
    return false
  let producer ← Edit.node input
  if producer.runsKernel then
    Edit.setPadding input (producer.padding.max needed)
  else
    let reorder := (← get).unusedId ("reorder_input_" ++ id)
    Edit.addIntermediate (Primitive.reorder reorder input current needed) id 0
  return true

/-- Gives the input of a node a padding if that can be told. -/
def padBy (id : String) : Option Padding → Edit Bool
  | some needed => padInput id needed
  | none => throw .overflow

/-- Gives the input of a convolution the padding that `plane` positions read. -/
def padConvolution (id : String) (c : Convolution) (plane : Planar) : Edit Bool := do
  match ← Edit.inputLayouts id with
  | input :: weights :: _ => padBy id (neededPadding? c input weights plane)
  | _ => throw (.invalidPrimitive id .noInputAndWeights)

/-- Positions of a convolution's window without regard to an output size it may ask for. -/
def convolutionPlane? (c : Convolution) (input weights : Layout) :
    Option (Option Nat × Option Nat) := do
  let p := c.offset.padding
  return (← windowCount? input.size.x weights.size.x c.stride.x c.dilation.x p.x .drop,
    ← windowCount? input.size.y weights.size.y c.stride.y c.dilation.y p.y .drop)

/-- Positions of a pooling window without regard to an output size it may ask for. -/
def poolingPlane? (p : Pooling) (input : Layout) : Option (Option Nat × Option Nat) := do
  let e := p.offset.padding
  return (← windowCount? input.size.x p.window.x p.stride.x 1 e.x .cover,
    ← windowCount? input.size.y p.window.y p.stride.y 1 e.y .cover)

/-- Whether the positions of a window are others than those asked for. -/
def differs (plane : Option (Option Nat × Option Nat)) (requested : Shape) :
    Except CompileError Bool :=
  match plane with
  | some positions => .ok (positions ≠ (some requested.x, some requested.y))
  | none => .error .overflow

/-- Whether a node asks for another output size than its window has positions. -/
def asksForSize (id : String) : Edit Bool := do
  let n ← Edit.node id
  match n.operation with
  | .convolution c =>
    let some requested := c.outputSize | return false
    match ← Edit.inputLayouts id with
    | input :: weights :: _ => Edit.ofExcept (differs (convolutionPlane? c input weights) requested)
    | _ => return false
  | .pooling p =>
    let some requested := p.outputSize | return false
    let input ← Edit.layout (← inputOf id)
    Edit.ofExcept (differs (poolingPlane? p input) requested)
  | _ => return false

/-- Whether one of the nodes asks for another output size than its window has positions. -/
def anyAsksForSize : List String → Edit Bool
  | [] => return false
  | id :: rest => do
    if ← asksForSize id then
      return true
    anyAsksForSize rest

/-- Pads the input of a convolution that asks for an output size. -/
def padForSize (id : String) : Edit Bool := do
  let n ← Edit.node id
  let .convolution c := n.operation | return false
  let some size := c.outputSize | return false
  padConvolution id c ⟨size.x, size.y⟩

/-- Pads the input of a convolution whose output is laid out by feature planes. -/
def padForOutput (id : String) : Edit Bool := do
  let n ← Edit.node id
  let .convolution c := n.operation | return false
  let output ← Edit.layout id
  if output.format ≠ .bfyx && output.format ≠ .bf8Xy16 then
    return false
  padConvolution id c ⟨output.size.x, output.size.y⟩

/-- Pads the inputs of all convolutions. -/
def padInputs : Transform PassStats := do
  let before ← Transform.program
  let sized ←
    if ← anyAsksForSize before.order.ids then Transform.countNodes fun id => padForSize id
    else pure 0
  let rest ← Transform.countNodes fun id => padForOutput id
  return .ofCounts (sized + rest) (before.size - (← Transform.program).size)

end NetPlan.Pass

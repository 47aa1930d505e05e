import NetPlan.Graph.Error
import NetPlan.Graph.Node
import NetPlan.Graph.Operand

/-!
# Graph/Behaviour — what each kind of operation does with layouts

From the layouts of its inputs a node derives the layout of its output (`outputLayout`), is checked
before a kernel is looked for (`check`), and is put as a request to the selector (`request`).  The
`Behaviour` of a kind is the same for a node that must be of that kind.
-/

namespace NetPlan

open Kernel (Work Request Options Operands Filter ConvolutionWork)

/-! ## Positions of a sliding window -/

/-- What becomes of the rest behind the last whole step of a window. -/
inductive WindowRounding where
  | drop
  | cover
  deriving DecidableEq

/-- Number of elements from the first to the last one that a dilated window reads. -/
def windowReach (window dilation : Nat) : Nat := (window - 1) * dilation + 1

/-- Number of positions of a window along one axis, with `padding` at either edge; `none` if the
window does not fit or has no extent or step. -/
def windowPositions? (input window stride dilation padding : Nat) (rounding : WindowRounding) :
    Option Nat :=
  if stride = 0 || dilation = 0 || window = 0 then none
  else if input + 2 * padding < windowReach window dilation then none
  else
    let span := input + 2 * padding - windowReach window dilation
    match rounding with
    | .drop => some (span / stride + 1)
    | .cover => some ((span + (stride - 1)) / stride + 1)

/-- The same, counted in machine words: neither the reach of the window nor the padded axis may leave
them. -/
def windowCount? (input window stride dilation padding : Nat) (rounding : WindowRounding) :
    Option (Option Nat) :=
  if stride = 0 || dilation = 0 || window = 0 then some none
  else do
    let _ ← Machine.add? (← Machine.mul? (window - 1) dilation) 1
    let _ ← Machine.add? input (← Machine.mul? 2 padding)
    return windowPositions? input window stride dilation padding rounding

/-! ## The rules of each kind -/

namespace Node

/-- Stops on a problem with the node. -/
def invalid {α : Type} (n : Node) (problem : PrimitiveProblem) : Except CompileError α :=
  .error (.invalidPrimitive n.id problem)

/-- A result, or the problem that is then the node's. -/
def blame {α : Type} (n : Node) : Except PrimitiveProblem α → Except CompileError α
  | .ok a => .ok a
  | .error problem => n.invalid problem

/-- Stops if there are too few inputs. -/
def expectInputs (n : Node) (inputs : List Layout) (atLeast : Nat) : Except CompileError Unit :=
  if inputs.length < atLeast then n.invalid (.tooFewInputs atLeast inputs.length) else .ok ()

end Node

/-- An input layout that a rule relies on. -/
def inputAt (inputs : List Layout) (index : Nat) : Except CompileError Layout :=
  match inputs[index]? with
  | some l => .ok l
  | none => .error (.fault (.missingInput index))

/-- The format of a result: that of the input if it is one for data, `bfyx` otherwise. -/
def resultFormat (f : Format) : Format :=
  if f.isWeights || f = .bsXsXsv8Bsv8 then .bfyx else f

/-! ## Output layouts -/

namespace Node

/-- A layout with the padding the node asks for. -/
def padded (n : Node) (element : Element) (format : Format) (size : Shape) : Layout :=
  ⟨element, format, size, n.padding⟩

/-- Positions of a window along one axis; a misfit is a problem of the node. -/
def windowPositions (n : Node) (input window stride dilation padding : Nat)
    (rounding : WindowRounding) : Except CompileError Nat :=
  match windowCount? input window stride dilation padding rounding with
  | some (some k) => .ok k
  | some none => n.invalid (.windowMisfit window stride dilation input padding)
  | none => .error .overflow

/-- The first input's layout, with the padding the node asks for. -/
def sameAsInput (n : Node) (inputs : List Layout) : Except CompileError Layout := do
  n.expectInputs inputs 1
  let input ← inputAt inputs 0
  return n.padded input.element (resultFormat input.format) input.size

/-- A convolution has a feature per filter and group, and a plane of the size it asks for or else of
as many positions as its window has. -/
def convolutionLayout (n : Node) (c : Convolution) (inputs : List Layout) :
    Except CompileError Layout := do
  n.expectInputs inputs (1 + c.split + c.bias.length)
  let input ← inputAt inputs 0
  let weights ← inputAt inputs 1
  let features := weights.size.batch * c.split
  let plane : Planar ←
    match c.outputSize with
    | some s => pure ⟨s.x, s.y⟩
    | none => do
      let p := c.offset.padding
      let x ← n.windowPositions input.size.x weights.size.x c.stride.x c.dilation.x p.x .drop
      let y ← n.windowPositions input.size.y weights.size.y c.stride.y c.dilation.y p.y .drop
      pure ⟨x, y⟩
  return n.padded input.element (resultFormat input.format)
    ⟨input.size.batch, features, plane.x, plane.y⟩

/-- A matrix product has a feature per row of the weights and one element in the plane. -/
def fullyConnectedLayout (n : Node) (inputs : List Layout) : Except CompileError Layout := do
  n.expectInputs inputs 2
  let input ← inputAt inputs 0
  let weights ← inputAt inputs 1
  return n.padded input.element (if input.format = .yxfb then .yxfb else .bfyx)
    ⟨input.size.batch, weights.size.batch, 1, 1⟩

/-- Pooling keeps batch and features; its plane is of the size it asks for or else of as many
positions as its window has, a part window at the far edge included. -/
def poolingLayout (n : Node) (p : Pooling) (inputs : List Layout) : Except CompileError Layout := do
  n.expectInputs inputs 1
  let input ← inputAt inputs 0
  let plane : Planar ←
    match p.outputSize with
    | some s => pure ⟨s.x, s.y⟩
    | none => do
      let e := p.offset.padding
      let x ← n.windowPositions input.size.x p.window.x p.stride.x 1 e.x .cover
      let y ← n.windowPositions input.size.y p.window.y p.stride.y 1 e.y .cover
      pure ⟨x, y⟩
  return n.padded input.element (resultFormat input.format)
    ⟨input.size.batch, input.size.feature, plane.x, plane.y⟩

/-- An element-wise combination is laid out as its first input, if all are of one size. -/
def eltwiseLayout (n : Node) (inputs : List Layout) : Except CompileError Layout := do
  n.expectInputs inputs 1
  let first ← inputAt inputs 0
  match inputs.find? (·.size ≠ first.size) with
  | some other => n.invalid (.sizesDiffer first.size other.size)
  | none => n.sameAsInput inputs

/-- The inputs of a concatenation agree in all axes but one, along which their extents add up. -/
def concatenationLayout (n : Node) (axis : Axis) (inputs : List Layout) :
    Except CompileError Layout := do
  n.expectInputs inputs 1
  let first ← inputAt inputs 0
  if inputs.any fun l => l.size.set axis 0 ≠ first.size.set axis 0 then
    n.invalid .sizesDifferOffAxis
  else
    let total := (inputs.map (·.size.get axis)).foldr (· + ·) 0
    return n.padded first.element (resultFormat first.format) (first.size.set axis total)

/-- A literal has the layout it is given with, if there is a value for every place of the buffer. -/
def dataLayout (n : Node) (layout : Layout) (values : Buffer) : Except CompileError Layout :=
  if values.size ≠ layout.bufferSize then n.invalid (.valueCount values.size layout.bufferSize)
  else .ok layout

/-- The output layout that follows from the input layouts. -/
def outputLayout (n : Node) (inputs : List Layout) : Except CompileError Layout :=
  match n.operation with
  | .inputLayout l => .ok (l.withPadding (l.padding.max n.padding))
  | .data l v => n.dataLayout l v
  | .convolution c => n.convolutionLayout c inputs
  | .fullyConnected _ => n.fullyConnectedLayout inputs
  | .pooling p => n.poolingLayout p inputs
  | .activation _ => n.sameAsInput inputs
  | .eltwise _ => n.eltwiseLayout inputs
  | .reorder r => do
    n.expectInputs inputs 1
    let input ← inputAt inputs 0
    return n.padded r.element r.format input.size
  | .softmax _ => n.sameAsInput inputs
  | .concatenation c => n.concatenationLayout c.axis inputs
  | .batchNorm _ => do
    n.expectInputs inputs 3
    n.sameAsInput inputs
  | .scale _ => do
    n.expectInputs inputs 2
    n.sameAsInput inputs
  | .fusedConvBnScale f => n.convolutionLayout f.conv inputs

/-! ## Checks -/

/-- The first problem of a convolution with the shapes of its inputs; every input behind the
weights must have one element per output feature of a group. -/
def checkConvolution (n : Node) (c : Convolution) (inputs : List Layout) :
    Except CompileError Unit := do
  if c.split = 0 then
    n.invalid .noWeights
  if !c.bias.isEmpty && c.bias.length ≠ c.split then
    n.invalid (.biasGroups c.split c.bias.length)
  n.expectInputs inputs (1 + c.split + c.bias.length)
  let input ← inputAt inputs 0
  let weights ← inputAt inputs 1
  if ((inputs.drop 1).take c.split).any (·.size ≠ weights.size) then
    n.invalid .weightsDiffer
  match (inputs.drop (1 + c.split)).find? (·.count ≠ weights.size.batch) with
  | some bias => n.invalid (.biasPerGroup bias.count weights.size.batch)
  | none => pure ()
  if c.stride.hasZero then
    n.invalid .zeroStride
  if c.dilation.hasZero then
    n.invalid .zeroDilation
  if c.dilation ≠ Planar.one && input.size.batch > 1 then
    n.invalid .dilatedBatch

/-- A matrix product consumes as many elements per batch as its input provides, and has as many biases
as results. -/
def checkFullyConnected (n : Node) (c : FullyConnected) (inputs : List Layout) :
    Except CompileError Unit := do
  n.expectInputs inputs 2
  let input ← inputAt inputs 0
  let weights ← inputAt inputs 1
  let provided := input.size.feature * input.size.x * input.size.y
  let consumed := weights.size.feature * weights.size.x * weights.size.y
  if provided ≠ consumed then
    n.invalid (.inputsPerBatch consumed provided)
  if c.bias.isSome then
    n.expectInputs inputs 3
    let bias ← inputAt inputs 2
    if bias.count ≠ weights.size.batch then
      n.invalid (.biasPerOutput bias.count weights.size.batch)

/-- Whether the shapes of the inputs go together. -/
def check (n : Node) (inputs : List Layout) : Except CompileError Unit :=
  match n.operation with
  | .convolution c => n.checkConvolution c inputs
  | .fusedConvBnScale f => n.checkConvolution f.conv inputs
  | .fullyConnected c => n.checkFullyConnected c inputs
  | .eltwise e =>
    if !e.coefficients.isEmpty && e.coefficients.length ≠ inputs.length then
      n.invalid (.coefficientCount e.coefficients.length inputs.length)
    else .ok ()
  | _ => .ok ()

/-! ## Requests -/

/-- The tensors of the node, with the activation of its result. -/
def operands (n : Node) (inputs : List Layout) (output : Layout) :
    Except CompileError Operands := do
  let tensors ← inputs.mapM fun l => n.blame l.dataTensor
  let result ← n.blame output.dataTensor
  return ⟨n.activation, tensors, result⟩

/-- The convolution of some of the inputs as kernels know it: windows are as large as the first
weights. -/
def convolutionWork (n : Node) (c : Convolution) (data inputs : List Layout) (output : Layout) :
    Except CompileError ConvolutionWork := do
  n.expectInputs inputs (1 + c.split + c.bias.length)
  let weights ← n.blame (← inputAt inputs 1).weightTensor
  let bias := Layout.biasTensor? ((inputs.drop (1 + c.split)).take c.bias.length)
  let operands ← n.operands data output
  return {
    operands
    filter := ⟨weights, bias.toList⟩
    window := ⟨weights.x, weights.y⟩
    stride := c.stride
    dilation := c.dilation
    padding := c.offset.padding
    split := c.split }

/-- A matrix product as kernels know it: data and result are rows, if they can be told as such. -/
def fullyConnectedWork (n : Node) (inputs : List Layout) (output : Layout) :
    Except CompileError Work := do
  n.expectInputs inputs 2
  let input ← n.blame (← inputAt inputs 0).flatInput
  let result ← n.blame output.flatOutput
  let weights ← n.blame (← inputAt inputs 1).weightTensor
  let bias := Layout.biasTensor? (inputs.drop 2)
  return .fullyConnected ⟨⟨n.activation, [input], result⟩, ⟨weights, bias.toList⟩⟩

/-- Pooling as kernels know it: a rest behind the last whole step is covered. -/
def poolingWork (n : Node) (p : Pooling) (inputs : List Layout) (output : Layout) :
    Except CompileError Work := do
  let input ← inputAt inputs 0
  let operands ← n.operands [input] output
  return .pooling {
    operands
    kind := if p.mode = .max then .max else .average
    rounding := .ceil
    divider := if p.mode = .averageNoPadding then .dynamicWithPadding else .fixed
    window := p.window
    stride := p.stride
    padding := p.offset.padding }

/-- A reorder as kernels know it: one of weights if its format is for weights, one of data otherwise.
-/
def reorderWork (n : Node) (r : Reorder) (inputs : List Layout) (output : Layout) :
    Except CompileError Work := do
  if r.format.isWeights then
    n.expectInputs inputs 1
    let source ← n.blame (← inputAt inputs 0).weightTensor
    let target ← n.blame output.weightTensor
    return .weightsReorder source target
  else
    return .reorder ⟨← n.operands inputs output, r.subtract⟩

/-- A fused convolution reads its input, and behind weights and bias the statistics. -/
def fusedWork (n : Node) (f : FusedConvBnScale) (inputs : List Layout) (output : Layout) :
    Except CompileError Work := do
  let own := 1 + f.conv.split + f.conv.bias.length
  n.expectInputs inputs (own + 3)
  let input ← inputAt inputs 0
  let work ← n.convolutionWork f.conv (input :: inputs.drop own) inputs output
  return .fusedConvBnScale work f.epsilon

/-- The work a kernel has to do for the node; `none` if none is needed. -/
def work? (n : Node) (inputs : List Layout) (output : Layout) :
    Except CompileError (Option Work) :=
  match n.operation with
  | .inputLayout _ => .ok none
  | .data _ _ => .ok none
  | .convolution c => do
    let input ← inputAt inputs 0
    return some (.convolution (← n.convolutionWork c [input] inputs output))
  | .fullyConnected _ => some <$> n.fullyConnectedWork inputs output
  | .pooling p => some <$> n.poolingWork p inputs output
  | .activation a => do
    let operands ← n.operands inputs output
    return some (.activation { operands with activation := a.activation })
  | .eltwise e => do
    return some (.eltwise ⟨← n.operands inputs output, e.mode, e.coefficients⟩)
  | .reorder r => some <$> n.reorderWork r inputs output
  | .softmax s => do return some (.softmax (← n.operands inputs output) s.axis)
  | .concatenation c => do return some (.concatenation (← n.operands inputs output) c.axis)
  | .batchNorm b => do return some (.batchNorm (← n.operands inputs output) b.epsilon)
  | .scale _ => do return some (.scale (← n.operands inputs output))
  | .fusedConvBnScale f => some <$> n.fusedWork f inputs output

/-- The request to the selector for the node; `none` if no kernel is needed. -/
def request? (n : Node) (inputs : List Layout) (output : Layout) :
    Except CompileError (Option Request) := do
  return (← n.work? inputs output).map fun w => ⟨n.id, w⟩

end Node

/-! ## Behaviours by kind -/

namespace OpKind

/-- Stops on a node of another kind. -/
def expect (k : OpKind) (n : Node) : Except CompileError Unit :=
  if n.kind = k then .ok () else n.invalid (.wrongBehaviour k n.kind)

/-- Kinds whose nodes carry weights. -/
def isWeighted : OpKind → Bool
  | .convolution | .fullyConnected | .fusedConvBnScale => true
  | _ => false

/-- Kinds with checks of their own. -/
def isChecked (k : OpKind) : Bool := k.isWeighted || k = .eltwise

/-- Kinds that a kernel carries out. -/
def runsKernel (k : OpKind) : Bool := k ≠ .inputLayout && k ≠ .data

/-- The output layout of a node of this kind. -/
def outputLayout (k : OpKind) (n : Node) (inputs : List Layout) : Except CompileError Layout := do
  k.expect n
  n.outputLayout inputs

/-- The checks on a node of this kind. -/
def check (k : OpKind) (n : Node) (inputs : List Layout) : Except CompileError Unit := do
  if k.isChecked then
    k.expect n
    n.check inputs

/-- The request for a node of this kind. -/
def request? (k : OpKind) (n : Node) (inputs : List Layout) (output : Layout) :
    Except CompileError (Option Request) := do
  if k.runsKernel then
    k.expect n
    n.request? inputs output
  else
    return none

/-- Weights may be changed for a kernel's sake; nothing else is asked of it. -/
def options (k : OpKind) : Options := { Options.default with allowWeightsReorder := k.isWeighted }

/-- The plan that is selected for the node of an id.  There is none if planning breaks off on the way,
whatever else is selected. -/
def ask (k : OpKind) (s : Selector) (id : String) (r : Request) :
    ExceptT CompileError (StateM Session) Kernel.Plan :=
  ExceptT.mk fun earlier =>
    let (answer, later) := (s.select r k.options).run.run earlier
    (if later.brokeSince earlier then .error .overflow
      else answer.mapError (CompileError.noImplementation id), later)

/-- The plan for a node of this kind. -/
def choose (k : OpKind) (s : Selector) (n : Node) (inputs : List Layout) (output : Layout) :
    ExceptT CompileError (StateM Session) (Option Kernel.Plan) := do
  match ← ExceptT.mk (pure (k.request? n inputs output)) with
  | none => return none
  | some r => return some (← k.ask s n.id r)

end OpKind

end NetPlan

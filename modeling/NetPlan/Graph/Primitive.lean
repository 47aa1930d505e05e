import NetPlan.Graph.Layout
import NetPlan.Host.Buffer
import NetPlan.Kernel.Request

/-!
# Graph/Primitive — the operations a network is built from

A primitive is an operation under an id, with the padding its output should have.  Its arguments
are the ids of other primitives, in slots whose order `Operation.arguments` fixes.
-/

namespace NetPlan

open Kernel (EltwiseMode SoftmaxAxis)

/-- The kinds of operation. -/
inductive OpKind where
  | inputLayout
  | data
  | convolution
  | fullyConnected
  | pooling
  | activation
  | eltwise
  | reorder
  | softmax
  | concatenation
  | batchNorm
  | scale
  | fusedConvBnScale
  deriving DecidableEq, Inhabited

namespace OpKind

/-- Every kind, in the order of the registry. -/
def all : List OpKind :=
  [.inputLayout, .data, .convolution, .fullyConnected, .pooling, .activation, .eltwise, .reorder,
    .softmax, .concatenation, .batchNorm, .scale, .fusedConvBnScale]

/-- The kind as dumps and messages spell it. -/
def name : OpKind → String
  | .inputLayout => "input_layout"
  | .data => "data"
  | .convolution => "convolution"
  | .fullyConnected => "fully_connected"
  | .pooling => "pooling"
  | .activation => "activation"
  | .eltwise => "eltwise"
  | .reorder => "reorder"
  | .softmax => "softmax"
  | .concatenation => "concatenation"
  | .batchNorm => "batch_norm"
  | .scale => "scale"
  | .fusedConvBnScale => "fused_conv_bn_scale"

/-- Name as the title of a behaviour. -/
def title : OpKind → String
  | .inputLayout => "InputLayout"
  | .data => "Data"
  | .convolution => "Convolution"
  | .fullyConnected => "FullyConnected"
  | .pooling => "Pooling"
  | .activation => "Activation"
  | .eltwise => "Eltwise"
  | .reorder => "Reorder"
  | .softmax => "Softmax"
  | .concatenation => "Concatenation"
  | .batchNorm => "BatchNorm"
  | .scale => "Scale"
  | .fusedConvBnScale => "FusedConvBnScale"

end OpKind

instance : Named OpKind := ⟨OpKind.all, OpKind.title⟩

/-- Where the first window starts, relative to the input; negative values read implicit zeros. -/
structure Offset where
  x : Int
  y : Int
  deriving DecidableEq, Inhabited

namespace Offset

/-- No offset. -/
def zero : Offset := ⟨0, 0⟩

/-- Implicit padding at the low edge of each spatial axis. -/
def padding (o : Offset) : Planar := ⟨(-o.x).toNat, (-o.y).toNat⟩

end Offset

/-- A convolution, with one weights primitive per group and no bias or one per group.
Without `outputSize` the output follows from the window. -/
structure Convolution where
  input : String
  weights : List String
  bias : List String
  stride : Planar
  dilation : Planar
  offset : Offset
  outputSize : Option Shape
  activation : Activation
  deriving DecidableEq, Inhabited

/-- Number of groups. -/
def Convolution.split (c : Convolution) : Nat := c.weights.length

/-- A matrix product of the flattened input with weights, and a bias if there is one. -/
structure FullyConnected where
  input : String
  weights : String
  bias : Option String
  activation : Activation
  deriving DecidableEq, Inhabited

/-- What a pooling window is reduced to; the last averages over the part inside the input. -/
inductive PoolingMode where
  | max
  | average
  | averageNoPadding
  deriving DecidableEq, Inhabited

/-- The mode as dumps spell it. -/
def PoolingMode.name : PoolingMode → String
  | .max => "Max"
  | .average => "Average"
  | .averageNoPadding => "AverageNoPadding"

instance : Named PoolingMode := ⟨[.max, .average, .averageNoPadding], PoolingMode.name⟩

/-- A window that moves over the input and takes the maximum or the average. -/
structure Pooling where
  input : String
  mode : PoolingMode
  window : Planar
  stride : Planar
  offset : Offset
  outputSize : Option Shape
  deriving DecidableEq, Inhabited

/-- An activation of its own; a `slope` gives the first parameter per feature. -/
structure ActivationOp where
  input : String
  activation : Activation
  slope : Option String
  deriving DecidableEq, Inhabited

/-- An element-wise combination; `coefficients` is empty or gives a factor per input. -/
structure Eltwise where
  inputs : List String
  mode : EltwiseMode
  coefficients : List Single
  activation : Activation
  deriving DecidableEq, Inhabited

/-- A copy into another format and element type, less a value per feature. -/
structure Reorder where
  input : String
  format : Format
  element : Element
  subtract : List Single
  deriving DecidableEq, Inhabited

/-- Normalized exponentials along an axis. -/
structure Softmax where
  input : String
  axis : SoftmaxAxis
  deriving DecidableEq, Inhabited

/-- Inputs one behind the other along an axis. -/
structure Concatenation where
  inputs : List String
  axis : Axis
  deriving DecidableEq, Inhabited

/-- The deviation from a mean in units of the standard deviation, per feature. -/
structure BatchNorm where
  input : String
  mean : String
  variance : String
  epsilon : Single
  deriving DecidableEq, Inhabited

/-- A factor per feature, and a bias if there is one. -/
structure Scale where
  input : String
  scale : String
  bias : Option String
  deriving DecidableEq, Inhabited

/-- A convolution whose output is normalized and then scaled. -/
structure FusedConvBnScale where
  conv : Convolution
  mean : String
  variance : String
  epsilon : Single
  scale : String
  scaleBias : Option String
  deriving DecidableEq, Inhabited

/-- What a primitive does. -/
inductive Operation where
  /-- An input of the network, filled from outside. -/
  | inputLayout (layout : Layout)
  /-- A literal buffer. -/
  | data (layout : Layout) (values : Buffer)
  | convolution (c : Convolution)
  | fullyConnected (c : FullyConnected)
  | pooling (p : Pooling)
  | activation (a : ActivationOp)
  | eltwise (e : Eltwise)
  | reorder (r : Reorder)
  | softmax (s : Softmax)
  | concatenation (c : Concatenation)
  | batchNorm (b : BatchNorm)
  | scale (s : Scale)
  | fusedConvBnScale (f : FusedConvBnScale)
  deriving DecidableEq

/-- Slots of a convolution: input, weights, bias. -/
def Convolution.arguments (c : Convolution) : List String := c.input :: c.weights ++ c.bias

/-- Changes every slot by its position and id. -/
def Convolution.mapSlots (f : Nat → String → String) (c : Convolution) : Convolution :=
  { c with
    input := f 0 c.input
    weights := c.weights.mapIdx fun i a => f (1 + i) a
    bias := c.bias.mapIdx fun i a => f (1 + c.weights.length + i) a }

namespace Operation

/-- The kind of an operation. -/
def kind : Operation → OpKind
  | .inputLayout _ => .inputLayout
  | .data _ _ => .data
  | .convolution _ => .convolution
  | .fullyConnected _ => .fullyConnected
  | .pooling _ => .pooling
  | .activation _ => .activation
  | .eltwise _ => .eltwise
  | .reorder _ => .reorder
  | .softmax _ => .softmax
  | .concatenation _ => .concatenation
  | .batchNorm _ => .batchNorm
  | .scale _ => .scale
  | .fusedConvBnScale _ => .fusedConvBnScale

/-- The ids in the argument slots, in order. -/
def arguments : Operation → List String
  | .inputLayout _ => []
  | .data _ _ => []
  | .convolution c => c.arguments
  | .fullyConnected c => [c.input, c.weights] ++ c.bias.toList
  | .pooling p => [p.input]
  | .activation a => a.input :: a.slope.toList
  | .eltwise e => e.inputs
  | .reorder r => [r.input]
  | .softmax s => [s.input]
  | .concatenation c => c.inputs
  | .batchNorm b => [b.input, b.mean, b.variance]
  | .scale s => [s.input, s.scale] ++ s.bias.toList
  | .fusedConvBnScale f => f.conv.arguments ++ [f.mean, f.variance, f.scale] ++ f.scaleBias.toList

/-- Changes every argument slot by its position and id. -/
def mapSlots (f : Nat → String → String) : Operation → Operation
  | .inputLayout l => .inputLayout l
  | .data l v => .data l v
  | .convolution c => .convolution (c.mapSlots f)
  | .fullyConnected c =>
    .fullyConnected
      { c with input := f 0 c.input, weights := f 1 c.weights, bias := c.bias.map (f 2) }
  | .pooling p => .pooling { p with input := f 0 p.input }
  | .activation a => .activation { a with input := f 0 a.input, slope := a.slope.map (f 1) }
  | .eltwise e => .eltwise { e with inputs := e.inputs.mapIdx f }
  | .reorder r => .reorder { r with input := f 0 r.input }
  | .softmax s => .softmax { s with input := f 0 s.input }
  | .concatenation c => .concatenation { c with inputs := c.inputs.mapIdx f }
  | .batchNorm b =>
    .batchNorm { b with input := f 0 b.input, mean := f 1 b.mean, variance := f 2 b.variance }
  | .scale s =>
    .scale { s with input := f 0 s.input, scale := f 1 s.scale, bias := s.bias.map (f 2) }
  | .fusedConvBnScale p =>
    let n := p.conv.arguments.length
    .fusedConvBnScale
      { p with
        conv := p.conv.mapSlots f
        mean := f n p.mean
        variance := f (n + 1) p.variance
        scale := f (n + 2) p.scale
        scaleBias := p.scaleBias.map (f (n + 3)) }

/-- Points one slot at another id; a slot that does not exist changes nothing. -/
def setSlot (op : Operation) (slot : Nat) (id : String) : Operation :=
  op.mapSlots fun i a => if i = slot then id else a

/-- Points every slot that names `old` at `new`. -/
def renameSlots (op : Operation) (old new : String) : Operation :=
  op.mapSlots fun _ a => if a = old then new else a

/-- The activation an operation applies to its own result. -/
def ownActivation : Operation → Activation
  | .convolution c => c.activation
  | .fullyConnected c => c.activation
  | .eltwise e => e.activation
  | .fusedConvBnScale f => f.conv.activation
  | _ => Activation.none

/-- The slots that hold weights. -/
def weightSlots : Operation → List Nat
  | .convolution c => List.range' 1 c.split
  | .fusedConvBnScale f => List.range' 1 f.conv.split
  | .fullyConnected _ => [1]
  | _ => []

/-- The slots that hold a bias. -/
def biasSlots : Operation → List Nat
  | .convolution c => List.range' (1 + c.split) c.bias.length
  | .fusedConvBnScale f => List.range' (1 + f.conv.split) f.conv.bias.length
  | .fullyConnected c => if c.bias.isSome then [2] else []
  | _ => []

end Operation

/-- An operation under an id. -/
structure Primitive where
  id : String
  padding : Padding
  operation : Operation
  deriving DecidableEq

namespace Primitive

/-- A reorder of `input` into the element type and format of a layout. -/
def reorder (id input : String) (layout : Layout) (padding : Padding) : Primitive :=
  ⟨id, padding, .reorder ⟨input, layout.format, layout.element, []⟩⟩

/-- A literal. -/
def literal (id : String) (layout : Layout) (values : Buffer) : Primitive :=
  ⟨id, Padding.none, .data layout values⟩

/-- The kind of what the primitive does. -/
def kind (p : Primitive) : OpKind := p.operation.kind

/-- The ids that the primitive reads, slot by slot. -/
def arguments (p : Primitive) : List String := p.operation.arguments

end Primitive

end NetPlan

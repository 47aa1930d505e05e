import NetPlan.Activation
import NetPlan.Tensor
import NetPlan.Text.Named

/-!
# Kernel/Request — what a layer asks of a kernel

A `Request` names the layer it comes from and the `Work` to be done.  The work alone decides which
kernels fit; the layer only labels the result.
-/

namespace NetPlan.Kernel

/-- The kinds of work kernels are written for. -/
inductive Kind where
  | convolution
  | fullyConnected
  | pooling
  | activation
  | eltwise
  | reorder
  | weightsReorder
  | softmax
  | concatenation
  | batchNorm
  | scale
  | fusedConvBnScale
  deriving DecidableEq, Inhabited

namespace Kind

/-- Every kind of work. -/
def all : List Kind :=
  [.convolution, .fullyConnected, .pooling, .activation, .eltwise, .reorder, .weightsReorder,
    .softmax, .concatenation, .batchNorm, .scale, .fusedConvBnScale]

/-- The kind as texts spell it. -/
def name : Kind → String
  | .convolution => "convolution"
  | .fullyConnected => "fully_connected"
  | .pooling => "pooling"
  | .activation => "activation"
  | .eltwise => "eltwise"
  | .reorder => "reorder"
  | .weightsReorder => "reorder_weights"
  | .softmax => "softmax"
  | .concatenation => "concatenation"
  | .batchNorm => "batch_norm"
  | .scale => "scale"
  | .fusedConvBnScale => "fused_conv_bn_scale"

/-- Name as the title of a section of parameters. -/
def title : Kind → String
  | .convolution => "Convolution"
  | .fullyConnected => "FullyConnected"
  | .pooling => "Pooling"
  | .activation => "Activation"
  | .eltwise => "Eltwise"
  | .reorder => "Reorder"
  | .weightsReorder => "WeightsReorder"
  | .softmax => "Softmax"
  | .concatenation => "Concatenation"
  | .batchNorm => "BatchNorm"
  | .scale => "Scale"
  | .fusedConvBnScale => "FusedConvBnScale"

end Kind

instance : Named Kind := ⟨Kind.all, Kind.title⟩

/-- What a pooling window is reduced to. -/
inductive PoolKind where
  | max
  | average
  deriving DecidableEq, Inhabited

/-- The kind of pooling as texts spell it. -/
def PoolKind.name : PoolKind → String
  | .max => "Max"
  | .average => "Average"

instance : Named PoolKind := ⟨[.max, .average], PoolKind.name⟩

/-- What becomes of a last, partial pooling window. -/
inductive PoolRounding where
  | floor
  | ceil
  deriving DecidableEq, Inhabited

/-- The rounding as texts spell it. -/
def PoolRounding.name : PoolRounding → String
  | .floor => "Floor"
  | .ceil => "Ceil"

instance : Named PoolRounding := ⟨[.floor, .ceil], PoolRounding.name⟩

/-- What an average is divided by: the window, or its part inside the padded input. -/
inductive PoolDivider where
  | fixed
  | dynamicWithPadding
  deriving DecidableEq, Inhabited

/-- The divider as texts spell it. -/
def PoolDivider.name : PoolDivider → String
  | .fixed => "Fixed"
  | .dynamicWithPadding => "DynamicWithPadding"

instance : Named PoolDivider := ⟨[.fixed, .dynamicWithPadding], PoolDivider.name⟩

/-- The axes a softmax can normalize. -/
inductive SoftmaxAxis where
  | x
  | y
  | feature
  deriving DecidableEq, Inhabited

/-- The axis of a tensor that it is. -/
def SoftmaxAxis.toAxis : SoftmaxAxis → Axis
  | .x => .x
  | .y => .y
  | .feature => .feature

instance : Named SoftmaxAxis := ⟨[.x, .y, .feature], fun a => a.toAxis.name⟩

/-- How an element-wise layer combines its inputs. -/
inductive EltwiseMode where
  | sum
  | sub
  | prod
  | max
  | min
  deriving DecidableEq, Inhabited

/-- The mode as texts spell it. -/
def EltwiseMode.name : EltwiseMode → String
  | .sum => "Sum"
  | .sub => "Sub"
  | .prod => "Prod"
  | .max => "Max"
  | .min => "Min"

instance : Named EltwiseMode := ⟨[.sum, .sub, .prod, .max, .min], EltwiseMode.name⟩

/-- The tensors every kind of work but a weights reorder has, and the activation of its result. -/
structure Operands where
  activation : Activation
  inputs : List DataTensor
  output : DataTensor
  deriving DecidableEq, Inhabited

/-- Weights, and at most one bias that counts. -/
structure Filter where
  weights : WeightTensor
  bias : List DataTensor
  deriving DecidableEq, Inhabited

/-- A convolution; `padding` is what is read as zero before the first input element. -/
structure ConvolutionWork where
  operands : Operands
  filter : Filter
  window : Planar
  stride : Planar
  dilation : Planar
  padding : Planar
  split : Nat
  deriving DecidableEq, Inhabited

/-- A matrix product of rows with weights. -/
structure FullyConnectedWork where
  operands : Operands
  filter : Filter
  deriving DecidableEq, Inhabited

/-- Windows over one input, how they round, and what an average is divided by. -/
structure PoolingWork where
  operands : Operands
  kind : PoolKind
  rounding : PoolRounding
  divider : PoolDivider
  window : Planar
  stride : Planar
  padding : Planar
  deriving DecidableEq, Inhabited

/-- An element-wise combination; `coefficients` is empty or gives one factor per input. -/
structure EltwiseWork where
  operands : Operands
  mode : EltwiseMode
  coefficients : List Single
  deriving DecidableEq, Inhabited

/-- A copy into another arrangement; `subtract` is empty or gives one value per feature. -/
structure ReorderWork where
  operands : Operands
  subtract : List Single
  deriving DecidableEq, Inhabited

/-- What a kernel can be asked to do. -/
inductive Work where
  | convolution (w : ConvolutionWork)
  | fullyConnected (w : FullyConnectedWork)
  | pooling (w : PoolingWork)
  | activation (o : Operands)
  | eltwise (w : EltwiseWork)
  | reorder (w : ReorderWork)
  | weightsReorder (source target : WeightTensor)
  | softmax (o : Operands) (axis : SoftmaxAxis)
  | concatenation (o : Operands) (axis : Axis)
  | batchNorm (o : Operands) (epsilon : Single)
  | scale (o : Operands)
  | fusedConvBnScale (w : ConvolutionWork) (epsilon : Single)
  deriving DecidableEq

namespace Work

/-- The kind of a piece of work. -/
def kind : Work → Kind
  | .convolution _ => .convolution
  | .fullyConnected _ => .fullyConnected
  | .pooling _ => .pooling
  | .activation _ => .activation
  | .eltwise _ => .eltwise
  | .reorder _ => .reorder
  | .weightsReorder _ _ => .weightsReorder
  | .softmax _ _ => .softmax
  | .concatenation _ _ => .concatenation
  | .batchNorm _ _ => .batchNorm
  | .scale _ => .scale
  | .fusedConvBnScale _ _ => .fusedConvBnScale

/-- The data tensors of the work; a weights reorder has none. -/
def operands? : Work → Option Operands
  | .convolution w => some w.operands
  | .fullyConnected w => some w.operands
  | .pooling w => some w.operands
  | .activation o => some o
  | .eltwise w => some w.operands
  | .reorder w => some w.operands
  | .weightsReorder _ _ => none
  | .softmax o _ => some o
  | .concatenation o _ => some o
  | .batchNorm o _ => some o
  | .scale o => some o
  | .fusedConvBnScale w _ => some w.operands

/-- The weights and bias of weighted work. -/
def filter? : Work → Option Filter
  | .convolution w => some w.filter
  | .fullyConnected w => some w.filter
  | .fusedConvBnScale w _ => some w.filter
  | _ => none

end Work

/-- The work a layer asks for. -/
structure Request where
  layer : String
  work : Work
  deriving DecidableEq

/-- The kind of the work that is asked for. -/
def Request.kind (r : Request) : Kind := r.work.kind

end NetPlan.Kernel

import NetPlan.Kernel.Plan

/-!
# Kernel/Builtin/Convolution — what the convolution kernels share

The checks every convolution passes, the padding that a kernel without boundary checks needs, and
the definitions, arguments and default launch of a convolution.
-/

namespace NetPlan.Kernel.Builtin

/-- One input, a positive split and positive windows, and features that match the weights. -/
def checkConvolution (w : ConvolutionWork) : Except Refusal DataTensor :=
  match w.operands.inputs with
  | [input] =>
    let weights := w.filter.weights
    let output := w.operands.output
    if w.split = 0 then .error (.invalid "split must be positive")
    else if w.stride.hasZero then .error (.invalid "stride must be positive")
    else if w.dilation.hasZero then .error (.invalid "dilation must be positive")
    else if w.window.hasZero then .error (.invalid "filter size must be positive")
    else if input.size.feature ≠ weights.inputs * w.split then
      .error (.invalid
        (s!"input features {input.size.feature} do not match weights ifm {weights.inputs}"
          ++ s!" x split {w.split}"))
    else if output.size.feature ≠ weights.outputs * w.split then
      .error (.invalid
        (s!"output features {output.size.feature} do not match weights ofm {weights.outputs}"
          ++ s!" x split {w.split}"))
    else .ok input
  | inputs => .error (.invalid s!"convolution expects one input, got {inputs.length}")

/-- Edges along one axis. -/
structure Edges where
  before : Nat
  after : Nat
  deriving DecidableEq

namespace Edges

/-- Whether these edges are at least as wide as others. -/
def covers (e f : Edges) : Bool := f.before ≤ e.before && f.after ≤ e.after

/-- The edges as messages spell them. -/
def text (e : Edges) : String :=
  Text.record "Pad" [("before", toString e.before), ("after", toString e.after)]

end Edges

/-- The edges of a tensor along an axis. -/
def edgesOf (t : DataTensor) (a : Axis) : Edges := ⟨t.padding.lower.get a, t.padding.upper.get a⟩

/-- Edges that keep every tap of every window inside the padded input, along one axis. -/
def requiredEdges (input output stride window dilation padding : Nat) : Edges :=
  let limit := (output - 1) * stride + (window - 1) * dilation + 1
  ⟨padding, limit - (input + padding)⟩

/-- The padding that windows need along the rows. -/
def requiredEdgesX (w : ConvolutionWork) (input : DataTensor) : Edges :=
  requiredEdges input.size.x w.operands.output.size.x w.stride.x w.window.x w.dilation.x
    w.padding.x

/-- The padding that windows need along the columns. -/
def requiredEdgesY (w : ConvolutionWork) (input : DataTensor) : Edges :=
  requiredEdges input.size.y w.operands.output.size.y w.stride.y w.window.y w.dilation.y
    w.padding.y

/-- Refuses an input whose padding a window could leave. -/
def checkPaddedInput (w : ConvolutionWork) (input : DataTensor) : Except Refusal Unit :=
  let haveX := edgesOf input .x
  let haveY := edgesOf input .y
  let needX := requiredEdgesX w input
  let needY := requiredEdgesY w input
  if haveX.covers needX && haveY.covers needY then .ok ()
  else
    .error (.notApplicable
      ("input padding x=" ++ haveX.text ++ " y=" ++ haveY.text
        ++ " is smaller than required x=" ++ needX.text ++ " y=" ++ needY.text))

/-- The constants that every convolution kernel is compiled with. -/
def convolutionDefines (w : ConvolutionWork) : Defines :=
  Defines.ofOperands w.operands ++ Defines.ofFilter w.filter
    ++ [Defines.num "STRIDE_SIZE_X" w.stride.x, Defines.num "STRIDE_SIZE_Y" w.stride.y,
      Defines.num "DILATION_SIZE_X" w.dilation.x, Defines.num "DILATION_SIZE_Y" w.dilation.y,
      Defines.num "INPUT0_OFFSET_WITH_PADDING_X" w.padding.x,
      Defines.num "INPUT0_OFFSET_WITH_PADDING_Y" w.padding.y,
      Defines.num "FILTER_SIZE_X" w.window.x, Defines.num "FILTER_SIZE_Y" w.window.y,
      Defines.num "SPLIT" w.split]

/-- A work item per output element, features and batch first. -/
def convolutionGroups (w : ConvolutionWork) : WorkGroups :=
  let size := w.operands.output.size
  let channels := size.feature * size.batch
  ⟨⟨channels, size.x, size.y⟩, ⟨divisorUpTo32 channels, 1, 1⟩⟩

/-- Data, result, weights, bias if there is one, and the number of the group. -/
def convolutionArguments (w : ConvolutionWork) : List Argument :=
  standardArguments 1 true (!w.filter.bias.isEmpty) ++ [Argument.split]

/-- A plan of one convolution launch. -/
def convolutionPlan (w : ConvolutionWork) (name layer : String) (extra : Defines)
    (groups : WorkGroups) (cost : Single) (change : Option WeightsChange) :
    Except Refusal Plan := do
  let plan ← singleLaunch .convolution name layer (convolutionDefines w ++ extra) groups
    (convolutionArguments w) cost
  return { plan with weightsChange := change }

end NetPlan.Kernel.Builtin

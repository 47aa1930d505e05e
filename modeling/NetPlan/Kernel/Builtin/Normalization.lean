import NetPlan.Kernel.Builtin.Convolution

/-!
# Kernel/Builtin/Normalization — batch normalization, scaling and their fusion

Per-feature parameters come as tensors with one element per feature.  The fused kernel is a
reference convolution that normalizes and scales each output feature.
-/

namespace NetPlan.Kernel.Builtin

/-- A parameter tensor has one element per feature. -/
def checkPerFeature (what : String) (t : DataTensor) (features : Nat) : Except Refusal Unit :=
  if t.count ≠ features then
    .error (.invalid s!"{what} has {t.count} elements for {features} features")
  else .ok ()

/-- Parameter tensors, each with its role. -/
def checkAllPerFeature (features : Nat) : List (String × DataTensor) → Except Refusal Unit
  | [] => .ok ()
  | (what, t) :: rest => do
    checkPerFeature what t features
    checkAllPerFeature features rest

/-- A work item per output element, the plane first. -/
def perPlane (output : DataTensor) : WorkGroups :=
  .optimal (output.size.x * output.size.y) output.size.feature output.size.batch

/-- What the per-feature kernels offer. -/
def normalizationFeatures : List Feature :=
  floatTypes ++ layouts [.bfyx, .yxfb, .byxf] ++ padded ++ [Feature.batching]

/-- The name of the kernel. -/
def batchNormName : String := "batch_norm_gpu_ref"

/-- A work item per element; mean and variance have a value per feature, and epsilon is no negative
number. -/
def planBatchNorm : Planner := fun request _ =>
  match request.work with
  | .batchNorm o epsilon =>
    match o.inputs with
    | [input, mean, variance] => do
      checkAllPerFeature input.size.feature [("mean", mean), ("variance", variance)]
      if epsilon.isNaN || epsilon.lt Single.zero then
        throw (.invalid "epsilon must be non-negative")
      let plan ← singleLaunch .batchNorm batchNormName request.layer
        (Defines.ofOperands o ++ [("EPSILON", epsilon.text)]) (perPlane o.output)
        (standardArguments 3 false false) Cost.fallback
      return [plan]
    | _ => .error (.invalid "batch norm expects data, mean and variance")
  | _ => .error (wrongKind .batchNorm request)

/-- Deviation from the mean over the standard deviation, per feature. -/
def batchNormRef : Implementation :=
  .fixed batchNormName .batchNorm ⟨normalizationFeatures⟩ planBatchNorm

/-- The name of the kernel. -/
def scaleName : String := "scale_gpu_ref"

/-- A work item per element; factor and bias have a value per feature. -/
def planScale : Planner := fun request _ =>
  match request.work with
  | .scale o =>
    match o.inputs with
    | [] => .error (.invalid "scale needs an input")
    | input :: rest => do
      if rest.isEmpty ∨ rest.length > 2 then
        throw (.invalid "scale expects a scale input and an optional bias")
      checkAllPerFeature input.size.feature (["scale", "bias"].zip rest)
      let plan ← singleLaunch .scale scaleName request.layer
        (Defines.ofOperands o
          ++ [Defines.num "BIAS_TERM" (if o.inputs.length > 2 then 1 else 0)])
        (perPlane o.output) (standardArguments o.inputs.length false false) Cost.fallback
      return [plan]
  | _ => .error (wrongKind .scale request)

/-- A factor and an optional bias per feature. -/
def scaleRef : Implementation :=
  .fixed scaleName .scale ⟨normalizationFeatures ++ [Feature.biasPerFeature, .noBias]⟩ planScale

/-- The name of the kernel. -/
def fusedName : String := "fused_conv_bn_scale_kernel_ref"

/-- A convolution of the first input; the others have a value per feature of the result. -/
def planFused : Planner := fun request options =>
  match request.work with
  | .fusedConvBnScale w epsilon =>
    match w.operands.inputs with
    | input :: rest => do
      if rest.length < 3 ∨ rest.length > 4 then
        throw (.invalid
          "fused convolution expects data, mean, variance, scale and an optional scale bias")
      let conv := { w with operands := { w.operands with inputs := [input] } }
      let _ ← checkConvolution conv
      checkAllPerFeature conv.operands.output.size.feature
        (["mean", "variance", "scale", "scale bias"].zip rest)
      let change ← weightsChange? w.filter.weights input.element options [.oiyx]
      let plan ← singleLaunch .fusedConvBnScale fusedName request.layer
        (convolutionDefines conv
          ++ [("EPSILON", epsilon.text),
            Defines.num "SCALE_BIAS_TERM" (if rest.length > 3 then 1 else 0)])
        (convolutionGroups conv)
        (standardArguments (rest.length + 1) true (!w.filter.bias.isEmpty) ++ [Argument.split])
        Cost.fallback
      return [{ plan with weightsChange := change }]
    | [] =>
      .error (.invalid
        "fused convolution expects data, mean, variance, scale and an optional scale bias")
  | _ => .error (wrongKind .fusedConvBnScale request)

/-- Reference convolution that normalizes and scales each output feature. -/
def fusedRef : Implementation :=
  .fixed fusedName .fusedConvBnScale
    ⟨[Feature.inputType .f32, .outputType .f32, .inputWeightType .f32] ++ layouts [.bfyx]
      ++ [Feature.inputWeightLayout .oiyx] ++ padded
      ++ [Feature.batching, .biasPerFeature, .noBias, .split]⟩
    planFused

end NetPlan.Kernel.Builtin

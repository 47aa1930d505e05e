import NetPlan.Kernel.Builtin.Convolution

/-!
# Kernel/Builtin/Convolution/Fixed — convolutions with nothing to tune

The reference convolution accepts anything; one lowers to a blocked matrix product, and one has the batch
innermost, for large batches.
-/

namespace NetPlan.Kernel.Builtin

/-! ## Reference -/

/-- The name of the reference kernel. -/
def convolutionRefName : String := "convolution_gpu_ref"

/-- Arrangements of weights that the reference kernel reads as they come. -/
def convolutionRefWeights : List WeightLayout := [.oiyx, .yxio, .iyxo, .oyxi]

/-- A work item per element of the result, over weights in a plain arrangement. -/
def planConvolutionRef : Planner := fun request options =>
  match request.work with
  | .convolution w => do
    let input ← checkConvolution w
    let current := w.filter.weights.layout
    let wanted :=
      if convolutionRefWeights.contains current then [current] else convolutionRefWeights
    let change ← weightsChange? w.filter.weights input.element options wanted
    let plan ← convolutionPlan w convolutionRefName request.layer [] (convolutionGroups w)
      Cost.fallback change
    return [plan]
  | _ => .error (wrongKind .convolution request)

/-- Boundary-checked direct convolution; slow, and fit for any request. -/
def convolutionRef : Implementation :=
  .fixed convolutionRefName .convolution
    ⟨floatTypes ++ floatWeights ++ layouts [.bfyx, .yxfb, .byxf]
      ++ convolutionRefWeights.map Feature.inputWeightLayout ++ padded
      ++ [Feature.batching, .biasPerFeature, .biasPerOutput, .noBias, .split, .dilation]⟩
    planConvolutionRef

/-! ## Matrix product -/

/-- Blocking of the matrix product. -/
structure GemmStyle where
  rows : Nat
  columns : Nat
  stepX : Nat
  stepY : Nat
  group : Nat
  weights : WeightLayout
  cost : Single
  variant : String

/-- Half precision has one row a step, single precision two. -/
def GemmStyle.of (element : Element) : GemmStyle :=
  if element = .f16 then ⟨1, 32, 1, 1, 16, .iyXsOsXsv2Osv16Ao32, Cost.ranked 6, "fp16"⟩
  else ⟨2, 32, 2, 1, 8, .iyXsOsXsv2Osv8Ao32, Cost.ranked 8, "fp32"⟩

/-- The name of the kernel. -/
def convolutionGemmName : String := "convolution_gpu_bfyx_gemm_like"

/-- Rows and columns of the product in steps of the style, over weights cut to match. -/
def planConvolutionGemm : Planner := fun request options =>
  match request.work with
  | .convolution w => do
    let input ← checkConvolution w
    checkPaddedInput w input
    let style := GemmStyle.of input.element
    let change ← weightsChange? w.filter.weights input.element options [style.weights]
    let size := w.operands.output.size
    let m := roundUp (size.x * size.y) style.rows
    let n := roundUp size.feature style.columns
    let plan ← convolutionPlan w convolutionGemmName request.layer
      [Defines.num "ALIGNED_OFM" n, Defines.num "DX" style.stepX, Defines.num "DY" style.stepY,
        Defines.num "FILTER_SIZE_X_DIV2" (w.window.x / 2), ("KERNEL_VARIANT", style.variant)]
      ⟨⟨ceilDiv n style.stepX, roundUp (ceilDiv m style.stepY) style.group, size.batch⟩,
        ⟨1, style.group, 1⟩⟩
      style.cost change
    return [plan]
  | _ => .error (wrongKind .convolution request)

/-- Convolution lowered to a blocked matrix product over reshaped weights. -/
def convolutionGemm : Implementation :=
  .fixed convolutionGemmName .convolution
    ⟨floatTypes ++ floatWeights ++ layouts [.bfyx]
      ++ [Feature.inputWeightLayout .iyXsOsXsv2Osv16Ao32, .inputWeightLayout .iyXsOsXsv2Osv8Ao32]
      ++ padded ++ [Feature.subgroups, .biasPerFeature, .noBias, .batching, .split]⟩
    planConvolutionGemm

/-! ## Batch innermost -/

/-- What a work item computes. -/
structure BatchStyle where
  features : Nat
  batches : Nat
  cost : Single

/-- The name of the kernel. -/
def convolutionBatchName : String := "convolution_gpu_yxfb_yxio_b16"

/-- Group size, and the batch step of half precision. -/
def batchGroup : Nat := 16

/-- The share of a work item, if features and batch divide into shares. -/
def BatchStyle.of? (element : Element) (outputs batch : Nat) : Except Refusal BatchStyle :=
  if element = .f16 then
    if outputs % 16 ≠ 0 ∨ batch % batchGroup ≠ 0 then
      .error (.notApplicable "fp16 path needs ofm and batch divisible by 16")
    else
      let batches :=
        if batch % (4 * batchGroup) = 0 then 4
        else if batch % (2 * batchGroup) = 0 then 2
        else 1
      .ok ⟨16, batches, Cost.ranked 7⟩
  else if outputs * batch % batchGroup ≠ 0 ∨ batch < 32 then
    .error (.notApplicable "fp32 path needs batch >= 32 and ofm*batch divisible by 16")
  else .ok ⟨8, 2, Cost.ranked 9⟩

/-- The share of a work item is a block of features and batches. -/
def planConvolutionBatch : Planner := fun request options =>
  match request.work with
  | .convolution w => do
    let input ← checkConvolution w
    let size := w.operands.output.size
    let outputs := w.filter.weights.outputs
    let batch := size.batch
    if outputs = 0 ∨ batch = 0 ∨ size.feature ≠ outputs then
      throw (.notApplicable "output features must match a single weights group")
    let style ← BatchStyle.of? input.element outputs batch
    let change ← weightsChange? w.filter.weights input.element options [.yxio]
    let plan ← convolutionPlan w convolutionBatchName request.layer
      [Defines.num "LOCAL_WORK_GROUP_SIZE" batchGroup,
        Defines.num "OFM_PER_WORK_ITEM" style.features,
        Defines.num "BATCHES_PER_WORK_ITEM" style.batches,
        Defines.num "LOCAL_WORK_GROUPS_PER_SINGLE_BATCHES_ELEMENTS"
          (Nat.max (batch / style.batches / batchGroup) 1),
        Defines.num "WORK_ITEMS_PER_SINGLE_BATCHES_ELEMENTS" (batch / style.batches)]
      ⟨⟨outputs * batch / (style.features * style.batches), size.x, size.y⟩,
        ⟨batchGroup, 1, 1⟩⟩
      style.cost change
    return [plan]
  | _ => .error (wrongKind .convolution request)

/-- Batch-innermost convolution for large batches. -/
def convolutionBatch : Implementation :=
  .fixed convolutionBatchName .convolution
    ⟨floatTypes ++ floatWeights ++ layouts [.yxfb] ++ [Feature.inputWeightLayout .yxio] ++ padded
      ++ [Feature.biasPerFeature, .noBias, .batching, .split, .dilation, .subgroups]⟩
    planConvolutionBatch

end NetPlan.Kernel.Builtin

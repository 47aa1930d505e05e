import NetPlan.Kernel.Plan

/-!
# Kernel/Builtin/FullyConnected — matrix-vector products

Four kernels: a work item per output, a row-blocked product, a half-precision block reader for
large batches, and a single-batch kernel over weights blocked by sixteen.
-/

namespace NetPlan.Kernel.Builtin

/-- One input with as many elements per batch as the weights consume, and as many output features
as the weights produce. -/
def checkFullyConnected (w : FullyConnectedWork) : Except Refusal DataTensor :=
  match w.operands.inputs with
  | [input] =>
    let weights := w.filter.weights
    let consumed := weights.inputs * weights.x * weights.y
    let provided := input.size.feature * input.size.x * input.size.y
    let features := w.operands.output.size.feature
    if consumed ≠ provided then
      .error (.invalid
        s!"weights consume {consumed} elements per batch, input has {provided}")
    else if weights.outputs ≠ features then
      .error (.invalid s!"weights produce {weights.outputs} outputs, output has {features}")
    else .ok input
  | _ => .error (.invalid "fully connected expects one input")

/-- The constants that every kernel of this kind is compiled with. -/
def fullyConnectedDefines (w : FullyConnectedWork) : Defines :=
  Defines.ofOperands w.operands ++ Defines.ofFilter w.filter

/-- A plan of one launch over input, weights and bias. -/
def fullyConnectedPlan (w : FullyConnectedWork) (name layer : String) (extra : Defines)
    (groups : WorkGroups) (cost : Single) (change : Option WeightsChange) :
    Except Refusal (List Plan) := do
  let plan ← singleLaunch .fullyConnected name layer (fullyConnectedDefines w ++ extra) groups
    (standardArguments 1 true (!w.filter.bias.isEmpty)) cost
  return [{ plan with weightsChange := change }]

/-! ## Reference -/

/-- The name of the reference kernel. -/
def fullyConnectedRefName : String := "fully_connected_gpu_ref"

/-- Arrangements of weights that the reference kernel reads as they come. -/
def fullyConnectedRefWeights : List WeightLayout :=
  [.oiyx, .oi, .yxio, .io, .osIOsv16, .osIsv8Osv8]

/-- A work item per element of the result, over weights in an arrangement that is read as it comes. -/
def planFullyConnectedRef : Planner := fun request options =>
  match request.work with
  | .fullyConnected w => do
    let input ← checkFullyConnected w
    let current := w.filter.weights.layout
    let wanted :=
      if fullyConnectedRefWeights.contains current then [current] else fullyConnectedRefWeights
    let change ← weightsChange? w.filter.weights input.element options wanted
    let total := w.operands.output.count
    fullyConnectedPlan w fullyConnectedRefName request.layer []
      ⟨⟨total, 1, 1⟩, ⟨divisorUpTo32 total, 1, 1⟩⟩ Cost.fallback change
  | _ => .error (wrongKind .fullyConnected request)

/-- A work item per output element. -/
def fullyConnectedRef : Implementation :=
  .fixed fullyConnectedRefName .fullyConnected
    ⟨floatTypes ++ floatWeights
      ++ [Feature.inputLayout .bfyx, .inputLayout .bf, .inputLayout .yxfb, .inputLayout .fb,
        .outputLayout .bf, .outputLayout .fb]
      ++ fullyConnectedRefWeights.map Feature.inputWeightLayout
      ++ [Feature.biasPerFeature, .noBias] ++ padded ++ [Feature.batching]⟩
    planFullyConnectedRef

/-! ## Row blocks -/

/-- The name of the kernel. -/
def fullyConnectedGemmName : String := "fully_connected_gpu_gemm"

/-- Work items per row. -/
def gemmRowGroup : Nat := 64

/-- Elements a work item reads at once. -/
def gemmVector : Nat := 4

/-- A group of work items per row of the weights and batch. -/
def planFullyConnectedGemm : Planner := fun request options =>
  match request.work with
  | .fullyConnected w => do
    let input ← checkFullyConnected w
    let change ← weightsChange? w.filter.weights input.element options [.oiyx]
    let line := input.pitch .batch
    let size := w.operands.output.size
    fullyConnectedPlan w fullyConnectedGemmName request.layer
      [Defines.num "LAST_INPUT_SIZE_REMAINDER" (line % (gemmRowGroup * gemmVector)),
        Defines.num "LAST_INPUT_SIZE_DIV_4" (line % gemmVector)]
      ⟨⟨gemmRowGroup, size.feature, size.batch⟩, ⟨gemmRowGroup, 1, 1⟩⟩
      (Cost.ranked 6) change
  | _ => .error (wrongKind .fullyConnected request)

/-- Row-blocked matrix-vector product. -/
def fullyConnectedGemm : Implementation :=
  .fixed fullyConnectedGemmName .fullyConnected
    ⟨floatTypes ++ floatWeights
      ++ [Feature.inputLayout .bfyx, .inputLayout .bf, .outputLayout .bf, .inputWeightLayout .oiyx,
        .inputWeightLayout .oi, .biasPerFeature]
      ++ padded ++ [Feature.batching]⟩
    planFullyConnectedGemm

/-! ## Half-precision blocks -/

/-- The name of the kernel. -/
def fullyConnectedBlockName : String := "fully_connected_gpu_fb_io_block_fp16"

/-- Work items of a sub-group. -/
def blockSubgroup : Nat := 16

/-- Elements in a chunk of four bytes. -/
def blockChunk : Nat := 2

/-- Elements a sub-group reads at once. -/
def blockRead : Nat := blockSubgroup * blockChunk

/-- Whether the batch is the innermost axis that matters. -/
def isBatchInnermost (t : DataTensor) : Bool :=
  match t.layout with
  | .fb => true
  | .yxfb => t.isSpatiallyFlat
  | .fyxb => !t.isPadded
  | _ => false

/-- Blocks of responses and batches, if both divide into whole blocks. -/
def planFullyConnectedBlock : Planner := fun request options =>
  match request.work with
  | .fullyConnected w => do
    let input ← checkFullyConnected w
    if !isBatchInnermost input then
      throw (.notApplicable s!"input layout {input.layout.name} is not batch-innermost")
    let batches := w.operands.output.size.batch
    let responses := w.operands.output.size.feature
    let line := input.count / Nat.max batches 1
    if !(batches > 0 && batches % 8 = 0 && batches % blockRead = 0
        && responses > 0 && responses * 2 % 4 = 0 && line % 8 = 0) then
      throw (.notApplicable "batch must be a multiple of 32 and responses even")
    let change ← weightsChange? w.filter.weights input.element options [.io]
    let responseGroups := ceilDiv responses blockRead
    fullyConnectedPlan w fullyConnectedBlockName request.layer
      [Defines.num "SUB_GROUP_SIZE" blockSubgroup,
        Defines.num "WORK_ITEMS_PER_BATCH" (batches / blockRead),
        Defines.num "UNIT_BYTE_SIZE" 2, ("CHUNK_TYPE", "uint"), Defines.num "CHUNK_BYTE_SIZE" 4,
        Defines.num "UNITS_PER_CHUNK" blockChunk,
        Defines.num "BYTES_PER_SG_READ" (blockSubgroup * 4),
        Defines.num "UNITS_PER_SG_READ" blockRead, Defines.num "RG_COUNT" responseGroups,
        Defines.num "LAST_RG_SIZE" (responses % blockRead)]
      ⟨⟨responseGroups * blockSubgroup, batches / blockRead, 1⟩, ⟨blockSubgroup, 1, 1⟩⟩
      (Cost.ranked 4) change
  | _ => .error (wrongKind .fullyConnected request)

/-- Half-precision block reads over batch-innermost data; large batches only. -/
def fullyConnectedBlock : Implementation :=
  .fixed fullyConnectedBlockName .fullyConnected
    ⟨[Feature.inputType .f16, .outputType .f16] ++ floatWeights
      ++ DataLayout.all.map Feature.inputLayout
      ++ [Feature.outputLayout .fb, .inputWeightLayout .io, .inputWeightLayout .iyxo, .batching,
        .biasPerFeature, .noBias, .subgroups]⟩
    planFullyConnectedBlock

/-! ## Single batch -/

/-- The name of the kernel. -/
def fullyConnectedSingleName : String := "fully_connected_gpu_bs_f_bsv16_b1"

/-- Work items of a sub-group, and responses it computes at once. -/
def singleSubgroup : Nat := 16

/-- A sub-group per sixteen responses. -/
def planFullyConnectedSingle : Planner := fun request options =>
  match request.work with
  | .fullyConnected w => do
    let input ← checkFullyConnected w
    let change ← weightsChange? w.filter.weights input.element options [.osIOsv16]
    let unit := if input.element = .f16 then 2 else 4
    let unitsPerChunk := 4 / unit
    let responseGroups := ceilDiv w.operands.output.size.feature singleSubgroup
    fullyConnectedPlan w fullyConnectedSingleName request.layer
      [Defines.num "SUB_GROUP_SIZE" singleSubgroup, Defines.num "WORK_ITEMS_PER_BATCH" 1,
        Defines.num "UNIT_BYTE_SIZE" unit, ("CHUNK_TYPE", "uint"),
        Defines.num "CHUNK_BYTE_SIZE" 4, Defines.num "UNITS_PER_CHUNK" unitsPerChunk,
        Defines.num "BYTES_PER_SG_READ" (singleSubgroup * 4),
        Defines.num "UNITS_PER_SG_READ" (singleSubgroup * unitsPerChunk),
        Defines.num "RESPONSES_PER_SG_EXEC" singleSubgroup,
        Defines.num "IN_CHUNK_PREFETCH_SIZE" 2,
        Defines.num "FILTER_CHUNK_PREFETCH_SIZE" singleSubgroup]
      ⟨⟨responseGroups * singleSubgroup, 1, 1⟩, ⟨singleSubgroup, 1, 1⟩⟩ (Cost.ranked 5) change
  | _ => .error (wrongKind .fullyConnected request)

/-- Single-batch kernel over weights blocked by sixteen. -/
def fullyConnectedSingle : Implementation :=
  .fixed fullyConnectedSingleName .fullyConnected
    ⟨floatTypes ++ floatWeights
      ++ [Feature.inputLayout .bfyx, .inputLayout .bf, .outputLayout .bf,
        .inputWeightLayout .osIOsv16, .biasPerFeature, .noBias, .subgroups]⟩
    planFullyConnectedSingle

end NetPlan.Kernel.Builtin

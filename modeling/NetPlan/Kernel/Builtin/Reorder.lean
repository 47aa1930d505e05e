import NetPlan.Kernel.Plan

/-!
# Kernel/Builtin/Reorder — copies into another arrangement

Two kernels for data, an indexed copy and a flat one that is fast for a single batch, and one for
weights.
-/

namespace NetPlan.Kernel.Builtin

/-- One input of the size of the output, and a value to subtract per feature or none at all. -/
def checkReorder (w : ReorderWork) : Except Refusal DataTensor :=
  match w.operands.inputs with
  | [input] =>
    if input.count ≠ w.operands.output.count then
      .error (.invalid
        s!"reorder cannot change the element count ({input.count} -> {w.operands.output.count})")
    else if !w.subtract.isEmpty && w.subtract.length ≠ input.size.feature then
      .error (.invalid "mean subtraction needs one value per feature")
    else .ok input
  | _ => .error (.invalid "reorder expects exactly one input")

/-- Any element types, arrangements and paddings. -/
def reorderFeatures : List Feature :=
  allTypes ++ [Feature.differentTypes] ++ allLayouts ++ padded ++ [Feature.batching]

/-- The name of the indexed copy. -/
def reorderRefName : String := "reorder_data"

/-- A work item per element of the input. -/
def planReorderRef : Planner := fun request _ =>
  match request.work with
  | .reorder w => do
    let input ← checkReorder w
    let subtract : Defines :=
      if w.subtract.isEmpty then []
      else [("VALUE_TO_SUBTRACT", ",".intercalate (w.subtract.map Single.text))]
    let plan ← singleLaunch .reorder reorderRefName request.layer
      (Defines.ofOperands w.operands ++ subtract)
      (.optimal input.size.batch input.size.feature (input.size.x * input.size.y))
      (standardArguments 1 false false) Cost.fallback
    return [plan]
  | _ => .error (wrongKind .reorder request)

/-- Indexed copy between any two arrangements. -/
def reorderRef : Implementation :=
  .fixed reorderRefName .reorder ⟨reorderFeatures ++ [Feature.subtract]⟩ planReorderRef

/-- The name of the flat copy. -/
def reorderFastName : String := "reorder_data_fast_b1"

/-- Group size of the flat copy. -/
def reorderFastGroup : Nat := 32

/-- A work item per element of the result, in whole groups. -/
def planReorderFast : Planner := fun request _ =>
  match request.work with
  | .reorder w => do
    let _ ← checkReorder w
    let output := w.operands.output
    let plan ← singleLaunch .reorder reorderFastName request.layer
      (Defines.ofOperands w.operands ++ [Defines.num "ELEMENTS_COUNT" output.count])
      ⟨⟨roundUp output.count reorderFastGroup, 1, 1⟩, ⟨reorderFastGroup, 1, 1⟩⟩
      (standardArguments 1 false false)
      (if output.size.batch = 1 then Cost.ranked 6 else Cost.fallback)
    return [plan]
  | _ => .error (wrongKind .reorder request)

/-- Flat copy, a work item per element. -/
def reorderFast : Implementation :=
  .fixed reorderFastName .reorder ⟨reorderFeatures⟩ planReorderFast

/-- The name of the kernel for weights. -/
def reorderWeightsName : String := "reorder_weights"

/-- A work item per weight; there are as many before as after. -/
def planReorderWeights : Planner := fun request _ =>
  match request.work with
  | .weightsReorder source target => do
    if source.count ≠ target.count then
      throw (.invalid "weights reorder cannot change the element count")
    let plan ← singleLaunch .weightsReorder reorderWeightsName request.layer
      (Defines.ofWeights "INPUT0" source ++ Defines.ofWeights "OUTPUT" target)
      (.optimal target.outputs target.inputs (target.x * target.y))
      [.input 0, .output] Cost.fallback
    return [plan]
  | _ => .error (wrongKind .weightsReorder request)

/-- Weights into another arrangement or element type. -/
def reorderWeights : Implementation :=
  .fixed reorderWeightsName .weightsReorder
    ⟨([WeightElement.f16, .f32, .i8].flatMap fun e =>
        [Feature.inputWeightType e, .outputWeightType e])
      ++ WeightLayout.all.map Feature.inputWeightLayout
      ++ WeightLayout.all.map Feature.outputWeightLayout
      ++ [Feature.differentTypes]⟩
    planReorderWeights

end NetPlan.Kernel.Builtin

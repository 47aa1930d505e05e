import NetPlan.Kernel.Plan

/-!
# Kernel/Builtin/Softmax — normalized exponentials

Two kernels: a work item per normalized line, and a sub-group reduction over the features of flat
tensors.
-/

namespace NetPlan.Kernel.Builtin

/-- One input of the size of the output, and no activation. -/
def checkSoftmax (o : Operands) : Except Refusal DataTensor :=
  match o.inputs with
  | [input] =>
    if input.count ≠ o.output.count then .error (.invalid "softmax keeps the input shape")
    else if !o.activation.isNone then
      .error (.notApplicable "softmax cannot apply a fused activation")
    else .ok input
  | _ => .error (.invalid "softmax expects exactly one input")

/-- The constants that every softmax kernel is compiled with. -/
def softmaxDefines (o : Operands) (axis : SoftmaxAxis) : Defines :=
  Defines.ofOperands o ++ [("SOFTMAX_DIM", axis.toAxis.name.toUpper)]

/-- The name of the reference kernel. -/
def softmaxRefName : String := "softmax_gpu_ref"

/-- The axes of a launch, all but the normalized one. -/
def softmaxGrid (s : Shape) : SoftmaxAxis → WorkGroups
  | .x => .optimal s.y s.feature s.batch
  | .y => .optimal s.x s.feature s.batch
  | .feature => .optimal s.x s.y s.batch

/-- A work item per line. -/
def planSoftmaxRef : Planner := fun request _ =>
  match request.work with
  | .softmax o axis => do
    let input ← checkSoftmax o
    let plan ← singleLaunch .softmax softmaxRefName request.layer
      (softmaxDefines o axis ++ [Defines.num "ITEMS_NUM" (input.extent axis.toAxis)])
      (softmaxGrid input.size axis) (standardArguments 1 false false) Cost.fallback
    return [plan]
  | _ => .error (wrongKind .softmax request)

/-- A work item per normalized line. -/
def softmaxRef : Implementation :=
  .fixed softmaxRefName .softmax
    ⟨floatTypes ++ layouts [.bfyx, .yxfb, .bf, .fb]
      ++ [Feature.softmaxAxis .x, .softmaxAxis .y, .softmaxAxis .feature] ++ padded
      ++ [Feature.batching]⟩
    planSoftmaxRef

/-- The name of the kernel that shares a line among work items. -/
def softmaxItemsName : String := "softmax_gpu_items_class_optimized"

/-- Work items that share one line. -/
def softmaxGroup : Nat := 16

/-- A group of work items per batch. -/
def planSoftmaxItems : Planner := fun request _ =>
  match request.work with
  | .softmax o axis => do
    let input ← checkSoftmax o
    let plan ← singleLaunch .softmax softmaxItemsName request.layer
      (softmaxDefines o axis
        ++ [Defines.num "ITEMS_NUM" input.size.feature, Defines.num "LWS" softmaxGroup,
          Defines.num "ITEMS_PER_WORK_ITEM" (ceilDiv input.size.feature softmaxGroup)])
      ⟨⟨softmaxGroup * input.size.batch, 1, 1⟩, ⟨softmaxGroup, 1, 1⟩⟩
      (standardArguments 1 false false) (Cost.ranked 8)
    return [plan]
  | _ => .error (wrongKind .softmax request)

/-- Sub-group reduction over the features of flat tensors. -/
def softmaxItems : Implementation :=
  .fixed softmaxItemsName .softmax
    ⟨floatTypes ++ layouts [.bf] ++ [Feature.softmaxAxis .feature, .offset, .batching]⟩
    planSoftmaxItems

end NetPlan.Kernel.Builtin

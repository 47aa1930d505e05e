import NetPlan.Kernel.Plan

/-!
# Kernel/Builtin/Activation — activations on their own

Two kernels: one for any arrangement, which can also read one parameter per feature from a second
input, and one that treats a dense buffer as vectors of four.
-/

namespace NetPlan.Kernel.Builtin

/-- An activation has an input of the size of its output, and one slope per feature if any. -/
def checkActivation (o : Operands) : Except Refusal Unit :=
  match o.inputs with
  | [] => .error (.invalid "activation expects an input")
  | input :: rest =>
    if input.count ≠ o.output.count then
      .error (.invalid s!"activation input has {input.count} elements, output {o.output.count}")
    else match rest with
      | [] => .ok ()
      | slopes :: _ =>
        if slopes.count ≠ o.output.size.feature then
          .error (.invalid "activation parameters must hold one entry per feature")
        else .ok ()

/-- The name of the reference kernel. -/
def activationRefName : String := "activation_gpu_ref"

/-- A work item per element of the result. -/
def planActivationRef : Planner := fun request _ =>
  match request.work with
  | .activation o => do
    checkActivation o
    let extra : Defines := if o.inputs.length > 1 then [Defines.num "PARAMETERIZED" 1] else []
    let plan ← singleLaunch .activation activationRefName request.layer
      (Defines.ofOperands o ++ extra) (perElement o.output)
      (standardArguments o.inputs.length false false) Cost.fallback
    return [plan]
  | _ => .error (wrongKind .activation request)

/-- Element-wise activation over any arrangement. -/
def activationRef : Implementation :=
  .fixed activationRefName .activation
    ⟨floatTypes ++ allLayouts ++ padded ++ [Feature.batching, .activationOperand]⟩
    planActivationRef

/-- The name of the vectorized kernel. -/
def activationOptName : String := "activation_gpu_opt"

/-- Elements a work item handles at once. -/
def activationVector : Nat := 4

/-- A work item per vector of elements, if they split into whole vectors. -/
def planActivationOpt : Planner := fun request _ =>
  match request.work with
  | .activation o => do
    checkActivation o
    let total := o.output.count
    if total % activationVector ≠ 0 then
      throw (.notApplicable s!"{total} elements do not split into vectors of {activationVector}")
    let plan ← singleLaunch .activation activationOptName request.layer
      (Defines.ofOperands o ++ [Defines.num "NUM_COLS_WI" activationVector])
      (.optimal (ceilDiv total activationVector) 1 1)
      (standardArguments 1 false false) (Cost.ranked 6)
    return [plan]
  | _ => .error (wrongKind .activation request)

/-- Vectorized activation over dense buffers. -/
def activationOpt : Implementation :=
  .fixed activationOptName .activation
    ⟨floatTypes ++ allLayouts ++ [Feature.offset, .batching]⟩ planActivationOpt

end NetPlan.Kernel.Builtin

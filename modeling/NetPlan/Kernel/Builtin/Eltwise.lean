import NetPlan.Kernel.Plan

/-!
# Kernel/Builtin/Eltwise — element-wise combinations
-/

namespace NetPlan.Kernel.Builtin

/-- The name of the kernel. -/
def eltwiseName : String := "eltwise_gpu_ref"

/-- The mode as the kernel source spells it. -/
def modeName : EltwiseMode → String
  | .sum => "SUM"
  | .sub => "SUB"
  | .prod => "PROD"
  | .max => "MAX"
  | .min => "MIN"

/-- At least two inputs, each of the size of the output, and a coefficient for all or for none. -/
def checkEltwise (w : EltwiseWork) : Except Refusal Unit := do
  let inputs := w.operands.inputs
  let output := w.operands.output
  if inputs.length < 2 then
    throw (.invalid "eltwise needs at least two inputs")
  if let some mismatch := inputs.find? (·.count ≠ output.count) then
    throw (.invalid
      s!"eltwise input with {mismatch.count} elements does not match output with {output.count}")
  if !w.coefficients.isEmpty && w.coefficients.length ≠ inputs.length then
    throw (.invalid "eltwise needs one coefficient per input")

/-- A work item per element of the result. -/
def planEltwise : Planner := fun request _ =>
  match request.work with
  | .eltwise w => do
    checkEltwise w
    let coefficients : Defines :=
      w.coefficients.zipIdx.map fun (c, i) => (s!"INPUT{i}_COEFF", c.text)
    let plan ← singleLaunch .eltwise eltwiseName request.layer
      (Defines.ofOperands w.operands ++ [("ELTWISE_MODE", modeName w.mode)] ++ coefficients)
      (perElement w.operands.output)
      (standardArguments w.operands.inputs.length false false) Cost.fallback
    return [plan]
  | _ => .error (wrongKind .eltwise request)

/-- Element-wise combination of equally shaped inputs. -/
def eltwiseRef : Implementation :=
  .fixed eltwiseName .eltwise
    ⟨allTypes ++ [Feature.differentTypes] ++ allLayouts ++ padded
      ++ [Feature.batching, .coefficients]⟩
    planEltwise

end NetPlan.Kernel.Builtin

import NetPlan.Kernel.Plan

/-!
# Kernel/Builtin/Concatenation — inputs side by side

One launch per input copies it to its place in the output.
-/

namespace NetPlan.Kernel.Builtin

/-- The name of the kernel. -/
def concatenationName : String := "concatenation_gpu_ref"

/-- The axes other than `axis` on which an input and the output differ. -/
def axisMismatch? (axis : Axis) (input output : DataTensor) : Option Axis :=
  [Axis.x, .y, .feature, .batch].find? fun a => a ≠ axis && input.extent a ≠ output.extent a

/-- Inputs agree with the output off the axis and add up to it along the axis. -/
def checkConcatenation (o : Operands) (axis : Axis) : Except Refusal Unit := do
  if o.inputs.isEmpty then
    throw (.invalid "concatenation needs inputs")
  if !o.activation.isNone then
    throw (.notApplicable "concatenation cannot apply a fused activation")
  for input in o.inputs do
    if let some a := axisMismatch? axis input o.output then
      throw (.invalid
        s!"input {a.name} extent {input.extent a} differs from output {o.output.extent a}")
  let covered := (o.inputs.map (·.extent axis)).foldr (· + ·) 0
  if covered ≠ o.output.extent axis then
    throw (.invalid
      s!"inputs cover {covered} along {axis.name}, output has {o.output.extent axis}")

/-- The launch that copies input `index` to position `offset` along the axis. -/
def concatenationPart (layer : String) (o : Operands) (axis : Axis) (index offset : Nat)
    (input : DataTensor) : Except Refusal Plan :=
  singleLaunch .concatenation concatenationName s!"{layer}_{index}"
    (Defines.ofOperands ⟨.none, [input], o.output⟩
      ++ [("CONCAT_AXIS", axis.name.toUpper), Defines.num "OUTPUT_AXIS_OFFSET" offset])
    (.optimal (input.size.x * input.size.y) input.size.feature input.size.batch)
    [.input index, .output] Cost.fallback

/-- The launches of all inputs, the first at `offset`. -/
def concatenationParts (layer : String) (o : Operands) (axis : Axis) :
    Nat → Nat → List DataTensor → Except Refusal (List Plan)
  | _, _, [] => .ok []
  | index, offset, input :: rest => do
    let part ← concatenationPart layer o axis index offset input
    let parts ← concatenationParts layer o axis (index + 1) (offset + input.extent axis) rest
    return part :: parts

/-- One plan with a launch per input. -/
def planConcatenation : Planner := fun request _ =>
  match request.work with
  | .concatenation o axis => do
    checkConcatenation o axis
    match ← concatenationParts request.layer o axis 0 0 o.inputs with
    | [] => throw (.invalid "concatenation produced no kernels")
    | first :: rest =>
      return [{ first with launches := first.launches ++ rest.flatMap (·.launches) }]
  | _ => .error (wrongKind .concatenation request)

/-- Copies every input into its slice of the output. -/
def concatenationRef : Implementation :=
  .fixed concatenationName .concatenation
    ⟨floatTypes ++ allLayouts ++ padded
      ++ [Feature.batching, .concatAxis .x, .concatAxis .y, .concatAxis .feature,
        .concatAxis .batch]⟩
    planConcatenation

end NetPlan.Kernel.Builtin

import NetPlan.Pass.Redundant

/-!
# Pass/Fusion — several nodes as one

A convolution, the normalization of its result and the scaling of that become one node; a node that
can apply an activation absorbs the one behind it; chains of reorders are merged.
-/

namespace NetPlan.Pass

/-- Whether every node of a list has one element per feature. -/
def allPerFeature (features : Nat) : List String → Edit Bool
  | [] => return true
  | id :: rest => do
    if (← Edit.layout id).count ≠ features then
      return false
    allPerFeature features rest

/-- Fuses a convolution with the normalization and the scaling that alone read it and each other.
The fused node has the id and the place of the scaling.  It works in single precision, and its
statistics have one element per feature. -/
def fuseConvolution (id : String) : Edit Bool := do
  let n ← Edit.node id
  let .convolution conv := n.operation | return false
  if n.isOutput || !n.activation.isNone then
    return false
  let some normId := n.onlyUser? | return false
  let norm ← Edit.node normId
  let .batchNorm bn := norm.operation | return false
  if norm.isOutput || bn.input ≠ id then
    return false
  let some scaleId := norm.onlyUser? | return false
  let scaling ← Edit.node scaleId
  let .scale sc := scaling.operation | return false
  if sc.input ≠ normId || scaling.hasAbsorbed then
    return false
  let output ← Edit.layout id
  if output.element ≠ .f32 then
    return false
  if !(← allPerFeature output.size.feature
      ([bn.mean, bn.variance, sc.scale] ++ sc.bias.toList)) then
    return false
  let fused : FusedConvBnScale := ⟨conv, bn.mean, bn.variance, bn.epsilon, sc.scale, sc.bias⟩
  Edit.replace scaleId ⟨scaleId, scaling.padding, .fusedConvBnScale fused⟩ false
  Edit.remove normId
  Edit.remove id
  Edit.relocateUsersAfter scaleId
  return true

/-- Kinds whose kernels apply an activation to their result. -/
def hostsActivation : OpKind → Bool
  | .convolution | .fullyConnected | .eltwise | .pooling | .batchNorm | .scale
  | .fusedConvBnScale => true
  | _ => false

/-- Lets a node absorb an activation that alone reads it. -/
def absorbActivation (debug : Bool) (id : String) : Edit Bool := do
  let n ← Edit.node id
  let .activation a := n.operation | return false
  let some input := n.onlyDependency? | return false
  if n.isOutput then
    return false
  if !(← Edit.layout input).padding.isNone then
    return false
  let source ← Edit.node input
  if (source.isOutput && !debug) || source.users.length ≠ 1 || !source.activation.isNone
      || !hostsActivation source.kind then
    return false
  if !(← Edit.extract id) then
    return false
  Edit.change input fun m => { m with absorbed := a.activation }
  Edit.setPadding input n.padding
  Edit.invalidate input
  Edit.relocateUsersAfter input
  return true

/-- Applies a transformation to every node that is still there, and counts where it succeeds. -/
def countPresent (f : String → Transform Bool) : Transform Nat :=
  Transform.countNodes fun id => do
    if (← Transform.program).contains id then f id else return false

/-- Fuses convolutions, activations and reorders, in this order. -/
def fuse (env : Environment) : Transform PassStats := do
  let before := (← Transform.program).size
  let convolutions ← countPresent fun id => fuseConvolution id
  let activations ← countPresent fun id => absorbActivation env.debug id
  let reorders ← countPresent (mergeReorders none)
  return .ofCounts (convolutions + activations + reorders) (before - (← Transform.program).size)

end NetPlan.Pass

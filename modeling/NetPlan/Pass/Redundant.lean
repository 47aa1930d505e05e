import NetPlan.Pass.Transform

/-!
# Pass/Redundant — reorders that are not needed

A reorder that only one other reorder reads is merged with it, and a reorder that leaves the layout
as it is makes way for its input.
-/

namespace NetPlan.Pass

/-- The reorder with another format and element type; any other operation stays as it is. -/
def retargeted (op : Operation) (format : Format) (element : Element) : Operation :=
  match op with
  | .reorder r => .reorder { r with format, element }
  | other => other

/-- Merges a reorder that subtracts nothing into its input, if that is a reorder that nothing else
reads.  The input takes over format, element type and padding, and is bound anew if either was bound
and a selector is at hand. -/
def mergeReorders (selector : Option Selector) (id : String) : Transform Bool := do
  let n ← Edit.node id
  let .reorder r := n.operation | return false
  if !r.subtract.isEmpty then
    return false
  let some input := n.onlyDependency? | return false
  let source ← Edit.node input
  if source.kind ≠ .reorder || source.users.length ≠ 1 || source.isOutput then
    return false
  if !(← Edit.extract id) then
    return false
  let survivor := if n.isOutput then id else input
  Edit.change survivor fun m =>
    { m.withOperation (retargeted m.operation r.format r.element) with plan := none }
  Edit.setPadding survivor n.padding
  Edit.invalidate survivor
  if n.plan.isSome || source.plan.isSome then
    if let some s := selector then
      let _ ← bindNode s survivor
  return true

/-- Removes a reorder that subtracts nothing and has its input's layout.  The input of an output
reorder takes over its id, which an input of the network cannot. -/
def removeIdentity (id : String) : Edit Bool := do
  let n ← Edit.node id
  let .reorder r := n.operation | return false
  if !r.subtract.isEmpty then
    return false
  let some input := n.onlyDependency? | return false
  if n.isOutput then
    let source ← Edit.node input
    if source.kind = .inputLayout then
      return false
  let output ← Edit.layout id
  let current ← Edit.layout input
  if output ≠ current then
    return false
  Edit.extract id

/-- Merges chains of reorders and removes those without effect. -/
def removeRedundantReorders (env : Environment) : Transform PassStats := do
  let before := (← Transform.program).size
  let applied ← Transform.countNodes fun id => do
    if !(← Transform.program).contains id then
      return false
    if ← mergeReorders (some env.selector) id then
      return true
    removeIdentity id
  return .ofCounts applied (before - (← Transform.program).size)

end NetPlan.Pass

import NetPlan.Pass.Transform

/-!
# Pass/Trim — the first two passes

What no output depends on is removed; then the nodes are ordered and have their layouts computed.
-/

namespace NetPlan.Edit

/-- The outputs and everything they depend on. -/
def neededForOutputs : Edit (List String) := do
  let p ← get
  walk (fun id => do return (← node id).dependencies) (p.outputs.length + p.dependencyCount)
    p.outputs []

/-- Removes every node no output depends on, inputs of the network apart, and counts them. -/
def trim : Edit Nat := do
  let needed ← neededForOutputs
  let p ← get
  let isDoomed (id : String) : Bool :=
    !needed.contains id &&
      match p.node? id with
      | some n => n.kind ≠ .inputLayout
      | none => false
  let doomed := p.order.ids.filter isDoomed
  for id in doomed do
    remove id
  return doomed.length

end NetPlan.Edit

namespace NetPlan.Pass

/-- Removes what no output depends on, unless every node is kept in view. -/
def trimToOutputs (env : Environment) : Transform PassStats := do
  if env.debug then
    return {}
  return .ofCounts 0 (← Edit.trim)

/-- Orders the nodes by level and computes every layout. -/
def calculateLayouts : Transform PassStats := do
  Edit.sortByLevel
  Edit.layoutAll
  return {}

end NetPlan.Pass

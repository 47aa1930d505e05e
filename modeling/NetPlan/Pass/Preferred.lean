import NetPlan.Pass.Transform

/-!
# Pass/Preferred — reorders in front of weighted nodes

Before kernels are bound, data, weights and bias of weighted nodes are put into the preferred
layouts; afterwards the weights are put into the layout that the bound kernel asks for.
-/

namespace NetPlan.Pass

/-- Puts a chosen reorder in front of one dependency of a node; tells its id.  A new reorder whose
id is taken gets a free one, here and among the preferences. -/
def insertReorder (choice : ReorderChoice) (next : String) (index : Nat) :
    Transform (Option String) := do
  match choice with
  | .notNeeded => return none
  | .cached r =>
    Edit.addIntermediate r next index
    return some r.id
  | .new r =>
    let free := (← Transform.program).unusedId r.id
    if free ≠ r.id then
      Transform.setPreferences ((← Transform.preferences).rename r.id free)
    Edit.addIntermediate { r with id := free } next index
    return some free

/-- Puts one dependency of a node into the preferred layout; tells whether the edge changed. -/
def reorderDependency (id : String) (kind : OpKind) (output : Layout) (role : Role) (index : Nat) :
    Transform Bool := do
  let n ← Edit.node id
  let some source := n.dependency? index | return false
  let current ← Edit.layout source
  let (choice, preferences) ←
    Edit.ofExcept ((← Transform.preferences).request source current role kind (some output))
  Transform.setPreferences preferences
  return (← insertReorder choice id index).isSome

/-- Puts several dependencies of a node into the preferred layouts, and counts those that
changed. -/
def reorderDependencies (id : String) (kind : OpKind) (output : Layout) :
    List (Role × Nat) → Transform Nat
  | [] => return 0
  | (role, index) :: rest => do
    let here ← reorderDependency id kind output role index
    let further ← reorderDependencies id kind output rest
    return (if here then 1 else 0) + further

/-- Whether a node is a convolution in groups. -/
def isGrouped (n : Node) : Bool :=
  match n.operation with
  | .convolution c => c.split > 1
  | .fusedConvBnScale f => f.conv.split > 1
  | _ => false

/-- What a node reads in a preferred layout: the weights, and before them the data of a
convolution. -/
def preferredSlots (op : Operation) : List (Role × Nat) :=
  let weights := op.weightSlots.map fun i => (Role.weights, i)
  match op with
  | .convolution _ | .fusedConvBnScale _ => (.input, 0) :: weights
  | _ => weights

/-- Puts the given slots of every node into the preferred layouts; nodes without such slots are
left alone. -/
def reorderSlots (slots : Operation → List (Role × Nat)) : List String → Transform Nat
  | [] => return 0
  | id :: rest => do
    let n ← Edit.node id
    let wanted := slots n.operation
    let here ←
      if wanted.isEmpty then pure 0
      else do
        let output ← Edit.layout id
        reorderDependencies id n.kind output wanted
    let further ← reorderSlots slots rest
    return here + further

/-- Puts the data and weights of weighted nodes into the preferred layouts. -/
def reorderInputs : Transform PassStats := do
  let p ← Transform.program
  Transform.setPreferences { (← Transform.preferences) with grouped := p.nodes.any isGrouped }
  return .ofCounts (← reorderSlots preferredSlots p.order.ids) 0

/-- Puts the bias of weighted nodes into the preferred layout. -/
def reorderBias : Transform PassStats := do
  let slots (op : Operation) : List (Role × Nat) := op.biasSlots.map fun i => (.bias, i)
  return .ofCounts (← reorderSlots slots (← Transform.program).order.ids) 0

/-- Puts a reorder of the weights in one slot of a node, and binds it; tells whether it did. -/
def changeWeights (s : Selector) (id : String) (target : WeightTensor) (index : Nat) :
    Transform Bool := do
  let n ← Edit.node id
  let some source := n.dependency? index | return false
  let current ← Edit.layout source
  let wanted :=
    Layout.dense target.element.toElement (.ofWeightLayout target.layout) current.size
  let (choice, preferences) := (← Transform.preferences).reorder source current wanted
  Transform.setPreferences preferences
  let some reorder ← insertReorder choice id index | return false
  let r ← Edit.node reorder
  if r.plan.isNone then
    let _ ← bindNode s reorder
  return true

/-- Changes the weights in several slots, and counts the reorders. -/
def changeAllWeights (s : Selector) (id : String) (target : WeightTensor) :
    List Nat → Transform Nat
  | [] => return 0
  | index :: rest => do
    let here ← changeWeights s id target index
    let further ← changeAllWeights s id target rest
    return (if here then 1 else 0) + further

/-- Gives the kernel of every node the weights it asks for. -/
def satisfyWeights (s : Selector) : List String → Transform Nat
  | [] => return 0
  | id :: rest => do
    let n ← Edit.node id
    let slots := n.operation.weightSlots
    let here ←
      match n.plan.bind (·.weightsChange) with
      | none => pure 0
      | some change =>
        if slots.isEmpty then pure 0
        else do
          let inserted ← changeAllWeights s id change.target slots
          Edit.change id fun m =>
            { m with plan := m.plan.map fun plan => { plan with weightsChange := none } }
          pure inserted
    let further ← satisfyWeights s rest
    return here + further

/-- Puts the weights into the layouts that the bound kernels ask for. -/
def reorderWeights (env : Environment) : Transform PassStats := do
  return .ofCounts (← satisfyWeights env.selector (← Transform.program).order.ids) 0

end NetPlan.Pass

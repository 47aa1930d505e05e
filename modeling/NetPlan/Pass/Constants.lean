import NetPlan.Pass.Transform

/-!
# Pass/Constants — constant nodes as literals

Every constant node that is an output, or that something not constant reads, is evaluated and
becomes a literal.  Constants that nothing reads any more are removed.
-/

namespace NetPlan.Pass

/-- Values known so far. -/
abbrev Known := List (String × ConstantValue)

/-- All values of a list, or none as soon as one has none. -/
def allValues {m : Type → Type} [Monad m] {α : Type} (f : String → m (Option α)) :
    List String → m (Option (List α))
  | [] => return some []
  | id :: rest => do
    match ← f id with
    | none => return none
    | some v => return (← allValues f rest).map (v :: ·)

/-- Why the result of an evaluator is not a buffer of a layout. -/
def mismatch? (values : Buffer) (output : Layout) : Option String :=
  if values.size ≠ output.bufferSize || values.element ≠ output.element then
    some (s!"evaluator produced {values.size} {values.element.name} values for a "
      ++ s!"{output.element.name} buffer of {output.bufferSize}")
  else none

/-- The buffer of a node by an evaluator, checked against the layout. -/
def evaluateNode (ev : Evaluator) (n : Node) (inputs : List ConstantValue) (output : Layout) :
    Except CompileError ConstantValue :=
  match ev.evaluate n inputs output with
  | .error (.failed reason) => .error (.constantEvaluation n.id reason)
  | .error (.fault f) => .error (.fault f)
  | .ok values =>
    match mismatch? values output with
    | some reason => .error (.constantEvaluation n.id reason)
    | none => .ok ⟨output, values⟩

/-- The value of a constant node, from the values of its dependencies; none if the evaluator
declines it or something it depends on.  Without a cycle no chain of dependencies is longer than the
number of nodes, which bounds `depth`. -/
def valueWithin (ev : Evaluator) : Nat → String → StateT Known Edit (Option ConstantValue)
  | 0, _ => throw (.fault .endless)
  | depth + 1, id => do
    if let some v := (← (get : StateT Known Edit Known)).lookup id then
      return some v
    let n ← Edit.node id
    if let .data layout values := n.operation then
      let v : ConstantValue := ⟨layout, values⟩
      modify ((id, v) :: ·)
      return some v
    let some inputs ← allValues (valueWithin ev depth) n.dependencies | return none
    let output ← Edit.layout id
    -- the evaluator sees the node with its layout at hand
    let n ← Edit.node id
    if !ev.canEvaluate n (inputs.map (·.layout)) output then
      return none
    let v ← Edit.ofExcept (evaluateNode ev n inputs output)
    modify ((id, v) :: ·)
    return some v

/-- Constants to be made literals: outputs, and what something not constant reads. -/
def isFoldable (p : Program) (n : Node) : Bool :=
  n.isConstant && !n.isLiteral && (n.isOutput || n.users.any p.isVariable)

/-- Makes a node a literal if it has a value; tells whether it has. -/
def fold (ev : Evaluator) (id : String) : StateT Known Edit Bool := do
  match ← valueWithin ev ((← (get : Edit Program)).size + 1) id with
  | none => return false
  | some v =>
    Edit.replace id (Primitive.literal id v.layout v.values) false
    return true

/-- Makes the nodes of a list literals, and counts them. -/
def foldAll (ev : Evaluator) : List String → StateT Known Edit Nat
  | [] => return 0
  | id :: rest => do
    let here ← fold ev id
    let further ← foldAll ev rest
    return (if here then 1 else 0) + further

/-- Removes the nodes of a list that are constant and neither read nor outputs, and counts them. -/
def sweep : List String → Edit Nat
  | [] => return 0
  | id :: rest => do
    let here ←
      match (← get).node? id with
      | some n =>
        if n.isConstant && n.users.isEmpty && !n.isOutput then do
          Edit.remove id
          pure 1
        else pure 0
      | none => pure 0
    let further ← sweep rest
    return here + further

/-- Makes constants literals and removes those that are no longer read. -/
def foldConstants (ev : Evaluator) : Edit PassStats := do
  Edit.markConstants
  let p ← get
  let targets := p.order.ids.filter fun id =>
    match p.node? id with
    | some n => isFoldable p n
    | none => false
  let (folded, _) ← (foldAll ev targets).run []
  let erased ← sweep (← get).order.ids.reverse
  return .ofCounts folded erased

/-- Makes constants literals, if there is an evaluator. -/
def propagateConstants (env : Environment) : Transform PassStats := do
  match env.evaluator with
  | none => return {}
  | some ev => foldConstants ev

end NetPlan.Pass

import NetPlan.Graph.Sort

/-!
# Graph/Edit — changes to a graph

An edit changes a program and may fail; what it had changed by then stays changed.  All edits keep
both ends of an edge, the argument slots and the lists of inputs and outputs in step, and drop the
cached layouts that no longer hold.
-/

namespace NetPlan

/-- A change of a program that may fail. -/
abbrev Edit := ExceptT CompileError (StateM Program)

namespace Edit

/-- The value of a computation on its own. -/
def ofExcept {α : Type} (r : Except CompileError α) : Edit α := ExceptT.mk (pure r)

/-- A node that has to be there. -/
def node (id : String) : Edit Node := do ofExcept ((← get).node id)

/-- Changes a node that has to be there. -/
def change (id : String) (f : Node → Node) : Edit Unit := do
  let _ ← node id
  modify (·.update id f)

/-- Changes a node if it is there. -/
def changeIfThere (id : String) (f : Node → Node) : Edit Unit := modify (·.update id f)

/-- Drops the cached layouts of a node and of everything downstream of it. -/
def invalidate (id : String) : Edit Unit := modify (·.invalidate id)

/-- The node of a primitive's id, made from the primitive if there is none.  A new node has no
edges. -/
def create (prim : Primitive) : Edit Node := do
  match (← get).node? prim.id with
  | some n => return n
  | none =>
    let n := Node.ofPrimitive prim
    modify fun p => { p.insert n with inputs := p.inputs ++ [prim.id] }
    return n

/-! ## Edges -/

/-- Appends `dep` to the dependencies of `user`. -/
def connect (dep user : String) : Edit Unit := do
  if dep = user then
    throw (.invalidGraph (.selfDependency dep))
  let _ ← node dep
  change user (·.addDependency dep)
  modify fun p => { p with inputs := p.inputs.filter (· ≠ user) }
  change dep (·.addUser user)
  invalidate user

/-- Drops every edge from `dep` to `user`. -/
def disconnect (dep user : String) : Edit Unit := do
  change user (·.dropDependency dep)
  changeIfThere dep (·.dropUser user)
  let left ← node user
  modify fun p =>
    if left.dependencies.isEmpty && !p.inputs.contains user then
      { p with inputs := p.inputs ++ [user] }
    else p
  invalidate user

/-- Points one dependency of `user`, and the argument slot at its place, at `new`. -/
def replaceDependency (user : String) (index : Nat) (new : String) : Edit Unit := do
  let _ ← node new
  let n ← node user
  match n.dependency? index with
  | none => throw (.invalidGraph (.noDependency user index))
  | some old =>
    if old = new then
      return
    change user (·.setDependency index new)
    let now ← node user
    if !now.dependencies.contains old then
      changeIfThere old (·.dropUser user)
    change new (·.addUser user)
    invalidate user

/-- Points every dependency of `user` on `old` at `new`. -/
def replaceDependencyOf (user old new : String) : Edit Unit := do
  let n ← node user
  for (d, index) in n.dependencies.zipIdx do
    if d = old then
      replaceDependency user index new

/-- Drops every edge of a node. -/
def isolate (id : String) : Edit Unit := do
  let n ← node id
  for dep in n.dependencies do
    disconnect dep id
  for user in n.users do
    disconnect id user

/-- Turns the edge from `dep` to `user` around. -/
def reverse (dep user : String) : Edit Unit := do
  let n ← node dep
  if !n.hasUser user then
    throw (.invalidGraph (.noEdge dep user))
  disconnect dep user
  connect user dep

/-! ## Nodes -/

/-- Removes a node and its edges, and keeps its id on record. -/
def remove (id : String) : Edit Unit := do
  isolate id
  modify fun p =>
    { p.dropNode id with
      order := p.order.erase id
      inputs := p.inputs.filter (· ≠ id)
      outputs := p.outputs.filter (· ≠ id)
      removed := p.removed ++ [id] }

/-- Removes a node without edges that is no output; tells whether it did. -/
def removeIfDangling (id : String) : Edit Bool := do
  let n ← node id
  if !n.users.isEmpty || !n.dependencies.isEmpty || n.isOutput then
    return false
  remove id
  return true

/-- The program with a node under another id, everywhere it is named. -/
def renamed (p : Program) (n : Node) (new : String) : Program :=
  let old := n.id
  let rest := p.dropNode old
  let rest := rest.updateAll fun m =>
    let m := if n.dependencies.contains m.id then m.renameUser old new else m
    if n.users.contains m.id then m.renameDependency old new else m
  let substitute (ids : List String) : List String := ids.map fun i => if i = old then new else i
  { rest.insert (n.withId new) with
    order := p.order.rename old new
    inputs := substitute p.inputs
    outputs := substitute p.outputs }

/-- Gives a node a new id. -/
def rename (old new : String) : Edit Unit := do
  if old = new then
    return
  if (← get).contains new then
    throw (.invalidGraph (.taken old new))
  let n ← node old
  modify (renamed · n new)

/-- Makes a node an output. -/
def markOutput (id : String) : Edit Unit := do
  change id fun n => { n with isOutput := true }
  modify fun p => if p.outputs.contains id then p else { p with outputs := p.outputs ++ [id] }

/-- Connects a node to a list of dependencies, in order. -/
def connectAll (deps : List String) (user : String) : Edit Unit := do
  for dep in deps do
    connect dep user

/-- Puts the node of a primitive in front of one dependency of `next`.  A node that is already
there has to be a reorder of that dependency, and is then shared; a new one has to read it. -/
def placeIntermediate (prim : Primitive) (source : String) : Edit Unit := do
  match (← get).node? prim.id with
  | some existing =>
    if existing.kind ≠ .reorder || existing.dependency? 0 ≠ some source then
      throw (.invalidGraph (.notReorderOf prim.id source))
  | none =>
    if !prim.arguments.contains source then
      throw (.invalidGraph (.notConsumed prim.id source))
    let _ ← create prim
    connectAll prim.arguments prim.id
    modify fun p => { p with order := p.order.insertAfter source prim.id }

/-- Hands the flags of a node on to a node that was put behind it; the frontier moves along unless
something else that is not constant reads the first node. -/
def inheritFlags (source id : String) : Edit Unit := do
  let s ← node source
  change id fun n => { n with isConstant := s.isConstant, isDataFlow := s.isDataFlow }
  if s.isFrontier then
    change id fun n => { n with isFrontier := true }
    let p ← get
    let users := p.usersOf source
    change source fun n => { n with isFrontier := users.any p.isVariable }

/-- Inserts a primitive between a node and one of its dependencies. -/
def addIntermediate (prim : Primitive) (next : String) (index : Nat) : Edit Unit := do
  let n ← node next
  match n.dependency? index with
  | none => throw (.invalidGraph (.noDependency next index))
  | some source =>
    placeIntermediate prim source
    replaceDependency next index prim.id
    inheritFlags source prim.id

/-- Puts the node of a primitive in the place of another node and under its id.  Users, flags and
place pass on to it; the dependencies too if `keepDependencies`, else it is connected to its own
arguments. -/
def replace (old : String) (prim : Primitive) (keepDependencies : Bool) : Edit Unit := do
  let n ← node old
  let temporary := (← get).unusedId (old ++ "__replacement")
  let _ ← create { prim with id := temporary }
  connectAll (if keepDependencies then n.dependencies else prim.arguments) temporary
  for user in n.users do
    replaceDependencyOf user old temporary
  change temporary fun m =>
    { m with
      isOutput := n.isOutput
      isConstant := n.isConstant
      isFrontier := n.isFrontier
      isDataFlow := n.isDataFlow }
  modify fun p => { p with order := p.order.insertAfter old temporary }
  isolate old
  modify fun p =>
    let outputs := p.outputs.filter (· ≠ old)
    { p.dropNode old with
      order := p.order.erase old
      inputs := p.inputs.filter (· ≠ old)
      outputs := if n.isOutput then outputs ++ [temporary] else outputs }
  rename temporary old

/-- Removes a node with one dependency and lets its users read that instead; tells whether it did.
An output passes its flag and its id on, which its dependency must not have already. -/
def extract (id : String) : Edit Bool := do
  let n ← node id
  match n.onlyDependency? with
  | none => return false
  | some input =>
    let source ← node input
    if n.isOutput && source.isOutput then
      return false
    for user in n.users do
      replaceDependencyOf user id input
    remove id
    if n.isFrontier then
      change input fun m => { m with isFrontier := true }
    if n.isOutput then
      markOutput input
      rename input id
    return true

/-! ## Layouts -/

/-- The output layout of a node, from the cache or from the layouts of its dependencies, which are
cached on the way.  Without a cycle no chain of dependencies is longer than the number of nodes,
which bounds `depth`. -/
def layoutWithin : Nat → String → Edit Layout
  | 0, _ => throw (.fault .endless)
  | depth + 1, id => do
    let n ← node id
    match n.layout with
    | some l => return l
    | none =>
      let inputs ← n.dependencies.mapM (layoutWithin depth)
      let kind ← ofExcept ((← get).behaviours.find n.kind)
      let l ← ofExcept (kind.outputLayout n inputs)
      change id fun m => { m with layout := some l }
      return l

/-- The output layout of a node. -/
def layout (id : String) : Edit Layout := do layoutWithin ((← get).size + 1) id

/-- The layouts of a node's dependencies, in the order of its arguments. -/
def inputLayouts (id : String) : Edit (List Layout) := do
  let n ← node id
  n.dependencies.mapM layout

/-- Computes every layout. -/
def layoutAll : Edit Unit := do
  for id in (← get).order.ids do
    let _ ← layout id

/-- Asks for another output padding. -/
def setPadding (id : String) (padding : Padding) : Edit Unit := do
  let n ← node id
  if n.padding = padding then
    return
  change id (·.withPadding padding)
  invalidate id

/-! ## Orders -/

/-- Takes over an order and records its positions. -/
def setOrder (ids : List String) : Edit Unit :=
  modify fun p => { p with order := (Order.ofList ids).number }

/-- Orders the nodes depth first. -/
def sortDepthFirst : Edit Unit := do setOrder (← ofExcept (← get).depthFirst)

/-- Orders the nodes by level. -/
def sortByLevel : Edit Unit := do setOrder (← ofExcept (← get).byLevel)

/-- Records the positions of the processing order. -/
def number : Edit Unit := modify fun p => { p with order := p.order.number }

/-- Moves the users of a node that come before it behind the node moved last, and returns them. -/
def moveUsersBehind (id : String) : StateT String Edit (List String) := do
  let position := (← (get : Edit Program)).order.number? id
  let n ← node id
  let mut moved := []
  for user in n.users do
    match (← (get : Edit Program)).order.number? user, position with
    | some before, some behind =>
      if before < behind then
        let anchor ← get
        (modify fun p => { p with order := (p.order.insertAfter anchor user).number } : Edit Unit)
        set user
        moved := moved ++ [user]
    | _, _ => pure ()
  return moved

/-- Moves users that come before a node right behind it, and their users behind them. -/
def relocateUsersAfter (id : String) : Edit Unit := do
  number
  let p ← get
  let _ ← (walk moveUsersBehind (1 + p.userCount) [id] []).run id

/-! ## Marks -/

/-- Makes the given nodes the outputs, or every endpoint if none is given. -/
def setOutputs (requested : List String) : Edit Unit := do
  modify fun p => { p.updateAll fun n => { n with isOutput := false } with outputs := [] }
  let p ← get
  let endpoint (id : String) : Bool :=
    match p.node? id with
    | some n => n.isEndpoint
    | none => false
  for id in if requested.isEmpty then p.order.ids.filter endpoint else requested do
    markOutput id

/-- Literals are constant, and so is every other node with dependencies that are all constant,
inputs of the network apart. -/
def isConstantIn (p : Program) (n : Node) : Bool :=
  match n.kind with
  | .data => true
  | .inputLayout => false
  | _ => !n.dependencies.isEmpty && n.dependencies.all p.isConstant

/-- Marks the constant nodes, and as the frontier those that something not constant reads. -/
def markConstants : Edit Unit := do
  for id in (← get).order.ids do
    let n ← node id
    let constant := isConstantIn (← get) n
    change id fun m => { m with isConstant := constant, isFrontier := false }
  for id in (← get).order.ids do
    let n ← node id
    if !n.isConstant then
      for dep in n.dependencies do
        change dep fun m => if m.isConstant then { m with isFrontier := true } else m

/-- Marks the nodes that are not constant and lead to an endpoint or an output that is not. -/
def markDataFlow : Edit Unit := do
  modify (·.updateAll fun n => { n with isDataFlow := false })
  let p ← get
  let starts := p.nodes.filter fun n => !n.isConstant && (n.isEndpoint || n.isOutput)
  let visit (id : String) : Edit (List String) := do
    let n ← node id
    if n.isConstant then
      return []
    change id fun m => { m with isDataFlow := true }
    return n.dependencies
  let _ ← walk visit (starts.length + p.dependencyCount) (starts.map (·.id)) []

end Edit

namespace Program

/-- Adds the primitives of a topology, connects each to its arguments and orders the nodes. -/
def build (t : Topology) : Edit Unit := do
  for prim in t.primitives do
    let _ ← Edit.create prim
  for prim in t.primitives do
    for dep in prim.arguments do
      if !(← get).contains dep then
        throw (.missingDependency prim.id dep)
      Edit.connect dep prim.id
  Edit.sortDepthFirst

/-- The graph of a topology. -/
def ofTopology (t : Topology) (b : Behaviours) : Except CompileError Program :=
  match (build t).run.run (empty b) with
  | (.ok _, p) => .ok p
  | (.error e, _) => .error e

end Program

end NetPlan

import NetPlan.Graph.Behaviour
import NetPlan.Graph.Order

/-!
# Graph/Program — the graph of a network

A network is given as a topology: a list of primitives with distinct ids.  Arguments may name primitives
that come later, or none at all; that is settled when a graph is built.

A program holds its nodes in the order of their ids, and beside them the ids without dependencies,
the outputs, the processing order and the ids that were optimized away.  This module looks at
programs; edits are in `Graph.Edit`.
-/

namespace NetPlan

/-! ## Visiting what can be reached

`walk visit` takes ids from the front of a queue, visits each id once, and appends to the queue what
the visit returns.  Every visit can put at most as much into the queue as it returns, so a number of
steps that counts the start and all edges never runs out. -/

/-- Visits every id in the queue and every id a visit leads to, each once, and returns the ids
visited, the last one first. -/
def walk {m : Type → Type} [Monad m] (visit : String → m (List String)) :
    Nat → List String → List String → m (List String)
  | 0, _, seen => pure seen
  | _ + 1, [], seen => pure seen
  | steps + 1, id :: queue, seen =>
    if seen.contains id then walk visit steps queue seen
    else do
      let more ← visit id
      walk visit steps (queue ++ more) (id :: seen)

/-! ## Topologies -/

/-- Primitives in the order they were added. -/
structure Topology where
  primitives : List Primitive

namespace Topology

/-- The topology of nothing. -/
def empty : Topology := ⟨[]⟩

/-- The primitive with an id. -/
def get? (t : Topology) (id : String) : Option Primitive := t.primitives.find? (·.id = id)

/-- Whether a primitive has the id. -/
def contains (t : Topology) (id : String) : Bool := t.primitives.any (·.id = id)

/-- Adds a primitive under a new id. -/
def add (t : Topology) (p : Primitive) : Except CompileError Topology :=
  if t.contains p.id then .error (.invalidGraph (.definedTwice p.id))
  else .ok ⟨t.primitives ++ [p]⟩

/-- The topology of a list of primitives. -/
def ofList (ps : List Primitive) : Except CompileError Topology := ps.foldlM add empty

/-- The first argument that names no primitive, after the primitive it belongs to. -/
def missing? (t : Topology) : Option (String × String) :=
  t.primitives.findSome? fun p =>
    (p.arguments.find? fun a => !t.contains a).map fun a => (p.id, a)

end Topology

/-! ## Programs -/

/-- The kinds of operation that nodes may have. -/
structure Behaviours where
  kinds : List OpKind

namespace Behaviours

/-- The rules of every kind. -/
def builtin : Behaviours := ⟨OpKind.all⟩

/-- Every kind of a list, once. -/
def ofList (kinds : List OpKind) : Behaviours := ⟨OpKind.all.filter kinds.contains⟩

/-- The number of rules. -/
def size (b : Behaviours) : Nat := b.kinds.length

/-- The rule of a kind; a graph whose registry lacks it is invalid. -/
def find (b : Behaviours) (k : OpKind) : Except CompileError OpKind :=
  if b.kinds.contains k then .ok k else .error (.invalidGraph (.unregistered k))

/-- The names of the kinds, sorted. -/
def names (b : Behaviours) : List String := (b.kinds.map OpKind.name).mergeSort (· ≤ ·)

/-- The kinds as a diagnostic shows them. -/
def text (b : Behaviours) : String :=
  Text.record "PrimitiveTypeRegistry" [("kinds", Text.bracketed (b.names.map Text.quoted))]

end Behaviours

/-- A graph of nodes with its processing order. -/
structure Program where
  /-- Ascending by id. -/
  nodes : List Node
  /-- Nodes without dependencies, in the order they became so. -/
  inputs : List String
  outputs : List String
  order : Order
  /-- Removed nodes, the first removed first. -/
  removed : List String
  behaviours : Behaviours

namespace Program

/-- A graph without nodes. -/
def empty (b : Behaviours) : Program := ⟨[], [], [], Order.empty, [], b⟩

/-- The number of nodes. -/
def size (p : Program) : Nat := p.nodes.length

/-- The node with an id. -/
def node? (p : Program) (id : String) : Option Node := p.nodes.find? (·.id = id)

/-- Whether a node has the id. -/
def contains (p : Program) (id : String) : Bool := (p.node? id).isSome

/-- A node that has to be there. -/
def node (p : Program) (id : String) : Except CompileError Node :=
  match p.node? id with
  | some n => .ok n
  | none => .error (.missingNode id)

/-- A list in ascending order with one more node. -/
def insertById (n : Node) : List Node → List Node
  | [] => [n]
  | m :: rest => if n.id < m.id then n :: m :: rest else m :: insertById n rest

/-- The program with a node under a new id. -/
def insert (p : Program) (n : Node) : Program := { p with nodes := insertById n p.nodes }

/-- The program with one node changed; the change keeps the id. -/
def update (p : Program) (id : String) (f : Node → Node) : Program :=
  { p with nodes := p.nodes.map fun n => if n.id = id then f n else n }

/-- The program with every node changed; the change keeps the ids. -/
def updateAll (p : Program) (f : Node → Node) : Program := { p with nodes := p.nodes.map f }

/-- The program without a node; edges and lists are left as they are. -/
def dropNode (p : Program) (id : String) : Program :=
  { p with nodes := p.nodes.filter (·.id ≠ id) }

/-- The users of a node, none if it is not there. -/
def usersOf (p : Program) (id : String) : List String :=
  match p.node? id with
  | some n => n.users
  | none => []

/-- Number of entries in all user lists. -/
def userCount (p : Program) : Nat := (p.nodes.map (·.users.length)).foldr (· + ·) 0

/-- Number of entries in all dependency lists. -/
def dependencyCount (p : Program) : Nat := (p.nodes.map (·.dependencies.length)).foldr (· + ·) 0

/-- Whether a node is there and constant. -/
def isConstant (p : Program) (id : String) : Bool :=
  match p.node? id with
  | some n => n.isConstant
  | none => false

/-- Whether a node is there and not constant. -/
def isVariable (p : Program) (id : String) : Bool :=
  match p.node? id with
  | some n => !n.isConstant
  | none => false

/-- A node and everything downstream of it. -/
def downstream (p : Program) (id : String) : List String :=
  Id.run (walk (fun i => pure (p.usersOf i)) (1 + p.userCount) [id] [])

/-- The program without the cached layouts of a node and of everything downstream of it. -/
def invalidate (p : Program) (id : String) : Program :=
  let stale := p.downstream id
  p.updateAll fun n => if stale.contains n.id then { n with layout := none } else n

/-- `base`, or else the first of `base_1`, `base_2`, … that is not in use; one of the first
`p.size + 1` candidates is always free. -/
def unusedId (p : Program) (base : String) : String :=
  let candidates := base :: (List.range' 1 p.size).map fun k => s!"{base}_{k}"
  (candidates.find? fun c => !p.contains c).getD base

/-- Whether every dependency of a node has a lesser recorded position. -/
def isPlaced (p : Program) (id : String) : Bool :=
  match p.node? id, p.order.number? id with
  | some n, some position =>
    n.dependencies.all fun d =>
      match p.order.number? d with
      | some before => before < position
      | none => false
  | _, _ => false

/-- Whether every id of a list is a node whose dependencies come before it; `seen` comes before
the list. -/
def respects (p : Program) : List String → List String → Bool
  | [], _ => true
  | id :: rest, seen =>
    match p.node? id with
    | none => false
    | some n => n.dependencies.all seen.contains && p.respects rest (id :: seen)

/-- Whether the processing order is a topological order of all nodes. -/
def isOrdered (p : Program) : Bool :=
  p.respects p.order.ids [] && p.order.ids.length == p.nodes.length

/-- The plans of the nodes in processing order. -/
def plans (p : Program) : List (String × Kernel.Plan) :=
  p.order.ids.filterMap fun id =>
    match p.node? id with
    | some n => n.plan.map fun plan => (n.id, plan)
    | none => none

end Program

end NetPlan

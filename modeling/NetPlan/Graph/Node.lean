import NetPlan.Graph.Primitive
import NetPlan.Kernel.Plan

/-!
# Graph/Node — one operation in a graph

Edges are ids and stand on both ends: a node lists its dependencies in the order of its arguments,
and its users in no particular order.
-/

namespace NetPlan

/-- A primitive with its edges and what is known about it. -/
structure Node where
  primitive : Primitive
  dependencies : List String := []
  users : List String := []
  /-- The output layout, as long as nothing it depends on has changed. -/
  layout : Option Layout := none
  isOutput : Bool := false
  isConstant : Bool := false
  /-- A constant that something not constant reads. -/
  isFrontier : Bool := false
  isDataFlow : Bool := false
  /-- The activation of a node that was absorbed. -/
  absorbed : Activation := Activation.none
  plan : Option Kernel.Plan := none
  deriving DecidableEq

namespace Node

/-- A node without edges. -/
def ofPrimitive (p : Primitive) : Node := { primitive := p }

/-- The id of the primitive. -/
def id (n : Node) : String := n.primitive.id

/-- What the primitive does. -/
def operation (n : Node) : Operation := n.primitive.operation

/-- The kind of what it does. -/
def kind (n : Node) : OpKind := n.operation.kind

/-- The padding that its output asks for. -/
def padding (n : Node) : Padding := n.primitive.padding

/-- What the node reads in a slot. -/
def dependency? (n : Node) (index : Nat) : Option String := n.dependencies[index]?

/-- The only dependency of a node with just one edge in. -/
def onlyDependency? (n : Node) : Option String :=
  match n.dependencies with
  | [d] => some d
  | _ => none

/-- The only user of a node with just one. -/
def onlyUser? (n : Node) : Option String :=
  match n.users with
  | [u] => some u
  | _ => none

/-- Whether a node is among the users. -/
def hasUser (n : Node) (id : String) : Bool := n.users.contains id

/-- Whether nothing reads the node. -/
def isEndpoint (n : Node) : Bool := n.users.isEmpty

/-- Whether the node is a literal buffer. -/
def isLiteral (n : Node) : Bool := n.kind = .data

/-- Whether a node is carried out by a kernel. -/
def runsKernel (n : Node) : Bool := n.kind ≠ .data && n.kind ≠ .inputLayout

/-- The activation of the result, the node's own before an absorbed one. -/
def activation (n : Node) : Activation :=
  if n.operation.ownActivation.isNone then n.absorbed else n.operation.ownActivation

/-- Whether an activation was fused into the node. -/
def hasAbsorbed (n : Node) : Bool := !n.absorbed.isNone

/-- The marks of the node as letters: output, constant, frontier, data flow. -/
def marks (n : Node) : String :=
  (if n.isOutput then "o" else "") ++ (if n.isConstant then "c" else "")
    ++ (if n.isFrontier then "f" else "") ++ (if n.isDataFlow then "d" else "")

/-- The node with another id. -/
def withId (n : Node) (id : String) : Node := { n with primitive := { n.primitive with id := id } }

/-- The node with another padding. -/
def withPadding (n : Node) (p : Padding) : Node :=
  { n with primitive := { n.primitive with padding := p } }

/-- The node with another operation. -/
def withOperation (n : Node) (op : Operation) : Node :=
  { n with primitive := { n.primitive with operation := op } }

/-- Appends an edge in. -/
def addDependency (n : Node) (id : String) : Node :=
  { n with dependencies := n.dependencies ++ [id] }

/-- Drops every edge from one node. -/
def dropDependency (n : Node) (id : String) : Node :=
  { n with dependencies := n.dependencies.filter (· ≠ id) }

/-- Records a user, once. -/
def addUser (n : Node) (id : String) : Node :=
  if n.hasUser id then n else { n with users := n.users ++ [id] }

/-- The node less one of its users. -/
def dropUser (n : Node) (id : String) : Node := { n with users := n.users.filter (· ≠ id) }

/-- Points one edge in, and the argument slot at its place, at another node. -/
def setDependency (n : Node) (index : Nat) (id : String) : Node :=
  { n.withOperation (n.operation.setSlot index id) with
    dependencies := n.dependencies.set index id }

/-- Points every edge in and every argument slot that names `old` at `new`. -/
def renameDependency (n : Node) (old new : String) : Node :=
  { n.withOperation (n.operation.renameSlots old new) with
    dependencies := n.dependencies.map fun d => if d = old then new else d }

/-- Lists `new` in the place of `old` among the users. -/
def renameUser (n : Node) (old new : String) : Node :=
  { n with users := n.users.map fun u => if u = old then new else u }

end Node

end NetPlan

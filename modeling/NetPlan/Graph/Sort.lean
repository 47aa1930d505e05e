import NetPlan.Graph.Program

/-!
# Graph/Sort — processing orders from the edges

`depthFirst` finishes every user of a node before the node itself and puts each finished node in
front, so a node comes before all its users.  `byLevel` keeps a given order but for the distance
from the inputs: a node comes one level after its deepest dependency.
-/

namespace NetPlan.Program

/-- Where a depth-first search stands. -/
structure Search where
  /-- Ids that were entered. -/
  visited : List String
  /-- Ids that were left, the last one first. -/
  finished : List String

/-- Enters a node and everything downstream that was not visited yet.  `path` leads from an input
to the node; an edge back to it closes a cycle.  The depth of the search is at most the number of
nodes, which bounds `depth`. -/
def search (p : Program) : Nat → List String → String → Search → Except CompileError Search
  | 0, _, _, s => .ok s
  | depth + 1, path, id, s => do
    let n ← p.node id
    let s ← n.users.foldlM (fun s user =>
      if (id :: path).contains user then .error (.invalidGraph (.cycle id user))
      else if !p.contains user then .error (.missingNode user)
      else if s.visited.contains user then .ok s
      else p.search depth (id :: path) user { s with visited := user :: s.visited }) s
    return { s with finished := id :: s.finished }

/-- Enters one of the inputs. -/
def searchFrom (p : Program) (s : Search) (id : String) : Except CompileError Search :=
  if s.visited.contains id then .ok s
  else p.search (p.size + 1) [] id { s with visited := id :: s.visited }

/-- The order in which a depth-first search from the inputs leaves the nodes, backwards. -/
def depthFirst (p : Program) : Except CompileError (List String) := do
  let s ← p.inputs.foldlM p.searchFrom ⟨[], []⟩
  if s.finished.length ≠ p.size then
    .error (.invalidGraph (.unreachable (p.size - s.finished.length) p.size))
  else
    return s.finished

/-- Adds the level of a node to those of the nodes before it. -/
def addLevel (p : Program) (levels : List (String × Nat)) (id : String) :
    Except CompileError (List (String × Nat)) := do
  let n ← p.node id
  let level ← n.dependencies.foldlM (fun level d =>
    match levels.lookup d with
    | some l => .ok (Nat.max level (l + 1))
    | none => .error (.invalidGraph (.notBefore d id))) 0
  return levels ++ [(id, level)]

/-- The ids of the processing order level by level, those of one level as they were.  A node has at
most as many levels before it as nodes. -/
def byLevel (p : Program) : Except CompileError (List String) := do
  let levels ← p.order.ids.foldlM p.addLevel []
  return ((List.range levels.length).flatMap fun k => levels.filter (·.2 = k)).map (·.1)

end NetPlan.Program

import NetPlan.Graph.Edit
import NetPlan.Graph.Preference
import NetPlan.Host.Evaluate

/-!
# Pass/Transform — what passes work on

A pass transforms the program of a compilation.  It may ask the selector and the evaluator of its
environment, it shares the reorders made so far with the other passes, and it reports what it did.

Several passes bind nodes: they select a plan for what a node does.
-/

namespace NetPlan

/-- What a pass, or a run of several, did. -/
structure PassStats where
  changed : Bool := false
  /-- Rounds of repeated passes. -/
  iterations : Nat := 0
  /-- Transformations that took place. -/
  applied : Nat := 0
  /-- Nodes that the program lost. -/
  removed : Nat := 0
  deriving DecidableEq

namespace PassStats

/-- What two runs did together. -/
def merge (s t : PassStats) : PassStats :=
  ⟨s.changed || t.changed, s.iterations + t.iterations, s.applied + t.applied,
    s.removed + t.removed⟩

/-- What a pass with these counts did. -/
def ofCounts (applied removed : Nat) : PassStats :=
  ⟨decide (0 < applied) || decide (0 < removed), 0, applied, removed⟩

end PassStats

/-- What passes ask for help. -/
structure Environment where
  selector : Selector
  evaluator : Option Evaluator
  /-- Every node is kept in view: nothing is trimmed, and outputs may absorb an activation. -/
  debug : Bool

/-- What passes work on. -/
structure Compilation where
  program : Program
  preferences : Preferences
  session : Session

/-- A change of a compilation that may fail. -/
abbrev Transform := ExceptT CompileError (StateM Compilation)

namespace Transform

/-- An edit of the program. -/
def edit {α : Type} (e : Edit α) : Transform α :=
  ExceptT.mk fun c =>
    let (result, program) := e.run.run c.program
    (result, { c with program })

instance : MonadLift Edit Transform := ⟨edit⟩

/-- A question to the selector. -/
def ask {α : Type} (q : ExceptT CompileError (StateM Session) α) : Transform α :=
  ExceptT.mk fun c =>
    let (result, session) := q.run.run c.session
    (result, { c with session })

/-- The graph as it is now. -/
def program : Transform Program := return (← getThe Compilation).program

/-- The reorders made so far. -/
def preferences : Transform Preferences := return (← getThe Compilation).preferences

/-- Puts other preferences in place. -/
def setPreferences (preferences : Preferences) : Transform Unit :=
  modifyThe Compilation fun c => { c with preferences }

/-- Counts the ids of a list on which a transformation succeeds, in order. -/
def countM (f : String → Transform Bool) : List String → Transform Nat
  | [] => return 0
  | id :: rest => do
    let here ← f id
    let further ← countM f rest
    return (if here then 1 else 0) + further

/-- `countM` over the ids of the processing order, as it is now. -/
def countNodes (f : String → Transform Bool) : Transform Nat := do
  countM f (← program).order.ids

end Transform

/-! ## Binding -/

namespace Pass

/-- Checks a node against its input layouts and selects its plan; tells whether it has one. -/
def bindNode (s : Selector) (id : String) : Transform Bool := do
  let output ← Edit.layout id
  let inputs ← Edit.inputLayouts id
  let n ← Edit.node id
  let kind ← Edit.ofExcept ((← Transform.program).behaviours.find n.kind)
  Edit.ofExcept (kind.check n inputs)
  let plan ← Transform.ask (kind.choose s n inputs output)
  Edit.change id fun m => { m with plan }
  return plan.isSome

/-- Selects a plan for every node that runs a kernel. -/
def bindAll (env : Environment) : Transform PassStats := do
  let bound ← Transform.countNodes fun id => do
    let n ← Edit.node id
    if n.runsKernel then bindNode env.selector id else return false
  return .ofCounts bound 0

end Pass

end NetPlan

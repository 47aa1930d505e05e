import NetPlan.Graph.Dump
import NetPlan.Pass.Pipeline

/-!
# Compile — from a topology to a bound graph

`compile` builds the graph of a topology, marks outputs, constants and data flow, runs the standard
pipeline, and makes sure that every node that needs a kernel has one and that the processing order
is topological.
-/

namespace NetPlan

open Kernel (Device)
open Tuning (CacheFile)

/-- Options of a compilation. -/
structure BuildOptions where
  /-- Fusion and preferred layouts. -/
  optimize : Bool
  /-- The outputs; every endpoint if there are none. -/
  outputs : List String
  /-- Every node is kept in view and ends up as an output, literals apart. -/
  debug : Bool
  device : Device
  mode : TuningMode
  cache : CacheFile
  runner : Option Runner

namespace BuildOptions

/-- The first id of a list that stood there before. -/
def repeated? : List String → List String → Option String
  | _, [] => none
  | seen, id :: rest => if seen.contains id then some id else repeated? (id :: seen) rest

/-- The first problem with the options. -/
def problem? (o : BuildOptions) : Option OptionProblem :=
  if o.mode ≠ .disabled && o.cache = .unset then some (.noCachePath o.mode)
  else if o.mode = .tuneAndCache && o.runner.isNone then some .noRunner
  else match repeated? [] o.outputs with
    | some id => some (.repeatedOutput id)
    | none =>
      if o.device.computeUnits = 0 || o.device.maxGroupSize = 0 then some .noResources else none

/-- Stops on the first problem with the options. -/
def validate (o : BuildOptions) : Except CompileError Unit :=
  match o.problem? with
  | some problem => .error (.invalidOptions problem)
  | none => .ok ()

/-- The selector of the builtin implementations under these options. -/
def selector (o : BuildOptions) : Selector :=
  { Selector.builtin o.device with mode := o.mode, runner := o.runner }

end BuildOptions

/-- A bound graph, and what the passes did. -/
structure Compiled where
  program : Program
  stats : PassStats

/-- The graph and the statistics as structured text. -/
def Compiled.dump (c : Compiled) : Json :=
  .obj
    [("graph", c.program.dump),
      ("stats", .obj
        [("changed", .bool c.stats.changed), ("iterations", .num c.stats.iterations),
          ("rewrites_applied", .num c.stats.applied), ("removed_nodes", .num c.stats.removed)])]

/-- The first node in processing order that needs a kernel and has none. -/
def Program.unbound? (p : Program) : Option String :=
  p.order.ids.find? fun id =>
    match p.node? id with
    | some n => n.runsKernel && n.plan.isNone
    | none => false

/-- Marks every node but literals as an output. -/
def Edit.exposeAll : Edit Unit := do
  for id in (← get).order.ids do
    let n ← Edit.node id
    if !n.isLiteral then
      Edit.markOutput id

/-- The checks at the end of a compilation. -/
def Program.finalCheck (p : Program) : Except CompileError Unit :=
  match p.unbound? with
  | some id => .error (.invalidGraph (.unbound id))
  | none => if p.isOrdered then .ok () else .error (.invalidGraph .orderInvalid)

/-- Sets the outputs and marks constants and data flow. -/
def Edit.prepare (outputs : List String) : Edit Unit := do
  Edit.setOutputs outputs
  Edit.markConstants
  Edit.markDataFlow

/-- The work of a compilation on a fresh graph. -/
def compileGraph (optimize : Bool) (outputs : List String) (env : Environment) :
    Transform PassStats := do
  Edit.prepare outputs
  let stats ← runSteps env (standardPipeline optimize)
  Edit.number
  if env.debug then
    Edit.exposeAll
  Edit.ofExcept (← Transform.program).finalCheck
  return stats

/-- Compiles a topology under valid options. -/
def compile (o : BuildOptions) (env : Environment) (b : Behaviours) (t : Topology) :
    ExceptT CompileError (StateM Session) Compiled :=
  ExceptT.mk fun session =>
    match Program.ofTopology t b with
    | .error e => (.error e, session)
    | .ok program =>
      match (compileGraph o.optimize o.outputs env).run.run ⟨program, .initial, session⟩ with
      | (.ok stats, c) => (.ok ⟨c.program, stats⟩, c.session)
      | (.error e, c) => (.error e, c.session)

end NetPlan

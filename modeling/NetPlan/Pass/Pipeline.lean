import NetPlan.Pass.Constants
import NetPlan.Pass.Fusion
import NetPlan.Pass.Padding
import NetPlan.Pass.Preferred
import NetPlan.Pass.Trim

/-!
# Pass/Pipeline — passes in sequence

A pipeline is a list of steps, a pass each or a group that is repeated as long as it changes
something, up to a number of rounds.
-/

namespace NetPlan

/-- The passes. -/
inductive Pass where
  | trim
  | layouts
  | fusion
  | inputReorders
  | biasReorders
  | redundantReorders
  | padding
  | constants
  | binding
  | weightReorders
  deriving DecidableEq

namespace Pass

/-- The pass as statistics spell it. -/
def name : Pass → String
  | .trim => "trim-to-outputs"
  | .layouts => "calculate-layouts"
  | .fusion => "prepare-primitive-fusing"
  | .inputReorders => "reorder-inputs"
  | .biasReorders => "pre-optimize-bias"
  | .redundantReorders => "remove-redundant-reorders"
  | .padding => "prepare-padding"
  | .constants => "propagate-constants"
  | .binding => "compile-graph"
  | .weightReorders => "post-optimize-weights"

/-- What the pass does. -/
def run (env : Environment) : Pass → Transform PassStats
  | .trim => Pass.trimToOutputs env
  | .layouts => Pass.calculateLayouts
  | .fusion => Pass.fuse env
  | .inputReorders => Pass.reorderInputs
  | .biasReorders => Pass.reorderBias
  | .redundantReorders => Pass.removeRedundantReorders env
  | .padding => Pass.padInputs
  | .constants => Pass.propagateConstants env
  | .binding => Pass.bindAll env
  | .weightReorders => Pass.reorderWeights env

end Pass

/-- A step of a pipeline. -/
inductive Step where
  | pass (p : Pass)
  /-- Steps that are repeated while they change something, at most as many rounds. -/
  | fixedPoint (rounds : Nat) (steps : List Step)

/-- Steps that are repeated while they change something; one round is always allowed. -/
def Step.repeated (rounds : Nat) (steps : List Step) : Step := .fixedPoint (Nat.max rounds 1) steps

/-- Runs up to a number of rounds, until one changes nothing, and counts them. -/
def repeatWhileChanged (round : Transform PassStats) : Nat → Transform PassStats
  | 0 => return {}
  | rounds + 1 => do
    let s ← round
    let s := { s with iterations := s.iterations + 1 }
    if s.changed then
      return s.merge (← repeatWhileChanged round rounds)
    else
      return s

mutual

/-- Runs one step. -/
def Step.run (env : Environment) : Step → Transform PassStats
  | .pass p => p.run env
  | .fixedPoint rounds steps => repeatWhileChanged (runSteps env steps) rounds

/-- Runs steps in sequence. -/
def runSteps (env : Environment) : List Step → Transform PassStats
  | [] => return {}
  | step :: rest => do
    let s ← step.run env
    return s.merge (← runSteps env rest)

end

mutual

/-- The names of the passes in a step. -/
def Step.names : Step → List String
  | .pass p => [p.name]
  | .fixedPoint _ steps => stepNames steps

/-- The names of the passes in a pipeline. -/
def stepNames : List Step → List String
  | [] => []
  | step :: rest => step.names ++ stepNames rest

end

/-- The standard pipeline.  Fusion and the preferred layouts are for optimized builds; the last
cleanup takes up to four rounds. -/
def standardPipeline (optimize : Bool) : List Step :=
  [Step.pass .trim, .pass .layouts]
    ++ (if optimize then [Step.pass .fusion, .pass .inputReorders, .pass .biasReorders] else [])
    ++ [Step.pass .redundantReorders, .pass .padding, .pass .constants,
      .pass .binding, .pass .weightReorders,
      .repeated 4 [.pass .redundantReorders, .pass .constants]]

end NetPlan

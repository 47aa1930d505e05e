import NetPlan.Graph.Primitive
import NetPlan.Selection

/-!
# Graph/Error — why a compilation stops

Every cause has a constructor of its own, and the wording of all of them stands in the `message`
functions.  A `Fault` is no answer of the compiler but the absence of one: the computation reads an
argument, a position or a bound that does not exist.  An overflow is none either: a size is no machine
word.
-/

namespace NetPlan

/-- A computation without a result. -/
inductive Fault where
  /-- A rule reads an input that was not given. -/
  | missingInput (index : Nat)
  /-- A position outside a tensor. -/
  | outsideTensor
  /-- Bounds that do not enclose anything. -/
  | invertedBounds
  /-- A value that is asked for in its own computation. -/
  | endless
  deriving DecidableEq

/-- What a buffer is for the node that reads it. -/
inductive Role where
  | input
  | weights
  | bias
  deriving DecidableEq

/-- The role as messages spell it. -/
def Role.name : Role → String
  | .input => "Input"
  | .weights => "Weights"
  | .bias => "Bias"

instance : Named Role := ⟨[.input, .weights, .bias], Role.name⟩

/-- What is wrong with a graph. -/
inductive GraphProblem where
  | definedTwice (id : String)
  | selfDependency (id : String)
  | noDependency (user : String) (index : Nat)
  | noEdge (dependency user : String)
  | notReorderOf (id source : String)
  | notConsumed (id source : String)
  | taken (old new : String)
  | cycle (id user : String)
  | unreachable (missing total : Nat)
  | notBefore (dependency user : String)
  | unregistered (kind : OpKind)
  | consumerUnknown (role : Role) (kind : OpKind)
  | noLayoutRule (role : Role) (kind : OpKind)
  | orderInvalid
  | unbound (id : String)
  deriving DecidableEq

/-- What is wrong with the graph, in words. -/
def GraphProblem.message : GraphProblem → String
  | .definedTwice id => s!"primitive '{id}' is defined twice"
  | .selfDependency id => s!"'{id}' cannot depend on itself"
  | .noDependency user index => s!"'{user}' has no dependency #{index}"
  | .noEdge dependency user => s!"no edge from '{dependency}' to '{user}'"
  | .notReorderOf id source => s!"'{id}' already exists and is not a reorder of '{source}'"
  | .notConsumed id source => s!"intermediate '{id}' does not consume '{source}'"
  | .taken old new => s!"cannot rename '{old}': '{new}' already exists"
  | .cycle id user => s!"cycle through '{id}' and '{user}'"
  | .unreachable missing total =>
    s!"{missing} of {total} nodes are not reachable from a node without dependencies"
  | .notBefore dependency user =>
    s!"'{dependency}' does not precede its user '{user}' in processing order"
  | .unregistered kind => s!"no behaviour registered for {kind.name}"
  | .consumerUnknown role kind =>
    s!"{role.name} layout of a {kind.name} needs the consumer's output layout"
  | .noLayoutRule role kind => s!"no {role.name} layout rule for {kind.name}"
  | .orderInvalid => "processing order is not topological"
  | .unbound id => s!"'{id}' left compilation without a kernel"

/-- What is wrong with one primitive. -/
inductive PrimitiveProblem where
  | wrongBehaviour (behaviour kind : OpKind)
  | tooFewInputs (expected actual : Nat)
  | windowMisfit (window stride dilation input padding : Nat)
  | noWeights
  | biasGroups (groups biases : Nat)
  | weightsDiffer
  | biasPerGroup (actual features : Nat)
  | zeroStride
  | zeroDilation
  | dilatedBatch
  | valueCount (values buffer : Nat)
  | inputsPerBatch (consumed provided : Nat)
  | biasPerOutput (actual outputs : Nat)
  | sizesDiffer (first other : Shape)
  | coefficientCount (coefficients inputs : Nat)
  | sizesDifferOffAxis
  | notWeightElement (element : Element)
  | notDataFormat (format : Format)
  | notWeightFormat (format : Format)
  | paddedWeights
  | noInput
  | noInputAndWeights
  deriving DecidableEq

/-- What is wrong with the primitive, in words; the message leaves out its id. -/
def PrimitiveProblem.message : PrimitiveProblem → String
  | .wrongBehaviour behaviour kind =>
    s!"{behaviour.title} behaviour applied to a {kind.name} node"
  | .tooFewInputs expected actual => s!"expects {expected} inputs, has {actual}"
  | .windowMisfit window stride dilation input padding =>
    s!"window {window} (stride {stride}, dilation {dilation}) does not fit an input of {input} "
      ++ s!"padded by {padding}"
  | .noWeights => "convolution needs weights"
  | .biasGroups groups biases => s!"{groups} weights groups but {biases} biases"
  | .weightsDiffer => "split groups differ in weights shape"
  | .biasPerGroup actual features =>
    s!"bias has {actual} elements for {features} output features per group"
  | .zeroStride => "stride must be positive"
  | .zeroDilation => "dilation must be positive"
  | .dilatedBatch => "dilated convolution supports a batch of one only"
  | .valueCount values buffer => s!"{values} values for a buffer of {buffer}"
  | .inputsPerBatch consumed provided =>
    s!"weights consume {consumed} inputs per batch, input provides {provided}"
  | .biasPerOutput actual outputs => s!"bias has {actual} elements for {outputs} outputs"
  | .sizesDiffer first other => s!"inputs differ in size: {first.text} and {other.text}"
  | .coefficientCount coefficients inputs => s!"{coefficients} coefficients for {inputs} inputs"
  | .sizesDifferOffAxis => "inputs differ outside the concatenation axis"
  | .notWeightElement element => s!"{element.name} cannot hold weights"
  | .notDataFormat format => s!"{format.name} is not a data format kernels accept"
  | .notWeightFormat format => s!"{format.name} cannot be read as weights"
  | .paddedWeights => "weights cannot be padded"
  | .noInput => "has no input"
  | .noInputAndWeights => "convolution needs an input and weights"

/-- What is wrong with the options of a compilation. -/
inductive OptionProblem where
  | noCachePath (mode : TuningMode)
  | noRunner
  | repeatedOutput (id : String)
  | noResources
  deriving DecidableEq

/-- What is wrong with the options, in words. -/
def OptionProblem.message : OptionProblem → String
  | .noCachePath mode => s!"tuning mode {mode.name} needs a cache file path"
  | .noRunner => "tune-and-cache needs a kernel runner"
  | .repeatedOutput id => s!"output '{id}' is listed twice"
  | .noResources => "engine reports no compute resources"

/-- Why a compilation stops. -/
inductive CompileError where
  | missingDependency (user dependency : String)
  | missingNode (id : String)
  | invalidGraph (problem : GraphProblem)
  | invalidPrimitive (id : String) (problem : PrimitiveProblem)
  | noImplementation (id : String) (cause : SelectError)
  | constantEvaluation (id reason : String)
  | invalidOptions (problem : OptionProblem)
  | fault (f : Fault)
  | overflow
  deriving DecidableEq

/-- The name of the kind of error. -/
def CompileError.title : CompileError → String
  | .missingDependency _ _ => "MissingDependency"
  | .missingNode _ => "MissingNode"
  | .invalidGraph _ => "InvalidGraph"
  | .invalidPrimitive _ _ => "InvalidPrimitive"
  | .noImplementation _ _ => "NoImplementation"
  | .constantEvaluation _ _ => "ConstantEvaluation"
  | .invalidOptions _ => "InvalidOptions"
  | .fault _ => "Fault"
  | .overflow => "Overflow"

/-- The error in words. -/
def CompileError.message : CompileError → String
  | .missingDependency user dependency =>
    s!"primitive '{user}' depends on unknown primitive '{dependency}'"
  | .missingNode id => s!"no node with id '{id}'"
  | .invalidGraph problem => "invalid graph: " ++ problem.message
  | .invalidPrimitive id problem => s!"invalid primitive '{id}': " ++ problem.message
  | .noImplementation id _ => s!"no kernel for '{id}'"
  | .constantEvaluation id _ => s!"constant evaluation of '{id}' failed"
  | .invalidOptions problem => "invalid build options: " ++ problem.message
  | .fault _ | .overflow => "no result"

end NetPlan

import NetPlan.Hash
import NetPlan.Kernel.Defines
import NetPlan.Kernel.Key
import NetPlan.Kernel.WorkGroups
import NetPlan.Text.Quoted

/-!
# Kernel/Plan — launches, plans and the kernels that produce them

A plan is the list of launches that carries out one request, with an estimate of its cost.  An
`Implementation` turns requests into plans; it may refuse a request, and it may offer tuning
variants of its plan.
-/

namespace NetPlan.Kernel

/-- An argument of a launch. -/
inductive Argument where
  | input (index : Nat)
  | output
  | weights
  | bias
  | split
  deriving DecidableEq

/-- The argument as dumps spell it. -/
def Argument.name : Argument → String
  | .input index => s!"in{index}"
  | .output => "out"
  | .weights => "weights"
  | .bias => "bias"
  | .split => "split"

/-- One kernel launch: its source, its size and its arguments. -/
structure Launch where
  entry : String
  defines : Defines
  groups : WorkGroups
  arguments : List Argument
  layer : String
  deriving DecidableEq

/-- The text that identifies kernel source: the entry point, then every definition. -/
def sourceText (entry : String) (defines : Defines) : String :=
  entry ++ String.join (defines.map fun (name, value) => name ++ "=" ++ value ++ ";")

/-- Hash of the kernel source. -/
def sourceId (entry : String) (defines : Defines) : UInt64 :=
  Hash.fnv1a (Hash.utf8 (sourceText entry defines))

/-- The number of the source that the launch is compiled from. -/
def Launch.sourceId (l : Launch) : UInt64 := Kernel.sourceId l.entry l.defines

/-- Weights as they are, and as the kernel needs them. -/
structure WeightsChange where
  source : WeightTensor
  target : WeightTensor
  deriving DecidableEq

/-- How one request is carried out. -/
structure Plan where
  kind : Kind
  launches : List Launch
  /-- Estimated cost; less is better. -/
  cost : Single
  /-- Measured time in microseconds. -/
  runTime : Option Nat
  /-- Tuning variant; `none` is the default of its implementation. -/
  variant : Option Nat
  implementation : String
  weightsChange : Option WeightsChange
  deriving DecidableEq

/-- Whether nothing is launched. -/
def Plan.isEmpty (p : Plan) : Bool := p.launches.isEmpty

/-- Why an implementation gives no plan.  The reason is its own to word. -/
inductive Refusal where
  | notApplicable (reason : String)
  | invalid (reason : String)
  /-- No answer, but the absence of one: planning breaks off at a size that is no machine word. -/
  | overflow
  deriving DecidableEq

/-- The name of the kind of refusal. -/
def Refusal.title : Refusal → String
  | .notApplicable _ => "NotApplicable"
  | .invalid _ => "InvalidParams"
  | .overflow => "Overflow"

/-- A refusal as it is shown. -/
def Refusal.message : Refusal → String
  | .notApplicable reason => "not applicable: " ++ reason
  | .invalid reason => "invalid parameters: " ++ reason
  | .overflow => "no result"

/-- A size that is needed to go on. -/
def Refusal.need (size : Option Nat) : Except Refusal Nat :=
  match size with
  | some n => .ok n
  | none => .error .overflow

/-- A planner answers a request with plans or refuses it. -/
abbrev Planner := Request → Options → Except Refusal (List Plan)

/-- One way to carry out one kind of work. -/
structure Implementation where
  name : String
  /-- Tells implementations apart in a journal, where names may repeat. -/
  serial : Nat := 0
  kind : Kind
  key : Key
  plan : Planner
  tunable : Bool
  /-- The plan of one tuning variant; `none` asks for the default. -/
  planVariant : Option Nat → Planner
  /-- Every variant worth measuring. -/
  planAll : Planner

/-- An implementation with nothing to tune: its default plan is its only one. -/
def Implementation.fixed (name : String) (kind : Kind) (key : Key) (plan : Planner) :
    Implementation where
  name := name
  kind := kind
  key := key
  plan := plan
  tunable := false
  planVariant
    | none => plan
    | some i => fun _ _ => .error (.notApplicable s!"{name} has no tuning variant {i}")
  planAll := plan

/-! ## Costs -/

namespace Cost

/-- A million: the estimate of an implementation that always works and is never fast. -/
def fallback : Single := ⟨0x49742400⟩

/-- The estimate of a specialised implementation by its rank, from 1, the first choice, to 9: that
many ten-millionths. -/
def ranked : Nat → Single
  | 1 => ⟨0x33d6bf95⟩
  | 2 => ⟨0x3456bf95⟩
  | 3 => ⟨0x34a10fb0⟩
  | 4 => ⟨0x34d6bf95⟩
  | 5 => ⟨0x350637bd⟩
  | 6 => ⟨0x35210fb0⟩
  | 7 => ⟨0x353be7a2⟩
  | 8 => ⟨0x3556bf95⟩
  | 9 => ⟨0x35719787⟩
  | _ => fallback

end Cost

/-! ## Building plans -/

/-- Letters and digits are kept, any other character of a layer's name becomes an underscore. -/
def entryPoint (name layer : String) : String :=
  let safe := layer.toList.map fun c => if c.isAlphanum then c else '_'
  name ++ "__" ++ String.ofList safe

/-- Inputs, the output, then weights and bias where there are any. -/
def standardArguments (inputs : Nat) (weights bias : Bool) : List Argument :=
  (List.range inputs).map Argument.input ++ [Argument.output]
    ++ (if weights then [Argument.weights] else []) ++ (if bias then [Argument.bias] else [])

/-- The extents as messages spell them. -/
def gridText (g : Grid) : String := Text.bracketed (g.toList.map toString)

/-- A plan of one launch, refused when the work groups do not partition the launch. -/
def singleLaunch (kind : Kind) (name layer : String) (defines : Defines) (groups : WorkGroups)
    (arguments : List Argument) (cost : Single) : Except Refusal Plan :=
  if groups.partitions then
    .ok
      { kind
        launches := [⟨entryPoint name layer, defines, groups, arguments, layer⟩]
        cost
        runTime := none
        variant := none
        implementation := ""
        weightsChange := none }
  else
    .error (.invalid
      (name ++ ": work groups " ++ gridText groups.global ++ " / " ++ gridText groups.group
        ++ " do not partition evenly"))

/-! ## Weights a kernel can read -/

/-- Whether weights arranged as `current` serve a kernel that reads the `wanted` arrangements; the
two-dimensional ones are also served by their four-dimensional counterparts. -/
def weightsMatch (current : WeightLayout) (wanted : List WeightLayout) : Bool :=
  wanted.contains current
    || (wanted.contains .io && current = .iyxo)
    || (wanted.contains .oi && current = .oiyx)

/-- The change that brings weights into the first of the `wanted` arrangements and the element type
of the input: none if they fit as they are, a refusal if the caller allows no change. -/
def weightsChange? (weights : WeightTensor) (input : Element) (options : Options)
    (wanted : List WeightLayout) : Except Refusal (Option WeightsChange) :=
  match WeightElement.ofElement? input with
  | none => .error (.notApplicable s!"no weights type for {input.kernelName}")
  | some element =>
    if weights.element = element ∧ weightsMatch weights.layout wanted then .ok none
    else if !options.allowWeightsReorder then
      .error (.notApplicable
        ("weights " ++ weights.element.kernelName ++ "/" ++ weights.layout.name
          ++ " need a reorder to " ++ Text.bracketed (wanted.map WeightLayout.name)))
    else
      match wanted with
      | [] => .error (.invalid "no target weights layout")
      | target :: _ =>
        .ok (some ⟨weights, { weights with layout := target, element := element }⟩)

/-- The refusal of work of another kind than an implementation serves. -/
def wrongKind (expected : Kind) (request : Request) : Refusal :=
  .invalid s!"expected {expected.title} parameters, got {request.kind.name}"

/-! ## Features that kernels offer together -/

/-- Half and single precision, on both sides. -/
def floatTypes : List Feature :=
  [.inputType .f16, .outputType .f16, .inputType .f32, .outputType .f32]

/-- Half- and single-precision weights. -/
def floatWeights : List Feature := [.inputWeightType .f16, .inputWeightType .f32]

/-- Every element type, on both sides. -/
def allTypes : List Feature :=
  [.f16, .f32, .i8, .u8].flatMap fun e => [.inputType e, .outputType e]

/-- Every arrangement, on both sides. -/
def allLayouts : List Feature :=
  DataLayout.all.map .inputLayout ++ DataLayout.all.map .outputLayout

/-- The same arrangements on both sides. -/
def layouts (ls : List DataLayout) : List Feature :=
  ls.map .inputLayout ++ ls.map .outputLayout

/-- Padded tensors. -/
def padded : List Feature := [.offset, .pitches]

/-- A work item per output element. -/
def perElement (output : DataTensor) : WorkGroups :=
  .optimal output.size.x output.size.y (output.size.feature * output.size.batch)

end NetPlan.Kernel

import NetPlan.Kernel.Request

/-!
# Kernel/Key — capability keys

A key is a set of features.  A request's key says what the request needs, a kernel's key what the
kernel can do, and a kernel is a candidate only when its key has every feature of the request's.
-/

namespace NetPlan.Kernel

/-- What a request can need and a kernel can offer. -/
inductive Feature where
  | inputType (e : Element)
  | outputType (e : Element)
  | inputWeightType (w : WeightElement)
  | outputWeightType (w : WeightElement)
  | differentTypes
  | offset
  | pitches
  | batching
  | biasPerFeature
  | biasPerOutput
  | noBias
  | activationOperand
  | poolKind (k : PoolKind)
  | poolRounding (r : PoolRounding)
  | poolDivider (d : PoolDivider)
  | split
  | dilation
  | softmaxAxis (a : SoftmaxAxis)
  | concatAxis (a : Axis)
  | coefficients
  | subtract
  | subgroups
  | inputLayout (l : DataLayout)
  | outputLayout (l : DataLayout)
  | inputWeightLayout (l : WeightLayout)
  | outputWeightLayout (l : WeightLayout)
  deriving DecidableEq

/-- Whether a feature fixes the arrangement of the input weights. -/
def Feature.isInputWeightLayout : Feature → Bool
  | .inputWeightLayout _ => true
  | _ => false

/-- A set of features; order and repetition do not count. -/
structure Key where
  features : List Feature

namespace Key

/-- No features. -/
def empty : Key := ⟨[]⟩

/-- Whether the key has a feature. -/
def has (k : Key) (f : Feature) : Bool := k.features.contains f

/-- The key with one more feature. -/
def enable (k : Key) (f : Feature) : Key := ⟨k.features ++ [f]⟩

/-- The key with more features. -/
def enableAll (k : Key) (fs : List Feature) : Key := ⟨k.features ++ fs⟩

/-- The features of both keys. -/
def merge (k l : Key) : Key := ⟨k.features ++ l.features⟩

/-- Whether the key has every feature that is required. -/
def supports (k required : Key) : Bool := required.features.all k.has

/-- The key without any demand on the arrangement of the input weights. -/
def freeInputWeights (k : Key) : Key := ⟨k.features.filter fun f => !f.isInputWeightLayout⟩

/-- Whether nothing is needed. -/
def isEmpty (k : Key) : Bool := k.features.isEmpty

/-- Whether two keys are the same set. -/
def same (k l : Key) : Bool := k.supports l && l.supports k

/-- Whether work items of a sub-group exchange values. -/
def needsSubgroups (k : Key) : Bool := k.has .subgroups

end Key

/-! ## The key of a request -/

/-- What a data tensor needs whatever its role. -/
def tensorFeatures (t : DataTensor) : List Feature :=
  (if t.size.batch > 1 then [Feature.batching] else [])
    ++ (if t.isPadded then [Feature.pitches] else [])
    ++ (if t.offset ≠ 0 then [Feature.offset] else [])

/-- What the data tensors of a request need. -/
def Operands.features (o : Operands) : List Feature :=
  (o.inputs.flatMap fun t =>
      [Feature.inputType t.element, .inputLayout t.layout] ++ tensorFeatures t)
    ++ [Feature.outputType o.output.element, .outputLayout o.output.layout]
    ++ tensorFeatures o.output
    ++ (if o.inputs.any (·.element ≠ o.output.element) then [Feature.differentTypes] else [])

/-- The form of a bias: none, one value per output feature, or anything else. -/
def Filter.biasFeature (f : Filter) (output : DataTensor) : Feature :=
  match f.bias with
  | [] => .noBias
  | b :: _ =>
    if b.size.feature = output.size.feature ∧ b.count = b.size.feature then .biasPerFeature
    else .biasPerOutput

/-- What weights and bias need. -/
def Filter.features (f : Filter) (output : DataTensor) : List Feature :=
  [.inputWeightType f.weights.element, .inputWeightLayout f.weights.layout, f.biasFeature output]

/-- What a convolution needs: beside its tensors and its filter, groups and dilation. -/
def ConvolutionWork.features (w : ConvolutionWork) : List Feature :=
  w.operands.features ++ w.filter.features w.operands.output
    ++ (if w.split > 1 then [Feature.split] else [])
    ++ (if w.dilation ≠ Planar.one then [Feature.dilation] else [])

/-- The features that a piece of work needs. -/
def Work.features : Work → List Feature
  | .convolution w => w.features
  | .fullyConnected w => w.operands.features ++ w.filter.features w.operands.output
  | .pooling w =>
    w.operands.features
      ++ [Feature.poolKind w.kind, .poolRounding w.rounding, .poolDivider w.divider]
  | .activation o =>
    o.features ++ (if o.inputs.length > 1 then [Feature.activationOperand] else [])
  | .eltwise w =>
    w.operands.features ++ (if w.coefficients.isEmpty then [] else [Feature.coefficients])
  | .reorder w => w.operands.features ++ (if w.subtract.isEmpty then [] else [Feature.subtract])
  | .weightsReorder source target =>
    [Feature.inputWeightType source.element, .outputWeightType target.element,
        .inputWeightLayout source.layout, .outputWeightLayout target.layout]
      ++ (if source.element ≠ target.element then [Feature.differentTypes] else [])
  | .softmax o axis => o.features ++ [Feature.softmaxAxis axis]
  | .concatenation o axis => o.features ++ [Feature.concatAxis axis]
  | .batchNorm o _ => o.features
  | .scale o => o.features ++ [if o.inputs.length > 2 then .biasPerFeature else .noBias]
  | .fusedConvBnScale w _ => w.features

/-- The features that work needs, as a key. -/
def Work.key (w : Work) : Key := ⟨w.features⟩

/-- What the caller of a selection allows and demands beyond the request itself. -/
structure Options where
  /-- The caller can put a weights reorder in front, so the arrangement of the weights is free. -/
  allowWeightsReorder : Bool
  /-- Features demanded of every candidate. -/
  required : Key

namespace Options

/-- No weights reorder, no further demands. -/
def default : Options := ⟨false, Key.empty⟩

/-- The key a candidate has to cover. -/
def requestKey (o : Options) (r : Request) : Key :=
  let key := r.work.key.merge o.required
  if o.allowWeightsReorder then key.freeInputWeights else key

end Options

end NetPlan.Kernel

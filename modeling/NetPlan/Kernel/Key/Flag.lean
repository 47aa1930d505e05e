import NetPlan.Kernel.Key

/-!
# Kernel/Key/Flag — features by name

A flag is the name of a feature, or of a family of features and one of its variants behind a colon;
`all_` in front of a family stands for every variant.
-/

namespace NetPlan.Kernel

/-- The features of a family, by the name of the variant. -/
def familyVariants {α : Type} [Named α] (f : α → Feature) : List (String × Feature) :=
  (Named.all : List α).map fun a => (Named.name a, f a)

/-- The same for element types, under their names towards a kernel. -/
def elementVariants (f : Element → Feature) : List (String × Feature) :=
  (Named.all : List Element).map fun e => (e.kernelName, f e)

/-- The variants of a family. -/
def family? : String → Option (List (String × Feature))
  | "input_type" => some (elementVariants .inputType)
  | "output_type" => some (elementVariants .outputType)
  | "input_weights_type" => some (familyVariants .inputWeightType)
  | "output_weights_type" => some (familyVariants .outputWeightType)
  | "pool_type" => some (familyVariants .poolKind)
  | "pool_remainder" => some (familyVariants .poolRounding)
  | "pool_divider" => some (familyVariants .poolDivider)
  | "softmax_dim" => some (familyVariants .softmaxAxis)
  | "concat_axis" => some (familyVariants .concatAxis)
  | "input_layout" => some (familyVariants .inputLayout)
  | "output_layout" => some (familyVariants .outputLayout)
  | "input_weights_layout" => some (familyVariants .inputWeightLayout)
  | "output_weights_layout" => some (familyVariants .outputWeightLayout)
  | _ => none

/-- A feature without variants. -/
def feature? : String → Option Feature
  | "different_types" => some .differentTypes
  | "offset" => some .offset
  | "pitches" => some .pitches
  | "batching" => some .batching
  | "bias_per_feature" => some .biasPerFeature
  | "bias_per_output" => some .biasPerOutput
  | "non_bias" => some .noBias
  | "activation_params" => some .activationOperand
  | "split" => some .split
  | "dilation" => some .dilation
  | "eltwise_coefficients" => some .coefficients
  | "reorder_subtract" => some .subtract
  | "subgroups" => some .subgroups
  | _ => none

/-- The features a flag stands for. -/
def flagFeatures? (flag : String) : Option (List Feature) :=
  match flag.splitOn ":", flag.splitOn "all_" with
  | [name, variant], _ => do return [← (← family? name).lookup variant]
  | _, ["", name] => do return (← family? name).map (·.2)
  | _, _ => do return [← feature? flag]

/-- The key with what a flag stands for; one flag lifts all demands on the arrangement of the input
weights instead. -/
def Key.applyFlag? (k : Key) (flag : String) : Option Key :=
  if flag = "clear_input_weights_layout" then some k.freeInputWeights
  else (flagFeatures? flag).map k.enableAll

/-- The key of a list of flags. -/
def Key.ofFlags? (flags : List String) : Option Key := flags.foldlM Key.applyFlag? Key.empty

end NetPlan.Kernel

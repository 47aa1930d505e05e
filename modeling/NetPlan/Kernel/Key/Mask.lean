import NetPlan.Kernel.Key

/-!
# Kernel/Key/Mask — keys as bit masks

Every feature has a place, a word and a bit of it, and `Key.mask` is the sum of the bits of a key
in one word.
-/

namespace NetPlan.Kernel

/-- The words of a key. -/
inductive KeyWord where
  | general
  | dedicated
  | machine
  | inputLayouts
  | outputLayouts
  | inputWeightLayouts
  | outputWeightLayouts
  deriving DecidableEq

namespace KeyWord

/-- Every word of a mask. -/
def all : List KeyWord :=
  [.general, .dedicated, .machine, .inputLayouts, .outputLayouts, .inputWeightLayouts,
    .outputWeightLayouts]

/-- The word as texts spell it. -/
def name : KeyWord → String
  | .general => "restrict"
  | .dedicated => "dedicated"
  | .machine => "machine"
  | .inputLayouts => "input_layout"
  | .outputLayouts => "output_layout"
  | .inputWeightLayouts => "input_weights_layout"
  | .outputWeightLayouts => "output_weights_layout"

end KeyWord

instance : Named KeyWord := ⟨KeyWord.all, KeyWord.name⟩

/-- The bit of an element type among its kind. -/
def elementBit : Element → Nat
  | .f16 => 0
  | .f32 => 1
  | .i8 => 2
  | .u8 => 3

/-- The bit of an element type of weights among its kind. -/
def weightElementBit : WeightElement → Nat
  | .f16 => 0
  | .f32 => 1
  | .i8 => 2

/-- The bit of an arrangement of data. -/
def dataLayoutBit (l : DataLayout) : Nat := DataLayout.all.idxOf l

/-- The bit of an arrangement of weights. -/
def weightLayoutBit (l : WeightLayout) : Nat := WeightLayout.all.idxOf l

/-- Word and bit of a feature. -/
def Feature.place : Feature → KeyWord × Nat
  | .inputType e => (.general, elementBit e)
  | .outputType e => (.general, 4 + elementBit e)
  | .inputWeightType w => (.general, 8 + weightElementBit w)
  | .outputWeightType w => (.general, 11 + weightElementBit w)
  | .differentTypes => (.general, 14)
  | .offset => (.general, 15)
  | .pitches => (.general, 16)
  | .batching => (.general, 17)
  | .biasPerFeature => (.general, 18)
  | .biasPerOutput => (.general, 19)
  | .noBias => (.general, 20)
  | .activationOperand => (.general, 21)
  | .poolKind .max => (.dedicated, 0)
  | .poolKind .average => (.dedicated, 1)
  | .poolRounding .floor => (.dedicated, 2)
  | .poolRounding .ceil => (.dedicated, 3)
  | .poolDivider .fixed => (.dedicated, 4)
  | .poolDivider .dynamicWithPadding => (.dedicated, 5)
  | .split => (.dedicated, 6)
  | .dilation => (.dedicated, 7)
  | .softmaxAxis .x => (.dedicated, 8)
  | .softmaxAxis .y => (.dedicated, 9)
  | .softmaxAxis .feature => (.dedicated, 10)
  | .concatAxis .x => (.dedicated, 11)
  | .concatAxis .y => (.dedicated, 12)
  | .concatAxis .feature => (.dedicated, 13)
  | .concatAxis .batch => (.dedicated, 14)
  | .coefficients => (.dedicated, 15)
  | .subtract => (.dedicated, 16)
  | .subgroups => (.machine, 0)
  | .inputLayout l => (.inputLayouts, dataLayoutBit l)
  | .outputLayout l => (.outputLayouts, dataLayoutBit l)
  | .inputWeightLayout l => (.inputWeightLayouts, weightLayoutBit l)
  | .outputWeightLayout l => (.outputWeightLayouts, weightLayoutBit l)

/-- The bits of a key in one word. -/
def Key.mask (k : Key) (word : KeyWord) : Nat :=
  k.features.foldl
    (fun mask f => if f.place.1 = word then mask ||| Nat.pow 2 f.place.2 else mask) 0

end NetPlan.Kernel

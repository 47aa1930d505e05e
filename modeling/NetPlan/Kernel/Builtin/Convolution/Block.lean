import NetPlan.Kernel.Builtin.Convolution
import NetPlan.Machine

/-!
# Kernel/Builtin/Convolution/Block — an output block per work item

A sub-group convolution over weights blocked by sixteen.  The block's width, height and prefetch
depth are its tuning space; the default block follows from stride, window and output width.
-/

namespace NetPlan.Kernel.Builtin

/-- Shape of the block that a work item computes, and how far it reads ahead. -/
structure Block where
  width : Nat
  height : Nat
  prefetch : Nat
  deriving DecidableEq

/-- The name of the kernel. -/
def convolutionBlockName : String := "convolution_gpu_bfyx_os_iyx_osv16"

/-- Work items of a sub-group. -/
def convolutionSubgroup : Nat := 16

/-- Elements that a block may have. -/
def maxBlock : Nat := 60

/-- The tuning variants: every width, height and prefetch depth whose block is not too large. -/
def convolutionBlocks : List Block :=
  [1, 2, 4, 5, 6, 8, 10, 12, 14, 16].flatMap fun width =>
    [1, 2, 3, 4, 5].flatMap fun height =>
      if width * height ≤ maxBlock then
        [1, 2, 3, 4, 5, 6, 8, 10].map fun prefetch => ⟨width, height, prefetch⟩
      else []

/-- The block used without tuning. -/
def defaultBlock (w : ConvolutionWork) : Block :=
  let outputX := w.operands.output.size.x
  if w.stride = ⟨1, 1⟩ then
    if w.window = ⟨1, 1⟩ then ⟨16, 1, 4⟩
    else if outputX + (w.window.x - 1) * w.dilation.x < convolutionSubgroup then
      -- One row per work item keeps the whole row inside the sub-group.
      ⟨outputX, 1, 4⟩
    else if w.window.x < 5 ∧ w.window.y < 5 then ⟨convolutionSubgroup - w.window.x + 1, 2, 4⟩
    else ⟨4, 3, 4⟩
  else if w.stride = ⟨2, 2⟩ then ⟨5, 4, 4⟩
  else ⟨4, 3, 5⟩

/-- Input elements that a row of `count` outputs reads along one axis; there is no such number for a row
without outputs, or for windows without elements. -/
def inputSpan? (count stride window dilation : Nat) : Option Nat := do
  let steps ← Machine.sub? count 1
  let taps ← Machine.sub? window 1
  return steps * stride + taps * dilation + 1

/-- The plan for one block shape.  Planning breaks off for a block without columns or rows. -/
def planBlock (w : ConvolutionWork) (input : DataTensor) (layer : String) (options : Options)
    (block : Block) : Except Refusal Plan := do
  let output := w.operands.output
  let chunk := if input.element = .f16 then convolutionSubgroup else convolutionSubgroup / 2
  let spanX ← Refusal.need (inputSpan? block.width w.stride.x w.window.x w.dilation.x)
  let spanY ← Refusal.need (inputSpan? block.height w.stride.y w.window.y w.dilation.y)
  let inputWidth := Nat.max (roundUp spanX chunk) convolutionSubgroup
  let inputArray := ceilDiv (spanY * inputWidth) convolutionSubgroup
  let features := output.size.feature
  let threads := roundUp features convolutionSubgroup
  let change ← weightsChange? w.filter.weights input.element options [.osIyxOsv16]
  let leftovers : Defines :=
    if threads > features then [Defines.num "LEFTOVERS" (threads - features)] else []
  convolutionPlan w convolutionBlockName layer
    ([Defines.num "SUB_GROUP_SIZE" convolutionSubgroup,
      Defines.num "OUTPUT_BLOCK_WIDTH" block.width,
      Defines.num "OUTPUT_BLOCK_HEIGHT" block.height,
      Defines.num "IN_BLOCK_ARRAY_SIZE" inputArray, Defines.num "IN_BLOCK_WIDTH" inputWidth,
      Defines.num "PREFETCH" block.prefetch] ++ leftovers)
    ⟨⟨ceilDiv output.size.x block.width, ceilDiv output.size.y block.height,
        threads * output.size.batch⟩, ⟨1, 1, convolutionSubgroup⟩⟩
    (Cost.ranked 3) change

/-- A convolution whose windows stay inside the padded input. -/
def checkBlock (request : Request) : Except Refusal (ConvolutionWork × DataTensor) :=
  match request.work with
  | .convolution w => do
    let input ← checkConvolution w
    checkPaddedInput w input
    return (w, input)
  | _ => .error (wrongKind .convolution request)

/-- The plan for the default block. -/
def planConvolutionBlock : Planner := fun request options => do
  let (w, input) ← checkBlock request
  return [← planBlock w input request.layer options (defaultBlock w)]

/-- The plan for a numbered block, or for the default one. -/
def planConvolutionBlockVariant (variant : Option Nat) : Planner := fun request options => do
  let (w, input) ← checkBlock request
  let block ← match variant with
    | none => pure (defaultBlock w)
    | some i =>
      match convolutionBlocks[i]? with
      | some block => pure block
      | none =>
        throw (.notApplicable
          s!"{convolutionBlockName} has {convolutionBlocks.length} tuning variants, asked for {i}")
  let plan ← planBlock w input request.layer options block
  return [{ plan with variant := variant }]

/-- The plans for all blocks, the default one last. -/
def planConvolutionBlockAll : Planner := fun request options => do
  let (w, input) ← checkBlock request
  let tuned ← convolutionBlocks.zipIdx.mapM fun (block, i) => do
    let plan ← planBlock w input request.layer options block
    return { plan with variant := some i }
  let plan ← planBlock w input request.layer options (defaultBlock w)
  return tuned ++ [plan]

/-- Sub-group convolution over weights blocked by sixteen, tunable over its block. -/
def convolutionBlock : Implementation where
  name := convolutionBlockName
  kind := .convolution
  key :=
    ⟨floatTypes ++ floatWeights ++ layouts [.bfyx] ++ [Feature.inputWeightLayout .osIyxOsv16]
      ++ padded
      ++ [Feature.subgroups, .biasPerFeature, .biasPerOutput, .noBias, .batching, .split,
        .dilation]⟩
  plan := planConvolutionBlock
  tunable := true
  planVariant := planConvolutionBlockVariant
  planAll := planConvolutionBlockAll

end NetPlan.Kernel.Builtin

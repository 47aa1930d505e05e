import NetPlan.Kernel.Builtin.Convolution

/-!
# Kernel/Builtin/Convolution/Depthwise — three-by-three, one feature per group

The tile that a sub-group computes is its tuning space.
-/

namespace NetPlan.Kernel.Builtin

/-- The name of the kernel. -/
def depthwiseName : String := "convolution_gpu_bfyx_3x3_dw_opt"

/-- Work items of a sub-group. -/
def depthwiseSubgroup : Nat := 16

/-- The tuning variants: width and height of a tile. -/
def depthwiseTiles : List Planar :=
  [1, 2, 4, 5, 6, 8, 10, 12, 14, 16].flatMap fun x => [1, 2, 3, 4, 5, 6, 7].map fun y => ⟨x, y⟩

/-- The tile used without tuning: a sub-group less the window's two border columns. -/
def defaultTile : Planar := ⟨depthwiseSubgroup - 2, 7⟩

/-- A padded depthwise three-by-three convolution of stride one into a dense output. -/
def checkDepthwise (request : Request) : Except Refusal (ConvolutionWork × DataTensor) :=
  match request.work with
  | .convolution w => do
    let input ← checkConvolution w
    checkPaddedInput w input
    if w.window ≠ ⟨3, 3⟩ ∨ w.stride ≠ ⟨1, 1⟩ ∨ w.padding ≠ ⟨1, 1⟩ ∨ input.size.feature ≠ w.split
        ∨ w.operands.output.isPadded then
      throw (.notApplicable "needs unpadded output of a depthwise 3x3 stride-1 pad-1 convolution")
    return (w, input)
  | _ => .error (wrongKind .convolution request)

/-- The plan for one tile. -/
def planTile (w : ConvolutionWork) (input : DataTensor) (layer : String) (options : Options)
    (tile : Planar) : Except Refusal Plan := do
  let change ← weightsChange? w.filter.weights input.element options [.oiyx]
  convolutionPlan w depthwiseName layer
    [Defines.num "UNIT_BYTE_SIZE" (if input.element = .f16 then 2 else 4),
      Defines.num "SUB_GROUP_SIZE" depthwiseSubgroup, Defines.num "TILE_WIDTH" tile.x,
      Defines.num "TILE_HEIGHT" tile.y]
    ⟨⟨ceilDiv input.size.x tile.x * depthwiseSubgroup, ceilDiv input.size.y tile.y,
        input.size.feature * input.size.batch⟩, ⟨depthwiseSubgroup, 1, 1⟩⟩
    (Cost.ranked 5) change

/-- The plan for the default tile. -/
def planDepthwise : Planner := fun request options => do
  let (w, input) ← checkDepthwise request
  return [← planTile w input request.layer options defaultTile]

/-- The plan for a numbered tile, or for the default one. -/
def planDepthwiseVariant (variant : Option Nat) : Planner := fun request options => do
  let (w, input) ← checkDepthwise request
  let tile ← match variant with
    | none => pure defaultTile
    | some i =>
      match depthwiseTiles[i]? with
      | some tile => pure tile
      | none => throw (.notApplicable s!"{depthwiseName} has no tuning variant {i}")
  let plan ← planTile w input request.layer options tile
  return [{ plan with variant := variant }]

/-- The plans for all tiles, the default one last. -/
def planDepthwiseAll : Planner := fun request options => do
  let (w, input) ← checkDepthwise request
  let tuned ← depthwiseTiles.zipIdx.mapM fun (tile, i) => do
    let plan ← planTile w input request.layer options tile
    return { plan with variant := some i }
  let plan ← planTile w input request.layer options defaultTile
  return tuned ++ [plan]

/-- Depthwise three-by-three convolution, tunable over its tile. -/
def depthwise : Implementation where
  name := depthwiseName
  kind := .convolution
  key :=
    ⟨floatTypes ++ floatWeights ++ layouts [.bfyx] ++ [Feature.inputWeightLayout .oiyx] ++ padded
      ++ [Feature.biasPerFeature, .noBias, .batching, .split, .subgroups]⟩
  plan := planDepthwise
  tunable := true
  planVariant := planDepthwiseVariant
  planAll := planDepthwiseAll

end NetPlan.Kernel.Builtin

import NetPlan.Kernel.Plan

/-!
# Kernel/Builtin/Pooling — window reductions

Three kernels: a generic one with boundary checks, a tiled one for three-by-three averages, and a
column-blocked one for windows that stay inside the input.
-/

namespace NetPlan.Kernel.Builtin

/-- One input, positive windows and strides, and as many features and batches out as in. -/
def checkPooling (w : PoolingWork) : Except Refusal DataTensor :=
  match w.operands.inputs with
  | [input] =>
    if w.window.hasZero then .error (.invalid "pooling window must be positive")
    else if w.stride.hasZero then .error (.invalid "pooling stride must be positive")
    else if input.size.feature ≠ w.operands.output.size.feature
        ∨ input.size.batch ≠ w.operands.output.size.batch then
      .error (.invalid "pooling keeps feature and batch counts")
    else .ok input
  | _ => .error (.invalid "pooling expects one input")

/-- The constants that every pooling kernel is compiled with. -/
def poolingDefines (w : PoolingWork) : Defines :=
  Defines.ofOperands w.operands
    ++ [Defines.num "POOL_SIZE_X" w.window.x, Defines.num "POOL_SIZE_Y" w.window.y,
      Defines.num "POOL_STRIDE_X" w.stride.x, Defines.num "POOL_STRIDE_Y" w.stride.y,
      Defines.num "POOL_PAD_X" w.padding.x, Defines.num "POOL_PAD_Y" w.padding.y,
      ("POOL_TYPE", match w.kind with
        | .max => "MAX"
        | .average => "AVG"),
      ("POOL_REMAINDER", match w.rounding with
        | .floor => "FLOOR"
        | .ceil => "CEIL"),
      ("KERNEL_DIVIDER", match w.divider with
        | .fixed => "FIXED"
        | .dynamicWithPadding => "DYNAMIC_WITH_PADDING")]

/-- A plan of one pooling launch. -/
def poolingPlan (name layer : String) (defines : Defines) (groups : WorkGroups) (cost : Single) :
    Except Refusal (List Plan) := do
  return [← singleLaunch .pooling name layer defines groups (standardArguments 1 false false) cost]

/-- The name of the reference kernel. -/
def poolingRefName : String := "pooling_gpu_ref"

/-- A work item per element of the result. -/
def planPoolingRef : Planner := fun request _ =>
  match request.work with
  | .pooling w => do
    let _ ← checkPooling w
    poolingPlan poolingRefName request.layer (poolingDefines w) (perElement w.operands.output)
      Cost.fallback
  | _ => .error (wrongKind .pooling request)

/-- Generic window reduction with full boundary checks. -/
def poolingRef : Implementation :=
  .fixed poolingRefName .pooling
    ⟨floatTypes ++ layouts [.bfyx, .yxfb, .byxf] ++ padded
      ++ [Feature.batching, .poolKind .max, .poolKind .average, .poolRounding .floor,
        .poolRounding .ceil, .poolDivider .fixed, .poolDivider .dynamicWithPadding]⟩
    planPoolingRef

/-- The name of the kernel for averages in tiles. -/
def poolingAverageName : String := "pooling_gpu_average_opt"

/-- Work items of a sub-group. -/
def poolingSubgroup : Nat := 16

/-- Rows of a tile; its width is a sub-group less the window's two border columns. -/
def poolingTileHeight : Nat := 7

/-- A tile of averages per sub-group, with no activation on top. -/
def planPoolingAverage : Planner := fun request _ =>
  match request.work with
  | .pooling w => do
    let _ ← checkPooling w
    if w.window ≠ ⟨3, 3⟩ ∨ w.stride ≠ Planar.one ∨ !w.operands.activation.isNone then
      throw (.notApplicable "only 3x3 stride-1 windows without a fused activation")
    let tileWidth := poolingSubgroup - 2
    let size := w.operands.output.size
    poolingPlan poolingAverageName request.layer
      (poolingDefines w
        ++ [Defines.num "SUB_GROUP_SIZE" poolingSubgroup,
          Defines.num "TILE_HEIGHT" poolingTileHeight, Defines.num "TILE_WIDTH" tileWidth,
          ("ONE_OVER_POOL_SIZE", (Single.one / Single.ofNat 9).text)])
      ⟨⟨ceilDiv size.x tileWidth * poolingSubgroup, ceilDiv size.y poolingTileHeight,
          size.feature * size.batch⟩, ⟨poolingSubgroup, 1, 1⟩⟩
      (Cost.ranked 7)
  | _ => .error (wrongKind .pooling request)

/-- Three-by-three averages over shared tiles. -/
def poolingAverage : Implementation :=
  .fixed poolingAverageName .pooling
    ⟨[Feature.inputType .f32, .outputType .f32] ++ layouts [.bfyx] ++ padded
      ++ [Feature.batching, .poolKind .average, .poolRounding .floor, .poolRounding .ceil,
        .poolDivider .fixed]⟩
    planPoolingAverage

/-- The name of the kernel for blocks of columns. -/
def poolingBlockName : String := "pooling_gpu_bfyx_block_opt"

/-- Input elements up to the end of the last window along one axis. -/
def poolingReach (output stride window : Nat) : Nat := (output - 1) * stride + window

/-- Whether some window reads outside the input. -/
def leavesInput (w : PoolingWork) (input : DataTensor) : Bool :=
  w.padding.x ≠ 0 || w.padding.y ≠ 0
    || poolingReach w.operands.output.size.x w.stride.x w.window.x > input.size.x
    || poolingReach w.operands.output.size.y w.stride.y w.window.y > input.size.y

/-- A work item per block of windows that stay inside the input. -/
def planPoolingBlock : Planner := fun request _ =>
  match request.work with
  | .pooling w => do
    let input ← checkPooling w
    if leavesInput w input then
      throw (.notApplicable "pooling window reaches outside the input")
    let size := w.operands.output.size
    poolingPlan poolingBlockName request.layer
      (poolingDefines w
        ++ [Defines.num "BLOCK_SIZE_Y" (w.window.y + w.window.y * w.stride.y - 1)])
      (.optimal size.x (ceilDiv size.y w.window.y) (size.feature * size.batch))
      (Cost.ranked 8)
  | _ => .error (wrongKind .pooling request)

/-- Column-blocked pooling for windows that stay inside the input. -/
def poolingBlock : Implementation :=
  .fixed poolingBlockName .pooling
    ⟨floatTypes ++ layouts [.bfyx] ++ [Feature.differentTypes] ++ padded
      ++ [Feature.batching, .poolKind .max, .poolKind .average, .poolRounding .floor,
        .poolRounding .ceil, .poolDivider .fixed]⟩
    planPoolingBlock

end NetPlan.Kernel.Builtin

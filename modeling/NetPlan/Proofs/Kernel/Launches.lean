import Mathlib.Tactic.Ring
import NetPlan.Proofs.Kernel.Reads
import NetPlan.Proofs.Kernel.Variants

/-!
# Proofs/Kernel/Launches — launches cover their output

Every kernel but the concatenation has one launch.  Its global size comes from the output and from the
blocks of it that a work item or a sub-group computes; the size of a block is compiled into the launch.
So that all of the output is computed, there have to be as many blocks as it takes to cover it.

* `Implementation.Launches` — the plans of an implementation have one launch of whole groups, with a
  property;
* `PerElement`, `InBlocks`, … — how many work items there are, kernel by kernel (`Builtin.coverage`);
* `launches_cover` — whatever these kernels plan covers the output, with or without tuning.
-/

namespace NetPlan.Kernel

open Builtin

/-! ## Rounding up -/

section Rounding

variable {n d : Nat}

/-- Rounding up takes nothing away. -/
theorem le_roundUp : n ≤ roundUp n d := by
  have hd : 0 < Nat.max d 1 := Nat.le_max_right d 1
  have hlast : n + (Nat.max d 1 - 1) < roundUp n d + Nat.max d 1 := Nat.lt_div_mul_add hd
  omega

/-- So many whole parts are the number rounded up. -/
theorem ceilDiv_mul (h : 0 < d) : ceilDiv n d * d = roundUp n d := by
  rw [roundUp, show Nat.max d 1 = d from Nat.max_eq_left h]

/-- So many whole parts cover the number. -/
theorem le_ceilDiv_mul (h : 0 < d) : n ≤ ceilDiv n d * d := ceilDiv_mul h ▸ le_roundUp

/-- Nothing takes no parts. -/
theorem ceilDiv_zero : ceilDiv 0 d = 0 := by
  have hd : 0 < Nat.max d 1 := Nat.le_max_right d 1
  rw [ceilDiv, Nat.zero_add, Nat.div_eq_of_lt (Nat.sub_lt hd Nat.one_pos)]

/-- What divides takes no more than the number. -/
theorem ceilDiv_mul_of_dvd (h : 0 < d) (hdvd : d ∣ n) : ceilDiv n d * d = n := by
  obtain ⟨k, rfl⟩ := hdvd
  have hlast : (d - 1) / d = 0 := Nat.div_eq_of_lt (Nat.sub_lt h Nat.one_pos)
  rw [ceilDiv, show Nat.max d 1 = d from Nat.max_eq_left h, Nat.mul_add_div h, hlast, Nat.add_zero,
    Nat.mul_comm]

end Rounding

/-! ## Launches -/

/-- A launch is compiled with a number under a name. -/
def Launch.Holds (l : Launch) (name : String) (value : Nat) : Prop :=
  l.defines.get? name = some (toString value)

/-- A constant has one value. -/
theorem Launch.Holds.unique {l : Launch} {name : String} {m n : Nat} (hm : l.Holds name m)
    (hn : l.Holds name n) : m = n :=
  toDigits_inj (by simpa using congrArg String.toList (Option.some.inj (hm.symm.trans hn)))

/-- On every axis the group size is a positive divisor of the global size, which is not zero. -/
def WorkGroups.Whole (g : WorkGroups) : Prop :=
  ∀ sizes ∈ g.global.toList.zip g.group.toList, 0 < sizes.1 ∧ 0 < sizes.2 ∧ sizes.2 ∣ sizes.1

/-- Groups that partition their items are whole. -/
theorem WorkGroups.whole_of_partitions {g : WorkGroups} (h : g.partitions = true) : g.Whole := by
  intro sizes hsizes
  have hall := List.all_eq_true.mp h sizes hsizes
  simp only [Bool.and_eq_true, decide_eq_true_eq] at hall
  exact ⟨Nat.pos_of_ne_zero hall.1.1, Nat.pos_of_ne_zero hall.1.2, Nat.dvd_of_mod_eq_zero hall.2⟩

/-- A plan has one launch, which is partitioned and has a property. -/
def Plan.Launched (P : Launch → Prop) (plan : Plan) : Prop :=
  ∃ l, plan.launches = [l] ∧ l.groups.partitions = true ∧ P l

/-- The plans of an implementation have one launch, of whole groups, and it has a property. -/
def Implementation.Launches (i : Implementation) (P : Work → Launch → Prop) : Prop :=
  ∀ r o plan, i.Gives r o plan → ∃ l, plan.launches = [l] ∧ l.groups.Whole ∧ P r.work l

/-- The one launch of a plan is of whole groups. -/
theorem Plan.Launched.whole {P : Launch → Prop} {plan : Plan} (h : plan.Launched P) :
    ∃ l, plan.launches = [l] ∧ l.groups.Whole ∧ P l :=
  let ⟨l, hl, hwhole, hp⟩ := h
  ⟨l, hl, WorkGroups.whole_of_partitions hwhole, hp⟩

/-- An implementation without variants launches what its planner does. -/
theorem launches_fixed {name : String} {kind : Kind} {key : Key} {planner : Planner}
    {P : Work → Launch → Prop}
    (h : ∀ r o, Yields (fun plans => ∀ plan ∈ plans, plan.Launched (P r.work)) (planner r o)) :
    (Implementation.fixed name kind key planner).Launches P := fun r o plan hgives => by
  obtain ⟨plans, hplans, hmem⟩ := exists_of_gives_fixed hgives
  exact (h r o plans hplans plan hmem).whole

/-- Behind a check that has not refused. -/
theorem yields_unless {α : Type} {Q : α → Prop} {c : Prop} [Decidable c] {e : Refusal}
    {f : PUnit → Except Refusal α} (hf : ¬ c → Yields Q (f ⟨⟩)) :
    Yields Q (if c then (throw e : Except Refusal PUnit) >>= f else f ⟨⟩) := by
  split
  · exact yields_error _
  case isFalse h => exact hf h

section Launched

variable {kind : Kind} {name layer : String} {defines extra : Defines} {groups : WorkGroups}
  {arguments : List Argument} {cost : Single} {change : Option WeightsChange} {P : Launch → Prop}

/-- A launch is planned where its groups partition it, with its definitions and its groups. -/
theorem launched_singleLaunch (h : groups.partitions = true → ∀ l : Launch, l.defines = defines →
      l.groups = groups → P l) :
    Yields (Plan.Launched P) (singleLaunch kind name layer defines groups arguments cost) := by
  unfold singleLaunch
  split
  case isTrue hwhole => exact yields_pure ⟨_, rfl, hwhole, h hwhole _ rfl rfl⟩
  case isFalse => exact yields_error _

/-- A plan of one launch, seen from its constants and its groups. -/
theorem launched_plans (h : groups.partitions = true → ∀ l : Launch, l.defines = defines →
      l.groups = groups → P l) :
    Yields (fun plans => ∀ plan ∈ plans, plan.Launched P) (do
      let plan ← singleLaunch kind name layer defines groups arguments cost
      return [plan]) :=
  (launched_singleLaunch h).bind fun _ hplan => yields_pure (List.forall_mem_singleton.mpr hplan)

/-- A convolution, seen from its constants and its groups. -/
theorem launched_convolutionPlan {w : ConvolutionWork} (h : groups.partitions = true →
      ∀ l : Launch, l.defines = convolutionDefines w ++ extra → l.groups = groups → P l) :
    Yields (Plan.Launched P) (convolutionPlan w name layer extra groups cost change) :=
  (launched_singleLaunch h).bind fun _ hplan => yields_pure hplan

/-- So is a plan of that convolution alone. -/
theorem launched_convolutionPlans {w : ConvolutionWork} (h : groups.partitions = true →
      ∀ l : Launch, l.defines = convolutionDefines w ++ extra → l.groups = groups → P l) :
    Yields (fun plans => ∀ plan ∈ plans, plan.Launched P) (do
      let plan ← convolutionPlan w name layer extra groups cost change
      return [plan]) :=
  (launched_convolutionPlan h).bind fun _ hplan =>
    yields_pure (List.forall_mem_singleton.mpr hplan)

/-- A matrix product, seen from its constants and its groups. -/
theorem launched_fullyConnectedPlan {w : FullyConnectedWork} (h : groups.partitions = true →
      ∀ l : Launch, l.defines = fullyConnectedDefines w ++ extra → l.groups = groups → P l) :
    Yields (fun plans => ∀ plan ∈ plans, plan.Launched P)
      (fullyConnectedPlan w name layer extra groups cost change) :=
  (launched_singleLaunch h).bind fun _ hplan => yields_pure (List.forall_mem_singleton.mpr hplan)

end Launched

/-! ## How much is launched -/

/-- The tensor that the work writes; a weights reorder writes weights. -/
def Work.output? (work : Work) : Option DataTensor := work.operands?.map (·.output)

/-- The number of elements that the work writes. -/
def Work.written : Work → Nat
  | .weightsReorder _ target => target.count
  | work => match work.output? with
    | some output => output.count
    | none => 0

namespace Builtin

variable (work : Work) (l : Launch)

/-- A work item for each element of the output. -/
def PerElement : Prop := l.groups.global.volume = work.written

/-- A work item for each line of so many elements. -/
def PerLine : Prop := ∃ items, l.Holds "ITEMS_NUM" items ∧
  l.groups.global.volume * items = work.written

/-- A work item on the first axis for each vector of so many elements. -/
def PerVector : Prop := ∃ width, l.Holds "NUM_COLS_WI" width ∧
  l.groups.global.d0 * width = work.written

/-- A work item on the first axis for each element, and some more. -/
def PerElementAtLeast : Prop := ∃ count, l.Holds "ELEMENTS_COUNT" count ∧ count = work.written ∧
  count ≤ l.groups.global.d0

/-- A work item for each block of an output plane, and sixteen for as many features. -/
def InBlocks : Prop := ∃ output width height, work.output? = some output ∧
  l.Holds "OUTPUT_BLOCK_WIDTH" width ∧ l.Holds "OUTPUT_BLOCK_HEIGHT" height ∧
  output.size.x ≤ l.groups.global.d0 * width ∧ output.size.y ≤ l.groups.global.d1 * height ∧
  l.groups.global.d2 = roundUp output.size.feature 16 * output.size.batch

/-- A work item for each block of the matrix of features and positions. -/
def InProducts : Prop := ∃ output stepX stepY, work.output? = some output ∧
  l.Holds "DX" stepX ∧ l.Holds "DY" stepY ∧
  output.size.feature ≤ l.groups.global.d0 * stepX ∧
  output.size.x * output.size.y ≤ l.groups.global.d1 * stepY ∧
  l.groups.global.d2 = output.size.batch

/-- A sub-group for each tile of the planes of a tensor. -/
def Tiles (t : DataTensor) : Prop := ∃ subgroup width height, l.Holds "SUB_GROUP_SIZE" subgroup ∧
  l.Holds "TILE_WIDTH" width ∧ l.Holds "TILE_HEIGHT" height ∧
  t.size.x ≤ l.groups.global.d0 / subgroup * width ∧ t.size.y ≤ l.groups.global.d1 * height ∧
  l.groups.global.d2 = t.size.feature * t.size.batch

/-- The tiles are those of the output. -/
def InTiles : Prop := ∃ output, work.output? = some output ∧ Tiles l output

/-- A work item for each column of as many rows as a pooling window has. -/
def InColumns : Prop := ∃ output height, work.output? = some output ∧
  l.Holds "POOL_SIZE_Y" height ∧ l.groups.global.d0 = output.size.x ∧
  output.size.y ≤ l.groups.global.d1 * height ∧
  l.groups.global.d2 = output.size.feature * output.size.batch

/-- A sub-group of sixteen for each thirty-two features and as many batches. -/
def InChunks : Prop := ∃ output, work.output? = some output ∧
  output.size.feature ≤ l.groups.global.d0 / 16 * 32 ∧ l.groups.global.d1 * 32 = output.size.batch

/-- A work item on the first axis for each feature, and some more. -/
def PerFeatureAtLeast : Prop := ∃ output, work.output? = some output ∧
  output.size.feature ≤ l.groups.global.d0

/-- How the builtin kernels cover their output, where they take their size from it. -/
def coverage : List (Implementation × (Work → Launch → Prop)) :=
  [(convolutionRef, PerElement), (fusedRef, PerElement), (poolingRef, PerElement),
    (activationRef, PerElement), (eltwiseRef, PerElement), (batchNormRef, PerElement),
    (scaleRef, PerElement), (reorderRef, PerElement), (reorderWeights, PerElement),
    (fullyConnectedRef, PerElement), (softmaxRef, PerLine), (convolutionBlock, InBlocks),
    (convolutionGemm, InProducts), (poolingAverage, InTiles), (poolingBlock, InColumns),
    (fullyConnectedBlock, InChunks), (fullyConnectedSingle, PerFeatureAtLeast),
    (reorderFast, PerElementAtLeast), (activationOpt, PerVector)]

end Builtin

/-! ## What kernels launch -/

section Volumes

variable {output : DataTensor} {w : ConvolutionWork}

/-- A work item per element. -/
theorem volume_perElement : (perElement output).global.volume = output.count := by
  simp only [perElement, WorkGroups.optimal, Grid.volume, DataTensor.count, Shape.count]
  ring

/-- A work item per element, plane by plane. -/
theorem volume_perPlane : (perPlane output).global.volume = output.count := by
  simp only [perPlane, WorkGroups.optimal, Grid.volume, DataTensor.count, Shape.count]
  ring

/-- A work item per element of the result. -/
theorem volume_convolutionGroups :
    (convolutionGroups w).global.volume = w.operands.output.count := by
  simp only [convolutionGroups, Grid.volume, DataTensor.count, Shape.count]
  ring

end Volumes

section Definitions

variable {l : Launch} {name : String} {value : Nat} {ds es : Defines}

/-- What is defined last counts. -/
theorem Launch.Holds.last (hl : l.defines = ds ++ es) (h : es.get? name = some (toString value)) :
    l.Holds name value := by
  rw [Launch.Holds, hl, Defines.get?_append, h, Option.some_or]

/-- What is defined before counts if it is not defined again. -/
theorem Launch.Holds.first (hl : l.defines = ds ++ es) (hes : es.get? name = none)
    (h : ds.get? name = some (toString value)) : l.Holds name value := by
  rw [Launch.Holds, hl, Defines.get?_append, hes, Option.none_or, h]

end Definitions

/-- A work item for each element, whatever the launch is compiled with. -/
theorem launched_perElement {work : Work} {kind : Kind} {name layer : String} {defines : Defines}
    {groups : WorkGroups} {arguments : List Argument} {cost : Single}
    (hvolume : groups.global.volume = work.written) :
    Yields (fun plans => ∀ plan ∈ plans, plan.Launched (PerElement work)) (do
      let plan ← singleLaunch kind name layer defines groups arguments cost
      return [plan]) :=
  launched_plans fun _ l _ hgroups => by
    rw [PerElement, hgroups]
    exact hvolume

/-! ### Work without weights -/

theorem launches_activationRef : activationRef.Launches PerElement :=
  launches_fixed fun ⟨_, work⟩ _ => by
    cases work with
    | activation o => exact yields_bind fun _ => launched_perElement volume_perElement
    | _ => exact yields_error _

theorem launches_activationOpt : activationOpt.Launches PerVector :=
  launches_fixed fun ⟨_, work⟩ _ => by
    cases work with
    | activation o =>
      refine yields_bind fun _ => yields_unless fun hsplit => launched_plans fun _ l hl hgroups =>
        ⟨activationVector, .last hl rfl, ?_⟩
      rw [hgroups]
      exact ceilDiv_mul_of_dvd (by decide) (Nat.dvd_of_mod_eq_zero (not_not.mp hsplit))
    | _ => exact yields_error _

theorem launches_eltwiseRef : eltwiseRef.Launches PerElement := launches_fixed fun ⟨_, work⟩ _ => by
  cases work with
  | eltwise w => exact yields_bind fun _ => launched_perElement volume_perElement
  | _ => exact yields_error _

theorem launches_poolingRef : poolingRef.Launches PerElement := launches_fixed fun ⟨_, work⟩ _ => by
  cases work with
  | pooling w => exact yields_bind fun _ => launched_perElement volume_perElement
  | _ => exact yields_error _

theorem launches_poolingAverage : poolingAverage.Launches InTiles :=
  launches_fixed fun ⟨_, work⟩ _ => by
    cases work with
    | pooling w =>
      refine yields_bind fun _ => yields_guard fun _ => launched_plans fun _ l hl hgroups =>
        ⟨w.operands.output, rfl, poolingSubgroup, poolingSubgroup - 2, poolingTileHeight,
          .last hl rfl, .last hl rfl, .last hl rfl, ?_⟩
      rw [hgroups]
      refine ⟨?_, le_ceilDiv_mul (by decide), rfl⟩
      rw [Nat.mul_div_cancel _ (by decide)]
      exact le_ceilDiv_mul (by decide)
    | _ => exact yields_error _

theorem launches_poolingBlock : poolingBlock.Launches InColumns :=
  launches_fixed fun ⟨_, work⟩ _ => by
    cases work with
    | pooling w =>
      have hpositive : Yields (fun _ => 0 < w.window.y) (checkPooling w) := fun _ hcheck =>
        (checkPooling_eq_ok hcheck).2.2
      refine hpositive.bind fun _ hwindow => yields_guard fun _ =>
        launched_plans fun _ l hl hgroups => ⟨w.operands.output, w.window.y, rfl, ?_, ?_⟩
      · refine .first hl rfl ?_
        rw [poolingDefines, Defines.get?_append]
        rfl
      · rw [hgroups]
        exact ⟨rfl, le_ceilDiv_mul hwindow, rfl⟩
    | _ => exact yields_error _

/-- A reorder has as many elements in as out. -/
theorem count_of_checkReorder {w : ReorderWork} :
    Yields (fun input => input.count = w.operands.output.count) (checkReorder w) := by
  unfold checkReorder
  split
  case h_1 input _ =>
    split
    · exact yields_error _
    case isFalse hcount =>
      split
      · exact yields_error _
      · exact yields_pure (not_not.mp hcount)
  case h_2 => exact yields_error _

theorem launches_reorderRef : reorderRef.Launches PerElement := launches_fixed fun ⟨_, work⟩ _ => by
  cases work with
  | reorder w =>
    refine count_of_checkReorder.bind fun input hcount => launched_perElement ?_
    refine Eq.trans ?_ hcount
    simp only [WorkGroups.optimal, Grid.volume, DataTensor.count, Shape.count]
    ring
  | _ => exact yields_error _

theorem launches_reorderFast : reorderFast.Launches PerElementAtLeast :=
  launches_fixed fun ⟨_, work⟩ _ => by
    cases work with
    | reorder w =>
      refine yields_bind fun _ => launched_plans fun _ l hl hgroups =>
        ⟨w.operands.output.count, .last hl rfl, rfl, ?_⟩
      rw [hgroups]
      exact le_roundUp
    | _ => exact yields_error _

theorem launches_reorderWeights : reorderWeights.Launches PerElement :=
  launches_fixed fun ⟨_, work⟩ _ => by
    cases work with
    | weightsReorder source target =>
      refine yields_guard fun _ => launched_perElement ?_
      simp only [WorkGroups.optimal, Grid.volume, Work.written, WeightTensor.count]
      ring
    | _ => exact yields_error _

/-- So has a softmax. -/
theorem count_of_checkSoftmax {o : Operands} :
    Yields (fun input => input.count = o.output.count) (checkSoftmax o) := by
  unfold checkSoftmax
  split
  case h_1 input _ =>
    split
    · exact yields_error _
    case isFalse hcount =>
      split
      · exact yields_error _
      · exact yields_pure (not_not.mp hcount)
  case h_2 => exact yields_error _

/-- Lines of all lengths are of as many elements as the tensor has. -/
theorem volume_softmaxGrid (t : DataTensor) (axis : SoftmaxAxis) :
    (softmaxGrid t.size axis).global.volume * t.extent axis.toAxis = t.count := by
  obtain ⟨_, _, ⟨b, f, x, y⟩, _⟩ := t
  cases axis with
  | x =>
    change y * f * b * x = b * f * x * y
    ring
  | y =>
    change x * f * b * y = b * f * x * y
    ring
  | feature =>
    change x * y * b * f = b * f * x * y
    ring

theorem launches_softmaxRef : softmaxRef.Launches PerLine := launches_fixed fun ⟨_, work⟩ _ => by
  cases work with
  | softmax o axis =>
    refine count_of_checkSoftmax.bind fun input hcount => launched_plans fun _ l hl hgroups =>
      ⟨input.extent axis.toAxis, .last hl rfl, ?_⟩
    rw [hgroups, volume_softmaxGrid]
    exact hcount
  | _ => exact yields_error _

theorem launches_batchNormRef : batchNormRef.Launches PerElement :=
  launches_fixed fun ⟨layer, work⟩ _ => by
    cases work with
    | batchNorm o epsilon =>
      unfold planBatchNorm
      dsimp only
      split
      · exact yields_bind fun _ => yields_guard fun _ => launched_perElement volume_perPlane
      · exact yields_error _
    | _ => exact yields_error _

theorem launches_scaleRef : scaleRef.Launches PerElement := launches_fixed fun ⟨layer, work⟩ _ => by
  cases work with
  | scale o =>
    unfold planScale
    dsimp only
    split
    · exact yields_error _
    · exact yields_guard fun _ => yields_bind fun _ => launched_perElement volume_perPlane
  | _ => exact yields_error _

/-! ### Work with weights -/

theorem launches_convolutionRef : convolutionRef.Launches PerElement :=
  launches_fixed fun ⟨_, work⟩ _ => by
    cases work with
    | convolution w =>
      refine yields_bind fun _ => yields_bind fun _ =>
        launched_convolutionPlans fun _ l _ hgroups => ?_
      rw [PerElement, hgroups]
      exact volume_convolutionGroups
    | _ => exact yields_error _

/-- Steps of a product are positive. -/
theorem gemmStyle_pos (element : Element) : 0 < (GemmStyle.of element).stepX ∧
    0 < (GemmStyle.of element).stepY := by
  unfold GemmStyle.of
  split <;> decide

theorem launches_convolutionGemm : convolutionGemm.Launches InProducts :=
  launches_fixed fun ⟨_, work⟩ _ => by
    cases work with
    | convolution w =>
      refine yields_bind fun input => yields_bind fun _ => yields_bind fun _ =>
        launched_convolutionPlans fun _ l hl hgroups =>
          ⟨w.operands.output, (GemmStyle.of input.element).stepX, (GemmStyle.of input.element).stepY,
            rfl, .last hl rfl, .last hl rfl, ?_⟩
      obtain ⟨hstepX, hstepY⟩ := gemmStyle_pos input.element
      rw [hgroups]
      exact ⟨le_roundUp.trans (le_ceilDiv_mul hstepX),
        (le_roundUp.trans (le_ceilDiv_mul hstepY)).trans (Nat.mul_le_mul_right _ le_roundUp), rfl⟩
    | _ => exact yields_error _

theorem launches_fusedRef : fusedRef.Launches PerElement := launches_fixed fun ⟨layer, work⟩ _ => by
  cases work with
  | fusedConvBnScale w epsilon =>
    unfold planFused
    dsimp only
    split
    · refine yields_guard fun _ => yields_bind fun _ => yields_bind fun _ => yields_bind fun _ => ?_
      refine (launched_singleLaunch fun _ l _ hgroups => ?_).bind fun _ hplan =>
        yields_pure (List.forall_mem_singleton.mpr hplan)
      rw [PerElement, hgroups]
      exact volume_convolutionGroups
    · exact yields_error _
  | _ => exact yields_error _

theorem launches_fullyConnectedRef : fullyConnectedRef.Launches PerElement :=
  launches_fixed fun ⟨_, work⟩ _ => by
    cases work with
    | fullyConnected w =>
      refine yields_bind fun _ => yields_bind fun _ =>
        launched_fullyConnectedPlan fun _ l _ hgroups => ?_
      rw [PerElement, hgroups, Grid.volume, Nat.mul_one, Nat.mul_one]
      rfl
    | _ => exact yields_error _

theorem launches_fullyConnectedBlock : fullyConnectedBlock.Launches InChunks :=
  launches_fixed fun ⟨_, work⟩ _ => by
    cases work with
    | fullyConnected w =>
      refine yields_bind fun _ => yields_guard fun _ => yields_unless fun hsplit =>
        yields_bind fun _ => launched_fullyConnectedPlan fun _ l _ hgroups =>
          ⟨w.operands.output, rfl, ?_⟩
      have hread : w.operands.output.size.batch % blockRead = 0 := by
        simp only [Bool.not_eq_true', Bool.not_eq_false, Bool.and_eq_true, decide_eq_true_eq] at hsplit
        exact hsplit.1.1.1.2
      rw [hgroups]
      refine ⟨?_, Nat.div_mul_cancel (Nat.dvd_of_mod_eq_zero hread)⟩
      change _ ≤ ceilDiv _ blockRead * blockSubgroup / blockSubgroup * blockRead
      rw [Nat.mul_div_cancel _ (by decide)]
      exact le_ceilDiv_mul (by decide)
    | _ => exact yields_error _

theorem launches_fullyConnectedSingle : fullyConnectedSingle.Launches PerFeatureAtLeast :=
  launches_fixed fun ⟨_, work⟩ _ => by
    cases work with
    | fullyConnected w =>
      refine yields_bind fun _ => yields_bind fun _ =>
        launched_fullyConnectedPlan fun _ l _ hgroups => ⟨w.operands.output, rfl, ?_⟩
      rw [hgroups]
      exact le_ceilDiv_mul (by decide)
    | _ => exact yields_error _

/-! ### Blocks -/

/-- No listed block is empty. -/
theorem convolutionBlocks_pos : ∀ block ∈ convolutionBlocks, 0 < block.width ∧ 0 < block.height := by
  decide +kernel

/-- Windows of more than one element are taken at every position, they are shorter than a sub-group, and
the rows of the output are empty. -/
structure Builtin.Vanishing (w : ConvolutionWork) : Prop where
  dense : w.stride = ⟨1, 1⟩
  wide : w.window ≠ ⟨1, 1⟩
  empty : w.operands.output.size.x = 0
  short : (w.window.x - 1) * w.dilation.x < convolutionSubgroup

/-- **The default block is as wide as a short row**, so it has no columns if the row has none. -/
theorem defaultBlock_width_eq_zero_iff {w : ConvolutionWork} :
    (defaultBlock w).width = 0 ↔ Vanishing w := by
  constructor
  · intro h
    unfold defaultBlock at h
    dsimp only at h
    split at h
    case isTrue hdense =>
      split at h
      · exact absurd h (by decide)
      case isFalse hwide =>
      split at h
      case isTrue hshort =>
        rw [show w.operands.output.size.x = 0 from h, Nat.zero_add] at hshort
        exact ⟨hdense, hwide, h, hshort⟩
      split at h
      · exact absurd h (Nat.succ_ne_zero _)
      · exact absurd h (by decide)
    split at h
    · exact absurd h (by decide)
    · exact absurd h (by decide)
  · intro h
    have hshort : w.operands.output.size.x + (w.window.x - 1) * w.dilation.x
        < convolutionSubgroup := by
      rw [h.empty, Nat.zero_add]
      exact h.short
    rw [defaultBlock, if_pos h.dense, if_neg h.wide, if_pos hshort]
    exact h.empty

/-- The default block has rows. -/
theorem defaultBlock_height_pos {w : ConvolutionWork} : 0 < (defaultBlock w).height := by
  unfold defaultBlock
  dsimp only
  repeat' split
  all_goals exact Nat.succ_pos _

/-- A block without columns is a default one for empty rows, and none of those is launched. -/
theorem block_pos {w : ConvolutionWork} {block : Block} {d1 d2 : Nat} {group : Grid}
    (hblock : block = defaultBlock w ∨ block ∈ convolutionBlocks)
    (hwhole : (⟨⟨ceilDiv w.operands.output.size.x block.width, d1, d2⟩, group⟩ : WorkGroups).Whole) :
    0 < block.width ∧ 0 < block.height := by
  obtain rfl | hblock := hblock
  · refine ⟨Nat.pos_of_ne_zero fun hwidth => ?_, defaultBlock_height_pos⟩
    have hd0 := (hwhole _ List.mem_cons_self).1
    rw [(defaultBlock_width_eq_zero_iff.mp hwidth).empty, ceilDiv_zero] at hd0
    exact absurd hd0 (Nat.lt_irrefl 0)
  · exact convolutionBlocks_pos block hblock

/-- The items of a block cover the result, with columns to spare. -/
theorem launched_planBlock {w : ConvolutionWork} {input : DataTensor} {layer : String} {o : Options}
    {block : Block} (hblock : block = defaultBlock w ∨ block ∈ convolutionBlocks) :
    Yields (Plan.Launched (InBlocks (.convolution w))) (planBlock w input layer o block) := by
  refine yields_bind fun _ => yields_bind fun _ => yields_bind fun _ =>
    launched_convolutionPlan fun hwhole l hl hgroups => ?_
  obtain ⟨hwidth, hheight⟩ := block_pos hblock (WorkGroups.whole_of_partitions hwhole)
  rw [← List.append_assoc] at hl
  refine ⟨w.operands.output, block.width, block.height, rfl, ?_, ?_, ?_⟩
  · refine .first hl (by split <;> rfl) ?_
    rw [Defines.get?_append]
    rfl
  · refine .first hl (by split <;> rfl) ?_
    rw [Defines.get?_append]
    rfl
  · rw [hgroups]
    exact ⟨le_ceilDiv_mul hwidth, le_ceilDiv_mul hheight, rfl⟩

theorem launches_convolutionBlock : convolutionBlock.Launches InBlocks := fun r o plan hgives => by
  obtain ⟨⟨w, input⟩, block, given, hcheck, hblock, hgiven, hplan⟩ :=
    tunes_convolutionBlock.planned hgives
  obtain ⟨hwork, -⟩ := inputs_of_checkBlock _ hcheck
  obtain ⟨l, hl, hwhole, hcovers⟩ := (launched_planBlock hblock _ hgiven).whole
  exact ⟨l, (congrArg Plan.launches hplan).trans hl, hwhole, hwork ▸ hcovers⟩

/-! ## All of them -/

/-- **What is launched covers the output.**  For all requests and options, with or without tuning: a
plan has one launch, its groups partition it, and it has the work items that its kernel needs to compute
every element of the output. -/
theorem launches_cover {i : Implementation} {P : Work → Launch → Prop} (h : (i, P) ∈ coverage)
    {r : Request} {o : Options} {plan : Plan} (hgives : i.Gives r o plan) :
    ∃ l, plan.launches = [l] ∧ l.groups.Whole ∧ P r.work l := by
  have hall : ∀ entry ∈ coverage, entry.1.Launches entry.2 := by
    simp only [coverage, List.forall_mem_cons, List.not_mem_nil, false_imp_iff, implies_true, and_true]
    exact ⟨launches_convolutionRef, launches_fusedRef, launches_poolingRef, launches_activationRef,
      launches_eltwiseRef, launches_batchNormRef, launches_scaleRef, launches_reorderRef,
      launches_reorderWeights, launches_fullyConnectedRef, launches_softmaxRef,
      launches_convolutionBlock, launches_convolutionGemm, launches_poolingAverage,
      launches_poolingBlock, launches_fullyConnectedBlock, launches_fullyConnectedSingle,
      launches_reorderFast, launches_activationOpt⟩
  exact hall (i, P) h r o plan hgives

/-- Three-by-three windows over planes of 21 by 7, for twenty features. -/
def oddConvolution : Request :=
  ⟨"odd", .convolution
    { operands :=
        ⟨.none, [⟨.f32, .bfyx, ⟨1, 3, 21, 7⟩, .none⟩], ⟨.f32, .bfyx, ⟨1, 20, 19, 5⟩, .none⟩⟩
      filter := ⟨⟨.f32, .osIyxOsv16, 20, 3, 3, 3⟩, []⟩
      window := ⟨3, 3⟩
      stride := ⟨1, 1⟩
      dilation := ⟨1, 1⟩
      padding := ⟨0, 0⟩
      split := 1 }⟩

/-- Blocks of fourteen by two: two columns of them cover nineteen positions, three rows five, and
twenty features take as many work items as thirty-two. -/
theorem launches_cover_oddConvolution : ∃ plan, convolutionBlock.Gives oddConvolution .default plan ∧
    (∃ l, plan.launches = [l] ∧ l.groups.Whole ∧ InBlocks oddConvolution.work l) ∧
    plan.launches.map (·.groups.global) = [⟨2, 3, 32⟩] := by
  obtain ⟨plan, hplan, hglobal⟩ : ∃ plan, convolutionBlock.plan oddConvolution .default = .ok [plan] ∧
      plan.launches.map (·.groups.global) = [⟨2, 3, 32⟩] := ⟨_, rfl, rfl⟩
  have hgives : convolutionBlock.Gives oddConvolution .default plan :=
    ⟨[plan], List.mem_singleton_self plan, Or.inl hplan⟩
  exact ⟨plan, hgives, launches_cover (List.mem_of_getElem? (i := 11) rfl) hgives, hglobal⟩

end NetPlan.Kernel

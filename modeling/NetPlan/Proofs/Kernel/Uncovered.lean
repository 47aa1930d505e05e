import NetPlan.Proofs.Kernel.Launches

/-!
# Proofs/Kernel/Uncovered — launches that can fall short of their output

Two convolutions do not take the size of their launch from the extent of their output.  The depthwise
one launches a sub-group for each tile of its input, and the checks do not tie the output to that: it
can have more features, and more rows and columns where the input is padded for them.  The
batch-innermost one shares out features and batch; in single precision it asks their product to divide,
not each of them.

* `depthwise_covers_iff` — the tiles cover the output just if there are as many planes of them and it
  does not go on where the last of them ends;
* `convolutionBatch_covers_iff` — the shares make up the output in half precision, and else just if
  features and batch both divide.
-/

namespace NetPlan.Kernel

open Builtin

/-! ## What convolutions are checked for -/

/-- A checked convolution: its features match its weights, group by group. -/
structure Builtin.Matched (w : ConvolutionWork) (input : DataTensor) : Prop where
  inputs : w.operands.inputs = [input]
  split : 0 < w.split
  dilation : 0 < w.dilation.x ∧ 0 < w.dilation.y
  window : 0 < w.window.x ∧ 0 < w.window.y
  stride : 0 < w.stride.x ∧ 0 < w.stride.y
  consumed : input.size.feature = w.filter.weights.inputs * w.split
  produced : w.operands.output.size.feature = w.filter.weights.outputs * w.split

theorem pos_of_hasZero {p : Planar} (h : ¬ p.hasZero = true) : 0 < p.x ∧ 0 < p.y := by
  simp only [Planar.hasZero, Bool.or_eq_true, beq_iff_eq, not_or] at h
  exact ⟨Nat.pos_of_ne_zero h.1, Nat.pos_of_ne_zero h.2⟩

theorem matched_of_checkConvolution {w : ConvolutionWork} :
    Yields (Matched w) (checkConvolution w) := by
  unfold checkConvolution
  split
  case h_1 input hinputs =>
    dsimp only
    split
    · exact yields_error _
    case isFalse hsplit =>
    split
    · exact yields_error _
    case isFalse hstride =>
    split
    · exact yields_error _
    case isFalse hdilation =>
    split
    · exact yields_error _
    case isFalse hwindow =>
    split
    · exact yields_error _
    case isFalse hconsumed =>
    split
    · exact yields_error _
    case isFalse hproduced =>
    exact yields_pure
      { inputs := hinputs
        split := Nat.pos_of_ne_zero hsplit
        dilation := pos_of_hasZero hdilation
        window := pos_of_hasZero hwindow
        stride := pos_of_hasZero hstride
        consumed := not_not.mp hconsumed
        produced := not_not.mp hproduced }
  case h_2 => exact yields_error _

theorem edges_of_checkPaddedInput {w : ConvolutionWork} {input : DataTensor} :
    Yields (fun _ => (edgesOf input .x).covers (requiredEdgesX w input) = true ∧
      (edgesOf input .y).covers (requiredEdgesY w input) = true) (checkPaddedInput w input) := by
  unfold checkPaddedInput
  dsimp only
  split
  case isTrue h => exact yields_pure (Bool.and_eq_true_iff.mp h)
  case isFalse => exact yields_error _

/-! ## Tiles of the input -/

/-- A checked depthwise convolution of three-by-three windows, with one feature in for each group. -/
structure Builtin.Depthwise (w : ConvolutionWork) (input : DataTensor) : Prop
    extends Matched w input where
  three : w.window = ⟨3, 3⟩
  dense : w.stride = ⟨1, 1⟩
  border : w.padding = ⟨1, 1⟩
  single : input.size.feature = w.split
  paddedX : (edgesOf input .x).covers (requiredEdgesX w input) = true
  paddedY : (edgesOf input .y).covers (requiredEdgesY w input) = true

theorem depthwise_of_checkDepthwise {r : Request} :
    Yields (fun a => r.work = .convolution a.1 ∧ Depthwise a.1 a.2) (checkDepthwise r) := by
  obtain ⟨layer, work⟩ := r
  cases work with
  | convolution w =>
    refine matched_of_checkConvolution.bind fun input hmatched =>
      edges_of_checkPaddedInput.bind fun _ ⟨hx, hy⟩ => yields_unless fun hshape => ?_
    simp only [not_or, not_not] at hshape
    obtain ⟨hthree, hdense, hborder, hsingle, -⟩ := hshape
    exact yields_pure ⟨rfl, hmatched, hthree, hdense, hborder, hsingle, hx, hy⟩
  | _ => exact yields_error _

/-- Windows of three with a border of one end where the padding behind the input does. -/
theorem lt_of_requiredEdges {input output dilation : Nat} {given : Edges} (hdilation : 0 < dilation)
    (h : given.covers (requiredEdges input output 1 3 dilation 1) = true) :
    output < input + given.after := by
  rw [Edges.covers, requiredEdges, Bool.and_eq_true, decide_eq_true_eq, decide_eq_true_eq] at h
  dsimp only at h
  omega

namespace Builtin.Depthwise

variable {w : ConvolutionWork} {input : DataTensor}

/-- The output ends before the padding behind the input does. -/
theorem extent_lt (h : Depthwise w input) :
    w.operands.output.size.x < input.size.x + input.padding.upper.x ∧
      w.operands.output.size.y < input.size.y + input.padding.upper.y := by
  have hx := h.paddedX
  have hy := h.paddedY
  rw [requiredEdgesX, h.three, h.dense, h.border] at hx
  rw [requiredEdgesY, h.three, h.dense, h.border] at hy
  exact ⟨lt_of_requiredEdges h.dilation.1 hx, lt_of_requiredEdges h.dilation.2 hy⟩

/-- There are as many planes out as in just if the further features of a group are made up for by fewer
batches. -/
theorem planes_iff (h : Depthwise w input) :
    input.size.feature * input.size.batch
        = w.operands.output.size.feature * w.operands.output.size.batch ↔
      input.size.batch = w.filter.weights.outputs * w.operands.output.size.batch := by
  rw [h.single, h.produced, Nat.mul_comm w.filter.weights.outputs, Nat.mul_assoc]
  exact Nat.mul_right_inj h.split.ne'

end Builtin.Depthwise

/-- The tiles of a launch are determined by its definitions. -/
theorem tiles_iff {l : Launch} {t : DataTensor} {subgroup width height : Nat}
    (hsubgroup : l.Holds "SUB_GROUP_SIZE" subgroup) (hwidth : l.Holds "TILE_WIDTH" width)
    (hheight : l.Holds "TILE_HEIGHT" height) : Tiles l t ↔
      t.size.x ≤ l.groups.global.d0 / subgroup * width ∧ t.size.y ≤ l.groups.global.d1 * height ∧
        l.groups.global.d2 = t.size.feature * t.size.batch := by
  refine ⟨fun ⟨_, _, _, hs, hw, hh, hcovers⟩ => ?_,
    fun hcovers => ⟨_, _, _, hsubgroup, hwidth, hheight, hcovers⟩⟩
  obtain rfl := hs.unique hsubgroup
  obtain rfl := hw.unique hwidth
  obtain rfl := hh.unique hheight
  exact hcovers

theorem depthwiseTiles_pos : ∀ tile ∈ depthwiseTiles, 0 < tile.x ∧ 0 < tile.y := by decide +kernel

/-- A launch is compiled for tiles of a size, and they are those of a tensor. -/
structure Launch.TilesOf (l : Launch) (tile : Planar) (input : DataTensor) : Prop where
  width : l.Holds "TILE_WIDTH" tile.x
  height : l.Holds "TILE_HEIGHT" tile.y
  covers : ∀ t, Tiles l t ↔ t.size.x ≤ roundUp input.size.x tile.x ∧
    t.size.y ≤ roundUp input.size.y tile.y ∧
    input.size.feature * input.size.batch = t.size.feature * t.size.batch

theorem launched_planTile {w : ConvolutionWork} {input : DataTensor} {layer : String} {o : Options}
    {tile : Planar} (hx : 0 < tile.x) (hy : 0 < tile.y) :
    Yields (Plan.Launched fun l => l.TilesOf tile input) (planTile w input layer o tile) := by
  refine yields_bind fun _ => launched_convolutionPlan fun _ l hl hgroups => ?_
  have hsubgroup : l.Holds "SUB_GROUP_SIZE" depthwiseSubgroup := .last hl rfl
  have hwidth : l.Holds "TILE_WIDTH" tile.x := .last hl rfl
  have hheight : l.Holds "TILE_HEIGHT" tile.y := .last hl rfl
  refine ⟨hwidth, hheight, fun t => ?_⟩
  rw [tiles_iff hsubgroup hwidth hheight, hgroups, ← ceilDiv_mul hx, ← ceilDiv_mul hy]
  dsimp only
  rw [Nat.mul_div_cancel _ (by decide)]

/-- **The depthwise kernel covers what lies in the tiles of its input.**  Whatever it plans, with or
without tuning, the tiles are those of the input.  They cover the output just if it does not go on behind
the last of them and has as many planes.  Neither is checked: a group may have several features out, and
a plane of the output only has to end before the padding of the input does. -/
theorem depthwise_covers_iff {r : Request} {o : Options} {plan : Plan}
    (hgives : depthwise.Gives r o plan) : ∃ w input, ∃ tile : Planar, ∃ l, r.work = .convolution w ∧
      w.operands.inputs = [input] ∧ plan.launches = [l] ∧ l.groups.Whole ∧
      l.Holds "TILE_WIDTH" tile.x ∧ l.Holds "TILE_HEIGHT" tile.y ∧ Tiles l input ∧
      (Tiles l w.operands.output ↔ w.operands.output.size.x ≤ roundUp input.size.x tile.x ∧
        w.operands.output.size.y ≤ roundUp input.size.y tile.y ∧
        input.size.batch = w.filter.weights.outputs * w.operands.output.size.batch) ∧
      w.operands.output.size.x < input.size.x + input.padding.upper.x ∧
      w.operands.output.size.y < input.size.y + input.padding.upper.y := by
  obtain ⟨⟨w, input⟩, tile, given, hcheck, htile, hgiven, hplan⟩ := tunes_depthwise.planned hgives
  obtain ⟨hwork, hdepthwise⟩ := depthwise_of_checkDepthwise _ hcheck
  have hpos : 0 < tile.x ∧ 0 < tile.y := by
    obtain rfl | htile := htile
    · decide
    · exact depthwiseTiles_pos tile htile
  obtain ⟨l, hl, hwhole, htiles⟩ := (launched_planTile hpos.1 hpos.2 _ hgiven).whole
  refine ⟨w, input, tile, l, hwork, hdepthwise.inputs, (congrArg Plan.launches hplan).trans hl, hwhole,
    htiles.width, htiles.height, ?_, ?_, hdepthwise.extent_lt⟩
  · exact (htiles.covers input).mpr ⟨le_roundUp, le_roundUp, rfl⟩
  · rw [htiles.covers, hdepthwise.planes_iff]

/-- Two groups with one feature in and some out, over planes of four by four. -/
def groupsOfTwo (outputs : Nat) : Request :=
  ⟨"two", .convolution
    { operands :=
        ⟨.none, [⟨.f32, .bfyx, ⟨1, 2, 4, 4⟩, .spatial 1 1 1 1⟩],
          ⟨.f32, .bfyx, ⟨1, outputs * 2, 4, 4⟩, .none⟩⟩
      filter := ⟨⟨.f32, .oiyx, outputs, 1, 3, 3⟩, []⟩
      window := ⟨3, 3⟩
      stride := ⟨1, 1⟩
      dilation := ⟨1, 1⟩
      padding := ⟨1, 1⟩
      split := 2 }⟩

/-- With one feature out for each group the tiles cover the output. -/
theorem depthwise_covers_iff_one : ∃ plan l output, depthwise.Gives (groupsOfTwo 1) .default plan ∧
    plan.launches = [l] ∧ (groupsOfTwo 1).work.output? = some output ∧ Tiles l output := by
  obtain ⟨plan, hplan⟩ : ∃ plan, depthwise.plan (groupsOfTwo 1) .default = .ok [plan] := ⟨_, rfl⟩
  have hgives : depthwise.Gives (groupsOfTwo 1) .default plan :=
    ⟨[plan], List.mem_singleton_self plan, Or.inl hplan⟩
  obtain ⟨w, input, tile, l, hwork, hinputs, hl, -, -, -, -, hcovers, -⟩ :=
    depthwise_covers_iff hgives
  cases hwork
  cases hinputs
  exact ⟨plan, l, _, hgives, hl, rfl, hcovers.mpr ⟨le_roundUp, le_roundUp, rfl⟩⟩

/-- **With two, half of the planes are not computed.** -/
theorem depthwise_uncovered : ∃ plan l output, depthwise.Gives (groupsOfTwo 2) .default plan ∧
    plan.launches = [l] ∧ (groupsOfTwo 2).work.output? = some output ∧ ¬ Tiles l output := by
  refine ⟨_, _, _, ⟨_, List.mem_singleton_self _, Or.inl rfl⟩, rfl, rfl, fun htiles => ?_⟩
  obtain ⟨_, _, _, -, -, -, -, -, hplanes⟩ := htiles
  exact absurd hplanes (by decide)

/-! ## Shares of features and batches -/

/-- A work item for each share of some features and batches; a row of work items has all batches. -/
def Builtin.InShares (w : ConvolutionWork) (l : Launch) : Prop := ∃ features batches items,
  l.Holds "OFM_PER_WORK_ITEM" features ∧ l.Holds "BATCHES_PER_WORK_ITEM" batches ∧
  l.Holds "WORK_ITEMS_PER_SINGLE_BATCHES_ELEMENTS" items ∧
  items * batches = w.operands.output.size.batch ∧
  l.groups.global.d0 * batches * features
    = w.filter.weights.outputs * w.operands.output.size.batch ∧
  items ∣ l.groups.global.d0

/-- **Rounded down, shares make up all just if features and batches both divide**, where their product
does. -/
theorem shares_iff {features batches outputs batch : Nat} (hbatches : 0 < batches)
    (hbatch : 0 < batch) (hdvd : features * batches ∣ outputs * batch) :
    (batch / batches * batches = batch ∧
      batch / batches ∣ outputs * batch / (features * batches)) ↔
      batches ∣ batch ∧ features ∣ outputs := by
  rw [Nat.dvd_iff_div_mul_eq batch batches]
  refine and_congr_right fun hdivides => ?_
  -- with `m` shares of the batches the features have to divide `outputs * m`
  obtain ⟨m, hm⟩ : ∃ m, batch = m * batches := ⟨batch / batches, hdivides.symm⟩
  subst hm
  rw [← Nat.mul_assoc] at hdvd ⊢
  rw [Nat.mul_div_cancel _ hbatches, Nat.mul_div_mul_right _ _ hbatches]
  have hm : 0 < m := Nat.pos_of_mul_pos_right hbatch
  have hproduct : features ∣ outputs * m := Nat.dvd_of_mul_dvd_mul_right hbatches hdvd
  rw [Nat.dvd_div_iff_mul_dvd hproduct]
  exact Nat.mul_dvd_mul_iff_right hm

/-- What is known of a share: the features and batches of a work item divide what there is as a
product, and in half precision each for itself. -/
structure Builtin.Shares (element : Element) (outputs batch : Nat) (style : BatchStyle) : Prop where
  batches : 0 < style.batches
  total : style.features * style.batches ∣ outputs * batch
  half : element = .f16 → style.batches ∣ batch ∧ style.features ∣ outputs
  single : element ≠ .f16 → style.batches = 2 ∧ style.features = 8

theorem shares_of_batchStyle {element : Element} {outputs batch : Nat} :
    Yields (Shares element outputs batch) (BatchStyle.of? element outputs batch) := by
  unfold BatchStyle.of?
  split
  case isTrue helement =>
    split
    · exact yields_error _
    case isFalse hsplit =>
      obtain ⟨houtputs, hbatch⟩ := not_or.mp hsplit
      have houtputs : 16 ∣ outputs := Nat.dvd_of_mod_eq_zero (not_not.mp houtputs)
      have hbatch : 16 ∣ batch := Nat.dvd_of_mod_eq_zero (not_not.mp hbatch)
      suffices hshare : ∀ batches, 0 < batches → 16 * batches ∣ batch →
          Shares element outputs batch ⟨16, batches, Cost.ranked 7⟩ by
        refine yields_pure (hshare _ ?_ ?_)
        · split
          · decide
          split <;> decide
        · split
          case isTrue h => exact Nat.dvd_of_mod_eq_zero h
          split
          case isTrue h => exact Nat.dvd_of_mod_eq_zero h
          exact hbatch
      intro batches hpos hshare
      exact
        { batches := hpos
          total := hshare.mul_left outputs
          half := fun _ => ⟨(Nat.dvd_mul_left batches 16).trans hshare, houtputs⟩
          single := fun h => absurd helement h }
  case isFalse helement =>
    split
    · exact yields_error _
    case isFalse hsplit =>
      obtain ⟨htotal, -⟩ := not_or.mp hsplit
      exact yields_pure
        { batches := by decide
          total := Nat.dvd_of_mod_eq_zero (not_not.mp htotal)
          half := fun h => absurd h helement
          single := fun _ => ⟨rfl, rfl⟩ }

/-- A launch for shares of a style. -/
structure Launch.SharesOf (l : Launch) (w : ConvolutionWork) (style : BatchStyle) : Prop where
  features : l.Holds "OFM_PER_WORK_ITEM" style.features
  batches : l.Holds "BATCHES_PER_WORK_ITEM" style.batches
  items : l.Holds "WORK_ITEMS_PER_SINGLE_BATCHES_ELEMENTS"
    (w.operands.output.size.batch / style.batches)
  launched : l.groups.global.d0 = w.filter.weights.outputs * w.operands.output.size.batch
    / (style.features * style.batches)

theorem launches_convolutionBatch : convolutionBatch.Launches fun work l => ∃ w input style,
    work = .convolution w ∧ w.operands.inputs = [input] ∧ 0 < w.operands.output.size.batch ∧
      Shares input.element w.filter.weights.outputs w.operands.output.size.batch style ∧
      l.SharesOf w style :=
  launches_fixed fun ⟨_, work⟩ _ => by
    cases work with
    | convolution w =>
      refine matched_of_checkConvolution.bind fun input hmatched => yields_unless fun hsome =>
        shares_of_batchStyle.bind fun style hshares => yields_bind fun _ =>
          launched_convolutionPlans fun _ l hl hgroups =>
            ⟨w, input, style, rfl, hmatched.inputs, ?_, hshares, .last hl rfl, .last hl rfl,
              .last hl rfl, ?_⟩
      · exact Nat.pos_of_ne_zero (not_or.mp (not_or.mp hsome).2).1
      · rw [hgroups]
    | _ => exact yields_error _

namespace Launch.SharesOf

variable {l : Launch} {w : ConvolutionWork} {style : BatchStyle} {element : Element}

theorem total (h : l.SharesOf w style)
    (hshares : Shares element w.filter.weights.outputs w.operands.output.size.batch style) :
    l.groups.global.d0 * style.batches * style.features
      = w.filter.weights.outputs * w.operands.output.size.batch := by
  rw [h.launched, Nat.mul_assoc, Nat.mul_comm style.batches]
  exact Nat.div_mul_cancel hshares.total

theorem inShares_iff (h : l.SharesOf w style) (hbatch : 0 < w.operands.output.size.batch)
    (hshares : Shares element w.filter.weights.outputs w.operands.output.size.batch style) :
    InShares w l ↔ style.batches ∣ w.operands.output.size.batch ∧
      style.features ∣ w.filter.weights.outputs := by
  rw [← shares_iff hshares.batches hbatch hshares.total, ← h.launched]
  constructor
  · rintro ⟨features, batches, items, hfeatures, hbatches, hitems, hall, -, hrows⟩
    obtain rfl := hbatches.unique h.batches
    obtain rfl := hitems.unique h.items
    exact ⟨hall, hrows⟩
  · rintro ⟨hall, hrows⟩
    exact ⟨_, _, _, h.features, h.batches, h.items, hall, h.total hshares, hrows⟩

end Launch.SharesOf

/-- **The batch-innermost kernel covers all batches and features where both divide.**  Its work items
amount to all features of all batches.  Their shares make up all batches, and all features of each, in
half precision; in single precision, where only the product was checked, just if the batch is even and
the features come in eights. -/
theorem convolutionBatch_covers_iff {r : Request} {o : Options} {plan : Plan}
    (hgives : convolutionBatch.Gives r o plan) : ∃ w input l, r.work = .convolution w ∧
      w.operands.inputs = [input] ∧ plan.launches = [l] ∧ l.groups.Whole ∧
      (∃ features batches, l.Holds "OFM_PER_WORK_ITEM" features ∧
        l.Holds "BATCHES_PER_WORK_ITEM" batches ∧ l.groups.global.d0 * batches * features
          = w.filter.weights.outputs * w.operands.output.size.batch) ∧
      (InShares w l ↔ input.element = .f16 ∨
        2 ∣ w.operands.output.size.batch ∧ 8 ∣ w.filter.weights.outputs) := by
  obtain ⟨l, hl, hwhole, w, input, style, hwork, hinputs, hbatch, hshares, hlaunch⟩ :=
    launches_convolutionBatch r o plan hgives
  refine ⟨w, input, l, hwork, hinputs, hl, hwhole,
    ⟨_, _, hlaunch.features, hlaunch.batches, hlaunch.total hshares⟩, ?_⟩
  rw [hlaunch.inShares_iff hbatch hshares]
  by_cases helement : input.element = .f16
  · exact iff_of_true (hshares.half helement) (Or.inl helement)
  · obtain ⟨hbatches, hfeatures⟩ := hshares.single helement
    rw [hbatches, hfeatures, or_iff_right helement]

/-- Batches of single elements, with weights for some features. -/
def batchesOf (batch outputs : Nat) : Request :=
  ⟨"batches", .convolution
    { operands :=
        ⟨.none, [⟨.f32, .yxfb, ⟨batch, 1, 1, 1⟩, .none⟩], ⟨.f32, .yxfb, ⟨batch, outputs, 1, 1⟩, .none⟩⟩
      filter := ⟨⟨.f32, .yxio, outputs, 1, 1, 1⟩, []⟩
      window := ⟨1, 1⟩
      stride := ⟨1, 1⟩
      dilation := ⟨1, 1⟩
      padding := ⟨0, 0⟩
      split := 1 }⟩

/-- Thirty-two batches of eight features are sixteen shares. -/
theorem convolutionBatch_covers_iff_even : ∃ plan l,
    convolutionBatch.Gives (batchesOf 32 8) .default plan ∧ plan.launches = [l] ∧
      ∃ w, (batchesOf 32 8).work = .convolution w ∧ InShares w l := by
  obtain ⟨plan, hplan⟩ : ∃ plan, convolutionBatch.plan (batchesOf 32 8) .default = .ok [plan] :=
    ⟨_, rfl⟩
  have hgives : convolutionBatch.Gives (batchesOf 32 8) .default plan :=
    ⟨[plan], List.mem_singleton_self plan, Or.inl hplan⟩
  obtain ⟨w, input, l, hwork, hinputs, hl, -, -, hcovers⟩ := convolutionBatch_covers_iff hgives
  cases hwork
  cases hinputs
  exact ⟨plan, l, hgives, hl, _, rfl, hcovers.mpr (Or.inr (by decide))⟩

/-- **Of thirty-three batches the last is in no share.** -/
theorem convolutionBatch_uncovered : ∃ plan l,
    convolutionBatch.Gives (batchesOf 33 256) .default plan ∧ plan.launches = [l] ∧
      ∃ w, (batchesOf 33 256).work = .convolution w ∧ ¬ InShares w l := by
  refine ⟨_, _, ⟨_, List.mem_singleton_self _, Or.inl rfl⟩, rfl, _, rfl, fun hshares => ?_⟩
  obtain ⟨_, batches, items, -, hbatches, hitems, hall, -⟩ := hshares
  obtain rfl : batches = 2 := hbatches.unique rfl
  obtain rfl : items = 16 := hitems.unique rfl
  exact absurd hall (by decide)

end NetPlan.Kernel

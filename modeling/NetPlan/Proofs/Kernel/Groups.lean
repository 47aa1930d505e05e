import NetPlan.Proofs.Kernel.Weights

/-!
# Proofs/Kernel/Groups — how many items a work group has

Group sizes are picked for a limit of `groupLimit` items, or are constants below it, so every launch of a
builtin kernel keeps that limit (`fits_builtin`), and with it every launch that is selected
(`Selector.groups_of_select`).  What the device says of its own limit is not asked for: a selection is
the same whatever it is.
-/

namespace NetPlan

open Kernel Kernel.Builtin

namespace Kernel

/-! ## Group sizes -/

section Sizes

variable {n d room used : Nat}

/-- There is a group for every room, and it fits. -/
theorem pickGroup_spec (h : 0 < room) : 0 < pickGroup room n ∧ pickGroup room n ≤ room := by
  unfold pickGroup
  cases hfound : (groupSizes.filter (· ≤ room)).find? (n % · = 0) with
  | none => exact ⟨Nat.one_pos, h⟩
  | some size =>
    obtain ⟨hlisted, hroom⟩ := List.mem_filter.mp (List.mem_of_find?_eq_some hfound)
    have hpos : ∀ k ∈ groupSizes, 0 < k := by decide
    exact ⟨hpos size hlisted, of_decide_eq_true hroom⟩

/-- An axis gets what the axes before it leave of the limit. -/
theorem mul_pickGroup_le (hpos : 0 < used) (h : used ≤ groupLimit) :
    0 < used * pickGroup (groupLimit / used) n ∧
      used * pickGroup (groupLimit / used) n ≤ groupLimit := by
  obtain ⟨hpick, hle⟩ := pickGroup_spec (n := n) (Nat.div_pos h hpos)
  exact ⟨Nat.mul_pos hpos hpick, (Nat.mul_le_mul_left _ hle).trans (Nat.mul_div_le _ _)⟩

/-- The groups along all axes fit together. -/
theorem volume_optimalGroup_le (g : Grid) : (optimalGroup g).volume ≤ groupLimit := by
  have hlimit : 0 < groupLimit := by decide
  obtain ⟨hpos₀, hle₀⟩ := pickGroup_spec (n := g.d0) hlimit
  obtain ⟨hpos₁, hle₁⟩ := mul_pickGroup_le (n := g.d1) hpos₀ hle₀
  exact (mul_pickGroup_le hpos₁ hle₁).2

/-- The divisor is one of those that were tried. -/
theorem greatestDivisorUpTo_le : greatestDivisorUpTo n d ≤ d + 1 := by
  induction d with
  | zero => exact Nat.le_refl _
  | succ d ih =>
    unfold greatestDivisorUpTo
    split
    · exact Nat.le_refl _
    · exact ih.trans (Nat.le_succ _)

/-- No divisor above 32 is taken. -/
theorem divisorUpTo32_le : divisorUpTo32 n ≤ 32 := by
  refine greatestDivisorUpTo_le.trans ?_
  have hmin : Nat.min (Nat.max n 1) 32 ≤ 32 := Nat.min_le_right _ _
  omega

end Sizes

/-! ## Launches within the limit -/

/-- The work groups of a launch are whole, and none has more items than the limit. -/
structure WorkGroups.Fits (g : WorkGroups) : Prop where
  whole : g.partitions = true
  limit : g.group.volume ≤ groupLimit

/-- All launches of a plan have work groups within the limit. -/
def Plan.Fits (plan : Plan) : Prop := ∀ l ∈ plan.launches, l.groups.Fits

/-- All plans of an implementation do. -/
def Implementation.Fits (i : Implementation) : Prop :=
  ∀ r o plan, i.Gives r o plan → plan.Fits

/-- An implementation without variants fits as its planner does. -/
theorem fits_fixed {name : String} {kind : Kind} {key : Key} {planner : Planner}
    (h : ∀ r o, Yields (fun plans => ∀ plan ∈ plans, plan.Fits) (planner r o)) :
    (Implementation.fixed name kind key planner).Fits := fun r o plan hgives => by
  obtain ⟨plans, hplans, hmem⟩ := exists_of_gives_fixed hgives
  exact h r o plans hplans plan hmem

theorem limit_of {global group : Grid} (h : group.volume ≤ groupLimit) :
    (WorkGroups.mk global group).group.volume ≤ groupLimit := h

/-- The groups that are chosen for a grid fit. -/
theorem limit_optimal {d0 d1 d2 : Nat} :
    (WorkGroups.optimal d0 d1 d2).group.volume ≤ groupLimit := volume_optimalGroup_le _

/-- The groups of a convolution fit. -/
theorem limit_convolutionGroups {w : ConvolutionWork} :
    (convolutionGroups w).group.volume ≤ groupLimit := by
  have hle : divisorUpTo32 (w.operands.output.size.feature * w.operands.output.size.batch) ≤ 32 :=
    divisorUpTo32_le
  simp only [convolutionGroups, Grid.volume, Nat.mul_one, groupLimit]
  omega

section Launches

variable {kind : Kind} {name layer : String} {defines extra : Defines} {groups : WorkGroups}
  {arguments : List Argument} {cost : Single} {change : Option WeightsChange}

/-- A launch that is planned has whole groups; it remains that they are small enough. -/
theorem fits_singleLaunch (h : groups.group.volume ≤ groupLimit) :
    Yields Plan.Fits (singleLaunch kind name layer defines groups arguments cost) := by
  unfold singleLaunch
  split
  case isTrue hwhole => exact yields_pure (List.forall_mem_singleton.mpr ⟨hwhole, h⟩)
  case isFalse => exact yields_error _

/-- A launch of groups that fit is a plan that fits. -/
theorem fits_launch (h : groups.group.volume ≤ groupLimit) :
    Yields (fun plans => ∀ plan ∈ plans, plan.Fits) (do
      let plan ← singleLaunch kind name layer defines groups arguments cost
      return [plan]) :=
  (fits_singleLaunch h).bind fun _ hplan => yields_pure (List.forall_mem_singleton.mpr hplan)

/-- So is a convolution. -/
theorem fits_convolutionPlan {w : ConvolutionWork} (h : groups.group.volume ≤ groupLimit) :
    Yields Plan.Fits (convolutionPlan w name layer extra groups cost change) :=
  (fits_singleLaunch h).bind fun _ hplan => yields_pure hplan

/-- So is a plan of that convolution alone. -/
theorem fits_convolutionPlans {w : ConvolutionWork} (h : groups.group.volume ≤ groupLimit) :
    Yields (fun plans => ∀ plan ∈ plans, plan.Fits) (do
      let plan ← convolutionPlan w name layer extra groups cost change
      return [plan]) :=
  (fits_convolutionPlan h).bind fun _ hplan => yields_pure (List.forall_mem_singleton.mpr hplan)

/-- So is a matrix product. -/
theorem fits_fullyConnectedPlan {w : FullyConnectedWork} (h : groups.group.volume ≤ groupLimit) :
    Yields (fun plans => ∀ plan ∈ plans, plan.Fits)
      (fullyConnectedPlan w name layer extra groups cost change) :=
  (fits_singleLaunch h).bind fun _ hplan => yields_pure (List.forall_mem_singleton.mpr hplan)

end Launches

/-! ### Work without weights -/

theorem fits_activationRef : activationRef.Fits := fits_fixed fun ⟨_, work⟩ _ => by
  cases work with
  | activation o => exact yields_bind fun _ => fits_launch limit_optimal
  | _ => exact yields_error _

theorem fits_activationOpt : activationOpt.Fits := fits_fixed fun ⟨_, work⟩ _ => by
  cases work with
  | activation o => exact yields_bind fun _ => yields_guard fun _ => fits_launch limit_optimal
  | _ => exact yields_error _

theorem fits_eltwiseRef : eltwiseRef.Fits := fits_fixed fun ⟨_, work⟩ _ => by
  cases work with
  | eltwise w => exact yields_bind fun _ => fits_launch limit_optimal
  | _ => exact yields_error _

theorem fits_poolingRef : poolingRef.Fits := fits_fixed fun ⟨_, work⟩ _ => by
  cases work with
  | pooling w => exact yields_bind fun _ => fits_launch limit_optimal
  | _ => exact yields_error _

theorem fits_poolingAverage : poolingAverage.Fits := fits_fixed fun ⟨_, work⟩ _ => by
  cases work with
  | pooling w => exact yields_bind fun _ => yields_guard fun _ => fits_launch (limit_of (by decide))
  | _ => exact yields_error _

theorem fits_poolingBlock : poolingBlock.Fits := fits_fixed fun ⟨_, work⟩ _ => by
  cases work with
  | pooling w => exact yields_bind fun _ => yields_guard fun _ => fits_launch limit_optimal
  | _ => exact yields_error _

theorem fits_reorderRef : reorderRef.Fits := fits_fixed fun ⟨_, work⟩ _ => by
  cases work with
  | reorder w => exact yields_bind fun _ => fits_launch limit_optimal
  | _ => exact yields_error _

theorem fits_reorderFast : reorderFast.Fits := fits_fixed fun ⟨_, work⟩ _ => by
  cases work with
  | reorder w => exact yields_bind fun _ => fits_launch (limit_of (by decide))
  | _ => exact yields_error _

theorem fits_reorderWeights : reorderWeights.Fits := fits_fixed fun ⟨_, work⟩ _ => by
  cases work with
  | weightsReorder source target => exact yields_guard fun _ => fits_launch limit_optimal
  | _ => exact yields_error _

theorem fits_softmaxRef : softmaxRef.Fits := fits_fixed fun ⟨_, work⟩ _ => by
  cases work with
  | softmax o axis =>
    refine yields_bind fun _ => fits_launch ?_
    cases axis with
    | x => exact limit_optimal
    | y => exact limit_optimal
    | feature => exact limit_optimal
  | _ => exact yields_error _

theorem fits_softmaxItems : softmaxItems.Fits := fits_fixed fun ⟨_, work⟩ _ => by
  cases work with
  | softmax o axis => exact yields_bind fun _ => fits_launch (limit_of (by decide))
  | _ => exact yields_error _

theorem fits_batchNormRef : batchNormRef.Fits := fits_fixed fun ⟨layer, work⟩ _ => by
  cases work with
  | batchNorm o epsilon =>
    unfold planBatchNorm
    dsimp only
    split
    · exact yields_bind fun _ => yields_guard fun _ => fits_launch limit_optimal
    · exact yields_error _
  | _ => exact yields_error _

theorem fits_scaleRef : scaleRef.Fits := fits_fixed fun ⟨layer, work⟩ _ => by
  cases work with
  | scale o =>
    unfold planScale
    dsimp only
    split
    · exact yields_error _
    · exact yields_guard fun _ => yields_bind fun _ => fits_launch limit_optimal
  | _ => exact yields_error _

/-- Every part of a concatenation fits. -/
theorem fits_concatenationParts (layer : String) (o : Operands) (axis : Axis) :
    ∀ (index offset : Nat) (inputs : List DataTensor),
      Yields (fun plans => ∀ plan ∈ plans, plan.Fits)
        (concatenationParts layer o axis index offset inputs)
  | _, _, [] => yields_pure fun _ h => absurd h List.not_mem_nil
  | index, offset, input :: rest =>
      (fits_singleLaunch limit_optimal).bind fun _ hpart =>
        (fits_concatenationParts layer o axis (index + 1) (offset + input.extent axis) rest).bind
          fun _ hparts => yields_pure (List.forall_mem_cons.mpr ⟨hpart, hparts⟩)

theorem fits_concatenationRef : concatenationRef.Fits := fits_fixed fun ⟨layer, work⟩ _ => by
  cases work with
  | concatenation o axis =>
    refine yields_bind fun _ => (fits_concatenationParts layer o axis 0 0 o.inputs).bind
      fun parts hparts => ?_
    cases parts with
    | nil => exact yields_error _
    | cons first rest =>
      obtain ⟨hfirst, hrest⟩ := List.forall_mem_cons.mp hparts
      refine yields_pure (List.forall_mem_singleton.mpr (List.forall_mem_append.mpr ⟨hfirst, ?_⟩))
      intro l hl
      obtain ⟨plan, hplan, hl⟩ := List.mem_flatMap.mp hl
      exact hrest plan hplan l hl
  | _ => exact yields_error _

/-! ### Work with weights -/

theorem fits_convolutionRef : convolutionRef.Fits := fits_fixed fun ⟨_, work⟩ _ => by
  cases work with
  | convolution w =>
    exact yields_bind fun _ => yields_bind fun _ => fits_convolutionPlans limit_convolutionGroups
  | _ => exact yields_error _

theorem fits_convolutionGemm : convolutionGemm.Fits := fits_fixed fun ⟨_, work⟩ _ => by
  cases work with
  | convolution w =>
    refine yields_bind fun input => yields_bind fun _ => yields_bind fun _ =>
      fits_convolutionPlans ?_
    unfold GemmStyle.of
    split
    · exact limit_of (by decide)
    · exact limit_of (by decide)
  | _ => exact yields_error _

theorem fits_convolutionBatch : convolutionBatch.Fits := fits_fixed fun ⟨_, work⟩ _ => by
  cases work with
  | convolution w =>
    exact yields_bind fun _ => yields_guard fun _ => yields_bind fun _ => yields_bind fun _ =>
      fits_convolutionPlans (limit_of (by decide))
  | _ => exact yields_error _

/-- The plan for a block fits. -/
theorem fits_planBlock {w : ConvolutionWork} {input : DataTensor} {layer : String} {o : Options}
    (block : Block) : Yields Plan.Fits (planBlock w input layer o block) :=
  yields_bind fun _ => yields_bind fun _ => yields_bind fun _ =>
    fits_convolutionPlan (limit_of (by decide))

theorem fits_convolutionBlock : convolutionBlock.Fits := fun r o plan hgives => by
  obtain ⟨_, block, given, -, -, hgiven, hplan⟩ := tunes_convolutionBlock.planned hgives
  rw [hplan]
  exact fits_planBlock block given hgiven

/-- The plan for a tile fits. -/
theorem fits_planTile {w : ConvolutionWork} {input : DataTensor} {layer : String} {o : Options}
    (tile : Planar) : Yields Plan.Fits (planTile w input layer o tile) :=
  yields_bind fun _ => fits_convolutionPlan (limit_of (by decide))

theorem fits_depthwise : depthwise.Fits := fun r o plan hgives => by
  obtain ⟨_, tile, given, -, -, hgiven, hplan⟩ := tunes_depthwise.planned hgives
  rw [hplan]
  exact fits_planTile tile given hgiven

theorem fits_fusedRef : fusedRef.Fits := fits_fixed fun ⟨layer, work⟩ _ => by
  cases work with
  | fusedConvBnScale w epsilon =>
    unfold planFused
    dsimp only
    split
    · refine yields_guard fun _ => yields_bind fun _ => yields_bind fun _ => yields_bind fun _ => ?_
      exact (fits_singleLaunch limit_convolutionGroups).bind fun _ hplan =>
        yields_pure (List.forall_mem_singleton.mpr hplan)
    · exact yields_error _
  | _ => exact yields_error _

theorem fits_fullyConnectedRef : fullyConnectedRef.Fits := fits_fixed fun ⟨_, work⟩ _ => by
  cases work with
  | fullyConnected w =>
    refine yields_bind fun _ => yields_bind fun _ => fits_fullyConnectedPlan ?_
    have hle : divisorUpTo32 w.operands.output.count ≤ 32 := divisorUpTo32_le
    simp only [Grid.volume, Nat.mul_one, groupLimit]
    omega
  | _ => exact yields_error _

theorem fits_fullyConnectedGemm : fullyConnectedGemm.Fits := fits_fixed fun ⟨_, work⟩ _ => by
  cases work with
  | fullyConnected w =>
    exact yields_bind fun _ => yields_bind fun _ => fits_fullyConnectedPlan (limit_of (by decide))
  | _ => exact yields_error _

theorem fits_fullyConnectedBlock : fullyConnectedBlock.Fits := fits_fixed fun ⟨_, work⟩ _ => by
  cases work with
  | fullyConnected w =>
    exact yields_bind fun _ => yields_guard fun _ => yields_guard fun _ => yields_bind fun _ =>
      fits_fullyConnectedPlan (limit_of (by decide))
  | _ => exact yields_error _

theorem fits_fullyConnectedSingle : fullyConnectedSingle.Fits := fits_fixed fun ⟨_, work⟩ _ => by
  cases work with
  | fullyConnected w =>
    exact yields_bind fun _ => yields_bind fun _ => fits_fullyConnectedPlan (limit_of (by decide))
  | _ => exact yields_error _

/-- **Every launch of a builtin kernel keeps the limit of a work group.** -/
theorem fits_builtin : ∀ i ∈ Registry.builtin.implementations, i.Fits := by
  simp only [Registry.builtin, List.forall_mem_cons, List.not_mem_nil, false_imp_iff, implies_true,
    and_true]
  exact ⟨fits_convolutionRef, fits_convolutionBlock, fits_convolutionGemm, fits_convolutionBatch,
    fits_depthwise, fits_fullyConnectedRef, fits_fullyConnectedGemm, fits_fullyConnectedBlock,
    fits_fullyConnectedSingle, fits_poolingRef, fits_poolingAverage, fits_poolingBlock,
    fits_activationRef, fits_activationOpt, fits_eltwiseRef, fits_reorderRef, fits_reorderFast,
    fits_reorderWeights, fits_softmaxRef, fits_softmaxItems, fits_concatenationRef,
    fits_batchNormRef, fits_scaleRef, fits_fusedRef⟩

end Kernel

/-! ## What is selected -/

namespace Selector

variable {s : Selector} {r : Request} {o : Options} {plan : Plan} {session session' : Session}

/-- The selector for a device that reports another limit. -/
def withGroupLimit (s : Selector) (limit : Nat) : Selector :=
  { s with device := { s.device with maxGroupSize := limit } }

/-- The limit of a device decides nothing among candidates. -/
theorem naiveAmong_withGroupLimit (limit : Nat) : ∀ (best : Option Plan) (is : List Implementation),
    (s.withGroupLimit limit).naiveAmong r o best is = s.naiveAmong r o best is
  | _, [] => rfl
  | best, i :: is => by
      simp only [naiveAmong, naiveAmong_withGroupLimit limit _ is]
      rfl

/-- The same implementations are asked. -/
theorem asked_withGroupLimit (limit : Nat) : ∀ is : List Implementation,
    (s.withGroupLimit limit).asked r o is = s.asked r o is
  | [] => rfl
  | i :: is => by
      simp only [asked, asked_withGroupLimit limit is]
      rfl

/-- Selection by cost does not look at the limit. -/
theorem naive_withGroupLimit (limit : Nat) : (s.withGroupLimit limit).naive r o = s.naive r o := by
  unfold naive naive?
  rw [naiveAmong_withGroupLimit, asked_withGroupLimit]
  rfl

/-- Nor does tuning. -/
theorem tune_withGroupLimit (limit : Nat) : (s.withGroupLimit limit).tune r o = s.tune r o := by
  unfold tune
  rw [naive_withGroupLimit]
  rfl

/-- **A selection does not look at the limit that a device reports.** -/
theorem select_withGroupLimit (limit : Nat) :
    (s.withGroupLimit limit).select r o = s.select r o := by
  unfold select autoTune
  rw [naive_withGroupLimit, tune_withGroupLimit]
  rfl

/-- **Every launch that is selected has work groups of at most `groupLimit` items**, so as many as a
device allows that allows that many.  A device that allows less gets the same plan. -/
theorem groups_of_select (hregistry : s.registry = Registry.builtin)
    (h : (s.select r o).run.run session = (.ok plan, session')) :
    (∀ l ∈ plan.launches, l.groups.group.volume ≤ groupLimit) ∧
      (groupLimit ≤ s.device.maxGroupSize →
        ∀ l ∈ plan.launches, l.groups.group.volume ≤ s.device.maxGroupSize) ∧
      ∀ limit, ((s.withGroupLimit limit).select r o).run.run session = (.ok plan, session') := by
  obtain ⟨⟨i, hi, -, -, -, -, -, given, hgives, hlaunches⟩, -, -⟩ := select_accepted h
  have hfits : ∀ l ∈ plan.launches, l.groups.Fits := hlaunches ▸ fits_builtin i (hregistry ▸ hi) r o
    given hgives
  refine ⟨fun l hl => (hfits l hl).limit, fun hlimit l hl => (hfits l hl).limit.trans hlimit,
    fun limit => ?_⟩
  rw [select_withGroupLimit]
  exact h

/-- The sum of two rows of 256 elements. -/
def rowSum : Request :=
  let row : DataTensor := ⟨.f32, .bfyx, ⟨1, 1, 256, 1⟩, .none⟩
  ⟨"sum", .eltwise ⟨⟨.none, [row, row], row⟩, .sum, []⟩⟩

/-- On a device that allows as many items it is selected with one group of them. -/
theorem groups_of_select_rowSum : ∃ plan session',
    ((builtin .default).select rowSum .default).run.run ⟨.text "", []⟩ = (.ok plan, session') ∧
      (∀ l ∈ plan.launches, l.groups.group.volume ≤ Device.default.maxGroupSize) ∧
      plan.launches.map (·.groups.group) = [⟨256, 1, 1⟩] := by
  have hrun : (((builtin .default).select rowSum .default).run.run ⟨.text "", []⟩).1.toOption.map
      (fun plan => plan.launches.map (·.groups.group)) = some [⟨256, 1, 1⟩] := by decide +kernel
  rcases hselect : ((builtin .default).select rowSum .default).run.run ⟨.text "", []⟩ with
    ⟨e | plan, session'⟩
  · rw [hselect] at hrun
    cases hrun
  · rw [hselect] at hrun
    exact ⟨plan, session', rfl, (groups_of_select rfl hselect).2.1 (Nat.le_refl _),
      Option.some.inj hrun⟩

/-- **A device that allows half as many gets the same group.** -/
theorem group_exceeds_device : ∃ plan session',
    ((builtin ⟨24, true, true, 128⟩).select rowSum .default).run.run ⟨.text "", []⟩
        = (.ok plan, session') ∧
      ∃ l ∈ plan.launches, 128 < l.groups.group.volume := by
  have hrun : (((builtin ⟨24, true, true, 128⟩).select rowSum .default).run.run
      ⟨.text "", []⟩).1.toOption.map (fun plan => plan.launches.any (128 < ·.groups.group.volume))
      = some true := by decide +kernel
  rcases hselect : ((builtin ⟨24, true, true, 128⟩).select rowSum .default).run.run ⟨.text "", []⟩
    with ⟨e | plan, session'⟩
  · rw [hselect] at hrun
    cases hrun
  · rw [hselect] at hrun
    obtain ⟨l, hl, hlimit⟩ := List.any_eq_true.mp (Option.some.inj hrun)
    exact ⟨plan, session', rfl, l, hl, of_decide_eq_true hlimit⟩

end Selector

end NetPlan

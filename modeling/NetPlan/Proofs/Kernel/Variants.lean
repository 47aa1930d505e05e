import NetPlan.Proofs.Kernel.Offered

/-!
# Proofs/Kernel/Variants — tuning variants, and asking again for a plan

Two kernels leave the size of what a work item computes open.  Each has a table of sizes, whose indices
are its tuning variants, and one size that it takes without tuning.  A tunable kernel lists the plans of
its variants in one place and makes the plan of one variant in another; both look into the same table.
The other kernels have one plan.

* `Implementation.Tunes` — an implementation plans with its table;
* `Implementation.Tunes.planned` — so what it gives, to whichever question, is planned with a parameter
  of the table or with the preset one;
* `replays_builtin` — each plan that a builtin implementation offers for measuring is its only plan when
  it is asked for the variant that the plan names.
-/

namespace NetPlan.Kernel

open Builtin

/-! ## Kernels with a parameter -/

section Tunable

variable {α β : Type} {choices : List β}

/-- The parameter of a variant: that of the table, or without a variant the preset one. -/
def parameter? (choices : List β) (preset : β) : Option Nat → Option β
  | none => some preset
  | some i => choices[i]?

/-- A tunable kernel checks the request and plans with one parameter: the preset one, that of the
variant it is asked for, or each in turn. -/
structure Implementation.Tunes (i : Implementation) (choices : List β) (preset : α → β)
    (check : Request → Except Refusal α)
    (planWith : Request → Options → α → β → Except Refusal Plan) (refuse : Nat → Refusal) : Prop where
  plan : ∀ r o, i.plan r o = do
    let a ← check r
    return [← planWith r o a (preset a)]
  variant : ∀ r o index, i.planVariant index r o = do
    let a ← check r
    match parameter? choices (preset a) index with
    | some b =>
      let given ← planWith r o a b
      return [{ given with variant := index }]
    | none => throw (refuse (index.getD 0))
  all : ∀ r o, i.planAll r o = do
    let a ← check r
    let tuned ← choices.zipIdx.mapM fun (b, i) => do
      let plan ← planWith r o a b
      return { plan with variant := some i }
    let plan ← planWith r o a (preset a)
    return tuned ++ [plan]

variable {i : Implementation} {preset : α → β} {check : Request → Except Refusal α}
  {planWith : Request → Options → α → β → Except Refusal Plan} {refuse : Nat → Refusal} {plan : Plan}

/-- **Whatever it is asked, a tunable kernel gives what it plans with a parameter of its table**, or
with the preset one, for a request that it checked. -/
theorem Implementation.Tunes.planned (h : i.Tunes choices preset check planWith refuse) {r : Request}
    {o : Options} (hgives : i.Gives r o plan) :
    ∃ a b given, check r = .ok a ∧ (b = preset a ∨ b ∈ choices) ∧ planWith r o a b = .ok given ∧
      plan = { given with variant := plan.variant } := by
  obtain ⟨plans, hmem, hplans | ⟨index, hplans⟩ | hplans⟩ := hgives
  · rw [h.plan] at hplans
    obtain ⟨a, hcheck, hplans⟩ := bind_eq_ok_iff.mp hplans
    obtain ⟨given, hgiven, hplans⟩ := bind_eq_ok_iff.mp hplans
    cases hplans
    obtain rfl := List.mem_singleton.mp hmem
    exact ⟨a, preset a, plan, hcheck, Or.inl rfl, hgiven, rfl⟩
  · rw [h.variant] at hplans
    obtain ⟨a, hcheck, hplans⟩ := bind_eq_ok_iff.mp hplans
    split at hplans
    case h_1 b hb =>
      obtain ⟨given, hgiven, hplans⟩ := bind_eq_ok_iff.mp hplans
      cases hplans
      obtain rfl := List.mem_singleton.mp hmem
      refine ⟨a, b, given, hcheck, ?_, hgiven, rfl⟩
      cases index with
      | none => exact Or.inl (Option.some.inj hb).symm
      | some _ => exact Or.inr (List.mem_of_getElem? hb)
    case h_2 => cases hplans
  · rw [h.all] at hplans
    obtain ⟨a, hcheck, hplans⟩ := bind_eq_ok_iff.mp hplans
    obtain ⟨tuned, htuned, hplans⟩ := bind_eq_ok_iff.mp hplans
    obtain ⟨last, hlast, hplans⟩ := bind_eq_ok_iff.mp hplans
    cases hplans
    rcases List.mem_append.mp hmem with hmem | hmem
    · have htable : Yields (fun plans => ∀ plan ∈ plans, ∃ b given, b ∈ choices ∧
          planWith r o a b = .ok given ∧ plan = { given with variant := plan.variant })
          (choices.zipIdx.mapM fun (b, i) => do
            let plan ← planWith r o a b
            return { plan with variant := some i }) :=
        yields_mapM fun (b, i) hentry plan hplan => by
          obtain ⟨given, hgiven, hplan⟩ := bind_eq_ok_iff.mp hplan
          cases hplan
          exact ⟨b, given, List.fst_mem_of_mem_zipIdx hentry, hgiven, rfl⟩
      obtain ⟨b, given, hb, hgiven, hplan⟩ := htable tuned htuned plan hmem
      exact ⟨a, b, given, hcheck, Or.inr hb, hgiven, hplan⟩
    · obtain rfl := List.mem_singleton.mp hmem
      exact ⟨a, preset a, plan, hcheck, Or.inl rfl, hlast, rfl⟩

end Tunable

theorem tunes_convolutionBlock : convolutionBlock.Tunes convolutionBlocks (fun a => defaultBlock a.1)
    checkBlock (fun r o a block => planBlock a.1 a.2 r.layer o block) (fun i => .notApplicable
      s!"{convolutionBlockName} has {convolutionBlocks.length} tuning variants, asked for {i}") where
  plan _ _ := rfl
  variant r _ index := congrArg (checkBlock r >>= ·) (funext fun _ => by
    cases index with
    | none => rfl
    | some i =>
      dsimp only [parameter?]
      cases convolutionBlocks[i]? <;> rfl)
  all _ _ := rfl

theorem tunes_depthwise : depthwise.Tunes depthwiseTiles (fun _ => defaultTile) checkDepthwise
    (fun r o a tile => planTile a.1 a.2 r.layer o tile)
    (fun i => .notApplicable s!"{depthwiseName} has no tuning variant {i}") where
  plan _ _ := rfl
  variant r _ index := congrArg (checkDepthwise r >>= ·) (funext fun _ => by
    cases index with
    | none => rfl
    | some i =>
      dsimp only [parameter?]
      cases depthwiseTiles[i]? <;> rfl)
  all _ _ := rfl

/-! ## Plans that can be asked for again -/

/-- No variant of a default plan is named, and nothing was measured. -/
structure Plan.Plain (plan : Plan) : Prop where
  variant : plan.variant = none
  runTime : plan.runTime = none

/-- One plan, which is plain. -/
def Sole (plans : List Plan) : Prop := ∃ plan, plans = [plan] ∧ plan.Plain

/-- A plan can be asked for again: by its variant, which fits a record, it is the only answer. -/
structure Implementation.Answers (i : Implementation) (r : Request) (o : Options) (plan : Plan) :
    Prop where
  runTime : plan.runTime = none
  fits : ∀ v, plan.variant = some v → v < 0x8000000000000000
  again : i.planVariant plan.variant r o = .ok [plan]

/-- What an implementation offers for measuring can be asked for again; no plan of it has a time. -/
structure Implementation.Replays (i : Implementation) : Prop where
  offered : ∀ r o, Yields (fun plans => ∀ plan ∈ plans, i.Answers r o plan) (i.planAll r o)
  untimed : ∀ r o plan, i.Gives r o plan → plan.runTime = none

/-! ## Kernels without variants -/

/-- An implementation without variants replays its only plan. -/
theorem replays_fixed {name : String} {kind : Kind} {key : Key} {planner : Planner}
    (h : ∀ r o, Yields Sole (planner r o)) :
    (Implementation.fixed name kind key planner).Replays where
  offered r o plans hplans := by
    obtain ⟨plan, rfl, hplain⟩ := h r o plans hplans
    refine List.forall_mem_singleton.mpr ⟨hplain.runTime, fun v hv => ?_, ?_⟩
    · rw [hplain.variant] at hv
      cases hv
    · rw [hplain.variant]
      exact hplans
  untimed r o plan hgives := by
    obtain ⟨plans, hplans, hmem⟩ := exists_of_gives_fixed hgives
    obtain ⟨sole, rfl, hplain⟩ := h r o plans hplans
    exact List.mem_singleton.mp hmem ▸ hplain.runTime

/-- A launch is no variant. -/
theorem plain_singleLaunch {kind : Kind} {name layer : String} {defines : Defines}
    {groups : WorkGroups} {arguments : List Argument} {cost : Single} :
    Yields Plan.Plain (singleLaunch kind name layer defines groups arguments cost) := by
  unfold singleLaunch
  split
  · exact yields_pure ⟨rfl, rfl⟩
  · exact yields_error _

/-- The shape of most planners: after some checks one launch, and a plan of it. -/
theorem sole_launch {kind : Kind} {name layer : String} {defines : Defines}
    {groups : WorkGroups} {arguments : List Argument} {cost : Single} :
    Yields Sole (do
      let plan ← singleLaunch kind name layer defines groups arguments cost
      return [plan]) :=
  plain_singleLaunch.bind fun plan hplain => yields_pure ⟨plan, rfl, hplain⟩

/-! ### Work without weights -/

theorem replays_activationRef : activationRef.Replays := replays_fixed fun ⟨_, work⟩ _ => by
  cases work with
  | activation o => exact yields_bind fun _ => sole_launch
  | _ => exact yields_error _

theorem replays_activationOpt : activationOpt.Replays := replays_fixed fun ⟨_, work⟩ _ => by
  cases work with
  | activation o => exact yields_bind fun _ => yields_guard fun _ => sole_launch
  | _ => exact yields_error _

theorem replays_eltwiseRef : eltwiseRef.Replays := replays_fixed fun ⟨_, work⟩ _ => by
  cases work with
  | eltwise w => exact yields_bind fun _ => sole_launch
  | _ => exact yields_error _

theorem replays_poolingRef : poolingRef.Replays := replays_fixed fun ⟨_, work⟩ _ => by
  cases work with
  | pooling w => exact yields_bind fun _ => sole_launch
  | _ => exact yields_error _

theorem replays_poolingAverage : poolingAverage.Replays := replays_fixed fun ⟨_, work⟩ _ => by
  cases work with
  | pooling w => exact yields_bind fun _ => yields_guard fun _ => sole_launch
  | _ => exact yields_error _

theorem replays_poolingBlock : poolingBlock.Replays := replays_fixed fun ⟨_, work⟩ _ => by
  cases work with
  | pooling w => exact yields_bind fun _ => yields_guard fun _ => sole_launch
  | _ => exact yields_error _

theorem replays_reorderRef : reorderRef.Replays := replays_fixed fun ⟨_, work⟩ _ => by
  cases work with
  | reorder w => exact yields_bind fun _ => sole_launch
  | _ => exact yields_error _

theorem replays_reorderFast : reorderFast.Replays := replays_fixed fun ⟨_, work⟩ _ => by
  cases work with
  | reorder w => exact yields_bind fun _ => sole_launch
  | _ => exact yields_error _

theorem replays_reorderWeights : reorderWeights.Replays := replays_fixed fun ⟨_, work⟩ _ => by
  cases work with
  | weightsReorder source target => exact yields_guard fun _ => sole_launch
  | _ => exact yields_error _

theorem replays_softmaxRef : softmaxRef.Replays := replays_fixed fun ⟨_, work⟩ _ => by
  cases work with
  | softmax o axis => exact yields_bind fun _ => sole_launch
  | _ => exact yields_error _

theorem replays_softmaxItems : softmaxItems.Replays := replays_fixed fun ⟨_, work⟩ _ => by
  cases work with
  | softmax o axis => exact yields_bind fun _ => sole_launch
  | _ => exact yields_error _

theorem replays_batchNormRef : batchNormRef.Replays := replays_fixed fun ⟨layer, work⟩ _ => by
  cases work with
  | batchNorm o epsilon =>
    unfold planBatchNorm
    dsimp only
    split
    · exact yields_bind fun _ => yields_guard fun _ => sole_launch
    · exact yields_error _
  | _ => exact yields_error _

theorem replays_scaleRef : scaleRef.Replays := replays_fixed fun ⟨layer, work⟩ _ => by
  cases work with
  | scale o =>
    unfold planScale
    dsimp only
    split
    · exact yields_error _
    · exact yields_guard fun _ => yields_bind fun _ => sole_launch
  | _ => exact yields_error _

/-- No part of a concatenation is. -/
theorem plain_concatenationParts (layer : String) (o : Operands) (axis : Axis) :
    ∀ (index offset : Nat) (inputs : List DataTensor),
      Yields (fun plans => ∀ plan ∈ plans, plan.Plain)
        (concatenationParts layer o axis index offset inputs)
  | _, _, [] => yields_pure fun _ h => absurd h List.not_mem_nil
  | index, offset, input :: rest =>
      plain_singleLaunch.bind fun _ hpart =>
        (plain_concatenationParts layer o axis (index + 1) (offset + input.extent axis) rest).bind
          fun _ hparts => yields_pure (List.forall_mem_cons.mpr ⟨hpart, hparts⟩)

theorem replays_concatenationRef : concatenationRef.Replays := replays_fixed fun ⟨layer, work⟩ _ => by
  cases work with
  | concatenation o axis =>
    refine yields_bind fun _ => (plain_concatenationParts layer o axis 0 0 o.inputs).bind
      fun parts hparts => ?_
    cases parts with
    | nil => exact yields_error _
    | cons first rest =>
      have hfirst := hparts first List.mem_cons_self
      exact yields_pure ⟨_, rfl, hfirst.variant, hfirst.runTime⟩
  | _ => exact yields_error _

/-! ### Work with weights -/

/-- A convolution is no variant by itself. -/
theorem plain_convolutionPlan {w : ConvolutionWork} {name layer : String} {extra : Defines}
    {groups : WorkGroups} {cost : Single} {change : Option WeightsChange} :
    Yields Plan.Plain (convolutionPlan w name layer extra groups cost change) :=
  plain_singleLaunch.bind fun _ hplain => yields_pure ⟨hplain.variant, hplain.runTime⟩

/-- A plan of one convolution is the only one. -/
theorem sole_convolutionPlan {w : ConvolutionWork} {name layer : String} {extra : Defines}
    {groups : WorkGroups} {cost : Single} {change : Option WeightsChange} :
    Yields Sole (do
      let plan ← convolutionPlan w name layer extra groups cost change
      return [plan]) :=
  plain_convolutionPlan.bind fun plan hplain => yields_pure ⟨plan, rfl, hplain⟩

theorem replays_convolutionRef : convolutionRef.Replays := replays_fixed fun ⟨_, work⟩ _ => by
  cases work with
  | convolution w => exact yields_bind fun _ => yields_bind fun _ => sole_convolutionPlan
  | _ => exact yields_error _

theorem replays_convolutionGemm : convolutionGemm.Replays := replays_fixed fun ⟨_, work⟩ _ => by
  cases work with
  | convolution w =>
    exact yields_bind fun _ => yields_bind fun _ => yields_bind fun _ => sole_convolutionPlan
  | _ => exact yields_error _

theorem replays_convolutionBatch : convolutionBatch.Replays := replays_fixed fun ⟨_, work⟩ _ => by
  cases work with
  | convolution w =>
    exact yields_bind fun _ => yields_guard fun _ => yields_bind fun _ => yields_bind fun _ =>
      sole_convolutionPlan
  | _ => exact yields_error _

theorem replays_fusedRef : fusedRef.Replays := replays_fixed fun ⟨layer, work⟩ _ => by
  cases work with
  | fusedConvBnScale w epsilon =>
    unfold planFused
    dsimp only
    split
    · refine yields_guard fun _ => yields_bind fun _ => yields_bind fun _ => yields_bind fun _ => ?_
      exact plain_singleLaunch.bind fun _ hplain =>
        yields_pure ⟨_, rfl, hplain.variant, hplain.runTime⟩
    · exact yields_error _
  | _ => exact yields_error _

/-- So is that of a matrix product. -/
theorem sole_fullyConnectedPlan {w : FullyConnectedWork} {name layer : String} {extra : Defines}
    {groups : WorkGroups} {cost : Single} {change : Option WeightsChange} :
    Yields Sole (fullyConnectedPlan w name layer extra groups cost change) :=
  plain_singleLaunch.bind fun _ hplain => yields_pure ⟨_, rfl, hplain.variant, hplain.runTime⟩

theorem replays_fullyConnectedRef : fullyConnectedRef.Replays := replays_fixed fun ⟨_, work⟩ _ => by
  cases work with
  | fullyConnected w => exact yields_bind fun _ => yields_bind fun _ => sole_fullyConnectedPlan
  | _ => exact yields_error _

theorem replays_fullyConnectedGemm : fullyConnectedGemm.Replays :=
  replays_fixed fun ⟨_, work⟩ _ => by
    cases work with
    | fullyConnected w => exact yields_bind fun _ => yields_bind fun _ => sole_fullyConnectedPlan
    | _ => exact yields_error _

theorem replays_fullyConnectedBlock : fullyConnectedBlock.Replays :=
  replays_fixed fun ⟨_, work⟩ _ => by
    cases work with
    | fullyConnected w =>
      exact yields_bind fun _ => yields_guard fun _ => yields_guard fun _ => yields_bind fun _ =>
        sole_fullyConnectedPlan
    | _ => exact yields_error _

theorem replays_fullyConnectedSingle : fullyConnectedSingle.Replays :=
  replays_fixed fun ⟨_, work⟩ _ => by
    cases work with
    | fullyConnected w => exact yields_bind fun _ => yields_bind fun _ => sole_fullyConnectedPlan
    | _ => exact yields_error _

/-! ## Variants of tunable kernels -/

section Tunable

variable {β : Type} {choices : List β} {preset : β} {planWith : β → Except Refusal Plan} {plan : Plan}

/-- A plan is made with the parameter of the variant that it names. -/
structure Made (choices : List β) (preset : β) (planWith : β → Except Refusal Plan) (plan : Plan) :
    Prop where
  runTime : plan.runTime = none
  made : ∃ b, parameter? choices preset plan.variant = some b ∧
    (do let given ← planWith b; return [{ given with variant := plan.variant }]) = .ok [plan]

/-- Numbers of variants are small. -/
theorem Made.fits (h : Made choices preset planWith plan)
    (hsize : choices.length ≤ 0x8000000000000000) :
    ∀ v, plan.variant = some v → v < 0x8000000000000000 := fun v hv => by
  obtain ⟨b, hb, -⟩ := h.made
  rw [hv] at hb
  exact Nat.lt_of_lt_of_le (List.getElem?_eq_some_iff.mp hb).1 hsize

/-- **What is offered for measuring** is made with the parameter of its variant. -/
theorem made_each (h : ∀ b, Yields Plan.Plain (planWith b)) :
    Yields (fun plans => ∀ plan ∈ plans, Made choices preset planWith plan) (do
      let tuned ← choices.zipIdx.mapM fun (b, i) => do
        let plan ← planWith b
        return { plan with variant := some i }
      let plan ← planWith preset
      return tuned ++ [plan]) := by
  have htable : ∀ entry ∈ choices.zipIdx, Yields (Made choices preset planWith) (do
      let plan ← planWith entry.1
      return { plan with variant := some entry.2 }) := fun (b, i) hentry plan hplan => by
    obtain ⟨given, hgiven, hplan⟩ := bind_eq_ok_iff.mp hplan
    cases hplan
    exact ⟨(h b given hgiven).runTime, b, List.mem_zipIdx_iff_getElem?.mp hentry,
      bind_eq_ok_iff.mpr ⟨given, hgiven, rfl⟩⟩
  refine (yields_mapM htable).bind fun tuned htuned last hlast => ?_
  obtain ⟨last, hgiven, hlast⟩ := bind_eq_ok_iff.mp hlast
  cases hlast
  have hplain := h preset last hgiven
  exact List.forall_mem_append.mpr ⟨htuned, List.forall_mem_singleton.mpr ⟨hplain.runTime, preset,
    by rw [hplain.variant]; rfl, bind_eq_ok_iff.mpr ⟨last, hgiven, rfl⟩⟩⟩

section Tunes

variable {α : Type} {i : Implementation} {preset : α → β} {check : Request → Except Refusal α}
  {planWith : Request → Options → α → β → Except Refusal Plan} {refuse : Nat → Refusal}

/-- **A tunable kernel can be asked again**: it plans with the parameter of the variant it is asked for,
and offers one plan for each entry of its table, and the preset one. -/
theorem Implementation.Tunes.replays (h : i.Tunes choices preset check planWith refuse)
    (hsize : choices.length ≤ 0x8000000000000000)
    (hplain : ∀ r o a b, Yields Plan.Plain (planWith r o a b)) : i.Replays where
  offered r o plans hplans plan hmem := by
    rw [h.all] at hplans
    obtain ⟨a, hcheck, hplans⟩ := bind_eq_ok_iff.mp hplans
    have hmade := made_each (hplain r o a) plans hplans plan hmem
    obtain ⟨b, hb, hagain⟩ := hmade.made
    refine ⟨hmade.runTime, hmade.fits hsize, ?_⟩
    rw [h.variant]
    refine bind_eq_ok_iff.mpr ⟨a, hcheck, ?_⟩
    rw [hb]
    exact hagain
  untimed r o plan hgives := by
    obtain ⟨a, b, given, -, -, hgiven, hplan⟩ := h.planned hgives
    rw [hplan]
    exact (hplain r o a b given hgiven).runTime

end Tunes

end Tunable

theorem replays_convolutionBlock : convolutionBlock.Replays :=
  tunes_convolutionBlock.replays (by decide +kernel)
    fun _ _ _ _ => yields_bind fun _ => yields_bind fun _ => yields_bind fun _ => plain_convolutionPlan

theorem replays_depthwise : depthwise.Replays :=
  tunes_depthwise.replays (by decide +kernel) fun _ _ _ _ => yields_bind fun _ => plain_convolutionPlan

/-- **Every plan that a builtin implementation offers can be asked for again.** -/
theorem replays_builtin : ∀ i ∈ Registry.builtin.implementations, i.Replays := by
  simp only [Registry.builtin, List.forall_mem_cons, List.not_mem_nil, false_imp_iff, implies_true,
    and_true]
  exact ⟨replays_convolutionRef, replays_convolutionBlock, replays_convolutionGemm,
    replays_convolutionBatch, replays_depthwise, replays_fullyConnectedRef,
    replays_fullyConnectedGemm, replays_fullyConnectedBlock, replays_fullyConnectedSingle,
    replays_poolingRef, replays_poolingAverage, replays_poolingBlock, replays_activationRef,
    replays_activationOpt, replays_eltwiseRef, replays_reorderRef, replays_reorderFast,
    replays_reorderWeights, replays_softmaxRef, replays_softmaxItems, replays_concatenationRef,
    replays_batchNormRef, replays_scaleRef, replays_fusedRef⟩

end NetPlan.Kernel

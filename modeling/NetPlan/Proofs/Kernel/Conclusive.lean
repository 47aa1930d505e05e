import NetPlan.Proofs.Kernel.Uncovered

/-!
# Proofs/Kernel/Conclusive — planning that does not break off

A planner answers a request with plans or with a reason to refuse it.  Only sizes that are no machine
words keep it from that, and only the kernel of output blocks asks for such: for the span of a block
without columns (`overflows_builtin`).

* `Concludes` — a computation does not break off, with a rule for each way to compose computations;
* `concludes_builtin` — the planners of all other kernels conclude;
* `Request.Vanishes` — the requests whose default block has no columns (`default_eq_overflow_iff`).
-/

namespace NetPlan

namespace Kernel

open Builtin

/-! ## Conclusions -/

/-- A computation comes to a result or is refused for a reason. -/
def Concludes {α : Type} (x : Except Refusal α) : Prop := x ≠ .error .overflow

section Rules

variable {α β : Type} {x : Except Refusal α} {f : α → Except Refusal β} {c : Prop} [Decidable c]

theorem concludes_ok (a : α) : Concludes (.ok a : Except Refusal α) := fun h => nomatch h

theorem concludes_pure (a : α) : Concludes (pure a : Except Refusal α) := concludes_ok a

/-- Refusals for a reason are conclusions. -/
theorem concludes_error {e : Refusal} (h : e ≠ .overflow) :
    Concludes (.error e : Except Refusal α) := fun heq => h (Except.error.inj heq)

theorem concludes_invalid (reason : String) :
    Concludes (.error (.invalid reason) : Except Refusal α) :=
  concludes_error fun h => nomatch h

theorem concludes_notApplicable (reason : String) :
    Concludes (.error (.notApplicable reason) : Except Refusal α) :=
  concludes_error fun h => nomatch h

/-- Work of another kind is refused. -/
theorem concludes_wrongKind (kind : Kind) (r : Request) :
    Concludes (.error (wrongKind kind r) : Except Refusal α) := concludes_invalid _

/-- **A step after a step**, from the results that the first one comes to. -/
theorem Concludes.bind (hx : Concludes x) (hf : ∀ a, x = .ok a → Concludes (f a)) :
    Concludes (x >>= f) := by
  cases x with
  | error e => exact fun h => hx (congrArg Except.error (Except.error.inj h))
  | ok a => exact hf a rfl

/-- Behind a step that concludes, only the next one can break off. -/
theorem Concludes.bind_eq_overflow_iff (hx : Concludes x) :
    x >>= f = .error .overflow ↔ ∃ a, x = .ok a ∧ f a = .error .overflow := by
  cases x with
  | error e =>
    refine ⟨fun h => absurd (congrArg Except.error (Except.error.inj h)) hx, fun h => ?_⟩
    obtain ⟨a, ha, -⟩ := h
    cases ha
  | ok a =>
    refine ⟨fun h => ⟨a, rfl, h⟩, fun h => ?_⟩
    obtain ⟨b, hb, h⟩ := h
    cases hb
    exact h

theorem concludes_ite {y : Except Refusal α} (hx : Concludes x) (hy : Concludes y) :
    Concludes (if c then x else y) := by
  split
  · exact hx
  · exact hy

/-- A check that is refused for a reason. -/
theorem concludes_guard {e : Refusal} {y : Except Refusal α}
    (he : Concludes (.error e : Except Refusal α)) (h : Concludes y) :
    Concludes (do
      if c then throw e
      y) := by
  split
  · exact he
  · exact h

/-- What concludes for every element concludes for the list. -/
theorem Concludes.mapM : ∀ {as : List α}, (∀ a ∈ as, Concludes (f a)) → Concludes (as.mapM f)
  | [], _ => by
      rw [List.mapM_nil]
      exact concludes_pure _
  | a :: as, h => by
      rw [List.mapM_cons]
      exact (h a List.mem_cons_self).bind fun _ _ =>
        (Concludes.mapM fun b hb => h b (List.mem_cons_of_mem _ hb)).bind fun _ _ => concludes_pure _

/-- A loop concludes if its body does. -/
theorem concludes_forIn {g : α → β → Except Refusal (ForInStep β)} (h : ∀ a b, Concludes (g a b)) :
    ∀ (as : List α) (b : β), Concludes (forIn as b g)
  | [], b => by
      rw [List.forIn_nil]
      exact concludes_pure _
  | a :: as, b => by
      rw [List.forIn_cons]
      refine (h a b).bind fun step _ => ?_
      cases step with
      | done b => exact concludes_pure _
      | yield b => exact concludes_forIn h as b

end Rules

/-! ## Parts of planners -/

section Parts

variable {kind : Kind} {name layer : String} {defines extra : Defines} {groups : WorkGroups}
  {arguments : List Argument} {cost : Single} {change : Option WeightsChange}

/-- Launches are planned or refused. -/
theorem concludes_singleLaunch :
    Concludes (singleLaunch kind name layer defines groups arguments cost) := by
  unfold singleLaunch
  split
  · exact concludes_ok _
  · exact concludes_invalid _

/-- A plan of one launch concludes. -/
theorem concludes_launch : Concludes (do
    let plan ← singleLaunch kind name layer defines groups arguments cost
    return [plan]) := concludes_singleLaunch.bind fun _ _ => concludes_pure _

/-- A convolution is planned or refused. -/
theorem concludes_convolutionPlan {w : ConvolutionWork} :
    Concludes (convolutionPlan w name layer extra groups cost change) :=
  concludes_singleLaunch.bind fun _ _ => concludes_pure _

/-- A plan of that convolution alone concludes. -/
theorem concludes_convolutionPlans {w : ConvolutionWork} : Concludes (do
    let plan ← convolutionPlan w name layer extra groups cost change
    return [plan]) := concludes_convolutionPlan.bind fun _ _ => concludes_pure _

/-- A matrix product is planned or refused. -/
theorem concludes_fullyConnectedPlan {w : FullyConnectedWork} :
    Concludes (fullyConnectedPlan w name layer extra groups cost change) :=
  concludes_singleLaunch.bind fun _ _ => concludes_pure _

/-- Weights fit, can be changed, or are refused. -/
theorem concludes_weightsChange? {w : WeightTensor} {e : Element} {o : Options}
    {wanted : List WeightLayout} : Concludes (weightsChange? w e o wanted) := by
  unfold weightsChange?
  split
  · exact concludes_notApplicable _
  split
  · exact concludes_ok _
  split
  · exact concludes_notApplicable _
  split
  · exact concludes_invalid _
  · exact concludes_ok _

end Parts

/-! ### Checks -/

theorem concludes_checkConvolution (w : ConvolutionWork) : Concludes (checkConvolution w) := by
  unfold checkConvolution
  split
  · exact concludes_ite (concludes_invalid _) (concludes_ite (concludes_invalid _)
      (concludes_ite (concludes_invalid _) (concludes_ite (concludes_invalid _)
        (concludes_ite (concludes_invalid _)
          (concludes_ite (concludes_invalid _) (concludes_ok _))))))
  · exact concludes_invalid _

theorem concludes_checkPaddedInput (w : ConvolutionWork) (input : DataTensor) :
    Concludes (checkPaddedInput w input) := by
  unfold checkPaddedInput
  dsimp only
  split
  · exact concludes_ok _
  · exact concludes_notApplicable _

theorem concludes_checkBlock (r : Request) : Concludes (checkBlock r) := by
  obtain ⟨layer, work⟩ := r
  cases work with
  | convolution w =>
    exact (concludes_checkConvolution w).bind fun input _ =>
      (concludes_checkPaddedInput w input).bind fun _ _ => concludes_pure _
  | _ => exact concludes_wrongKind _ _

theorem concludes_checkDepthwise (r : Request) : Concludes (checkDepthwise r) := by
  obtain ⟨layer, work⟩ := r
  cases work with
  | convolution w =>
    exact (concludes_checkConvolution w).bind fun input _ =>
      (concludes_checkPaddedInput w input).bind fun _ _ =>
        concludes_guard (concludes_notApplicable _) (concludes_pure _)
  | _ => exact concludes_wrongKind _ _

theorem concludes_checkFullyConnected (w : FullyConnectedWork) :
    Concludes (checkFullyConnected w) := by
  unfold checkFullyConnected
  split
  · exact concludes_ite (concludes_invalid _) (concludes_ite (concludes_invalid _) (concludes_ok _))
  · exact concludes_invalid _

theorem concludes_checkPooling (w : PoolingWork) : Concludes (checkPooling w) := by
  unfold checkPooling
  split
  · exact concludes_ite (concludes_invalid _) (concludes_ite (concludes_invalid _)
      (concludes_ite (concludes_invalid _) (concludes_ok _)))
  · exact concludes_invalid _

theorem concludes_checkActivation (o : Operands) : Concludes (checkActivation o) := by
  unfold checkActivation
  split
  · exact concludes_invalid _
  refine concludes_ite (concludes_invalid _) ?_
  split
  · exact concludes_ok _
  · exact concludes_ite (concludes_invalid _) (concludes_ok _)

theorem concludes_checkReorder (w : ReorderWork) : Concludes (checkReorder w) := by
  unfold checkReorder
  split
  · exact concludes_ite (concludes_invalid _) (concludes_ite (concludes_invalid _) (concludes_ok _))
  · exact concludes_invalid _

theorem concludes_checkSoftmax (o : Operands) : Concludes (checkSoftmax o) := by
  unfold checkSoftmax
  split
  · exact concludes_ite (concludes_invalid _)
      (concludes_ite (concludes_notApplicable _) (concludes_ok _))
  · exact concludes_invalid _

theorem concludes_checkEltwise (w : EltwiseWork) : Concludes (checkEltwise w) := by
  refine concludes_guard (concludes_invalid _) ?_
  dsimp only
  split
  · exact concludes_invalid _
  · exact concludes_guard (concludes_invalid _) (concludes_pure _)

/-- Parameters are checked one by one to the end. -/
theorem concludes_checkAllPerFeature (features : Nat) : ∀ ts : List (String × DataTensor),
    Concludes (checkAllPerFeature features ts)
  | [] => concludes_ok _
  | (what, t) :: rest => by
      refine Concludes.bind ?_ fun _ _ => concludes_checkAllPerFeature features rest
      unfold checkPerFeature
      split
      · exact concludes_invalid _
      · exact concludes_ok _

theorem concludes_checkConcatenation (o : Operands) (axis : Axis) :
    Concludes (checkConcatenation o axis) := by
  refine concludes_guard (concludes_invalid _) (concludes_guard (concludes_notApplicable _) ?_)
  refine (concludes_forIn (fun input _ => ?_) _ _).bind fun _ _ =>
    concludes_guard (concludes_invalid _) (concludes_pure _)
  split
  · exact concludes_invalid _
  · exact concludes_pure _

/-- There is a share for work items, or a refusal. -/
theorem concludes_batchStyle (e : Element) (outputs batch : Nat) :
    Concludes (BatchStyle.of? e outputs batch) := by
  unfold BatchStyle.of?
  exact concludes_ite (concludes_ite (concludes_notApplicable _) (concludes_ok _))
    (concludes_ite (concludes_notApplicable _) (concludes_ok _))

/-! ## Planners -/

/-- The planner of an implementation concludes, whatever the request. -/
def Implementation.Concludes (i : Implementation) : Prop := ∀ r o, Kernel.Concludes (i.plan r o)

section Planners

variable {w : ConvolutionWork} {input : DataTensor} {layer : String} {o : Options}

theorem concludes_activationRef : activationRef.Concludes := fun ⟨_, work⟩ _ => by
  cases work with
  | activation o => exact (concludes_checkActivation o).bind fun _ _ => concludes_launch
  | _ => exact concludes_wrongKind _ _

theorem concludes_activationOpt : activationOpt.Concludes := fun ⟨_, work⟩ _ => by
  cases work with
  | activation o =>
    exact (concludes_checkActivation o).bind fun _ _ =>
      concludes_guard (concludes_notApplicable _) concludes_launch
  | _ => exact concludes_wrongKind _ _

theorem concludes_eltwiseRef : eltwiseRef.Concludes := fun ⟨_, work⟩ _ => by
  cases work with
  | eltwise w => exact (concludes_checkEltwise w).bind fun _ _ => concludes_launch
  | _ => exact concludes_wrongKind _ _

theorem concludes_poolingRef : poolingRef.Concludes := fun ⟨_, work⟩ _ => by
  cases work with
  | pooling w => exact (concludes_checkPooling w).bind fun _ _ => concludes_launch
  | _ => exact concludes_wrongKind _ _

theorem concludes_poolingAverage : poolingAverage.Concludes := fun ⟨_, work⟩ _ => by
  cases work with
  | pooling w =>
    exact (concludes_checkPooling w).bind fun _ _ =>
      concludes_guard (concludes_notApplicable _) concludes_launch
  | _ => exact concludes_wrongKind _ _

theorem concludes_poolingBlock : poolingBlock.Concludes := fun ⟨_, work⟩ _ => by
  cases work with
  | pooling w =>
    exact (concludes_checkPooling w).bind fun _ _ =>
      concludes_guard (concludes_notApplicable _) concludes_launch
  | _ => exact concludes_wrongKind _ _

theorem concludes_reorderRef : reorderRef.Concludes := fun ⟨_, work⟩ _ => by
  cases work with
  | reorder w => exact (concludes_checkReorder w).bind fun _ _ => concludes_launch
  | _ => exact concludes_wrongKind _ _

theorem concludes_reorderFast : reorderFast.Concludes := fun ⟨_, work⟩ _ => by
  cases work with
  | reorder w => exact (concludes_checkReorder w).bind fun _ _ => concludes_launch
  | _ => exact concludes_wrongKind _ _

theorem concludes_reorderWeights : reorderWeights.Concludes := fun ⟨_, work⟩ _ => by
  cases work with
  | weightsReorder source target => exact concludes_guard (concludes_invalid _) concludes_launch
  | _ => exact concludes_wrongKind _ _

theorem concludes_softmaxRef : softmaxRef.Concludes := fun ⟨_, work⟩ _ => by
  cases work with
  | softmax o axis => exact (concludes_checkSoftmax o).bind fun _ _ => concludes_launch
  | _ => exact concludes_wrongKind _ _

theorem concludes_softmaxItems : softmaxItems.Concludes := fun ⟨_, work⟩ _ => by
  cases work with
  | softmax o axis => exact (concludes_checkSoftmax o).bind fun _ _ => concludes_launch
  | _ => exact concludes_wrongKind _ _

theorem concludes_batchNormRef : batchNormRef.Concludes := fun ⟨layer, work⟩ o => by
  change Kernel.Concludes (planBatchNorm ⟨layer, work⟩ o)
  unfold planBatchNorm
  cases work with
  | batchNorm o epsilon =>
    dsimp only
    split
    · exact (concludes_checkAllPerFeature _ _).bind fun _ _ =>
        concludes_guard (concludes_invalid _) concludes_launch
    · exact concludes_invalid _
  | _ => exact concludes_wrongKind _ _

theorem concludes_scaleRef : scaleRef.Concludes := fun ⟨layer, work⟩ o => by
  change Kernel.Concludes (planScale ⟨layer, work⟩ o)
  unfold planScale
  cases work with
  | scale o =>
    dsimp only
    split
    · exact concludes_invalid _
    · exact concludes_guard (concludes_invalid _)
        ((concludes_checkAllPerFeature _ _).bind fun _ _ => concludes_launch)
  | _ => exact concludes_wrongKind _ _

/-- The parts of a concatenation are planned one by one to the end. -/
theorem concludes_concatenationParts (layer : String) (o : Operands) (axis : Axis) :
    ∀ (index offset : Nat) (inputs : List DataTensor),
      Concludes (concatenationParts layer o axis index offset inputs)
  | _, _, [] => concludes_ok _
  | index, offset, input :: rest =>
      concludes_singleLaunch.bind fun _ _ =>
        (concludes_concatenationParts layer o axis (index + 1) (offset + input.extent axis) rest).bind
          fun _ _ => concludes_pure _

theorem concludes_concatenationRef : concatenationRef.Concludes := fun ⟨_, work⟩ _ => by
  cases work with
  | concatenation o axis =>
    refine (concludes_checkConcatenation o axis).bind fun _ _ =>
      (concludes_concatenationParts _ o axis 0 0 o.inputs).bind fun parts _ => ?_
    cases parts with
    | nil => exact concludes_invalid _
    | cons first rest => exact concludes_pure _
  | _ => exact concludes_wrongKind _ _

theorem concludes_convolutionRef : convolutionRef.Concludes := fun ⟨_, work⟩ _ => by
  cases work with
  | convolution w =>
    exact (concludes_checkConvolution w).bind fun _ _ => concludes_weightsChange?.bind fun _ _ =>
      concludes_convolutionPlans
  | _ => exact concludes_wrongKind _ _

theorem concludes_convolutionGemm : convolutionGemm.Concludes := fun ⟨_, work⟩ _ => by
  cases work with
  | convolution w =>
    exact (concludes_checkConvolution w).bind fun input _ =>
      (concludes_checkPaddedInput w input).bind fun _ _ => concludes_weightsChange?.bind fun _ _ =>
        concludes_convolutionPlans
  | _ => exact concludes_wrongKind _ _

theorem concludes_convolutionBatch : convolutionBatch.Concludes := fun ⟨_, work⟩ _ => by
  cases work with
  | convolution w =>
    exact (concludes_checkConvolution w).bind fun _ _ =>
      concludes_guard (concludes_notApplicable _) ((concludes_batchStyle _ _ _).bind fun _ _ =>
        concludes_weightsChange?.bind fun _ _ => concludes_convolutionPlans)
  | _ => exact concludes_wrongKind _ _

theorem concludes_depthwise : depthwise.Concludes := fun r _ =>
  (concludes_checkDepthwise r).bind fun _ _ =>
    Concludes.bind (concludes_weightsChange?.bind fun _ _ => concludes_convolutionPlan) fun _ _ =>
      concludes_pure _

theorem concludes_fusedRef : fusedRef.Concludes := fun ⟨layer, work⟩ o => by
  change Kernel.Concludes (planFused ⟨layer, work⟩ o)
  unfold planFused
  cases work with
  | fusedConvBnScale w epsilon =>
    dsimp only
    split
    · refine concludes_guard (concludes_invalid _) ((concludes_checkConvolution _).bind fun _ _ =>
        (concludes_checkAllPerFeature _ _).bind fun _ _ =>
          concludes_weightsChange?.bind fun _ _ => ?_)
      exact concludes_singleLaunch.bind fun _ _ => concludes_pure _
    · exact concludes_invalid _
  | _ => exact concludes_wrongKind _ _

theorem concludes_fullyConnectedRef : fullyConnectedRef.Concludes := fun ⟨_, work⟩ _ => by
  cases work with
  | fullyConnected w =>
    exact (concludes_checkFullyConnected w).bind fun _ _ => concludes_weightsChange?.bind fun _ _ =>
      concludes_fullyConnectedPlan
  | _ => exact concludes_wrongKind _ _

theorem concludes_fullyConnectedGemm : fullyConnectedGemm.Concludes := fun ⟨_, work⟩ _ => by
  cases work with
  | fullyConnected w =>
    exact (concludes_checkFullyConnected w).bind fun _ _ => concludes_weightsChange?.bind fun _ _ =>
      concludes_fullyConnectedPlan
  | _ => exact concludes_wrongKind _ _

theorem concludes_fullyConnectedBlock : fullyConnectedBlock.Concludes := fun ⟨_, work⟩ _ => by
  cases work with
  | fullyConnected w =>
    exact (concludes_checkFullyConnected w).bind fun _ _ =>
      concludes_guard (concludes_notApplicable _) (concludes_guard (concludes_notApplicable _)
        (concludes_weightsChange?.bind fun _ _ => concludes_fullyConnectedPlan))
  | _ => exact concludes_wrongKind _ _

theorem concludes_fullyConnectedSingle : fullyConnectedSingle.Concludes := fun ⟨_, work⟩ _ => by
  cases work with
  | fullyConnected w =>
    exact (concludes_checkFullyConnected w).bind fun _ _ => concludes_weightsChange?.bind fun _ _ =>
      concludes_fullyConnectedPlan
  | _ => exact concludes_wrongKind _ _

end Planners

/-! ## Output blocks -/

section Blocks

variable {w : ConvolutionWork} {input : DataTensor} {layer : String} {o : Options} {block : Block}

/-- Rows with outputs, read by windows with elements, have a span. -/
theorem inputSpan?_of_pos {count stride window dilation : Nat} (hcount : 0 < count)
    (hwindow : 0 < window) : inputSpan? count stride window dilation
      = some ((count - 1) * stride + (window - 1) * dilation + 1) := by
  rw [inputSpan?, Machine.sub?_of_le hcount, Machine.sub?_of_le hwindow]
  rfl

/-- **A block with columns and rows is planned or refused.** -/
theorem concludes_planBlock (hx : 0 < w.window.x) (hy : 0 < w.window.y) (hwidth : 0 < block.width)
    (hheight : 0 < block.height) : Concludes (planBlock w input layer o block) := by
  unfold planBlock
  rw [inputSpan?_of_pos hwidth hx, inputSpan?_of_pos hheight hy]
  exact (concludes_ok _).bind fun _ _ => (concludes_ok _).bind fun _ _ =>
    concludes_weightsChange?.bind fun _ _ => concludes_convolutionPlan

/-- **One without columns is not planned.** -/
theorem planBlock_overflows (hwidth : block.width = 0) :
    planBlock w input layer o block = .error .overflow := by
  unfold planBlock
  rw [hwidth]
  rfl

/-- Nothing is launched for empty rows, whatever the block. -/
theorem wide_of_planBlock :
    Yields (fun _ => w.operands.output.size.x ≠ 0) (planBlock w input layer o block) := by
  have hlaunch : Yields (Plan.Launched fun _ => w.operands.output.size.x ≠ 0)
      (planBlock w input layer o block) :=
    yields_bind fun _ => yields_bind fun _ => yields_bind fun _ =>
      launched_convolutionPlan fun hwhole _ _ _ hx =>
        (partitions_iff.mp hwhole).1.1 (by rw [hx]; exact ceilDiv_zero)
  intro plan hplan
  obtain ⟨_, -, -, hwide⟩ := hlaunch plan hplan
  exact hwide

end Blocks

/-- A request whose convolution passes the checks, and has a default block without columns. -/
def Request.Vanishes (r : Request) : Prop :=
  ∃ w input, checkBlock r = .ok (w, input) ∧ Vanishing w

/-- The check hands on the convolution of the request, with its one input. -/
theorem matched_of_checkBlock {r : Request} :
    Yields (fun a => r.work = .convolution a.1 ∧ Matched a.1 a.2) (checkBlock r) := by
  obtain ⟨layer, work⟩ := r
  cases work with
  | convolution w =>
    exact matched_of_checkConvolution.bind fun _ hmatched => yields_bind fun _ =>
      yields_pure ⟨rfl, hmatched⟩
  | _ => exact yields_error _

section BlockPlanners

variable {r : Request} {o : Options} {w : ConvolutionWork} {input : DataTensor}

/-- The default block of a convolution that passes the checks is not planned if it has no columns. -/
theorem planDefault_eq_overflow_iff (hcheck : checkBlock r = .ok (w, input)) :
    planBlock w input r.layer o (defaultBlock w) = .error .overflow ↔ Vanishing w := by
  obtain ⟨-, hmatched⟩ := matched_of_checkBlock _ hcheck
  refine ⟨fun h => defaultBlock_width_eq_zero_iff.mp ?_, fun h =>
    planBlock_overflows (defaultBlock_width_eq_zero_iff.mpr h)⟩
  by_contra hwidth
  exact concludes_planBlock hmatched.window.1 hmatched.window.2 (Nat.pos_of_ne_zero hwidth)
    defaultBlock_height_pos h

/-- No listed block is empty, so that planning for it concludes. -/
theorem concludes_planListed (hcheck : checkBlock r = .ok (w, input)) {block : Block}
    (hblock : block ∈ convolutionBlocks) : Concludes (planBlock w input r.layer o block) := by
  obtain ⟨-, hmatched⟩ := matched_of_checkBlock _ hcheck
  obtain ⟨hwidth, hheight⟩ := convolutionBlocks_pos block hblock
  exact concludes_planBlock hmatched.window.1 hmatched.window.2 hwidth hheight

/-- **What is made of the default plan** breaks off for the requests that vanish, and for no other. -/
theorem default_eq_overflow_iff (k : Plan → List Plan) : (do
    let (w, input) ← checkBlock r
    let plan ← planBlock w input r.layer o (defaultBlock w)
    return k plan) = .error .overflow ↔ r.Vanishes := by
  rw [(concludes_checkBlock r).bind_eq_overflow_iff]
  constructor
  · rintro ⟨⟨w, input⟩, hcheck, h⟩
    refine ⟨w, input, hcheck, (planDefault_eq_overflow_iff (o := o) hcheck).mp ?_⟩
    by_contra hconcludes
    exact Concludes.bind hconcludes (fun _ _ => concludes_pure _) h
  · rintro ⟨w, input, hcheck, hvanishing⟩
    refine ⟨(w, input), hcheck, ?_⟩
    dsimp only
    rw [(planDefault_eq_overflow_iff (o := o) hcheck).mpr hvanishing]
    rfl

/-- A variant of the table is planned or refused. -/
theorem concludes_planVariant_some (i : Nat) :
    Concludes (planConvolutionBlockVariant (some i) r o) := by
  refine (concludes_checkBlock r).bind fun (w, input) hcheck => ?_
  dsimp only
  cases hblock : convolutionBlocks[i]? with
  | none => exact concludes_notApplicable _
  | some block =>
    exact (concludes_planListed hcheck (List.mem_of_getElem? hblock)).bind fun _ _ =>
      concludes_pure _

/-- Where the default block has no columns, the first of the table is refused before it. -/
theorem concludes_planAll : Concludes (planConvolutionBlockAll r o) := by
  refine (concludes_checkBlock r).bind fun (w, input) hcheck => ?_
  refine (Concludes.mapM fun entry hentry =>
    (concludes_planListed hcheck (List.fst_mem_of_mem_zipIdx hentry)).bind fun _ _ =>
      concludes_pure _).bind fun tuned htuned => ?_
  refine Concludes.bind (fun hdefault => ?_) fun _ _ => concludes_pure _
  have hvanishing := (planDefault_eq_overflow_iff hcheck).mp hdefault
  obtain ⟨_, hfirst⟩ := exists_mapM_iff.mp ⟨tuned, htuned⟩ (⟨1, 1, 1⟩, 0)
    (List.mem_of_getElem? (i := 0) rfl)
  obtain ⟨plan, hplan, -⟩ := bind_eq_ok_iff.mp hfirst
  exact wide_of_planBlock plan hplan hvanishing.empty

end BlockPlanners

/-- **Every other kernel concludes.** -/
theorem concludes_builtin : ∀ i ∈ Registry.builtin.implementations,
    i.Concludes ∨ i = convolutionBlock := by
  simp only [Registry.builtin, List.forall_mem_cons, List.not_mem_nil, false_imp_iff, implies_true,
    and_true]
  exact ⟨.inl concludes_convolutionRef, .inr trivial, .inl concludes_convolutionGemm,
    .inl concludes_convolutionBatch, .inl concludes_depthwise, .inl concludes_fullyConnectedRef,
    .inl concludes_fullyConnectedGemm, .inl concludes_fullyConnectedBlock,
    .inl concludes_fullyConnectedSingle, .inl concludes_poolingRef, .inl concludes_poolingAverage,
    .inl concludes_poolingBlock, .inl concludes_activationRef, .inl concludes_activationOpt,
    .inl concludes_eltwiseRef, .inl concludes_reorderRef, .inl concludes_reorderFast,
    .inl concludes_reorderWeights, .inl concludes_softmaxRef, .inl concludes_softmaxItems,
    .inl concludes_concatenationRef, .inl concludes_batchNormRef, .inl concludes_scaleRef,
    .inl concludes_fusedRef⟩

/-- **Planning with a builtin kernel breaks off for a default block without columns only.** -/
theorem overflows_builtin {i : Implementation} {r : Request} {o : Options}
    (hi : i ∈ Registry.builtin.implementations) (h : i.plan r o = .error .overflow) :
    i = convolutionBlock ∧ r.Vanishes := by
  obtain hconcludes | rfl := concludes_builtin i hi
  · exact absurd h (hconcludes r o)
  · exact ⟨rfl, (default_eq_overflow_iff fun plan => [plan]).mp h⟩

end Kernel

/-! ## Selections -/

namespace Selector

open Kernel

variable {s : Selector} {r : Request} {o : Options}

/-- Without forced kernels all candidates are asked. -/
theorem asked_eq_of_none (h : s.overrides = .none) : ∀ is : List Implementation,
    s.asked r o is = is
  | [] => rfl
  | i :: is => by
      have hdecides : s.decides r o i = false := by
        rw [decides, h]
        rfl
      rw [asked, hdecides, asked_eq_of_none h is]
      rfl

/-- The journal of a question has it on record if planning broke off. -/
theorem isBreak_ofAnswer_iff {i : Implementation} {q : Question}
    {answer : Except Refusal (List Plan)} :
    (Event.ofAnswer i q answer).any Event.isBreak = true ↔ ¬ Concludes answer := by
  unfold Event.ofAnswer Concludes
  split
  case h_1 => simp [Event.isBreak]
  case h_2 hno => simpa [Event.isBreak] using hno

/-- **A comparison of costs breaks off** with one of the kernels that it asks, if the device has the
precision. -/
theorem brokeSince_naive_iff (session : Session) :
    ((s.naive r o).run.run session).2.brokeSince session = true ↔ s.deviceError? r = none ∧
      ∃ i ∈ s.asked r o (s.candidates r o), ¬ Concludes (i.plan r o) := by
  have hrun : ((s.naive r o).run.run session).2 = if (s.deviceError? r).isNone then
      session.note ((s.asked r o (s.candidates r o)).flatMap fun i =>
        Event.ofAnswer i .plan (i.plan r o)) else session := by
    unfold naive
    split <;> rfl
  rw [hrun, Session.brokeSince]
  cases s.deviceError? r with
  | none =>
    rw [if_pos (by rfl), Session.note, List.drop_left, List.any_flatMap, List.any_eq_true]
    simp only [isBreak_ofAnswer_iff, true_and]
  | some e => simp

/-- **A selection is on record as broken off** just if planning of a candidate breaks off that is
asked. -/
theorem brokeSince_select_iff (hmode : s.mode = .disabled) (session : Session) :
    ((s.select r o).run.run session).2.brokeSince session = true ↔ s.deviceError? r = none ∧
      ∃ i ∈ s.asked r o (s.candidates r o), ¬ Concludes (i.plan r o) := by
  rw [select, if_pos hmode]
  exact brokeSince_naive_iff session

end Selector

end NetPlan

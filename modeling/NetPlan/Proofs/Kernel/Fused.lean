import NetPlan.Proofs.Kernel.Coverage

/-!
# Proofs/Kernel/Fused — what a fused kernel has to cover

A convolution, its normalization and its scaling each have a kernel; one request takes the place of
the three when they are fused.  The kernel for it offers less than the kernels for the parts:

* `fused_accepts_iff` — it covers undilated convolutions in single precision and planar order, with
  one bias per feature at most;
* `planFused_eq_ok` — what it covers it plans, where the shapes go together.
-/

namespace NetPlan

open Kernel Kernel.Builtin

namespace Kernel

/-! ## Launches -/

theorem greatestDivisorUpTo_spec (n : Nat) :
    ∀ d, greatestDivisorUpTo n d ≠ 0 ∧ n % greatestDivisorUpTo n d = 0
  | 0 => ⟨Nat.one_ne_zero, Nat.mod_one n⟩
  | d + 1 => by
      rw [greatestDivisorUpTo]
      split
      case isTrue h => exact ⟨by omega, h⟩
      case isFalse => exact greatestDivisorUpTo_spec n d

theorem partitions_iff {w : WorkGroups} : w.partitions = true ↔
    (w.global.d0 ≠ 0 ∧ w.group.d0 ≠ 0 ∧ w.global.d0 % w.group.d0 = 0) ∧
    (w.global.d1 ≠ 0 ∧ w.group.d1 ≠ 0 ∧ w.global.d1 % w.group.d1 = 0) ∧
    (w.global.d2 ≠ 0 ∧ w.group.d2 ≠ 0 ∧ w.global.d2 % w.group.d2 = 0) := by
  simp [WorkGroups.partitions, Grid.toList, and_assoc]

/-- A convolution can be launched where its output has elements. -/
theorem partitions_convolutionGroups {w : ConvolutionWork}
    (hfeature : w.operands.output.size.feature ≠ 0) (hbatch : w.operands.output.size.batch ≠ 0)
    (hx : w.operands.output.size.x ≠ 0) (hy : w.operands.output.size.y ≠ 0) :
    (convolutionGroups w).partitions = true := by
  have hdivisor := greatestDivisorUpTo_spec
    (w.operands.output.size.feature * w.operands.output.size.batch)
  exact partitions_iff.mpr ⟨⟨Nat.mul_ne_zero hfeature hbatch, (hdivisor _).1, (hdivisor _).2⟩,
    ⟨hx, one_ne_zero, Nat.mod_one _⟩, hy, one_ne_zero, Nat.mod_one _⟩

theorem singleLaunch_eq_ok_iff {kind : Kind} {name layer : String} {defines : Defines}
    {groups : WorkGroups} {arguments : List Argument} {cost : Single} :
    (∃ plan, singleLaunch kind name layer defines groups arguments cost = .ok plan) ↔
      groups.partitions = true := by
  unfold singleLaunch
  split
  case isTrue h => exact ⟨fun _ => h, fun _ => ⟨_, rfl⟩⟩
  case isFalse h =>
    refine ⟨fun hplan => ?_, fun hp => absurd hp h⟩
    obtain ⟨plan, hplan⟩ := hplan
    cases hplan

/-! ## The fused kernel -/

/-- What the fused kernel is written for. -/
structure FusedFit (w : ConvolutionWork) : Prop where
  inputs : ∀ t ∈ w.operands.inputs, t.element = .f32 ∧ t.layout = .bfyx
  output : w.operands.output.element = .f32 ∧ w.operands.output.layout = .bfyx
  weights : w.filter.weights.element = .f32
  bias : w.filter.biasFeature w.operands.output ≠ .biasPerOutput
  undilated : w.dilation = .one

/-- What the fused kernel offers, the arrangement of the weights apart. -/
def FusedOffers (f : Feature) : Prop :=
  f.isInputWeightLayout = true ∨ f ∈ fusedRef.key.features

instance (f : Feature) : Decidable (FusedOffers f) := inferInstanceAs (Decidable (_ ∨ _))

@[simp] theorem fusedOffers_inputType (e : Element) : FusedOffers (.inputType e) ↔ e = .f32 := by
  cases e <;> decide

@[simp] theorem fusedOffers_outputType (e : Element) : FusedOffers (.outputType e) ↔ e = .f32 := by
  cases e <;> decide

@[simp] theorem fusedOffers_inputLayout (l : DataLayout) :
    FusedOffers (.inputLayout l) ↔ l = .bfyx := by
  cases l <;> decide

@[simp] theorem fusedOffers_outputLayout (l : DataLayout) :
    FusedOffers (.outputLayout l) ↔ l = .bfyx := by
  cases l <;> decide

@[simp] theorem fusedOffers_inputWeightType (e : WeightElement) :
    FusedOffers (.inputWeightType e) ↔ e = .f32 := by
  cases e <;> decide

theorem fusedOffers_tensorFeatures (t : DataTensor) : ∀ f ∈ tensorFeatures t, FusedOffers f := by
  intro f hf
  simp only [tensorFeatures, List.mem_append] at hf
  have hall : FusedOffers .batching ∧ FusedOffers .pitches ∧ FusedOffers .offset := by decide
  rcases hf with (hf | hf) | hf <;> split at hf <;> simp_all

theorem fusedOffers_biasFeature (f : Filter) (output : DataTensor) :
    FusedOffers (f.biasFeature output) ↔ f.biasFeature output ≠ .biasPerOutput := by
  unfold Filter.biasFeature
  split
  · decide
  · split <;> decide

/-- **The fused kernel offers all that a convolution needs just where it fits.** -/
theorem fusedFit_iff {w : ConvolutionWork} :
    FusedFit w ↔ ∀ f ∈ w.features, FusedOffers f := by
  have hweights : FusedOffers (.inputWeightLayout w.filter.weights.layout) := Or.inl rfl
  have hsplit : FusedOffers .split := by decide
  have hdilation : ¬ FusedOffers .dilation := by decide
  have hdifferent : ¬ FusedOffers .differentTypes := by decide
  have hif : ∀ (c : Prop) [Decidable c] (f : Feature),
      (∀ g ∈ (if c then [f] else []), FusedOffers g) ↔ (c → FusedOffers f) := by
    intro c _ f
    split <;> simp_all
  simp only [ConvolutionWork.features, Operands.features, Filter.features,
    List.forall_mem_append, List.forall_mem_flatMap, List.forall_mem_cons, hif, hweights, hsplit,
    hdilation, hdifferent, fusedOffers_biasFeature, fusedOffers_inputType,
    fusedOffers_outputType, fusedOffers_inputLayout, fusedOffers_outputLayout,
    fusedOffers_inputWeightType]
  have htensor : ∀ t, (∀ f ∈ tensorFeatures t, FusedOffers f) ↔ True := fun t =>
    iff_true_intro (fusedOffers_tensorFeatures t)
  simp only [htensor, List.not_mem_nil, false_imp_iff, implies_true, and_true, true_and]
  constructor
  · rintro ⟨hinputs, houtput, hw, hb, hd⟩
    simp_all
  · intro h
    constructor <;> simp_all

/-- **The fused kernel is a candidate just where it fits.** -/
theorem fused_accepts_iff (d : Device) (layer : String) (w : ConvolutionWork) (epsilon : Single) :
    (Selector.builtin d).accepts ⟨layer, .fusedConvBnScale w epsilon⟩
      OpKind.fusedConvBnScale.options fusedRef = true ↔ FusedFit w := by
  have hdevice : d.canRun fusedRef.key = true := Bool.or_eq_true_iff.mpr (Or.inl (by decide))
  have hkey : (OpKind.fusedConvBnScale.options.requestKey
      ⟨layer, .fusedConvBnScale w epsilon⟩).features
      = w.features.filter fun f : Feature => !f.isInputWeightLayout := by
    change ((w.features ++ []).filter fun f : Feature => !f.isInputWeightLayout) = _
    rw [List.append_nil]
  unfold Selector.accepts
  rw [Bool.and_eq_true_iff, Key.supports_iff, hkey, fusedFit_iff]
  change _ ∧ d.canRun fusedRef.key = true ↔ _
  simp only [hdevice, and_true, List.mem_filter, FusedOffers]
  refine forall_congr' fun f => ?_
  cases f.isInputWeightLayout <;> simp

/-! ## What the kernels of the parts check -/

/-- Every convolution kernel checks the shapes first. -/
theorem checkConvolution_of_plan {i : Implementation} {layer : String} {w : ConvolutionWork}
    {o : Options} {plans : List Plan} (hi : i ∈ Registry.builtin.ofKind .convolution)
    (h : i.plan ⟨layer, .convolution w⟩ o = .ok plans) :
    ∃ input, checkConvolution w = .ok input := by
  have hall : Registry.builtin.ofKind .convolution
      = [convolutionRef, convolutionBlock, convolutionGemm, convolutionBatch, depthwise] := rfl
  rw [hall] at hi
  simp only [List.mem_cons, List.not_mem_nil, or_false] at hi
  rcases hi with rfl | rfl | rfl | rfl | rfl
  · obtain ⟨input, hcheck, -⟩ := bind_eq_ok_iff.mp h
    exact ⟨input, hcheck⟩
  · obtain ⟨_, hblock, -⟩ := bind_eq_ok_iff.mp h
    obtain ⟨input, hcheck, -⟩ := bind_eq_ok_iff.mp hblock
    exact ⟨input, hcheck⟩
  · obtain ⟨input, hcheck, -⟩ := bind_eq_ok_iff.mp h
    exact ⟨input, hcheck⟩
  · obtain ⟨input, hcheck, -⟩ := bind_eq_ok_iff.mp h
    exact ⟨input, hcheck⟩
  · obtain ⟨_, hdepth, -⟩ := bind_eq_ok_iff.mp h
    obtain ⟨input, hcheck, -⟩ := bind_eq_ok_iff.mp hdepth
    exact ⟨input, hcheck⟩

theorem inputs_of_checkConvolution {w : ConvolutionWork} {input : DataTensor}
    (h : checkConvolution w = .ok input) : w.operands.inputs = [input] := by
  unfold checkConvolution at h
  split at h
  case h_1 first hfirst =>
    dsimp only at h
    repeat' split at h
    all_goals cases h
    exact hfirst
  case h_2 => cases h

/-- The check of a convolution reads no more of the output than its size. -/
theorem checkConvolution_withOperands (w : ConvolutionWork) (o : Operands)
    (hinputs : o.inputs = w.operands.inputs) (houtput : o.output.size = w.operands.output.size) :
    checkConvolution { w with operands := o } = checkConvolution w := by
  unfold checkConvolution
  dsimp only
  rw [hinputs, houtput]

theorem checkAllPerFeature_eq_ok_iff {features : Nat} : ∀ (ts : List (String × DataTensor)),
    checkAllPerFeature features ts = .ok () ↔ ∀ t ∈ ts, t.2.count = features
  | [] => by simp [checkAllPerFeature]
  | (what, t) :: ts => by
      rw [checkAllPerFeature, bind_eq_ok_iff, List.forall_mem_cons,
        ← checkAllPerFeature_eq_ok_iff ts]
      unfold checkPerFeature
      split <;> simp_all

theorem weightsChange?_eq_ok {o : Options} (ho : o.allowWeightsReorder = true)
    (weights : WeightTensor) (target : WeightLayout) :
    ∃ change, weightsChange? weights .f32 o [target] = .ok change := by
  unfold weightsChange?
  dsimp only [WeightElement.ofElement?]
  rw [ho]
  split
  · exact ⟨_, rfl⟩
  · exact ⟨_, rfl⟩

/-- **The fused kernel plans what it fits**, where the shapes go together and there is something to
write. -/
theorem planFused_eq_ok {w : ConvolutionWork} {o : Options} (layer : String) (epsilon : Single)
    {input : DataTensor} {rest : List DataTensor} (hinputs : w.operands.inputs = input :: rest)
    (hlength : rest.length = 3 ∨ rest.length = 4) (hsingle : input.element = .f32)
    (hcheck : checkConvolution { w with operands := { w.operands with inputs := [input] } }
      = .ok input)
    (hrest : ∀ t ∈ rest, t.count = w.operands.output.size.feature)
    (ho : o.allowWeightsReorder = true) (hgroups : (convolutionGroups w).partitions = true) :
    ∃ plan, planFused ⟨layer, .fusedConvBnScale w epsilon⟩ o = .ok [plan] ∧
      plan.isEmpty = false := by
  obtain ⟨change, hchange⟩ := weightsChange?_eq_ok ho w.filter.weights .oiyx
  unfold planFused
  dsimp only
  rw [hinputs]
  dsimp only
  have hper : checkAllPerFeature w.operands.output.size.feature
      (["mean", "variance", "scale", "scale bias"].zip rest) = .ok () :=
    (checkAllPerFeature_eq_ok_iff _).mpr fun t ht => hrest t.2 (List.of_mem_zip ht).2
  rw [if_neg (by omega), hcheck, hper, hsingle, hchange, singleLaunch, if_pos]
  · exact ⟨_, rfl, rfl⟩
  · exact hgroups

end Kernel

end NetPlan

import NetPlan.Proofs.Kernel.Selected

/-!
# Proofs/Kernel/Granted — weights that were asked for are not asked for again

A plan may ask for its weights in another arrangement or element type.  A graph that grants this holds
them in a buffer, and the format of the buffer tells the arrangement back; a flat arrangement has no
format of its own and comes back in four dimensions.

* `Follows` — where one computation has a result, another has one that goes with it;
* `Implementation.Grants` — asked again with weights that it reads, an implementation plans launches of
  the same size and with the same arguments, and asks for no other weights;
* `change_suffices` — so a change of weights that a builtin implementation asks for is enough, whatever it
  was asked and although the arrangement is only known through the buffer.
-/

namespace NetPlan

open Kernel Kernel.Builtin

/-! ## Weights in a graph -/

namespace WeightTensor

/-- The buffer in which a graph holds weights. -/
def buffer (w : WeightTensor) : Layout :=
  .dense w.element.toElement (.ofWeightLayout w.layout) ⟨w.outputs, w.inputs, w.x, w.y⟩

/-- As many output and input features and the same window, however they are laid out. -/
structure SameExtents (v w : WeightTensor) : Prop where
  outputs : v.outputs = w.outputs
  inputs : v.inputs = w.inputs
  x : v.x = w.x
  y : v.y = w.y

theorem SameExtents.relaid {v w : WeightTensor} (h : v.SameExtents w) (layout : WeightLayout) :
    ({ v with layout } : WeightTensor) = { w with element := v.element, layout } := by
  obtain ⟨houtputs, hinputs, hx, hy⟩ := h
  simp only [houtputs, hinputs, hx, hy]

/-- **A buffer gives weights back**, if not in the same arrangement: what reads the one reads the
other. -/
theorem exists_held (w : WeightTensor) : ∃ layout, w.buffer.weightTensor = .ok { w with layout } ∧
    ∀ name input, Reads name input w → Reads name input { w with layout } := by
  have hown : weightsMatch w.layout [w.layout] = true := by simp [weightsMatch]
  obtain ⟨layout, hlayout, -⟩ := Layout.weightsMatch_ofWeightLayout hown
  refine ⟨layout, ?_, fun name input h => ?_⟩
  · have hdense : w.buffer.padding.isNone = true := rfl
    have hback : w.buffer.element.weightElement = .ok w.element := by
      change w.element.toElement.weightElement = _
      cases w.element <;> rfl
    change w.buffer.format.weightLayout = _ at hlayout
    rw [Layout.weightTensor, hdense, hback, hlayout]
    rfl
  · obtain ⟨helement, hmatch⟩ := reads_iff.mp h
    obtain ⟨layout', hlayout', hmatch'⟩ := Layout.weightsMatch_ofWeightLayout hmatch
    obtain rfl : layout = layout' := Except.ok.inj (hlayout.symm.trans hlayout')
    exact reads_iff.mpr ⟨helement, hmatch'⟩

end WeightTensor

namespace Kernel

/-- The work with other weights. -/
def Work.withWeights (v : WeightTensor) : Work → Work
  | .convolution w => .convolution { w with filter := { w.filter with weights := v } }
  | .fullyConnected w => .fullyConnected { w with filter := { w.filter with weights := v } }
  | .fusedConvBnScale w epsilon =>
    .fusedConvBnScale { w with filter := { w.filter with weights := v } } epsilon
  | work => work

/-- The request with other weights. -/
def Request.withWeights (r : Request) (v : WeightTensor) : Request :=
  { r with work := r.work.withWeights v }

/-! ## Questions -/

/-- What an implementation can be asked for: its plan, the plan of a variant, or every plan. -/
inductive Question where
  | preset
  | variant (index : Option Nat)
  | every
  deriving DecidableEq

/-- What answers a question. -/
def Implementation.answer (i : Implementation) : Question → Planner
  | .preset => i.plan
  | .variant index => i.planVariant index
  | .every => i.planAll

theorem Implementation.gives_of_answer {i : Implementation} {question : Question} {r : Request}
    {o : Options} {plans : List Plan} (h : i.answer question r o = .ok plans) {plan : Plan}
    (hplan : plan ∈ plans) : i.Gives r o plan := by
  cases question with
  | preset => exact ⟨plans, hplan, Or.inl h⟩
  | variant index => exact ⟨plans, hplan, Or.inr (Or.inl ⟨index, h⟩)⟩
  | every => exact ⟨plans, hplan, Or.inr (Or.inr h)⟩

/-! ## Computations that follow each other -/

section Follows

variable {ε α β γ δ : Type} {R : α → β → Prop} {S : γ → δ → Prop}

/-- Where the one computation has a result, the other has one that goes with it. -/
def Follows (R : α → β → Prop) (x : Except ε α) (y : Except ε β) : Prop :=
  ∀ a, x = .ok a → ∃ b, y = .ok b ∧ R a b

theorem follows_error (e : ε) (y : Except ε β) : Follows R (.error e) y := fun _ h => nomatch h

theorem follows_pure {a : α} {b : β} (h : R a b) :
    Follows R (pure a : Except ε α) (pure b) := fun _ ha => ⟨b, rfl, Except.ok.inj ha ▸ h⟩

theorem Follows.bind {x : Except ε α} {y : Except ε β} {f : α → Except ε γ} {g : β → Except ε δ}
    (h : Follows R x y) (hk : ∀ a b, R a b → Follows S (f a) (g b)) :
    Follows S (x >>= f) (y >>= g) := fun c hc => by
  obtain ⟨a, hx, ha⟩ := bind_eq_ok_iff.mp hc
  obtain ⟨b, hy, hab⟩ := h a hx
  obtain ⟨d, hb, hcd⟩ := hk a b hab c ha
  exact ⟨d, bind_eq_ok_iff.mpr ⟨b, hy, hb⟩, hcd⟩

/-- After the same computation. -/
theorem follows_bind (x : Except ε α) {f : α → Except ε γ} {g : α → Except ε δ}
    (hk : ∀ a, x = .ok a → Follows S (f a) (g a)) : Follows S (x >>= f) (x >>= g) := fun c hc => by
  obtain ⟨a, hx, ha⟩ := bind_eq_ok_iff.mp hc
  obtain ⟨d, hb, hcd⟩ := hk a hx c ha
  exact ⟨d, bind_eq_ok_iff.mpr ⟨a, hx, hb⟩, hcd⟩

/-- Behind the same check. -/
theorem follows_guard {c : Prop} [Decidable c] (y : Except ε Unit) {f : Unit → Except ε γ}
    {g : Unit → Except ε δ} (hk : Follows S (f ()) (g ())) :
    Follows S (if c then y >>= f else f ()) (if c then y >>= g else g ()) := by
  split
  · exact follows_bind y fun _ _ => hk
  · exact hk

theorem follows_mapM {f : α → Except ε γ} {g : α → Except ε δ} {as : List α}
    (h : ∀ a, Follows S (f a) (g a)) : Follows (List.Forall₂ S) (as.mapM f) (as.mapM g) := by
  induction as with
  | nil =>
    rw [List.mapM_nil, List.mapM_nil]
    exact follows_pure .nil
  | cons a as ih =>
    rw [List.mapM_cons, List.mapM_cons]
    exact (h a).bind fun c d hcd => ih.bind fun cs ds hcds => follows_pure (.cons hcd hcds)

end Follows

/-! ## Plans for other weights -/

/-- Launches of the same size and with the same arguments, at the same cost and of the same variant, for
which no other weights are asked. -/
structure Plan.Repeats (again plan : Plan) : Prop where
  change : again.weightsChange = none
  groups : again.launches.map (·.groups) = plan.launches.map (·.groups)
  arguments : again.launches.map (·.arguments) = plan.launches.map (·.arguments)
  cost : again.cost = plan.cost
  variant : again.variant = plan.variant

/-- A change of these weights into others of the same extents. -/
structure WeightsChange.Of (change : WeightsChange) (w : WeightTensor) : Prop where
  source : change.source = w
  target : change.target.SameExtents w

/-- A plan asks for a change of the given weights if for any, and is repeated without one. -/
structure Plan.Granted (w : WeightTensor) (plan again : Plan) : Prop where
  asked : ∀ change, plan.weightsChange = some change → change.Of w
  repeats : again.Repeats plan

/-- A planner that has a plan for some weights has the like for every arrangement of them that the kernel
of the name reads, and is content with it. -/
def Planner.Grants (name : String) (planner : Planner) : Prop :=
  ∀ r o o' f element layout, r.work.filter? = some f →
    (∀ operands input rest, r.work.operands? = some operands → operands.inputs = input :: rest →
      Reads name input.element { f.weights with element, layout }) →
    Follows (List.Forall₂ (Plan.Granted f.weights)) (planner r o)
      (planner (r.withWeights { f.weights with element, layout }) o')

/-- Whatever it is asked, an implementation grants. -/
def Implementation.Grants (i : Implementation) : Prop :=
  ∀ question, Planner.Grants i.name (i.answer question)

theorem grants_fixed {name : String} {kind : Kind} {key : Key} {planner : Planner}
    (h : Planner.Grants name planner) : (Implementation.fixed name kind key planner).Grants
  | .preset => h
  | .variant none => h
  | .variant (some _) => fun _ _ _ _ _ _ _ _ => follows_error _ _
  | .every => h

section Changes

variable {name : String} {input : Element} {w : WeightTensor} {o o' : Options}
  {wanted wanted' : List WeightLayout}

theorem of_weightsChange? {given : Option WeightsChange}
    (h : weightsChange? w input o wanted = .ok given) : ∀ change, given = some change → change.Of w := by
  rintro change rfl
  unfold weightsChange? at h
  split at h
  · cases h
  split at h
  · cases h
  split at h
  · cases h
  split at h
  · cases h
  · cases h
    exact ⟨rfl, rfl, rfl, rfl, rfl⟩

/-- **Weights that are read are not asked for.** -/
theorem weightsChange?_of_reads (hwants : Wants name input w.layout wanted) (h : Reads name input w) :
    weightsChange? w input o wanted = .ok none := by
  obtain ⟨helement, hmatch⟩ := reads_iff.mp h
  rw [weightsChange?, helement]
  exact if_pos ⟨rfl, hwants.all hmatch⟩

/-- Behind the question for other weights, once asked and once not. -/
theorem follows_changed {β γ : Type} {S : β → γ → Prop} {v : WeightTensor}
    {f : Option WeightsChange → Except Refusal β} {g : Option WeightsChange → Except Refusal γ}
    (hwants : Wants name input v.layout wanted') (h : Reads name input v)
    (hk : ∀ given, (∀ change, given = some change → change.Of w) → Follows S (f given) (g none)) :
    Follows S (weightsChange? w input o wanted >>= f) (weightsChange? v input o' wanted' >>= g) := by
  rw [weightsChange?_of_reads hwants h]
  intro b hb
  obtain ⟨given, hgiven, hb⟩ := bind_eq_ok_iff.mp hb
  exact hk given (of_weightsChange? hgiven) b hb

/-- The same launch with other definitions, for weights that are read. -/
theorem follows_singleLaunch {kind : Kind} {entry layer : String} {defines defines' : Defines}
    {groups : WorkGroups} {arguments : List Argument} {cost : Single} {given : Option WeightsChange}
    (hgiven : ∀ change, given = some change → change.Of w) :
    Follows (fun plan again => Plan.Granted w { plan with weightsChange := given }
        { again with weightsChange := none })
      (singleLaunch kind entry layer defines groups arguments cost)
      (singleLaunch kind entry layer defines' groups arguments cost) := by
  unfold singleLaunch
  split
  · exact follows_pure ⟨hgiven, rfl, rfl, rfl, rfl, rfl⟩
  · exact follows_error _ _

theorem follows_launches {kind : Kind} {entry layer : String} {defines defines' : Defines}
    {groups : WorkGroups} {arguments : List Argument} {cost : Single} {given : Option WeightsChange}
    (hgiven : ∀ change, given = some change → change.Of w) :
    Follows (List.Forall₂ (Plan.Granted w))
      (do
        let plan ← singleLaunch kind entry layer defines groups arguments cost
        return [{ plan with weightsChange := given }])
      (do
        let plan ← singleLaunch kind entry layer defines' groups arguments cost
        return [{ plan with weightsChange := none }]) :=
  (follows_singleLaunch hgiven).bind fun _ _ h => follows_pure (.cons h .nil)

end Changes

/-! ### Convolutions -/

section Convolutions

variable {w : ConvolutionWork} {v : WeightTensor} {name layer : String} {extra extra' : Defines}
  {groups : WorkGroups} {cost : Single} {given : Option WeightsChange}

theorem follows_convolutionPlan (hgiven : ∀ change, given = some change → change.Of w.filter.weights) :
    Follows (Plan.Granted w.filter.weights) (convolutionPlan w name layer extra groups cost given)
      (convolutionPlan { w with filter := { w.filter with weights := v } } name layer extra' groups cost
        none) :=
  (follows_singleLaunch hgiven).bind fun _ _ h => follows_pure h

theorem follows_convolutionPlans
    (hgiven : ∀ change, given = some change → change.Of w.filter.weights) :
    Follows (List.Forall₂ (Plan.Granted w.filter.weights))
      (do
        let plan ← convolutionPlan w name layer extra groups cost given
        return [plan])
      (do
        let plan ← convolutionPlan { w with filter := { w.filter with weights := v } } name layer extra'
          groups cost none
        return [plan]) :=
  (follows_convolutionPlan hgiven).bind fun _ _ h => follows_pure (.cons h .nil)

theorem grants_convolutionRef : convolutionRef.Grants :=
  grants_fixed fun ⟨_, work⟩ _ _ _ _ _ hf hreads => by
    cases work with
    | convolution w =>
      cases hf
      refine follows_bind (checkConvolution w) fun input hinput => ?_
      exact follows_changed (wants_listed _ _ _)
        (hreads _ _ _ rfl (inputs_of_checkConvolution hinput)) fun _ => follows_convolutionPlans
    | _ => exact follows_error _ _

theorem grants_convolutionGemm : convolutionGemm.Grants :=
  grants_fixed fun ⟨_, work⟩ _ _ _ _ _ hf hreads => by
    cases work with
    | convolution w =>
      cases hf
      refine follows_bind (checkConvolution w) fun input hinput =>
        follows_bind (checkPaddedInput w input) fun _ _ => ?_
      exact follows_changed (wants_readable _ _ _)
        (hreads _ _ _ rfl (inputs_of_checkConvolution hinput)) fun _ => follows_convolutionPlans
    | _ => exact follows_error _ _

theorem grants_convolutionBatch : convolutionBatch.Grants :=
  grants_fixed fun ⟨_, work⟩ _ _ _ _ _ hf hreads => by
    cases work with
    | convolution w =>
      cases hf
      refine follows_bind (checkConvolution w) fun input hinput =>
        follows_guard _ (follows_bind (BatchStyle.of? _ _ _) fun style _ => ?_)
      exact follows_changed (wants_readable _ _ _)
        (hreads _ _ _ rfl (inputs_of_checkConvolution hinput)) fun _ => follows_convolutionPlans
    | _ => exact follows_error _ _

/-- The planes of the statistics and the convolution itself are checked on extents alone. -/
theorem grants_fusedRef : fusedRef.Grants :=
  grants_fixed fun ⟨_, work⟩ _ _ _ _ _ hf hreads => by
    cases work with
    | fusedConvBnScale w epsilon =>
      cases hf
      unfold planFused
      dsimp only [Request.withWeights, Work.withWeights]
      split
      case h_1 input rest hinputs =>
        refine follows_guard _ (follows_bind _ fun _ _ => follows_bind _ fun _ _ => ?_)
        exact follows_changed (wants_readable _ _ _) (hreads _ _ _ rfl hinputs) fun _ => follows_launches
      case h_2 => exact follows_error _ _
    | _ => exact follows_error _ _

end Convolutions

/-! ### Tunable kernels -/

section Tunable

variable {α β : Type} {choices : List β} {i : Implementation} {preset : α → β}
  {check : Request → Except Refusal α} {planWith : Request → Options → α → β → Except Refusal Plan}
  {refuse : Nat → Refusal} {w : WeightTensor} {r r' : Request} {o o' : Options}

theorem Plan.Granted.named {plan again : Plan} (h : Plan.Granted w plan again) (variant : Option Nat) :
    Plan.Granted w { plan with variant } { again with variant } :=
  ⟨h.asked, h.repeats.change, h.repeats.groups, h.repeats.arguments, h.repeats.cost, rfl⟩

/-- **A tunable kernel grants** if it does with every parameter. -/
theorem Implementation.Tunes.follows (h : i.Tunes choices preset check planWith refuse)
    (hcheck : Follows (fun a a' => preset a' = preset a ∧ ∀ b,
      Follows (Plan.Granted w) (planWith r o a b) (planWith r' o' a' b)) (check r) (check r')) :
    ∀ question, Follows (List.Forall₂ (Plan.Granted w)) (i.answer question r o)
      (i.answer question r' o')
  | .preset => by
      change Follows _ (i.plan r o) (i.plan r' o')
      rw [h.plan, h.plan]
      exact hcheck.bind fun a a' ⟨hpreset, hwith⟩ => by
        rw [hpreset]
        exact (hwith _).bind fun _ _ hab => follows_pure (.cons hab .nil)
  | .variant index => by
      change Follows _ (i.planVariant index r o) (i.planVariant index r' o')
      rw [h.variant, h.variant]
      refine hcheck.bind fun a a' ⟨hpreset, hwith⟩ => ?_
      rw [hpreset]
      cases parameter? choices (preset a) index with
      | none => exact follows_error _ _
      | some b =>
        exact (hwith b).bind fun _ _ hab => follows_pure (.cons (hab.named index) .nil)
  | .every => by
      change Follows _ (i.planAll r o) (i.planAll r' o')
      rw [h.all, h.all]
      refine hcheck.bind fun a a' ⟨hpreset, hwith⟩ => ?_
      rw [hpreset]
      refine (follows_mapM fun (b, index) =>
        (hwith b).bind fun _ _ hab => follows_pure (hab.named (some index))).bind
          fun _ _ htuned => (hwith _).bind fun _ _ hab => ?_
      exact follows_pure (List.rel_append htuned (.cons hab .nil))

end Tunable

theorem grants_convolutionBlock : convolutionBlock.Grants :=
  fun question ⟨layer, work⟩ _ _ f element layout hf hreads => by
    refine tunes_convolutionBlock.follows (w := f.weights) ?_ question
    cases work with
    | convolution w =>
      cases hf
      refine follows_bind (checkConvolution w) fun input hinput =>
        follows_bind (checkPaddedInput w input) fun _ _ => follows_pure ⟨rfl, fun block => ?_⟩
      refine follows_bind _ fun _ _ => follows_bind _ fun _ _ => ?_
      exact follows_changed (wants_readable _ _ _)
        (hreads _ _ _ rfl (inputs_of_checkConvolution hinput)) fun _ => follows_convolutionPlan
    | _ => exact follows_error _ _

theorem grants_depthwise : depthwise.Grants :=
  fun question ⟨layer, work⟩ _ _ f element layout hf hreads => by
    refine tunes_depthwise.follows (w := f.weights) ?_ question
    cases work with
    | convolution w =>
      cases hf
      refine follows_bind (checkConvolution w) fun input hinput =>
        follows_bind (checkPaddedInput w input) fun _ _ =>
        follows_guard _ (follows_pure ⟨rfl, fun tile => ?_⟩)
      exact follows_changed (wants_readable _ _ _)
        (hreads _ _ _ rfl (inputs_of_checkConvolution hinput)) fun _ => follows_convolutionPlan
    | _ => exact follows_error _ _

/-! ### Fully connected layers -/

theorem grants_fullyConnectedRef : fullyConnectedRef.Grants :=
  grants_fixed fun ⟨_, work⟩ _ _ _ _ _ hf hreads => by
    cases work with
    | fullyConnected w =>
      cases hf
      refine follows_bind (checkFullyConnected w) fun input hinput => ?_
      exact follows_changed (wants_listed _ _ _)
        (hreads _ _ _ rfl (yields_checkFullyConnected _ hinput)) fun _ => follows_launches
    | _ => exact follows_error _ _

theorem grants_fullyConnectedGemm : fullyConnectedGemm.Grants :=
  grants_fixed fun ⟨_, work⟩ _ _ _ _ _ hf hreads => by
    cases work with
    | fullyConnected w =>
      cases hf
      refine follows_bind (checkFullyConnected w) fun input hinput => ?_
      exact follows_changed (wants_readable _ _ _)
        (hreads _ _ _ rfl (yields_checkFullyConnected _ hinput)) fun _ => follows_launches
    | _ => exact follows_error _ _

theorem grants_fullyConnectedBlock : fullyConnectedBlock.Grants :=
  grants_fixed fun ⟨_, work⟩ _ _ _ _ _ hf hreads => by
    cases work with
    | fullyConnected w =>
      cases hf
      refine follows_bind (checkFullyConnected w) fun input hinput =>
        follows_guard _ (follows_guard _ ?_)
      exact follows_changed (wants_readable _ _ _)
        (hreads _ _ _ rfl (yields_checkFullyConnected _ hinput)) fun _ => follows_launches
    | _ => exact follows_error _ _

theorem grants_fullyConnectedSingle : fullyConnectedSingle.Grants :=
  grants_fixed fun ⟨_, work⟩ _ _ _ _ _ hf hreads => by
    cases work with
    | fullyConnected w =>
      cases hf
      refine follows_bind (checkFullyConnected w) fun input hinput => ?_
      exact follows_changed (wants_readable _ _ _)
        (hreads _ _ _ rfl (yields_checkFullyConnected _ hinput)) fun _ => follows_launches
    | _ => exact follows_error _ _

/-! ## All weighted kernels -/

/-- Kinds of work that have weights. -/
def Kind.isWeighted : Kind → Bool
  | .convolution | .fullyConnected | .fusedConvBnScale => true
  | _ => false

theorem weighted_builtin : Registry.builtin.implementations.filter (·.kind.isWeighted) =
    [convolutionRef, convolutionBlock, convolutionGemm, convolutionBatch, depthwise, fullyConnectedRef,
      fullyConnectedGemm, fullyConnectedBlock, fullyConnectedSingle, fusedRef] := rfl

/-- **All kernels with weights grant.** -/
theorem grants_builtin : ∀ i ∈ Registry.builtin.implementations, i.kind.isWeighted = true →
    i.Grants := by
  have hall : ∀ i ∈ Registry.builtin.implementations.filter (·.kind.isWeighted), i.Grants := by
    rw [weighted_builtin]
    simp only [List.forall_mem_cons, List.not_mem_nil, false_imp_iff, implies_true, and_true]
    exact ⟨grants_convolutionRef, grants_convolutionBlock, grants_convolutionGemm,
      grants_convolutionBatch, grants_depthwise, grants_fullyConnectedRef, grants_fullyConnectedGemm,
      grants_fullyConnectedBlock, grants_fullyConnectedSingle, grants_fusedRef⟩
  exact fun i hi hkind => hall i (List.mem_filter.mpr ⟨hi, hkind⟩)

/-- **A change of weights that was asked for is enough.**  Where a builtin kernel with weights asks for a
change of them, it is one of the weights of the work into weights of the same extents.  Asked the same
for the work with what it asked for, as a buffer of the graph gives it back, and with no change allowed,
it plans launches of the same sizes and with the same arguments, at the same cost, and asks for no other
weights. -/
theorem change_suffices {i : Implementation} (hi : i ∈ Registry.builtin.implementations)
    (hkind : i.kind.isWeighted = true) {question : Question} {r : Request} {o : Options}
    {plans : List Plan} (h : i.answer question r o = .ok plans) {plan : Plan} (hplan : plan ∈ plans)
    {change : WeightsChange} (hchange : plan.weightsChange = some change) :
    ∃ f held again, r.work.filter? = some f ∧ change.source = f.weights ∧
      change.target.SameExtents f.weights ∧ change.target.buffer.weightTensor = .ok held ∧
      i.answer question (r.withWeights held) { o with allowWeightsReorder := false } = .ok again ∧
      List.Forall₂ Plan.Repeats again plans := by
  have hsuits := suits_of_gives (suits_builtin i hi) (Implementation.gives_of_answer h hplan)
  cases hf : r.work.filter? with
  | none =>
    rw [hsuits.plain hf] at hchange
    cases hchange
  | some f =>
    obtain ⟨layout, hbuffer, hheld⟩ := change.target.exists_held
    have hreads : ∀ operands input rest, r.work.operands? = some operands →
        operands.inputs = input :: rest →
        Reads i.name input.element { f.weights with element := change.target.element, layout } :=
      fun operands input rest hoperands hinputs => by
        have hasked := (hsuits.weighted f operands input rest hf hoperands hinputs).1
        rw [hchange] at hasked
        exact reads_iff.mpr (reads_iff.mp (hheld i.name input.element hasked))
    obtain ⟨again, hagain, hgranted⟩ := grants_builtin i hi hkind question r o
      { o with allowWeightsReorder := false } f change.target.element layout hf hreads plans h
    have hof : change.Of f.weights := by
      obtain ⟨k, hk, rfl⟩ := List.getElem_of_mem hplan
      exact (hgranted.get hk (hgranted.length_eq ▸ hk)).asked change hchange
    exact ⟨f, _, again, rfl, hof.source, hof.target, hbuffer, hof.target.relaid layout ▸ hagain,
      (hgranted.imp fun _ _ h => h.repeats).flip⟩

/-- Thirty-two rows of eight numbers times a matrix, which is held in single precision. -/
def halfRows : Request :=
  ⟨"rows", .fullyConnected
    ⟨⟨.none, [.dense .f16 .fb ⟨32, 8, 1, 1⟩], .dense .f16 .fb ⟨32, 2, 1, 1⟩⟩,
      ⟨⟨.f32, .oiyx, 2, 8, 1, 1⟩, []⟩⟩⟩

/-- A flat arrangement is asked for, which a graph gives back in four dimensions. -/
theorem change_suffices_halfRows : fullyConnectedBlock ∈ Registry.builtin.implementations ∧
    fullyConnectedBlock.kind.isWeighted = true ∧ ∃ plans plan change,
    fullyConnectedBlock.answer .preset halfRows ⟨true, .empty⟩ = .ok plans ∧ plan ∈ plans ∧
    plan.weightsChange = some change ∧ change.target = ⟨.f16, .io, 2, 8, 1, 1⟩ ∧
    change.target.buffer.weightTensor = .ok ⟨.f16, .iyxo, 2, 8, 1, 1⟩ ∧
    ∃ f held again, halfRows.work.filter? = some f ∧ change.source = f.weights ∧
      change.target.SameExtents f.weights ∧ change.target.buffer.weightTensor = .ok held ∧
      fullyConnectedBlock.answer .preset (halfRows.withWeights held) ⟨false, .empty⟩ = .ok again ∧
      List.Forall₂ Plan.Repeats again plans := by
  have hi : fullyConnectedBlock ∈ Registry.builtin.implementations := by simp [Registry.builtin]
  have hasked : ∃ plan, fullyConnectedBlock.answer .preset halfRows ⟨true, .empty⟩ = .ok [plan] ∧
      plan.weightsChange = some ⟨⟨.f32, .oiyx, 2, 8, 1, 1⟩, ⟨.f16, .io, 2, 8, 1, 1⟩⟩ :=
    ⟨_, rfl, rfl⟩
  obtain ⟨plan, hplan, hchange⟩ := hasked
  exact ⟨hi, rfl, [plan], plan, _, hplan, List.mem_singleton_self plan, hchange, rfl, rfl,
    change_suffices hi rfl hplan (List.mem_singleton_self plan) hchange⟩

end Kernel

end NetPlan

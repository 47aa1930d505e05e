import NetPlan.Proofs.Kernel.Fused
import NetPlan.Proofs.Kernel.Variants

/-!
# Proofs/Kernel/Weights — the weights a plan reads

A kernel reads weights of the element type of its input in some arrangements (`readable`).  A plan for
weights that are laid out otherwise asks for a change of them, but its launches are compiled for the
weights as they are.

`suits_builtin` — whatever a builtin implementation plans, with or without tuning, asks for other weights
just if it does not read those it is given, and reads what it asks for; it asks for none if the work has
no weights.  Its definitions name the weights it is given, not those it asks for.
-/

namespace NetPlan

open Kernel Kernel.Builtin

namespace Kernel

/-! ## What kernels read -/

/-- The arrangements of weights that each builtin kernel reads, by the element type of its input. -/
def Builtin.arrangements : List (String × (Element → List WeightLayout)) :=
  [(convolutionRefName, fun _ => convolutionRefWeights),
    (convolutionBlockName, fun _ => [.osIyxOsv16]),
    (convolutionGemmName, fun input => [(GemmStyle.of input).weights]),
    (convolutionBatchName, fun _ => [.yxio]),
    (depthwiseName, fun _ => [.oiyx]),
    (fullyConnectedRefName, fun _ => fullyConnectedRefWeights),
    (fullyConnectedGemmName, fun _ => [.oiyx]),
    (fullyConnectedBlockName, fun _ => [.io]),
    (fullyConnectedSingleName, fun _ => [.osIOsv16]),
    (fusedName, fun _ => [.oiyx])]

/-- The arrangements of weights that the kernel of a name reads. -/
def Builtin.readable (name : String) (input : Element) : List WeightLayout :=
  match arrangements.lookup name with
  | some wanted => wanted input
  | none => []

/-- The kernel of a name takes weights as they are: no change is asked for where none is allowed. -/
def Reads (name : String) (input : Element) (weights : WeightTensor) : Prop :=
  weightsChange? weights input .default (readable name input) = .ok none

/-- A kernel reads weights of the type of its input in an arrangement that it knows. -/
theorem reads_iff {name : String} {input : Element} {weights : WeightTensor} :
    Reads name input weights ↔ WeightElement.ofElement? input = some weights.element ∧
      weightsMatch weights.layout (readable name input) = true := by
  unfold Reads weightsChange?
  cases WeightElement.ofElement? input with
  | none => simp
  | some element =>
    rw [Option.some.injEq, eq_comm (a := element)]
    dsimp only
    split
    case isTrue h => exact iff_of_true rfl h
    case isFalse h => exact iff_of_false (fun he => nomatch he) h

/-- Weights that match fewer arrangements match more. -/
theorem weightsMatch_mono {current : WeightLayout} {wanted wanted' : List WeightLayout}
    (hsub : wanted ⊆ wanted') (h : weightsMatch current wanted = true) :
    weightsMatch current wanted' = true := by
  simp only [weightsMatch, Bool.or_eq_true, Bool.and_eq_true, List.contains_iff_mem] at h ⊢
  exact h.imp (Or.imp (@hsub _) (And.imp_left (@hsub _))) (And.imp_left (@hsub _))

/-- The weights that a kernel gets after a change, if there is one. -/
def provided (weights : WeightTensor) : Option WeightsChange → WeightTensor
  | none => weights
  | some change => change.target

/-- A kernel that is planned for weights in one of the `wanted` arrangements: it reads all of them, and
weights that lie otherwise lie as it wants them if it reads them. -/
structure Wants (name : String) (input : Element) (current : WeightLayout)
    (wanted : List WeightLayout) : Prop where
  reads : wanted ⊆ readable name input
  all : weightsMatch current (readable name input) = true → weightsMatch current wanted = true

theorem wants_readable (name : String) (input : Element) (current : WeightLayout) :
    Wants name input current (readable name input) := ⟨List.Subset.refl _, fun h => h⟩

/-- What is read as it comes is asked for as it is. -/
theorem wants_listed (name : String) (input : Element) (current : WeightLayout) :
    Wants name input current
      (if (readable name input).contains current then [current] else readable name input) where
  reads := by
    split
    case isTrue h => exact List.cons_subset.mpr ⟨List.contains_iff_mem.mp h, List.nil_subset _⟩
    case isFalse => exact List.Subset.refl _
  all h := by
    split
    · simp [weightsMatch]
    · exact h

section Changes

variable {name : String} {input : Element} {weights : WeightTensor} {options : Options}
  {wanted : List WeightLayout} {change : Option WeightsChange}

/-- **What a change is asked for is read.** -/
theorem reads_provided (hwants : Wants name input weights.layout wanted)
    (h : weightsChange? weights input options wanted = .ok change) :
    Reads name input (provided weights change) := by
  rw [reads_iff]
  unfold weightsChange? at h
  cases helement : WeightElement.ofElement? input with
  | none =>
    rw [helement] at h
    cases h
  | some element =>
    rw [helement] at h
    dsimp only at h
    split at h
    case isTrue hfit =>
      cases h
      exact ⟨congrArg some hfit.1.symm, weightsMatch_mono hwants.reads hfit.2⟩
    case isFalse =>
      split at h
      · cases h
      split at h
      · cases h
      case h_2 target rest =>
        cases h
        refine ⟨rfl, weightsMatch_mono hwants.reads ?_⟩
        simp [provided, weightsMatch]

/-- **A change is asked for just if the weights are not read as they are.** -/
theorem change_eq_none_iff (hwants : Wants name input weights.layout wanted)
    (h : weightsChange? weights input options wanted = .ok change) :
    change = none ↔ Reads name input weights := by
  refine ⟨fun hnone => ?_, fun hreads => ?_⟩
  · subst hnone
    exact reads_provided hwants h
  · obtain ⟨helement, hmatch⟩ := reads_iff.mp hreads
    rw [weightsChange?, helement] at h
    dsimp only at h
    rw [if_pos ⟨rfl, hwants.all hmatch⟩] at h
    exact (Except.ok.inj h).symm

end Changes

/-! ## What definitions say of weights -/

namespace Defines

variable {ds es : Defines} {name : String}

/-- Of two constants with one name the later one counts. -/
theorem get?_append : (ds ++ es).get? name = (es.get? name).or (ds.get? name) := by
  simp [get?, List.find?_append, Option.map_or]

/-- A name that no constant has. -/
theorem get?_eq_none (h : ∀ d ∈ ds, d.1 ≠ name) : ds.get? name = none := by
  simpa [get?] using h

/-- Definitions of other things than the type and the arrangement of weights. -/
def Aside (ds : Defines) : Prop := ∀ d ∈ ds, d.1 ≠ "FILTER_TYPE" ∧ d.1 ≠ "FILTER_LAYOUT"

/-- The type and the arrangement that the definitions come to are those of the weights. -/
def Names (ds : Defines) (w : WeightTensor) : Prop :=
  ds.get? "FILTER_TYPE" = some w.element.sourceName ∧
    ds.get? "FILTER_LAYOUT" = some w.layout.name.toLower

/-- Constants behind that leave the weights aside do not hide them. -/
theorem Names.append {w : WeightTensor} (h : ds.Names w) (hes : es.Aside) : (ds ++ es).Names w := by
  obtain ⟨htype, hlayout⟩ := h
  constructor
  · rw [get?_append, get?_eq_none fun d hd => (hes d hd).1, htype]
    rfl
  · rw [get?_append, get?_eq_none fun d hd => (hes d hd).2, hlayout]
    rfl

/-- Constants in front do not hide the weights. -/
theorem Names.prepend {w : WeightTensor} (h : es.Names w) : (ds ++ es).Names w := by
  obtain ⟨htype, hlayout⟩ := h
  constructor
  · rw [get?_append, htype]
    rfl
  · rw [get?_append, hlayout]
    rfl

/-- A filter names its weights. -/
theorem names_ofFilter (f : Filter) : (ofFilter f).Names f.weights := by
  refine Names.append ?_ ?_
  · exact ⟨rfl, rfl⟩
  · cases f.bias with
    | nil => simp [Aside, num]
    | cons b rest => simp [Aside, num, ofTensor, toString]

end Defines

/-- Every launch of a plan is compiled for weights of a type and an arrangement. -/
def Plan.Names (plan : Plan) (w : WeightTensor) : Prop := ∀ l ∈ plan.launches, l.defines.Names w

/-- A plan reads the weights of the work, or else those it asks for instead, and is compiled for the
weights of the work. -/
structure Suits (name : String) (work : Work) (plan : Plan) : Prop where
  weighted : ∀ f o input rest, work.filter? = some f → work.operands? = some o →
    o.inputs = input :: rest → Reads name input.element (provided f.weights plan.weightsChange) ∧
      (plan.weightsChange = none ↔ Reads name input.element f.weights)
  plain : work.filter? = none → plan.weightsChange = none
  named : ∀ f, work.filter? = some f → plan.Names f.weights

/-- Suiting goes by the change of the weights and the launches. -/
theorem Suits.congr {name : String} {work : Work} {plan plan' : Plan} (h : Suits name work plan)
    (hchange : plan'.weightsChange = plan.weightsChange)
    (hlaunches : plan'.launches = plan.launches) : Suits name work plan' where
  weighted f o input rest hf ho hi := hchange ▸ h.weighted f o input rest hf ho hi
  plain hf := hchange.trans (h.plain hf)
  named f hf l hl := h.named f hf l (hlaunches ▸ hl)

/-! ## What implementations plan -/

/-- All plans for a request suit its work. -/
def Planner.Suits (name : String) (planner : Planner) : Prop :=
  ∀ r o, Yields (fun plans => ∀ plan ∈ plans, Kernel.Suits name r.work plan) (planner r o)

/-- All plans of an implementation suit. -/
structure Implementation.Suits (i : Implementation) : Prop where
  plan : Planner.Suits i.name i.plan
  variant : ∀ index, Planner.Suits i.name (i.planVariant index)
  all : Planner.Suits i.name i.planAll

/-- An implementation without variants suits as its planner does. -/
theorem suits_fixed {name : String} {kind : Kind} {key : Key} {planner : Planner}
    (h : Planner.Suits name planner) : (Implementation.fixed name kind key planner).Suits where
  plan := h
  variant
    | none => h
    | some _ => fun _ _ => yields_error _
  all := h

/-- Every plan of a suitable implementation suits. -/
theorem suits_of_gives {i : Implementation} {r : Request} {o : Options} {plan : Plan} (h : i.Suits)
    (hgives : i.Gives r o plan) : Suits i.name r.work plan := by
  obtain ⟨plans, hmem, hplan | ⟨index, hvariant⟩ | hall⟩ := hgives
  · exact h.plan r o plans hplan plan hmem
  · exact h.variant index r o plans hvariant plan hmem
  · exact h.all r o plans hall plan hmem

/-- Whatever an implementation is asked, what it gives suits. -/
theorem suits_of_forall {i : Implementation}
    (h : ∀ r o plan, i.Gives r o plan → Suits i.name r.work plan) : i.Suits where
  plan r o plans hplans plan hmem := h r o plan ⟨plans, hmem, Or.inl hplans⟩
  variant index r o plans hplans plan hmem := h r o plan ⟨plans, hmem, Or.inr (Or.inl ⟨index, hplans⟩)⟩
  all r o plans hplans plan hmem := h r o plan ⟨plans, hmem, Or.inr (Or.inr hplans)⟩

/-- A launch asks for no other weights and has the constants it is given. -/
theorem yields_singleLaunch {kind : Kind} {name layer : String} {defines : Defines}
    {groups : WorkGroups} {arguments : List Argument} {cost : Single} :
    Yields (fun plan => plan.weightsChange = none ∧ ∀ l ∈ plan.launches, l.defines = defines)
      (singleLaunch kind name layer defines groups arguments cost) := by
  unfold singleLaunch
  split
  · exact fun _ h => by cases h; exact ⟨rfl, List.forall_mem_singleton.mpr rfl⟩
  · exact yields_error _

/-! ### Work without weights -/

section Plain

variable {name : String} {work : Work}

/-- Work without weights is suited by every plan that asks for none. -/
theorem suits_of_plain {plan : Plan} (hw : work.filter? = none) (h : plan.weightsChange = none) :
    Suits name work plan :=
  ⟨fun _ _ _ _ hf => (nomatch hw.symm.trans hf), fun _ => h,
    fun _ hf => (nomatch hw.symm.trans hf)⟩

/-- One launch, whatever it is. -/
theorem suits_launch (hw : work.filter? = none) {kind : Kind} {entry layer : String}
    {defines : Defines} {groups : WorkGroups} {arguments : List Argument} {cost : Single} :
    Yields (fun plans => ∀ plan ∈ plans, Suits name work plan) (do
      let plan ← singleLaunch kind entry layer defines groups arguments cost
      return [plan]) := by
  refine yields_singleLaunch.bind fun plan hplan => yields_pure ?_
  rw [List.forall_mem_singleton]
  exact suits_of_plain hw hplan.1

end Plain

theorem suits_activationRef : activationRef.Suits := suits_fixed fun ⟨_, work⟩ _ => by
  cases work with
  | activation o => exact yields_bind fun _ => suits_launch rfl
  | _ => exact yields_error _

theorem suits_activationOpt : activationOpt.Suits := suits_fixed fun ⟨_, work⟩ _ => by
  cases work with
  | activation o => exact yields_bind fun _ => yields_guard fun _ => suits_launch rfl
  | _ => exact yields_error _

theorem suits_eltwiseRef : eltwiseRef.Suits := suits_fixed fun ⟨_, work⟩ _ => by
  cases work with
  | eltwise w => exact yields_bind fun _ => suits_launch rfl
  | _ => exact yields_error _

theorem suits_poolingRef : poolingRef.Suits := suits_fixed fun ⟨_, work⟩ _ => by
  cases work with
  | pooling w => exact yields_bind fun _ => suits_launch rfl
  | _ => exact yields_error _

theorem suits_poolingAverage : poolingAverage.Suits := suits_fixed fun ⟨_, work⟩ _ => by
  cases work with
  | pooling w => exact yields_bind fun _ => yields_guard fun _ => suits_launch rfl
  | _ => exact yields_error _

theorem suits_poolingBlock : poolingBlock.Suits := suits_fixed fun ⟨_, work⟩ _ => by
  cases work with
  | pooling w => exact yields_bind fun _ => yields_guard fun _ => suits_launch rfl
  | _ => exact yields_error _

theorem suits_reorderRef : reorderRef.Suits := suits_fixed fun ⟨_, work⟩ _ => by
  cases work with
  | reorder w => exact yields_bind fun _ => suits_launch rfl
  | _ => exact yields_error _

theorem suits_reorderFast : reorderFast.Suits := suits_fixed fun ⟨_, work⟩ _ => by
  cases work with
  | reorder w => exact yields_bind fun _ => suits_launch rfl
  | _ => exact yields_error _

theorem suits_reorderWeights : reorderWeights.Suits := suits_fixed fun ⟨_, work⟩ _ => by
  cases work with
  | weightsReorder source target => exact yields_guard fun _ => suits_launch rfl
  | _ => exact yields_error _

theorem suits_softmaxRef : softmaxRef.Suits := suits_fixed fun ⟨_, work⟩ _ => by
  cases work with
  | softmax o axis => exact yields_bind fun _ => suits_launch rfl
  | _ => exact yields_error _

theorem suits_softmaxItems : softmaxItems.Suits := suits_fixed fun ⟨_, work⟩ _ => by
  cases work with
  | softmax o axis => exact yields_bind fun _ => suits_launch rfl
  | _ => exact yields_error _

theorem suits_batchNormRef : batchNormRef.Suits := suits_fixed fun ⟨layer, work⟩ _ => by
  cases work with
  | batchNorm o epsilon =>
    unfold planBatchNorm
    dsimp only
    split
    · exact yields_bind fun _ => yields_guard fun _ => suits_launch rfl
    · exact yields_error _
  | _ => exact yields_error _

theorem suits_scaleRef : scaleRef.Suits := suits_fixed fun ⟨layer, work⟩ _ => by
  cases work with
  | scale o =>
    unfold planScale
    dsimp only
    split
    · exact yields_error _
    · exact yields_guard fun _ => yields_bind fun _ => suits_launch rfl
  | _ => exact yields_error _

/-- The parts of a concatenation. -/
theorem yields_concatenationParts (layer : String) (o : Operands) (axis : Axis) :
    ∀ (index offset : Nat) (inputs : List DataTensor),
      Yields (fun plans => ∀ plan ∈ plans, plan.weightsChange = none)
        (concatenationParts layer o axis index offset inputs)
  | _, _, [] => yields_pure fun _ h => absurd h List.not_mem_nil
  | index, offset, input :: rest =>
      yields_singleLaunch.bind fun _ hpart =>
        (yields_concatenationParts layer o axis (index + 1) (offset + input.extent axis) rest).bind
          fun _ hparts => yields_pure (List.forall_mem_cons.mpr ⟨hpart.1, hparts⟩)

theorem suits_concatenationRef : concatenationRef.Suits := suits_fixed fun ⟨layer, work⟩ _ => by
  cases work with
  | concatenation o axis =>
    refine yields_bind fun _ => (yields_concatenationParts layer o axis 0 0 o.inputs).bind
      fun parts hparts => ?_
    cases parts with
    | nil => exact yields_error _
    | cons first rest =>
      refine yields_pure ?_
      rw [List.forall_mem_singleton]
      exact suits_of_plain rfl (hparts first List.mem_cons_self)
  | _ => exact yields_error _

/-! ### Work with weights -/

section Weighted

variable {name : String} {f : Filter} {o : Operands} {input : DataTensor} {rest : List DataTensor}
  {work : Work} {options : Options} {wanted : List WeightLayout} {change : Option WeightsChange}

/-- A plan with the change that the kernel asks for suits. -/
theorem suits_of_change {plan : Plan} (hf : work.filter? = some f) (ho : work.operands? = some o)
    (hinputs : o.inputs = input :: rest) (hwants : Wants name input.element f.weights.layout wanted)
    (hchange : weightsChange? f.weights input.element options wanted = .ok change)
    (hplan : plan.weightsChange = change) (hnames : plan.Names f.weights) :
    Suits name work plan := by
  refine ⟨fun f' o' input' rest' hf' ho' hinputs' => ?_, fun hnone => ?_, fun f' hf' => ?_⟩
  · rw [hf] at hf'
    rw [ho] at ho'
    cases hf'
    cases ho'
    rw [hinputs] at hinputs'
    cases hinputs'
    subst hplan
    exact ⟨reads_provided hwants hchange, change_eq_none_iff hwants hchange⟩
  · rw [hf] at hnone
    cases hnone
  · rw [hf] at hf'
    cases hf'
    exact hnames

/-- **Plans with the change that the kernel asks for suit.** -/
theorem suits_changed {k : Option WeightsChange → Except Refusal (List Plan)}
    (hf : work.filter? = some f) (ho : work.operands? = some o) (hinputs : o.inputs = input :: rest)
    (hwants : Wants name input.element f.weights.layout wanted)
    (hk : ∀ change, Yields (fun plans => ∀ plan ∈ plans,
      plan.weightsChange = change ∧ plan.Names f.weights) (k change)) :
    Yields (fun plans => ∀ plan ∈ plans, Suits name work plan)
      (weightsChange? f.weights input.element options wanted >>= k) :=
  Yields.bind (fun _ h => h) fun change hchange plans hplans plan hplan =>
    let ⟨hasked, hnames⟩ := hk change plans hplans plan hplan
    suits_of_change hf ho hinputs hwants hchange hasked hnames

end Weighted

/-! ### Convolutions -/

section Convolutions

variable {w : ConvolutionWork} {name layer : String} {extra : Defines} {groups : WorkGroups}
  {cost : Single} {change : Option WeightsChange} {input : DataTensor} {options : Options}

/-- A convolution names its weights. -/
theorem names_convolutionDefines : (convolutionDefines w).Names w.filter.weights := by
  unfold convolutionDefines
  refine (Defines.names_ofFilter w.filter).prepend.append ?_
  simp [Defines.Aside, Defines.num]

/-- A convolution asks for the change it is given, and names its weights. -/
theorem yields_convolutionPlan (hextra : extra.Aside) :
    Yields (fun plan => plan.weightsChange = change ∧ plan.Names w.filter.weights)
      (convolutionPlan w name layer extra groups cost change) :=
  yields_singleLaunch.bind fun _ hplan => yields_pure
    ⟨rfl, fun l hl => hplan.2 l hl ▸ names_convolutionDefines.append hextra⟩

/-- So does a plan of that convolution alone. -/
theorem yields_convolutionPlans (hextra : extra.Aside) :
    Yields (fun plans => ∀ plan ∈ plans,
        plan.weightsChange = change ∧ plan.Names w.filter.weights) (do
      let plan ← convolutionPlan w name layer extra groups cost change
      return [plan]) :=
  (yields_convolutionPlan hextra).bind fun _ hplan =>
    yields_pure (List.forall_mem_singleton.mpr hplan)

/-- A convolution that is checked has one input. -/
theorem yields_checkConvolution :
    Yields (fun input => w.operands.inputs = [input]) (checkConvolution w) := fun _ h =>
  inputs_of_checkConvolution h

theorem suits_convolutionRef : convolutionRef.Suits := suits_fixed fun ⟨_, work⟩ _ => by
  cases work with
  | convolution w =>
    refine yields_checkConvolution.bind fun input hinputs => ?_
    exact suits_changed rfl rfl hinputs (wants_listed _ _ _) fun _ =>
      yields_convolutionPlans fun _ h => absurd h List.not_mem_nil
  | _ => exact yields_error _

theorem suits_convolutionGemm : convolutionGemm.Suits := suits_fixed fun ⟨_, work⟩ _ => by
  cases work with
  | convolution w =>
    refine yields_checkConvolution.bind fun input hinputs => yields_bind fun _ => ?_
    exact suits_changed rfl rfl hinputs (wants_readable _ _ _) fun _ => yields_convolutionPlans
      (by simp [Defines.Aside, Defines.num])
  | _ => exact yields_error _

theorem suits_convolutionBatch : convolutionBatch.Suits := suits_fixed fun ⟨_, work⟩ _ => by
  cases work with
  | convolution w =>
    refine yields_checkConvolution.bind fun input hinputs =>
      yields_guard fun _ => yields_bind fun _ => ?_
    exact suits_changed rfl rfl hinputs (wants_readable _ _ _) fun _ => yields_convolutionPlans
      (by simp [Defines.Aside, Defines.num])
  | _ => exact yields_error _

/-- The plan for a block suits. -/
theorem suits_planBlock (hinputs : w.operands.inputs = [input]) (block : Block) :
    Yields (Suits convolutionBlockName (.convolution w)) (planBlock w input layer options block) := by
  refine yields_bind fun _ => yields_bind fun _ =>
    Yields.bind (fun _ h => h) fun _ hchange _ hplan => ?_
  obtain ⟨hasked, hnames⟩ := yields_convolutionPlan
    (by split <;> simp [Defines.Aside, Defines.num]) _ hplan
  exact suits_of_change rfl rfl hinputs (wants_readable _ _ _) hchange hasked hnames

/-- The check hands on the convolution of the request, with its one input. -/
theorem inputs_of_checkBlock {r : Request} :
    Yields (fun a => r.work = .convolution a.1 ∧ a.1.operands.inputs = [a.2]) (checkBlock r) := by
  obtain ⟨layer, work⟩ := r
  cases work with
  | convolution w =>
    exact yields_checkConvolution.bind fun _ hinputs => yields_bind fun _ =>
      yields_pure ⟨rfl, hinputs⟩
  | _ => exact yields_error _

theorem suits_convolutionBlock : convolutionBlock.Suits := suits_of_forall fun r o plan hgives => by
  obtain ⟨⟨w, input⟩, block, given, hcheck, -, hgiven, hplan⟩ := tunes_convolutionBlock.planned hgives
  obtain ⟨hw, hinputs⟩ := inputs_of_checkBlock _ hcheck
  rw [hplan, hw]
  exact (suits_planBlock hinputs block given hgiven).congr rfl rfl

/-- The plan for a tile suits. -/
theorem suits_planTile (hinputs : w.operands.inputs = [input]) (tile : Planar) :
    Yields (Suits depthwiseName (.convolution w)) (planTile w input layer options tile) := by
  refine Yields.bind (fun _ h => h) fun _ hchange _ hplan => ?_
  obtain ⟨hasked, hnames⟩ := yields_convolutionPlan (by simp [Defines.Aside, Defines.num]) _ hplan
  exact suits_of_change rfl rfl hinputs (wants_readable _ _ _) hchange hasked hnames

/-- The check hands on the convolution of the request, with its one input. -/
theorem inputs_of_checkDepthwise {r : Request} :
    Yields (fun a => r.work = .convolution a.1 ∧ a.1.operands.inputs = [a.2])
      (checkDepthwise r) := by
  obtain ⟨layer, work⟩ := r
  cases work with
  | convolution w =>
    exact yields_checkConvolution.bind fun _ hinputs => yields_bind fun _ =>
      yields_guard fun _ => yields_pure ⟨rfl, hinputs⟩
  | _ => exact yields_error _

theorem suits_depthwise : depthwise.Suits := suits_of_forall fun r o plan hgives => by
  obtain ⟨⟨w, input⟩, tile, given, hcheck, -, hgiven, hplan⟩ := tunes_depthwise.planned hgives
  obtain ⟨hw, hinputs⟩ := inputs_of_checkDepthwise _ hcheck
  rw [hplan, hw]
  exact (suits_planTile hinputs tile given hgiven).congr rfl rfl

theorem suits_fusedRef : fusedRef.Suits := suits_fixed fun ⟨layer, work⟩ o => by
  cases work with
  | fusedConvBnScale w epsilon =>
    unfold planFused
    dsimp only
    split
    case h_1 input rest hinputs =>
      refine yields_guard fun _ => yields_bind fun _ => yields_bind fun _ => ?_
      refine suits_changed rfl rfl hinputs (wants_readable _ _ _) fun _ => ?_
      refine yields_singleLaunch.bind fun _ hplan => yields_pure (List.forall_mem_singleton.mpr
        ⟨rfl, fun l hl => hplan.2 l hl ▸ ?_⟩)
      exact Defines.Names.append (names_convolutionDefines (w := _))
        (by simp [Defines.Aside, Defines.num])
    case h_2 => exact yields_error _
  | _ => exact yields_error _

end Convolutions

/-! ### Fully connected layers -/

section FullyConnected

variable {w : FullyConnectedWork}

/-- A matrix product asks for the change it is given, and names its weights. -/
theorem yields_fullyConnectedPlan {name layer : String} {extra : Defines} {groups : WorkGroups}
    {cost : Single} {change : Option WeightsChange} (hextra : extra.Aside) :
    Yields (fun plans => ∀ plan ∈ plans,
        plan.weightsChange = change ∧ plan.Names w.filter.weights)
      (fullyConnectedPlan w name layer extra groups cost change) :=
  yields_singleLaunch.bind fun _ hplan => yields_pure (List.forall_mem_singleton.mpr
    ⟨rfl, fun l hl => hplan.2 l hl ▸ (Defines.names_ofFilter w.filter).prepend.append hextra⟩)

/-- A matrix product that is checked has one input. -/
theorem yields_checkFullyConnected :
    Yields (fun input => w.operands.inputs = [input]) (checkFullyConnected w) := by
  unfold checkFullyConnected
  split
  case h_1 input hinputs =>
    dsimp only
    iterate 2
      split
      · exact yields_error _
    exact yields_pure hinputs
  case h_2 => exact yields_error _

theorem suits_fullyConnectedRef : fullyConnectedRef.Suits := suits_fixed fun ⟨_, work⟩ _ => by
  cases work with
  | fullyConnected w =>
    refine yields_checkFullyConnected.bind fun input hinputs => ?_
    exact suits_changed rfl rfl hinputs (wants_listed _ _ _) fun _ =>
      yields_fullyConnectedPlan fun _ h => absurd h List.not_mem_nil
  | _ => exact yields_error _

theorem suits_fullyConnectedGemm : fullyConnectedGemm.Suits := suits_fixed fun ⟨_, work⟩ _ => by
  cases work with
  | fullyConnected w =>
    exact yields_checkFullyConnected.bind fun input hinputs =>
      suits_changed rfl rfl hinputs (wants_readable _ _ _) fun _ =>
        yields_fullyConnectedPlan (by simp [Defines.Aside, Defines.num])
  | _ => exact yields_error _

theorem suits_fullyConnectedBlock : fullyConnectedBlock.Suits := suits_fixed fun ⟨_, work⟩ _ => by
  cases work with
  | fullyConnected w =>
    exact yields_checkFullyConnected.bind fun input hinputs =>
      yields_guard fun _ => yields_guard fun _ =>
        suits_changed rfl rfl hinputs (wants_readable _ _ _) fun _ =>
        yields_fullyConnectedPlan (by simp [Defines.Aside, Defines.num])
  | _ => exact yields_error _

theorem suits_fullyConnectedSingle : fullyConnectedSingle.Suits :=
  suits_fixed fun ⟨_, work⟩ _ => by
    cases work with
    | fullyConnected w =>
      exact yields_checkFullyConnected.bind fun input hinputs =>
        suits_changed rfl rfl hinputs (wants_readable _ _ _) fun _ =>
        yields_fullyConnectedPlan (by simp [Defines.Aside, Defines.num])
    | _ => exact yields_error _

end FullyConnected

/-- **All that the builtin implementations plan suits.** -/
theorem suits_builtin : ∀ i ∈ Registry.builtin.implementations, i.Suits := by
  simp only [Registry.builtin, List.forall_mem_cons, List.not_mem_nil, false_imp_iff, implies_true,
    and_true]
  exact ⟨suits_convolutionRef, suits_convolutionBlock, suits_convolutionGemm,
    suits_convolutionBatch, suits_depthwise, suits_fullyConnectedRef, suits_fullyConnectedGemm,
    suits_fullyConnectedBlock, suits_fullyConnectedSingle, suits_poolingRef, suits_poolingAverage,
    suits_poolingBlock, suits_activationRef, suits_activationOpt, suits_eltwiseRef,
    suits_reorderRef, suits_reorderFast, suits_reorderWeights, suits_softmaxRef,
    suits_softmaxItems, suits_concatenationRef, suits_batchNormRef, suits_scaleRef,
    suits_fusedRef⟩

end Kernel

end NetPlan

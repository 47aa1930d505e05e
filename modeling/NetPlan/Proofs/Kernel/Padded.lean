import NetPlan.Proofs.Kernel.Conclusive
import NetPlan.Proofs.Kernel.Divisors
import NetPlan.Proofs.Kernel.Fused
import NetPlan.Proofs.Kernel.Margins

/-!
# Proofs/Kernel/Padded — what is served with more padding

A request is served if a plan of least cost is found for it (`Selector.Serves`), and planning does not
break off on the way.  What a builtin
kernel has a plan for, some builtin kernel has one for with more padding, with two exceptions.
Around a padded result the depthwise kernel gives way to the reference kernel for convolutions,
which launches nothing for a result of no elements; and a matrix product reads its rows in planes
once they are padded.

* `Selector.Serves.widened` — other work is served with more padding, if it has elements where these
  are needed; `Selector.serves_reorder` — so is a reorder that only adds padding;
* `Selector.Serves.planes` — a matrix product is served for planes, if it has a result;
* `Selector.Serves.filled_convolution`, `filled_reorder`, `filled_fullyConnected` — these conditions
  are needed: no kernel launches anything without them;
* `Selector.Serves.output_fullyConnected` — no kernel writes the result of a matrix product in
  planes.
-/

namespace NetPlan

open Kernel Kernel.Builtin

/-! ## Launches of some size -/

namespace Kernel

theorem partitions_optimal_iff {d0 d1 d2 : Nat} :
    (WorkGroups.optimal d0 d1 d2).partitions = true ↔ d0 ≠ 0 ∧ d1 ≠ 0 ∧ d2 ≠ 0 := by
  obtain ⟨h0, h1, h2⟩ := isGreatest_optimalGroup ⟨d0, d1, d2⟩
  have hsize : ∀ {group n : Nat}, group ∈ groupSizes → group ∣ n → group ≠ 0 ∧ n % group = 0 :=
    fun hmem hdvd => ⟨(pos_of_mem_groupSizes hmem).ne', Nat.mod_eq_zero_of_dvd hdvd⟩
  rw [partitions_iff]
  exact ⟨fun h => ⟨h.1.1, h.2.1.1, h.2.2.1⟩, fun h => ⟨⟨h.1, hsize h0.1.1 h0.1.2.1⟩,
    ⟨h.2.1, hsize h1.1.1 h1.1.2.1⟩, h.2.2, hsize h2.1.1 h2.1.2.1⟩⟩

theorem count_ne_zero_iff {s : Shape} : s.count ≠ 0 ↔
    s.batch ≠ 0 ∧ s.feature ≠ 0 ∧ s.x ≠ 0 ∧ s.y ≠ 0 := by
  simp [Shape.count, and_assoc]

theorem partitions_convolutionGroups_of_count {w : ConvolutionWork}
    (h : w.operands.output.count ≠ 0) : (convolutionGroups w).partitions = true := by
  obtain ⟨hbatch, hfeature, hx, hy⟩ := count_ne_zero_iff.mp h
  exact partitions_convolutionGroups hfeature hbatch hx hy

/-- A launch of whole groups is planned. -/
theorem exists_singleLaunch {kind : Kind} {name : String} {defines : Defines} {groups : WorkGroups}
    {arguments : List Argument} {cost : Single} (h : groups.partitions = true) :
    ∃ plan, singleLaunch kind name layer defines groups arguments cost = .ok plan ∧
      plan.launches ≠ [] := by
  rw [singleLaunch, if_pos h]
  exact ⟨_, rfl, List.cons_ne_nil _ _⟩

/-! ## The depthwise kernel -/

section Depthwise

variable {layer : String} {w : ConvolutionWork} {o' : Operands} {options : Options}

/-- Other weights can be asked for where some were. -/
theorem follows_weightsChange? {weights : WeightTensor} {input : Element}
    {wanted wanted' : List WeightLayout} (hallow : options.allowWeightsReorder = true)
    (hwanted : wanted' ≠ []) :
    Follows (fun _ _ => True) (weightsChange? weights input options wanted)
      (weightsChange? weights input options wanted') := fun _ h => by
  unfold weightsChange? at h ⊢
  cases helement : WeightElement.ofElement? input with
  | none =>
    rw [helement] at h
    cases h
  | some element =>
    dsimp only
    rw [hallow]
    split
    · exact ⟨_, rfl, trivial⟩
    · cases wanted' with
      | nil => exact absurd rfl hwanted
      | cons => exact ⟨_, rfl, trivial⟩

/-- Around a dense result the depthwise kernel takes more padding. -/
theorem follows_depthwise (h : w.operands.Widens o') (hdense : o'.output.isPadded = false) :
    Follows (List.Forall₂ Plan.AsMany) (depthwise.plan ⟨layer, .convolution w⟩ options)
      (depthwise.plan ⟨layer, .convolution { w with operands := o' }⟩ options) := by
  have hcheck : Follows (fun a a' => a.1 = w ∧ a'.1 = { w with operands := o' } ∧ a.2.Widens a'.2)
      (checkDepthwise ⟨layer, .convolution w⟩)
      (checkDepthwise ⟨layer, .convolution { w with operands := o' }⟩) := by
    refine (follows_checkConvolution h).bind fun t t' ht =>
      (follows_checkPaddedInput h ht).bind fun _ _ _ => ?_
    refine follows_refuse (fun hno => ?_) (follows_pure ⟨rfl, rfl, ht⟩)
    rw [ht.size, hdense] at hno
    exact hno.imp_right fun hno => hno.imp_right fun hno => hno.imp_right fun hno =>
      hno.imp_right fun hpadded => nomatch hpadded
  refine hcheck.bind fun ⟨v, t⟩ ⟨v', t'⟩ ⟨hv, hv', ht⟩ => ?_
  dsimp only at hv hv' ht
  subst hv hv'
  obtain ⟨_, rfl⟩ := ht.moved
  exact (follows_bind (weightsChange? ..) fun _ _ => follows_sameConvolution rfl).bind
    fun _ _ h => follows_pure (.cons h .nil)

/-- **Around a padded result the reference kernel steps in**, if the result has elements. -/
theorem follows_depthwise_ref (h : w.operands.Widens o')
    (hallow : options.allowWeightsReorder = true) (hcount : o'.output.count ≠ 0) :
    Follows (List.Forall₂ Plan.AsMany) (depthwise.plan ⟨layer, .convolution w⟩ options)
      (convolutionRef.plan ⟨layer, .convolution { w with operands := o' }⟩ options) := by
  have hcheck : Follows (fun a t' => a.1 = w ∧ a.2.Widens t') (checkDepthwise ⟨layer, .convolution w⟩)
      (checkConvolution { w with operands := o' }) := fun ⟨v, t⟩ hok => by
    obtain ⟨u, hconv, hok⟩ := bind_eq_ok_iff.mp hok
    obtain ⟨t', hconv', ht⟩ := follows_checkConvolution h u hconv
    obtain ⟨_, -, hok⟩ := bind_eq_ok_iff.mp hok
    dsimp only at hok
    split at hok
    · cases hok
    · cases hok
      exact ⟨t', hconv', rfl, ht⟩
  refine hcheck.bind fun ⟨v, t⟩ t' ⟨hv, ht⟩ => ?_
  dsimp only at hv ht
  subst hv
  obtain ⟨_, rfl⟩ := ht.moved
  have hwanted : (if convolutionRefWeights.contains v.filter.weights.layout then
      [v.filter.weights.layout] else convolutionRefWeights) ≠ [] := by
    split
    · exact List.cons_ne_nil _ _
    · decide
  dsimp only
  rw [planTile, bind_assoc]
  exact (follows_weightsChange? hallow hwanted).bind fun _ _ _ =>
    (follows_convolutionLaunch fun _ => partitions_convolutionGroups_of_count hcount).bind
      fun _ _ h => follows_pure (.cons h .nil)

end Depthwise

/-- The kernel for any arrangement steps in for the vectorized one. -/
theorem follows_activationOpt_ref {layer : String} {o o' : Operands} (h : o.Widens o')
    {options : Options} :
    Follows (List.Forall₂ Plan.AsMany) (activationOpt.plan ⟨layer, .activation o⟩ options)
      (activationRef.plan ⟨layer, .activation o'⟩ options) := by
  change Follows _ (checkActivation o >>= _) (checkActivation o' >>= _)
  rw [checkActivation_widened h]
  refine follows_bind _ fun _ _ => ?_
  dsimp only
  split
  · exact follows_error _ _
  refine (follows_launch fun hparts => ?_).bind fun _ _ h => follows_pure (.cons h .nil)
  have hcount : o.output.count ≠ 0 := fun hcount =>
    (partitions_optimal_iff.mp hparts).1 (by rw [hcount, ceilDiv_zero])
  obtain ⟨hbatch, hfeature, hx, hy⟩ := count_ne_zero_iff.mp hcount
  rw [perElement_widened h]
  exact partitions_optimal_iff.mpr ⟨hx, hy, Nat.mul_ne_zero hfeature hbatch⟩

/-! ## Matrix products -/

/-- The same rows, whether or not in planes, in an arrangement that keeps the planes. -/
structure Planes (t t' : DataTensor) : Prop where
  element : t'.element = t.element
  layout : t'.layout = .bfyx ∨ t'.layout = .yxfb
  line : t'.size.feature * t'.size.x * t'.size.y = t.size.feature * t.size.x * t.size.y

/-- A matrix product of other rows. -/
def FullyConnectedWork.withInput (w : FullyConnectedWork) (t : DataTensor) : FullyConnectedWork :=
  { w with operands := { w.operands with inputs := [t] } }

section FullyConnected

theorem eq_of_fullyConnected {i : Implementation} (hi : i ∈ Registry.builtin.ofKind .fullyConnected) :
    i = fullyConnectedRef ∨ i = fullyConnectedGemm ∨ i = fullyConnectedBlock ∨
      i = fullyConnectedSingle := by
  have hall : Registry.builtin.ofKind .fullyConnected
      = [fullyConnectedRef, fullyConnectedGemm, fullyConnectedBlock, fullyConnectedSingle] := rfl
  rw [hall] at hi
  simpa using hi

variable {layer : String} {w : FullyConnectedWork} {t t' : DataTensor} {options : Options}

theorem inputs_of_checkFullyConnected :
    Yields (fun t => w.operands.inputs = [t]) (checkFullyConnected w) := by
  unfold checkFullyConnected
  split
  case h_1 t hinputs =>
    dsimp only
    split
    · exact yields_error _
    split
    · exact yields_error _
    · exact yields_pure hinputs
  case h_2 => exact yields_error _

theorem checkFullyConnected_planes (h : checkFullyConnected w = .ok t) (ht : Planes t t') :
    checkFullyConnected (w.withInput t') = .ok t' := by
  have hinputs := inputs_of_checkFullyConnected t h
  unfold checkFullyConnected FullyConnectedWork.withInput at *
  rw [hinputs] at h
  dsimp only at h ⊢
  rw [ht.line]
  split at h
  · cases h
  case isFalse hconsumed =>
    rw [if_neg hconsumed]
    split at h
    · cases h
    case isFalse hproduced => rw [if_neg hproduced]

/-- Every kernel for matrix products checks the shapes, and asks for other weights if need be. -/
theorem checked_of_fullyConnected {i : Implementation}
    (hi : i ∈ Registry.builtin.ofKind .fullyConnected) :
    Yields (fun _ => ∃ t wanted change, checkFullyConnected w = .ok t ∧
      weightsChange? w.filter.weights t.element options wanted = .ok change)
      (i.plan ⟨layer, .fullyConnected w⟩ options) := by
  intro plans hplans
  rcases eq_of_fullyConnected hi with rfl | rfl | rfl | rfl
  · obtain ⟨t, hcheck, hplans⟩ := bind_eq_ok_iff.mp hplans
    obtain ⟨change, hchange, -⟩ := bind_eq_ok_iff.mp hplans
    exact ⟨t, _, change, hcheck, hchange⟩
  · obtain ⟨t, hcheck, hplans⟩ := bind_eq_ok_iff.mp hplans
    obtain ⟨change, hchange, -⟩ := bind_eq_ok_iff.mp hplans
    exact ⟨t, _, change, hcheck, hchange⟩
  · obtain ⟨t, hcheck, hplans⟩ := bind_eq_ok_iff.mp hplans
    dsimp only at hplans
    split at hplans
    · cases hplans
    split at hplans
    · cases hplans
    obtain ⟨change, hchange, -⟩ := bind_eq_ok_iff.mp hplans
    exact ⟨t, _, change, hcheck, hchange⟩
  · obtain ⟨t, hcheck, hplans⟩ := bind_eq_ok_iff.mp hplans
    obtain ⟨change, hchange, -⟩ := bind_eq_ok_iff.mp hplans
    exact ⟨t, _, change, hcheck, hchange⟩

/-- **The reference kernel plans products of planes** that have some result, where a kernel plans them
for rows. -/
theorem exists_plan_planes {i : Implementation} (hi : i ∈ Registry.builtin.ofKind .fullyConnected)
    {plans : List Plan} (h : i.plan ⟨layer, .fullyConnected w⟩ options = .ok plans)
    (hallow : options.allowWeightsReorder = true) (hinputs : w.operands.inputs = [t])
    (ht : Planes t t') (hcount : w.operands.output.count ≠ 0) :
    ∃ plan, fullyConnectedRef.plan ⟨layer, .fullyConnected (w.withInput t')⟩ options = .ok [plan] ∧
      plan.launches ≠ [] := by
  obtain ⟨u, wanted, change, hcheck, hchange⟩ := checked_of_fullyConnected hi plans h
  obtain rfl : u = t := by
    simpa using (inputs_of_checkFullyConnected u hcheck).symm.trans hinputs
  have hwanted : (if fullyConnectedRefWeights.contains w.filter.weights.layout then
      [w.filter.weights.layout] else fullyConnectedRefWeights) ≠ [] := by
    split
    · exact List.cons_ne_nil _ _
    · decide
  obtain ⟨change', hchange', -⟩ := follows_weightsChange? hallow hwanted change hchange
  have hdivisor := greatestDivisorUpTo_spec w.operands.output.count
  have hparts : (⟨⟨w.operands.output.count, 1, 1⟩, ⟨divisorUpTo32 w.operands.output.count, 1, 1⟩⟩ :
      WorkGroups).partitions = true :=
    partitions_iff.mpr ⟨⟨hcount, (hdivisor _).1, (hdivisor _).2⟩,
      ⟨one_ne_zero, one_ne_zero, Nat.mod_one _⟩, one_ne_zero, one_ne_zero, Nat.mod_one _⟩
  rw [← ht.element] at hchange'
  obtain ⟨plan, hplan, hlaunches⟩ := exists_singleLaunch hparts
  exact ⟨{ plan with weightsChange := change' },
    bind_eq_ok_iff.mpr ⟨t', checkFullyConnected_planes hcheck ht,
      bind_eq_ok_iff.mpr ⟨change', hchange', bind_eq_ok_iff.mpr ⟨plan, hplan, rfl⟩⟩⟩, hlaunches⟩

end FullyConnected

/-! ## Results that have elements -/

theorem ne_zero_of_ceilDiv {n d : Nat} (h : ceilDiv n d ≠ 0) : n ≠ 0 := fun hn =>
  h (by rw [hn, ceilDiv_zero])

theorem ne_zero_of_roundUp {n d : Nat} (h : roundUp n d ≠ 0) : n ≠ 0 := fun hn =>
  h (by rw [hn, roundUp, ceilDiv_zero, Nat.zero_mul])

section Launched

variable {layer : String} {options : Options}

/-- Every convolution kernel but the depthwise one launches nothing for a result of no elements, nor does
that one where it would have to write into padding. -/
theorem filled_of_convolution {i : Implementation} {v : ConvolutionWork}
    (hi : i ∈ Registry.builtin.ofKind .convolution)
    (hpadded : i = depthwise → v.operands.output.isPadded = true) :
    Yields (fun plans => ∀ plan ∈ plans, plan.Launched fun _ => v.operands.output.count ≠ 0)
      (i.plan ⟨layer, .convolution v⟩ options) := by
  have hall : Registry.builtin.ofKind .convolution
      = [convolutionRef, convolutionBlock, convolutionGemm, convolutionBatch, depthwise] := rfl
  rw [hall] at hi
  simp only [List.mem_cons, List.not_mem_nil, or_false] at hi
  rcases hi with rfl | rfl | rfl | rfl | rfl
  · refine yields_bind fun t => yields_bind fun _ => launched_convolutionPlans fun hparts _ _ _ => ?_
    obtain ⟨hchannels, hx, hy⟩ := partitions_iff.mp hparts
    exact count_ne_zero_iff.mpr ⟨Nat.ne_zero_of_mul_ne_zero_right hchannels.1,
      Nat.ne_zero_of_mul_ne_zero_left hchannels.1, hx.1, hy.1⟩
  · have hcheck : Yields (fun a : ConvolutionWork × DataTensor => a.1 = v)
        (checkBlock ⟨layer, .convolution v⟩) :=
      yields_bind fun _ => yields_bind fun _ => yields_pure rfl
    refine hcheck.bind fun ⟨w, t⟩ hw => ?_
    obtain rfl : w = v := hw
    refine Yields.bind (P := Plan.Launched fun _ => w.operands.output.count ≠ 0)
      (yields_bind fun _ => yields_bind fun _ => yields_bind fun _ =>
        launched_convolutionPlan fun hparts _ _ _ => ?_)
      fun _ hplan => yields_pure (List.forall_mem_singleton.mpr hplan)
    obtain ⟨hx, hy, hthreads⟩ := partitions_iff.mp hparts
    exact count_ne_zero_iff.mpr ⟨Nat.ne_zero_of_mul_ne_zero_right hthreads.1,
      ne_zero_of_roundUp (Nat.ne_zero_of_mul_ne_zero_left hthreads.1), ne_zero_of_ceilDiv hx.1,
      ne_zero_of_ceilDiv hy.1⟩
  · refine yields_bind fun t => yields_bind fun _ => yields_bind fun _ =>
      launched_convolutionPlans fun hparts _ _ _ => ?_
    obtain ⟨hrows, hcolumns, hbatch⟩ := partitions_iff.mp hparts
    have hplane := ne_zero_of_roundUp (ne_zero_of_ceilDiv (ne_zero_of_roundUp hcolumns.1))
    exact count_ne_zero_iff.mpr ⟨hbatch.1, ne_zero_of_roundUp (ne_zero_of_ceilDiv hrows.1),
      Nat.ne_zero_of_mul_ne_zero_left hplane, Nat.ne_zero_of_mul_ne_zero_right hplane⟩
  · refine yields_bind fun t => yields_unless fun hgroup => yields_bind fun _ => yields_bind fun _ =>
      launched_convolutionPlans fun hparts _ _ _ => ?_
    obtain ⟨-, hx, hy⟩ := partitions_iff.mp hparts
    simp only [not_or, not_not] at hgroup
    obtain ⟨houtputs, hbatch, hfeature⟩ := hgroup
    exact count_ne_zero_iff.mpr ⟨hbatch, hfeature ▸ houtputs, hx.1, hy.1⟩
  · refine Yields.bind (P := fun _ => False) (yields_bind fun _ => yields_bind fun _ =>
      yields_unless fun hdense => ?_) fun _ h => h.elim
    simp [hpadded rfl] at hdense

/-- Every kernel for matrix products that reads padding launches nothing for a result of no
elements. -/
theorem filled_of_fullyConnected {i : Implementation} {v : FullyConnectedWork}
    (hi : i ∈ Registry.builtin.ofKind .fullyConnected) (hpitches : Feature.pitches ∈ i.key.features) :
    Yields (fun plans => ∀ plan ∈ plans, plan.Launched fun _ =>
        v.operands.output.size.batch ≠ 0 ∧ v.operands.output.size.feature ≠ 0)
      (i.plan ⟨layer, .fullyConnected v⟩ options) := by
  rcases eq_of_fullyConnected hi with rfl | rfl | rfl | rfl
  · refine yields_bind fun t => yields_bind fun _ =>
      launched_fullyConnectedPlan fun hparts _ _ _ => ?_
    obtain ⟨hbatch, hfeature, -⟩ := count_ne_zero_iff.mp (partitions_iff.mp hparts).1.1
    exact ⟨hbatch, hfeature⟩
  · refine yields_bind fun t => yields_bind fun _ =>
      launched_fullyConnectedPlan fun hparts _ _ _ => ?_
    obtain ⟨-, hfeature, hbatch⟩ := partitions_iff.mp hparts
    exact ⟨hbatch.1, hfeature.1⟩
  · exact absurd hpitches (by decide)
  · exact absurd hpitches (by decide)

/-- **A kernel for reorders launches something** only for a result of some elements. -/
theorem filled_of_reorder {i : Implementation} {v : ReorderWork}
    (hi : i ∈ Registry.builtin.ofKind .reorder) :
    Yields (fun plans => ∀ plan ∈ plans, plan.Launched fun _ => v.operands.output.count ≠ 0)
      (i.plan ⟨layer, .reorder v⟩ options) := by
  have hall : Registry.builtin.ofKind .reorder = [reorderRef, reorderFast] := rfl
  rw [hall] at hi
  simp only [List.mem_cons, List.not_mem_nil, or_false] at hi
  rcases hi with rfl | rfl
  · have hcheck : Yields (fun t => t.count = v.operands.output.count) (checkReorder v) := by
      unfold checkReorder
      split
      · split
        · exact yields_error _
        case isFalse hcount =>
          split
          · exact yields_error _
          · exact yields_pure (not_not.mp hcount)
      · exact yields_error _
    refine hcheck.bind fun t hcount => launched_plans fun hparts _ _ _ => ?_
    obtain ⟨hbatch, hfeature, hplane⟩ := partitions_optimal_iff.mp hparts
    rw [← hcount]
    exact count_ne_zero_iff.mpr ⟨hbatch, hfeature, Nat.ne_zero_of_mul_ne_zero_left hplane,
      Nat.ne_zero_of_mul_ne_zero_right hplane⟩
  · refine yields_bind fun _ => launched_plans fun hparts _ _ _ => ?_
    exact ne_zero_of_roundUp (partitions_iff.mp hparts).1.1

end Launched

end Kernel

theorem mem_ofKind_of_builtin {i : Implementation} (h : i ∈ Registry.builtin.implementations) :
    i ∈ Registry.builtin.ofKind i.kind :=
  List.mem_filter.mpr ⟨h, decide_eq_true rfl⟩

theorem DataLayout.mem_all (l : DataLayout) : l ∈ DataLayout.all := by cases l <;> decide

/-! ## Selection -/

namespace Selector

/-- There is a plan of least cost, and none of the plans that are compared breaks off. -/
structure Serves (s : Selector) (r : Request) (o : Options) : Prop where
  planned : ∃ plan, s.naive? r o = .ok plan
  concludes : ∀ i ∈ s.asked r o (s.candidates r o), Concludes (i.plan r o)

variable {s : Selector} {k : OpKind} {layer : String} {w w' : Work}

theorem isSome_firstPlan?_iff {i : Implementation} {answer : Except Refusal (List Plan)} :
    (firstPlan? i answer).isSome = true ↔
      ∃ plan rest, answer = .ok (plan :: rest) ∧ plan.launches ≠ [] := by
  unfold firstPlan?
  split
  case h_1 plan rest =>
    simp only [Plan.isEmpty, List.isEmpty_iff]
    split
    case isTrue h => simp [h]
    case isFalse h => simp [h]
  case h_2 hno =>
    refine iff_of_false (by simp) ?_
    rintro ⟨plan, rest, rfl, -⟩
    exact hno plan rest rfl

/-- A first plan that launches something is followed by one. -/
theorem isSome_firstPlan?_of_follows {i j : Implementation} {x y : Except Refusal (List Plan)}
    (h : Follows (List.Forall₂ Plan.AsMany) x y) (hx : (firstPlan? i x).isSome = true) :
    (firstPlan? j y).isSome = true := by
  obtain ⟨plan, rest, hx, hlaunches⟩ := isSome_firstPlan?_iff.mp hx
  obtain ⟨plans, hy, hmany⟩ := h _ hx
  obtain ⟨again, rest', hplan, -, rfl⟩ := List.forall₂_cons_left_iff.mp hmany
  refine isSome_firstPlan?_iff.mpr ⟨again, rest', hy, fun hnone => hlaunches ?_⟩
  rw [Plan.AsMany, hnone, List.length_nil] at hplan
  exact List.eq_nil_of_length_eq_zero hplan.symm

theorem offered_of_serves {r : Request} {o : Options} (h : s.Serves r o) : s.deviceError? r = none ∧
    ∃ i ∈ s.registry.ofKind r.kind, s.accepts r o i = true ∧
      (firstPlan? i (i.plan r o)).isSome = true := by
  obtain ⟨plan, hnaive⟩ := h.planned
  obtain ⟨hdevice, i, hi, hfirst, -⟩ := firstPlan?_of_naive? hnaive
  obtain ⟨hi, haccepts⟩ := List.mem_filter.mp hi
  exact ⟨hdevice, i, hi, haccepts, hfirst ▸ rfl⟩

theorem serves_of_offered {r : Request} {o : Options} {i : Implementation}
    (hoverrides : s.overrides = .none) (hdevice : s.deviceError? r = none)
    (hi : i ∈ s.registry.ofKind r.kind) (haccepts : s.accepts r o i = true)
    (hplan : (firstPlan? i (i.plan r o)).isSome = true)
    (hconcludes : ∀ j ∈ s.candidates r o, Concludes (j.plan r o)) : s.Serves r o where
  planned := exists_naive?_eq_ok hdevice (List.mem_filter.mpr ⟨hi, haccepts⟩) hplan
    (by rw [hoverrides]; rfl)
  concludes j hj := hconcludes j (by rwa [asked_eq_of_none hoverrides] at hj)

/-- Only a convolution is planned by a kernel that may break off. -/
theorem concludes_of_kind {r : Request} {o : Options} (hregistry : s.registry = .builtin)
    (hkind : r.kind ≠ .convolution) : ∀ i ∈ s.candidates r o, Concludes (i.plan r o) := by
  intro i hi hbroke
  obtain ⟨hmem, hsame⟩ := List.mem_filter.mp (List.mem_filter.mp hi).1
  obtain ⟨rfl, -⟩ := overflows_builtin (hregistry ▸ hmem) hbroke
  exact hkind (of_decide_eq_true hsame).symm

/-- **A convolution that is served has a default block with columns.**  For empty rows only the depthwise
kernel has a plan; then the kernel of output blocks is asked too, and breaks off. -/
theorem Serves.not_vanishing {v : ConvolutionWork} {o : Options} (hregistry : s.registry = .builtin)
    (hoverrides : s.overrides = .none) (hallow : o.allowWeightsReorder = true)
    (h : s.Serves ⟨layer, .convolution v⟩ o) : ¬ Vanishing v := by
  intro hvanishing
  obtain ⟨-, i, hi, haccepts, hplan⟩ := offered_of_serves h
  obtain ⟨plan, rest, hplans, -⟩ := isSome_firstPlan?_iff.mp hplan
  have hdepthwise : i = depthwise := by
    by_contra hne
    obtain ⟨_, -, -, hcount⟩ := filled_of_convolution (hregistry ▸ hi) (fun h => absurd h hne) _
      hplans plan List.mem_cons_self
    exact (count_ne_zero_iff.mp hcount).2.2.1 hvanishing.empty
  subst hdepthwise
  obtain ⟨⟨w, input⟩, hcheck, -⟩ := bind_eq_ok_iff.mp hplans
  obtain ⟨t, hconvolution, hcheck⟩ := bind_eq_ok_iff.mp hcheck
  obtain ⟨_, hinput, -⟩ := bind_eq_ok_iff.mp hcheck
  have hblock : checkBlock ⟨layer, .convolution v⟩ = .ok (v, t) :=
    bind_eq_ok_iff.mpr ⟨t, hconvolution, bind_eq_ok_iff.mpr ⟨_, hinput, rfl⟩⟩
  have hbroke : convolutionBlock.plan ⟨layer, .convolution v⟩ o = .error .overflow :=
    (default_eq_overflow_iff fun plan => [plan]).mpr ⟨v, t, hblock, hvanishing⟩
  refine h.concludes convolutionBlock ?_ hbroke
  rw [asked_eq_of_none hoverrides]
  refine List.mem_filter.mpr ⟨?_, Bool.and_eq_true_iff.mpr ⟨Key.supports_iff.mpr fun f hf => ?_, ?_⟩⟩
  · rw [hregistry]
    exact mem_ofKind_of_builtin (by simp [Registry.builtin])
  · have hkeys : ∀ f ∈ depthwise.key.features, f ∈ convolutionBlock.key.features ∨
        f.isInputWeightLayout = true := by decide
    refine (hkeys f (Key.supports_iff.mp (Bool.and_eq_true_iff.mp haccepts).1 f hf)).resolve_right
      fun hlayout => ?_
    have hfree := (Options.mem_requestKey_iff.mp hf).2 hallow
    rw [hlayout] at hfree
    cases hfree
  · exact (Bool.and_eq_true_iff.mp haccepts).2

/-- All kernels but four take any padding, matrix products apart. -/
theorem bears_builtin : ∀ i ∈ Registry.builtin.implementations, i.kind ≠ .fullyConnected →
    (i.plan.Bears ∧ ∀ f ∈ padded, f ∈ i.key.features) ∨ i = depthwise ∨ i = activationOpt ∨
      i = softmaxItems ∨ i = reorderWeights := by
  have hbears : ∀ {i : Implementation}, i.plan.Bears → (∀ f ∈ padded, f ∈ i.key.features) →
      i.kind ≠ .fullyConnected → (i.plan.Bears ∧ ∀ f ∈ padded, f ∈ i.key.features) ∨ i = depthwise ∨
        i = activationOpt ∨ i = softmaxItems ∨ i = reorderWeights := fun h hpadded _ =>
    Or.inl ⟨h, hpadded⟩
  simp only [Registry.builtin, List.forall_mem_cons, List.not_mem_nil, false_imp_iff, implies_true,
    and_true]
  exact ⟨hbears bears_convolutionRef (by decide), hbears bears_convolutionBlock (by decide),
    hbears bears_convolutionGemm (by decide), hbears bears_convolutionBatch (by decide),
    fun _ => Or.inr (Or.inl trivial), fun h => absurd rfl h, fun h => absurd rfl h,
    fun h => absurd rfl h, fun h => absurd rfl h, hbears bears_poolingRef (by decide),
    hbears bears_poolingAverage (by decide), hbears bears_poolingBlock (by decide),
    hbears bears_activationRef (by decide), fun _ => Or.inr (Or.inr (Or.inl trivial)),
    hbears bears_eltwiseRef (by decide), hbears bears_reorderRef (by decide),
    hbears bears_reorderFast (by decide), fun _ => Or.inr (Or.inr (Or.inr (Or.inr trivial))),
    hbears bears_softmaxRef (by decide), fun _ => Or.inr (Or.inr (Or.inr (Or.inl trivial))),
    hbears bears_concatenationRef (by decide), hbears bears_batchNormRef (by decide),
    hbears bears_scaleRef (by decide), hbears bears_fusedRef (by decide)⟩

/-- Beside arrangements of what it reads, and sub-groups, the reference kernel offers what any
kernel for matrix products does. -/
theorem offered_by_fullyConnectedRef : ∀ i ∈ Registry.builtin.ofKind .fullyConnected,
    ∀ f ∈ i.key.features, f ∈ fullyConnectedRef.key.features ∨ f.isInputWeightLayout = true ∨
      f = .subgroups ∨ f ∈ DataLayout.all.map Feature.inputLayout := by
  decide

/-- A product of planes needs what that of the rows does, beside what it reads of the planes. -/
theorem needs_planes {v : FullyConnectedWork} {t t' : DataTensor} {f : Feature}
    (hinputs : v.operands.inputs = [t]) (ht : Planes t t')
    (hf : (Work.fullyConnected (v.withInput t')).Needs f) :
    ((Work.fullyConnected v).Needs f ∧ f ∉ DataLayout.all.map Feature.inputLayout) ∨
      f = .inputLayout t'.layout ∨ f ∈ Feature.batching :: padded := by
  have hplain : (∀ l, f ≠ .inputLayout l) → f ∉ DataLayout.all.map Feature.inputLayout :=
    fun hno hmem => by
      obtain ⟨l, -, rfl⟩ := List.mem_map.mp hmem
      exact hno l rfl
  rcases hf with ⟨_, hoperands, hf⟩ | ⟨_, hoperands, _, hfilter, hf⟩ | hf
  · cases hoperands
    cases f with
    | inputType e =>
      obtain ⟨u, hu, rfl⟩ := hf
      obtain rfl := List.mem_singleton.mp hu
      refine Or.inl ⟨Or.inl ⟨_, rfl, t, ?_, ht.element⟩, hplain (by simp)⟩
      rw [hinputs]
      exact List.mem_singleton_self t
    | inputLayout l =>
      obtain ⟨u, hu, rfl⟩ := hf
      obtain rfl := List.mem_singleton.mp hu
      exact Or.inr (Or.inl rfl)
    | differentTypes =>
      obtain ⟨u, hu, hne⟩ := Operands.exists_ne_iff.mp hf
      obtain rfl := List.mem_singleton.mp hu
      refine Or.inl ⟨Or.inl ⟨_, rfl, Operands.exists_ne_iff.mpr ⟨t, ?_, ht.element ▸ hne⟩⟩,
        hplain (by simp)⟩
      rw [hinputs]
      exact List.mem_singleton_self t
    | batching | pitches | offset => exact Or.inr (Or.inr (by decide))
    | outputType | outputLayout => exact Or.inl ⟨Or.inl ⟨_, rfl, hf⟩, hplain (by simp)⟩
    | _ => exact hf.elim
  · cases hoperands
    cases hfilter
    refine Or.inl ⟨Or.inr (Or.inl ⟨_, rfl, _, rfl, hf⟩), hplain fun l hl => ?_⟩
    subst hl
    exact hf
  · exact hf.elim

theorem mem_of_checkSoftmax {o : Operands} : Yields (· ∈ o.inputs) (checkSoftmax o) := by
  unfold checkSoftmax
  split
  case h_1 t hinputs =>
    rw [hinputs]
    split
    · exact yields_error _
    split
    · exact yields_error _
    · exact yields_pure (List.mem_singleton_self t)
  case h_2 => exact yields_error _

/-- One kernel is for flat tensors only. -/
theorem layout_of_softmaxItems {o : Operands} {axis : SoftmaxAxis}
    (haccepts : s.accepts ⟨layer, .softmax o axis⟩ k.options softmaxItems = true)
    (hplan : (firstPlan? softmaxItems
      (softmaxItems.plan ⟨layer, .softmax o axis⟩ k.options)).isSome = true) :
    ∃ t ∈ o.inputs, t.layout = .bf := by
  have hflat : ∀ l, Feature.inputLayout l ∈ softmaxItems.key.features → l = .bf := fun l => by
    cases l <;> decide
  obtain ⟨_, _, hplans, -⟩ := isSome_firstPlan?_iff.mp hplan
  obtain ⟨t, hcheck, -⟩ := bind_eq_ok_iff.mp hplans
  have ht := mem_of_checkSoftmax t hcheck
  have hneeds : k.options.Needs ⟨layer, .softmax o axis⟩ (.inputLayout t.layout) :=
    Options.needs_of_operands rfl ⟨t, ht, rfl⟩ rfl
  exact ⟨t, ht, hflat _ (Key.supports_iff.mp (Bool.and_eq_true_iff.mp haccepts).1 _
    (Options.mem_requestKey_iff.mpr hneeds))⟩

/-! ### With more padding -/

section Widened

variable (hregistry : s.registry = .builtin) (hoverrides : s.overrides = .none)
include hregistry hoverrides

/-- **No kernel breaks off with more padding** where none does without. -/
theorem Serves.concludes_widened (hw : w.Widens w')
    (hallow : w.kind = .convolution → k.options.allowWeightsReorder = true)
    (h : s.Serves ⟨layer, w⟩ k.options) :
    ∀ i ∈ s.candidates ⟨layer, w'⟩ k.options, Concludes (i.plan ⟨layer, w'⟩ k.options) := by
  intro i hi hbroke
  have hmem := (List.mem_filter.mp (List.mem_filter.mp hi).1).1
  obtain ⟨rfl, v', input, hcheck, hvanishing⟩ := overflows_builtin (hregistry ▸ hmem) hbroke
  obtain ⟨hwork, -⟩ := matched_of_checkBlock _ hcheck
  obtain ⟨o, o', hoperands, ho, rfl⟩ := hw.operands
  cases w with
  | convolution v =>
    cases hoperands
    cases hwork
    refine h.not_vanishing hregistry hoverrides (hallow rfl)
      ⟨hvanishing.dense, hvanishing.wide, ?_, hvanishing.short⟩
    rw [← ho.output.size]
    exact hvanishing.empty
  | _ => cases hwork

/-- **One kernel steps in for another** where it accepts the work with more padding, and plans as many
launches for it. -/
theorem serves_of_follows {i j : Implementation} (hw : w.Widens w')
    (hconcludes : ∀ i ∈ s.candidates ⟨layer, w'⟩ k.options, Concludes (i.plan ⟨layer, w'⟩ k.options))
    (hdevice : s.deviceError? ⟨layer, w⟩ = none)
    (hplan : (firstPlan? i (i.plan ⟨layer, w⟩ k.options)).isSome = true)
    (hj : j ∈ Registry.builtin.implementations) (hkind : j.kind = w.kind)
    (haccepts : s.accepts ⟨layer, w'⟩ k.options j = true)
    (hfollows : Follows (List.Forall₂ Plan.AsMany) (i.plan ⟨layer, w⟩ k.options)
      (j.plan ⟨layer, w'⟩ k.options)) : s.Serves ⟨layer, w'⟩ k.options := by
  have hmoved : w'.kind = w.kind := by
    obtain ⟨o, o', -, -, rfl⟩ := hw.operands
    exact Work.kind_withOperands w o'
  refine serves_of_offered hoverrides (deviceError?_widened hw hdevice) ?_ haccepts
    (isSome_firstPlan?_of_follows hfollows hplan) hconcludes
  rw [hregistry, Request.kind, hmoved, ← hkind]
  exact mem_ofKind_of_builtin hj

/-- **What is served is served with more padding.**  Of a convolution with a padded result, the result
must have elements; a matrix product is not meant, nor are flat tensors. -/
theorem Serves.widened (hw : w.Widens w') (hkind : w.kind ≠ .fullyConnected)
    (hflat : ∀ o axis, w = .softmax o axis → ∀ t ∈ o.inputs, t.layout ≠ .bf)
    (hallow : w.kind = .convolution → k.isWeighted = true)
    (hcount : ∀ v, w' = .convolution v → v.operands.output.isPadded = true →
      v.operands.output.count ≠ 0)
    (h : s.Serves ⟨layer, w⟩ k.options) : s.Serves ⟨layer, w'⟩ k.options := by
  obtain ⟨hdevice, i, hi, haccepts, hplan⟩ := offered_of_serves h
  obtain ⟨hmem, hsame⟩ := List.mem_filter.mp hi
  rw [hregistry] at hmem
  have hsame : i.kind = w.kind := of_decide_eq_true hsame
  have hrun : s.device.canRun i.key = true := (Bool.and_eq_true_iff.mp haccepts).2
  have hconcludes := h.concludes_widened hregistry hoverrides hw hallow
  have hserves {j : Implementation} :=
    serves_of_follows (j := j) hregistry hoverrides hw hconcludes hdevice hplan
  obtain ⟨o, o', hoperands, ho, rfl⟩ := hw.operands
  rcases bears_builtin i hmem (hsame ▸ hkind) with ⟨hbears, hpadded⟩ | rfl | rfl | rfl | rfl
  · exact hserves hmem hsame (accepts_widened hw haccepts (fun _ hf => Or.inr hf) hpadded hrun)
      (hbears layer w _ k.options hw)
  · cases w with
    | convolution v =>
      cases hoperands
      have hallow : k.options.allowWeightsReorder = true := hallow rfl
      cases hdense : o'.output.isPadded with
      | false =>
        exact hserves hmem rfl (accepts_widened hw haccepts (fun _ hf => Or.inr hf) (by decide) hrun)
          (follows_depthwise ho hdense)
      | true =>
        exact hserves (j := convolutionRef) (by simp [Registry.builtin]) rfl
          (accepts_widened hw haccepts (by decide) (by decide) rfl)
          (follows_depthwise_ref ho hallow (hcount _ rfl hdense))
    | _ => cases hsame
  · cases w with
    | activation o =>
      cases hoperands
      exact hserves (j := activationRef) (by simp [Registry.builtin]) rfl
        (accepts_widened hw haccepts (by decide) (by decide) rfl) (follows_activationOpt_ref ho)
    | _ => cases hsame
  · cases w with
    | softmax o axis =>
      cases hoperands
      obtain ⟨t, ht, hlayout⟩ := layout_of_softmaxItems haccepts hplan
      exact absurd hlayout (hflat o axis rfl t ht)
    | _ => cases hsame
  · cases w with
    | weightsReorder => cases hoperands
    | _ => cases hsame

end Widened

section Planes

variable {v : FullyConnectedWork} {t t' : DataTensor} (hinputs : v.operands.inputs = [t])
  (ht : Planes t t')
include hinputs ht

theorem deviceError?_planes (h : s.deviceError? ⟨layer, .fullyConnected v⟩ = none) :
    s.deviceError? ⟨layer, .fullyConnected (v.withInput t')⟩ = none := by
  refine deviceError?_eq_none_iff.mpr fun _ hoperands u hu helement => ?_
  cases hoperands
  have hdevice := deviceError?_eq_none_iff.mp h _ rfl
  rcases List.mem_append.mp hu with hu | hu
  · obtain rfl := List.mem_singleton.mp hu
    refine hdevice t (List.mem_append_left _ ?_) (ht.element ▸ helement)
    rw [hinputs]
    exact List.mem_singleton_self t
  · exact hdevice u (List.mem_append_right _ hu) helement

/-- The reference kernel accepts a product of planes where any kernel accepts that of the rows. -/
theorem accepts_planes {i : Implementation} (hi : i ∈ Registry.builtin.ofKind .fullyConnected)
    (h : s.accepts ⟨layer, .fullyConnected v⟩ OpKind.fullyConnected.options i = true) :
    s.accepts ⟨layer, .fullyConnected (v.withInput t')⟩ OpKind.fullyConnected.options fullyConnectedRef
      = true := by
  refine Bool.and_eq_true_iff.mpr ⟨Key.supports_iff.mpr fun f hf => ?_, rfl⟩
  obtain ⟨hneeds | hrequired, hfree⟩ := Options.mem_requestKey_iff.mp hf
  · rcases needs_planes hinputs ht hneeds with ⟨hneeds, hplain⟩ | rfl | hf
    · have hoffered := Key.supports_iff.mp (Bool.and_eq_true_iff.mp h).1 f
        (Options.mem_requestKey_iff.mpr ⟨Or.inl hneeds, hfree⟩)
      rcases offered_by_fullyConnectedRef i hi f hoffered with hf | hf | rfl | hf
      · exact hf
      · rw [hfree rfl] at hf
        cases hf
      · exact absurd hneeds (Work.not_needs_subgroups _)
      · exact absurd hf hplain
    · rcases ht.layout with hlayout | hlayout <;> rw [hlayout] <;> decide
    · have hall : ∀ f ∈ Feature.batching :: padded, f ∈ fullyConnectedRef.key.features := by decide
      exact hall f hf
  · cases hrequired

/-- **A matrix product of planes with a result is served** where the one of the rows is. -/
theorem Serves.planes (hregistry : s.registry = .builtin) (hoverrides : s.overrides = .none)
    (hcount : v.operands.output.count ≠ 0)
    (h : s.Serves ⟨layer, .fullyConnected v⟩ OpKind.fullyConnected.options) :
    s.Serves ⟨layer, .fullyConnected (v.withInput t')⟩ OpKind.fullyConnected.options := by
  obtain ⟨hdevice, i, hi, haccepts, hplan⟩ := offered_of_serves h
  rw [hregistry] at hi
  obtain ⟨plan, rest, hplans, -⟩ := isSome_firstPlan?_iff.mp hplan
  obtain ⟨again, hagain, hlaunches⟩ := exists_plan_planes hi hplans rfl hinputs ht hcount
  refine serves_of_offered hoverrides (deviceError?_planes hinputs ht hdevice) ?_
    (accepts_planes hinputs ht hi haccepts)
    (isSome_firstPlan?_iff.mpr ⟨again, [], hagain, hlaunches⟩)
    (concludes_of_kind hregistry fun h => by cases h)
  rw [hregistry]
  exact mem_ofKind_of_builtin (by simp [Registry.builtin])

end Planes

/-! ### What is served -/

section Served

variable {r : Request} {o : Options} (hregistry : s.registry = .builtin)
include hregistry

/-- What is served is planned by a kernel that offers all that it needs. -/
theorem Serves.offered (h : s.Serves r o) : ∃ i ∈ Registry.builtin.ofKind r.kind,
    (∀ f, o.Needs r f → f ∈ i.key.features) ∧ ∃ plan rest, i.plan r o = .ok (plan :: rest) := by
  obtain ⟨-, i, hi, haccepts, hplan⟩ := offered_of_serves h
  obtain ⟨plan, rest, hplans, -⟩ := isSome_firstPlan?_iff.mp hplan
  exact ⟨i, hregistry ▸ hi, fun f hf => Key.supports_iff.mp (Bool.and_eq_true_iff.mp haccepts).1 f
    (Options.mem_requestKey_iff.mpr hf), plan, rest, hplans⟩

theorem Serves.filled_convolution {v : ConvolutionWork} (h : s.Serves ⟨layer, .convolution v⟩ o)
    (hpadded : v.operands.output.isPadded = true) : v.operands.output.count ≠ 0 := by
  obtain ⟨i, hi, -, plan, rest, hplans⟩ := h.offered hregistry
  obtain ⟨_, -, -, hcount⟩ :=
    filled_of_convolution hi (fun _ => hpadded) _ hplans plan List.mem_cons_self
  exact hcount

theorem Serves.filled_reorder {v : ReorderWork} (h : s.Serves ⟨layer, .reorder v⟩ o) :
    v.operands.output.count ≠ 0 := by
  obtain ⟨i, hi, -, plan, rest, hplans⟩ := h.offered hregistry
  obtain ⟨_, -, -, hcount⟩ := filled_of_reorder hi _ hplans plan List.mem_cons_self
  exact hcount

section FullyConnected

variable {v : FullyConnectedWork} {t : DataTensor} (h : s.Serves ⟨layer, .fullyConnected v⟩ o)
include h

/-- **The result of a matrix product is written in rows**, not in planes. -/
theorem Serves.output_fullyConnected :
    v.operands.output.layout = .bf ∨ v.operands.output.layout = .fb := by
  have hall : ∀ i ∈ Registry.builtin.ofKind .fullyConnected, ∀ l ∈ DataLayout.all,
      Feature.outputLayout l ∈ i.key.features → l = .bf ∨ l = .fb := by decide
  obtain ⟨i, hi, hoffers, -⟩ := h.offered hregistry
  exact hall i hi _ (DataLayout.mem_all _)
    (hoffers (.outputLayout v.operands.output.layout) (Options.needs_of_operands rfl rfl rfl))

variable (ht : t ∈ v.operands.inputs)
include ht

theorem Serves.filled_fullyConnected (hpadded : t.isPadded = true) :
    v.operands.output.size.batch ≠ 0 ∧ v.operands.output.size.feature ≠ 0 := by
  obtain ⟨i, hi, hoffers, plan, rest, hplans⟩ := h.offered hregistry
  have hpitches := hoffers .pitches (Options.needs_of_operands rfl
    ⟨t, List.mem_append_left _ ht, DataTensor.isPadded_iff.mp hpadded⟩ rfl)
  obtain ⟨_, -, -, hcount⟩ := filled_of_fullyConnected hi hpitches _ hplans plan List.mem_cons_self
  exact hcount

/-- A matrix product reads rows, or planes with the batch inside or outside, unless it writes with the
batch inside. -/
theorem Serves.layout_fullyConnected : t.layout ∈ [DataLayout.bfyx, .bf, .yxfb, .fb] ∨
    v.operands.output.layout = .fb := by
  have hall : ∀ i ∈ Registry.builtin.ofKind .fullyConnected, ∀ a ∈ DataLayout.all,
      ∀ b ∈ DataLayout.all, Feature.inputLayout a ∈ i.key.features →
        Feature.outputLayout b ∈ i.key.features →
          a ∈ [DataLayout.bfyx, .bf, .yxfb, .fb] ∨ b = .fb := by decide
  obtain ⟨i, hi, hoffers, -⟩ := h.offered hregistry
  exact hall i hi _ (DataLayout.mem_all _) _ (DataLayout.mem_all _)
    (hoffers (.inputLayout t.layout) (Options.needs_of_operands rfl ⟨t, ht, rfl⟩ rfl))
    (hoffers (.outputLayout v.operands.output.layout) (Options.needs_of_operands rfl rfl rfl))

end FullyConnected

end Served

/-! ### Reorders -/

/-- The reference kernel for reorders offers all that one needs that subtracts nothing. -/
theorem offered_of_needs {a : Activation} {t u : DataTensor} {f : Feature}
    (h : (Work.reorder ⟨⟨a, [t], u⟩, []⟩).Needs f) : f ∈ reorderRef.key.features := by
  rcases h with ⟨_, ho, hf⟩ | ⟨_, _, _, hfilter, _⟩ | ⟨_, hsubtract⟩
  · cases ho
    cases f with
    | inputType e | outputType e => cases e <;> decide
    | inputLayout l | outputLayout l => cases l <;> decide
    | differentTypes | batching | pitches | offset => decide
    | _ => exact hf.elim
  · cases hfilter
  · exact absurd rfl hsubtract

/-- The device takes the elements of a reorder that copies what other work reads. -/
theorem deviceError?_copy {id : String} {a : Activation} {o : Operands} {t x u : DataTensor}
    (h : s.deviceError? ⟨layer, w⟩ = none) (ho : w.operands? = some o) (ht : t ∈ o.inputs)
    (hx : x.element = t.element) (hu : u.element = t.element) :
    s.deviceError? ⟨id, .reorder ⟨⟨a, [x], u⟩, []⟩⟩ = none := by
  refine deviceError?_eq_none_iff.mpr fun _ hoperands v hv helement => ?_
  cases hoperands
  refine deviceError?_eq_none_iff.mp h o ho t (List.mem_append_left _ ht) ?_
  rcases List.mem_append.mp hv with hv | hv <;> obtain rfl := List.mem_singleton.mp hv
  · exact hx ▸ helement
  · exact hu ▸ helement

/-- **A reorder that only adds padding is served** where the device takes its elements, if there are
any. -/
theorem serves_reorder {k : OpKind} {a : Activation} {t u : DataTensor}
    (hregistry : s.registry = .builtin) (hoverrides : s.overrides = .none)
    (hdevice : s.deviceError? ⟨layer, .reorder ⟨⟨a, [t], u⟩, []⟩⟩ = none)
    (hsize : u.size = t.size) (hcount : u.count ≠ 0) :
    s.Serves ⟨layer, .reorder ⟨⟨a, [t], u⟩, []⟩⟩ k.options := by
  refine serves_of_offered (i := reorderRef) hoverrides hdevice ?_ ?_ ?_
    (concludes_of_kind hregistry fun h => by cases h)
  · rw [hregistry]
    exact mem_ofKind_of_builtin (by simp [Registry.builtin])
  · refine Bool.and_eq_true_iff.mpr ⟨Key.supports_iff.mpr fun f hf => ?_, rfl⟩
    obtain ⟨hneeds | hrequired, hfree⟩ := Options.mem_requestKey_iff.mp hf
    · exact offered_of_needs hneeds
    · cases hrequired
  · have hcheck : checkReorder ⟨⟨a, [t], u⟩, []⟩ = .ok t := by
      unfold checkReorder
      dsimp only
      rw [if_neg (by rw [not_not, DataTensor.count, DataTensor.count, hsize])]
      rfl
    obtain ⟨hbatch, hfeature, hx, hy⟩ := count_ne_zero_iff.mp hcount
    rw [hsize] at hbatch hfeature hx hy
    have hparts := partitions_optimal_iff.mpr ⟨hbatch, hfeature, Nat.mul_ne_zero hx hy⟩
    obtain ⟨plan, hplan, hlaunches⟩ := exists_singleLaunch hparts
    exact isSome_firstPlan?_iff.mpr ⟨plan, [], bind_eq_ok_iff.mpr ⟨t, hcheck,
      bind_eq_ok_iff.mpr ⟨plan, hplan, rfl⟩⟩, hlaunches⟩

end Selector

end NetPlan

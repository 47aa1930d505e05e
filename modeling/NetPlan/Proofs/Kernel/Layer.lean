import NetPlan.Proofs.Effect
import NetPlan.Selection

/-!
# Proofs/Kernel/Layer — plans and the name of a layer

A request names the layer it comes from, and its work.  The builtin implementations spell that name in
the entry points of their launches and as the layer of these, and use it for nothing else: what they
plan for the same work under two names is the same but for that (`blind_builtin`).  So the plan of least
cost is the same too (`Selector.naive?_blind`).
-/

namespace NetPlan

open Kernel Kernel.Builtin

namespace Kernel

/-! ## Plans without names -/

/-- A launch without the names that its layer goes by. -/
def Launch.unlabelled (l : Launch) : Launch := { l with entry := "", layer := "" }

/-- A plan whose launches do not name their layer. -/
def Plan.unlabelled (plan : Plan) : Plan :=
  { plan with launches := plan.launches.map Launch.unlabelled }

/-- Labels take no launches. -/
theorem Plan.isEmpty_unlabelled (plan : Plan) : plan.unlabelled.isEmpty = plan.isEmpty :=
  List.isEmpty_map

/-! ## Computations that are alike -/

section Alike

variable {ε α β γ δ : Type} {f : α → γ} {g : β → δ}

/-- Two computations have the same result as far as `f` shows, or the same error. -/
def Alike (f : α → γ) (x y : Except ε α) : Prop := x.map f = y.map f

theorem Alike.refl (x : Except ε α) : Alike f x x := rfl

/-- Results that look the same. -/
theorem Alike.of_eq {a b : α} (h : f a = f b) : Alike f (pure a : Except ε α) (pure b) :=
  congrArg Except.ok h

/-- Steps that go on alike. -/
theorem Alike.bind {x y : Except ε α} {k k' : α → Except ε β} (h : Alike f x y)
    (hk : ∀ a b, f a = f b → Alike g (k a) (k' b)) : Alike g (x >>= k) (y >>= k') := by
  cases x with
  | error e =>
    cases y with
    | error e' => exact congrArg Except.error (Except.error.inj h)
    | ok b => cases h
  | ok a =>
    cases y with
    | error e' => cases h
    | ok b => exact hk a b (Except.ok.inj h)

/-- After the same computation. -/
theorem alike_bind (x : Except ε α) {k k' : α → Except ε β} (hk : ∀ a, Alike g (k a) (k' a)) :
    Alike g (x >>= k) (x >>= k') :=
  Alike.bind (f := id) rfl fun a b (hab : a = b) => hab ▸ hk a

/-- After the same check. -/
theorem alike_guard {c : Prop} [Decidable c] (y : Except ε Unit) {k k' : Unit → Except ε β}
    (hk : ∀ u, Alike g (k u) (k' u)) :
    Alike g (if c then y >>= k else k ()) (if c then y >>= k' else k' ()) := by
  split
  · exact alike_bind y hk
  · exact hk ()

end Alike

/-! ## Planners that do not see the name -/

/-- A planner plans the same under every name of the layer, as far as plans do not name it. -/
def Planner.Blind (planner : Planner) : Prop :=
  ∀ layer layer' work o, Alike (List.map Plan.unlabelled) (planner ⟨layer, work⟩ o)
    (planner ⟨layer', work⟩ o)

variable {kind : Kind} {name entry layer layer' : String} {defines extra : Defines}
  {groups : WorkGroups} {arguments : List Argument} {cost : Single} {change : Option WeightsChange}
  {options : Options}

/-- Launches differ in their label alone. -/
theorem alike_singleLaunch :
    Alike Plan.unlabelled (singleLaunch kind entry layer defines groups arguments cost)
      (singleLaunch kind entry layer' defines groups arguments cost) := by
  unfold singleLaunch
  split <;> exact rfl

/-- One launch, and what becomes of its plan. -/
theorem alike_launch {finish : Plan → Plan}
    (hfinish : ∀ a b : Plan, a.unlabelled = b.unlabelled →
      (finish a).unlabelled = (finish b).unlabelled) :
    Alike (List.map Plan.unlabelled)
      (do
        let plan ← singleLaunch kind entry layer defines groups arguments cost
        return [finish plan])
      (do
        let plan ← singleLaunch kind entry layer' defines groups arguments cost
        return [finish plan]) :=
  alike_singleLaunch.bind fun a b hab => .of_eq (congrArg (fun plan => [plan]) (hfinish a b hab))

/-- So do plans of one launch. -/
theorem alike_plain :
    Alike (List.map Plan.unlabelled)
      (do
        let plan ← singleLaunch kind entry layer defines groups arguments cost
        return [plan])
      (do
        let plan ← singleLaunch kind entry layer' defines groups arguments cost
        return [plan]) :=
  alike_launch fun _ _ h => h

/-- A plan with a change of weights. -/
theorem unlabelled_change {a b : Plan} (h : a.unlabelled = b.unlabelled) :
    ({ a with weightsChange := change } : Plan).unlabelled
      = ({ b with weightsChange := change } : Plan).unlabelled :=
  congrArg (fun plan => ({ plan with weightsChange := change } : Plan)) h

/-! ### Work without weights -/

theorem blind_activationRef : Planner.Blind planActivationRef := fun _ _ work _ => by
  cases work with
  | activation o => exact alike_bind _ fun _ => alike_plain
  | _ => exact .refl _

theorem blind_activationOpt : Planner.Blind planActivationOpt := fun _ _ work _ => by
  cases work with
  | activation o => exact alike_bind _ fun _ => alike_guard _ fun _ => alike_plain
  | _ => exact .refl _

theorem blind_eltwise : Planner.Blind planEltwise := fun _ _ work _ => by
  cases work with
  | eltwise w => exact alike_bind _ fun _ => alike_plain
  | _ => exact .refl _

theorem blind_poolingRef : Planner.Blind planPoolingRef := fun _ _ work _ => by
  cases work with
  | pooling w => exact alike_bind _ fun _ => alike_plain
  | _ => exact .refl _

theorem blind_poolingAverage : Planner.Blind planPoolingAverage := fun _ _ work _ => by
  cases work with
  | pooling w => exact alike_bind _ fun _ => alike_guard _ fun _ => alike_plain
  | _ => exact .refl _

theorem blind_poolingBlock : Planner.Blind planPoolingBlock := fun _ _ work _ => by
  cases work with
  | pooling w => exact alike_bind _ fun _ => alike_guard _ fun _ => alike_plain
  | _ => exact .refl _

theorem blind_reorderRef : Planner.Blind planReorderRef := fun _ _ work _ => by
  cases work with
  | reorder w => exact alike_bind _ fun _ => alike_plain
  | _ => exact .refl _

theorem blind_reorderFast : Planner.Blind planReorderFast := fun _ _ work _ => by
  cases work with
  | reorder w => exact alike_bind _ fun _ => alike_plain
  | _ => exact .refl _

theorem blind_reorderWeights : Planner.Blind planReorderWeights := fun _ _ work _ => by
  cases work with
  | weightsReorder source target => exact alike_guard _ fun _ => alike_plain
  | _ => exact .refl _

theorem blind_softmaxRef : Planner.Blind planSoftmaxRef := fun _ _ work _ => by
  cases work with
  | softmax o axis => exact alike_bind _ fun _ => alike_plain
  | _ => exact .refl _

theorem blind_softmaxItems : Planner.Blind planSoftmaxItems := fun _ _ work _ => by
  cases work with
  | softmax o axis => exact alike_bind _ fun _ => alike_plain
  | _ => exact .refl _

theorem blind_batchNorm : Planner.Blind planBatchNorm := fun _ _ work _ => by
  cases work with
  | batchNorm o epsilon =>
    unfold planBatchNorm
    dsimp only
    split
    · exact alike_bind _ fun _ => alike_guard _ fun _ => alike_plain
    · exact .refl _
  | _ => exact .refl _

theorem blind_scale : Planner.Blind planScale := fun _ _ work _ => by
  cases work with
  | scale o =>
    unfold planScale
    dsimp only
    split
    · exact .refl _
    · exact alike_guard _ fun _ => alike_bind _ fun _ => alike_plain
  | _ => exact .refl _

/-- The parts of a concatenation. -/
theorem alike_concatenationParts (layer layer' : String) (o : Operands) (axis : Axis) :
    ∀ (index offset : Nat) (inputs : List DataTensor),
      Alike (List.map Plan.unlabelled) (concatenationParts layer o axis index offset inputs)
        (concatenationParts layer' o axis index offset inputs)
  | _, _, [] => .refl _
  | index, offset, input :: rest =>
      alike_singleLaunch.bind fun _ _ hpart =>
        (alike_concatenationParts layer layer' o axis (index + 1) (offset + input.extent axis)
          rest).bind fun _ _ hparts => .of_eq (by
            rw [List.map_cons, List.map_cons, hpart, hparts])

/-- Without labels the launches of all plans are the same. -/
theorem unlabelled_launches : ∀ {as bs : List Plan},
    as.map Plan.unlabelled = bs.map Plan.unlabelled →
      (as.flatMap (·.launches)).map Launch.unlabelled
        = (bs.flatMap (·.launches)).map Launch.unlabelled := by
  intro as bs h
  have hflat : ∀ ps : List Plan, (ps.flatMap (·.launches)).map Launch.unlabelled
      = (ps.map Plan.unlabelled).flatMap (·.launches) := fun ps => by
    rw [List.map_flatMap, List.flatMap_map]
    rfl
  rw [hflat, hflat, h]

/-- A plan with further launches. -/
theorem Plan.unlabelled_launches_append {a b : Plan} {as bs : List Launch}
    (h : a.unlabelled = b.unlabelled)
    (hmore : as.map Launch.unlabelled = bs.map Launch.unlabelled) :
    ({ a with launches := a.launches ++ as } : Plan).unlabelled
      = ({ b with launches := b.launches ++ bs } : Plan).unlabelled := by
  have hlaunches : a.launches.map Launch.unlabelled = b.launches.map Launch.unlabelled :=
    congrArg Plan.launches h
  have hboth : (a.launches ++ as).map Launch.unlabelled
      = (b.launches ++ bs).map Launch.unlabelled := by
    rw [List.map_append, List.map_append, hlaunches, hmore]
  calc ({ a with launches := a.launches ++ as } : Plan).unlabelled
      = { a.unlabelled with launches := (a.launches ++ as).map Launch.unlabelled } := rfl
    _ = { b.unlabelled with launches := (b.launches ++ bs).map Launch.unlabelled } := by
      rw [h, hboth]

theorem blind_concatenation : Planner.Blind planConcatenation := fun layer layer' work _ => by
  cases work with
  | concatenation o axis =>
    refine alike_bind _ fun _ =>
      (alike_concatenationParts layer layer' o axis 0 0 o.inputs).bind fun as bs h => ?_
    cases as with
    | nil =>
      cases bs with
      | nil => exact .refl _
      | cons b bs => cases h
    | cons a as =>
      cases bs with
      | nil => cases h
      | cons b bs =>
        obtain ⟨hfirst, hrest⟩ := List.cons.inj h
        refine .of_eq (congrArg (fun plan => [plan]) (Plan.unlabelled_launches_append hfirst ?_))
        rw [unlabelled_launches hrest]
  | _ => exact .refl _

/-! ### Work with weights -/

/-- Convolutions differ in their label alone. -/
theorem alike_convolutionPlan {w : ConvolutionWork} :
    Alike Plan.unlabelled (convolutionPlan w name layer extra groups cost change)
      (convolutionPlan w name layer' extra groups cost change) :=
  alike_singleLaunch.bind fun _ _ h => .of_eq (unlabelled_change h)

/-- So do plans of one convolution. -/
theorem alike_convolutionPlans {w : ConvolutionWork} :
    Alike (List.map Plan.unlabelled)
      (do
        let plan ← convolutionPlan w name layer extra groups cost change
        return [plan])
      (do
        let plan ← convolutionPlan w name layer' extra groups cost change
        return [plan]) :=
  alike_convolutionPlan.bind fun _ _ h => .of_eq (congrArg (fun plan => [plan]) h)

theorem blind_convolutionRef : Planner.Blind planConvolutionRef := fun _ _ work _ => by
  cases work with
  | convolution w => exact alike_bind _ fun _ => alike_bind _ fun _ => alike_convolutionPlans
  | _ => exact .refl _

theorem blind_convolutionGemm : Planner.Blind planConvolutionGemm := fun _ _ work _ => by
  cases work with
  | convolution w =>
    exact alike_bind _ fun _ => alike_bind _ fun _ => alike_bind _ fun _ => alike_convolutionPlans
  | _ => exact .refl _

theorem blind_convolutionBatch : Planner.Blind planConvolutionBatch := fun _ _ work _ => by
  cases work with
  | convolution w =>
    exact alike_bind _ fun _ => alike_guard _ fun _ => alike_bind _ fun _ => alike_bind _ fun _ =>
      alike_convolutionPlans
  | _ => exact .refl _

theorem blind_convolutionBlock : Planner.Blind planConvolutionBlock := fun layer layer' work _ => by
  have hcheck : checkBlock ⟨layer, work⟩ = checkBlock ⟨layer', work⟩ := by
    cases work <;> rfl
  unfold planConvolutionBlock
  rw [hcheck]
  exact alike_bind _ fun _ => (alike_bind _ fun _ => alike_bind _ fun _ => alike_bind _ fun _ =>
    alike_convolutionPlan).bind fun _ _ h => .of_eq (congrArg (fun plan => [plan]) h)

theorem blind_depthwise : Planner.Blind planDepthwise := fun layer layer' work _ => by
  have hcheck : checkDepthwise ⟨layer, work⟩ = checkDepthwise ⟨layer', work⟩ := by
    cases work <;> rfl
  unfold planDepthwise
  rw [hcheck]
  exact alike_bind _ fun _ => (alike_bind _ fun _ => alike_convolutionPlan).bind fun _ _ h =>
    .of_eq (congrArg (fun plan => [plan]) h)

theorem blind_fused : Planner.Blind planFused := fun _ _ work _ => by
  cases work with
  | fusedConvBnScale w epsilon =>
    unfold planFused
    dsimp only
    split
    · exact alike_guard _ fun _ => alike_bind _ fun _ => alike_bind _ fun _ => alike_bind _ fun _ =>
        alike_launch fun _ _ => unlabelled_change
    · exact .refl _
  | _ => exact .refl _

/-- Matrix products differ in their label alone. -/
theorem alike_fullyConnectedPlan {w : FullyConnectedWork} :
    Alike (List.map Plan.unlabelled) (fullyConnectedPlan w name layer extra groups cost change)
      (fullyConnectedPlan w name layer' extra groups cost change) :=
  alike_launch fun _ _ => unlabelled_change

theorem blind_fullyConnectedRef : Planner.Blind planFullyConnectedRef := fun _ _ work _ => by
  cases work with
  | fullyConnected w => exact alike_bind _ fun _ => alike_bind _ fun _ => alike_fullyConnectedPlan
  | _ => exact .refl _

theorem blind_fullyConnectedGemm : Planner.Blind planFullyConnectedGemm := fun _ _ work _ => by
  cases work with
  | fullyConnected w => exact alike_bind _ fun _ => alike_bind _ fun _ => alike_fullyConnectedPlan
  | _ => exact .refl _

theorem blind_fullyConnectedBlock : Planner.Blind planFullyConnectedBlock := fun _ _ work _ => by
  cases work with
  | fullyConnected w =>
    exact alike_bind _ fun _ => alike_guard _ fun _ => alike_guard _ fun _ => alike_bind _ fun _ =>
      alike_fullyConnectedPlan
  | _ => exact .refl _

theorem blind_fullyConnectedSingle : Planner.Blind planFullyConnectedSingle := fun _ _ work _ => by
  cases work with
  | fullyConnected w => exact alike_bind _ fun _ => alike_bind _ fun _ => alike_fullyConnectedPlan
  | _ => exact .refl _

/-- **No builtin implementation uses the name of the layer**, but to spell it in a plan. -/
theorem blind_builtin : ∀ i ∈ Registry.builtin.implementations, i.plan.Blind := by
  simp only [Registry.builtin, List.forall_mem_cons, List.not_mem_nil, false_imp_iff, implies_true,
    and_true]
  exact ⟨blind_convolutionRef, blind_convolutionBlock, blind_convolutionGemm,
    blind_convolutionBatch, blind_depthwise, blind_fullyConnectedRef, blind_fullyConnectedGemm,
    blind_fullyConnectedBlock, blind_fullyConnectedSingle, blind_poolingRef, blind_poolingAverage,
    blind_poolingBlock, blind_activationRef, blind_activationOpt, blind_eltwise,
    blind_reorderRef, blind_reorderFast, blind_reorderWeights, blind_softmaxRef,
    blind_softmaxItems, blind_concatenation, blind_batchNorm, blind_scale, blind_fused⟩

end Kernel

/-! ## Selections -/

namespace Selector

variable {s : Selector} {layer layer' : String} {work : Work} {o : Options} {i : Implementation}

/-- Two first plans are the same but for the names in them. -/
theorem unlabelled_firstPlan? {x y : Except Refusal (List Plan)}
    (h : Alike (List.map Plan.unlabelled) x y) :
    (firstPlan? i x).map Plan.unlabelled = (firstPlan? i y).map Plan.unlabelled := by
  cases x with
  | error e =>
    cases y with
    | error e' => rfl
    | ok bs => cases h
  | ok as =>
    cases y with
    | error e' => cases h
    | ok bs =>
      have hlists : as.map Plan.unlabelled = bs.map Plan.unlabelled := Except.ok.inj h
      cases as with
      | nil =>
        cases bs with
        | nil => rfl
        | cons b bs => cases hlists
      | cons a as =>
        cases bs with
        | nil => cases hlists
        | cons b bs =>
          obtain ⟨hfirst, -⟩ := List.cons.inj hlists
          have hempty : a.isEmpty = b.isEmpty := by
            rw [← a.isEmpty_unlabelled, hfirst, b.isEmpty_unlabelled]
          rw [firstPlan?, firstPlan?, hempty]
          split
          · rfl
          · exact congrArg (fun plan : Plan => some { plan with implementation := i.name }) hfirst

/-- Costs are compared without labels. -/
theorem unlabelled_cheaper {best best' : Option Plan} {a b : Plan}
    (hbest : best.map Plan.unlabelled = best'.map Plan.unlabelled)
    (h : a.unlabelled = b.unlabelled) :
    (cheaper best a).map Plan.unlabelled = (cheaper best' b).map Plan.unlabelled := by
  cases best with
  | none =>
    cases best' with
    | none => exact congrArg some h
    | some c' => cases hbest
  | some c =>
    cases best' with
    | none => cases hbest
    | some c' =>
      have hbest : c.unlabelled = c'.unlabelled := Option.some.inj hbest
      have hcost : a.cost = b.cost := congrArg (·.cost) h
      have hcosts : c.cost = c'.cost := congrArg (·.cost) hbest
      rw [cheaper, cheaper, hcost, hcosts]
      split
      · exact congrArg some h
      · exact congrArg some hbest

/-- **The plan of least cost does not depend on the name.** -/
theorem unlabelled_naiveAmong : ∀ {best best' : Option Plan} {is : List Implementation},
    best.map Plan.unlabelled = best'.map Plan.unlabelled → (∀ i ∈ is, i.plan.Blind) →
      (s.naiveAmong ⟨layer, work⟩ o best is).map Plan.unlabelled
        = (s.naiveAmong ⟨layer', work⟩ o best' is).map Plan.unlabelled
  | _, _, [], hbest, _ => hbest
  | best, best', i :: is, hbest, hblind => by
      have hfirst := unlabelled_firstPlan? (i := i) (hblind i List.mem_cons_self layer layer' work o)
      have hrest := fun i hi => hblind i (List.mem_cons_of_mem _ hi)
      rw [naiveAmong, naiveAmong]
      cases hx : firstPlan? i (i.plan ⟨layer, work⟩ o) with
      | none =>
        rw [hx] at hfirst
        rw [Option.map_eq_none_iff.mp hfirst.symm]
        exact unlabelled_naiveAmong hbest hrest
      | some a =>
        rw [hx] at hfirst
        obtain ⟨b, hb, hab⟩ := Option.map_eq_some_iff.mp hfirst.symm
        rw [hb]
        dsimp only
        split
        · exact congrArg some hab.symm
        split
        · exact unlabelled_naiveAmong hbest hrest
        · exact unlabelled_naiveAmong (unlabelled_cheaper hbest hab.symm) hrest

/-- The device takes the work or does not, whatever the name. -/
theorem deviceError?_eq_none (layer' : String) (h : s.deviceError? ⟨layer, work⟩ = none) :
    s.deviceError? ⟨layer', work⟩ = none := by
  unfold deviceError? at h ⊢
  dsimp only at h ⊢
  cases hop : work.operands? with
  | none => rfl
  | some operands =>
    rw [hop] at h
    dsimp only at h ⊢
    split at h
    · cases h
    case isFalse hfit => rw [if_neg hfit]

/-- Without tuning the session decides nothing. -/
theorem run_select (hmode : s.mode = .disabled) (r : Request) (session : Session) :
    ((s.select r o).run.run session).1 = s.naive? r o := by
  rw [select, if_pos hmode, naive]
  split <;> rfl

/-- **Without tuning the same work gets the same plan under every name**, as far as the plan does not
spell it. -/
theorem naive?_blind {plan : Plan} (layer' : String)
    (hblind : ∀ i ∈ s.registry.implementations, i.plan.Blind)
    (h : s.naive? ⟨layer, work⟩ o = .ok plan) :
    ∃ again, s.naive? ⟨layer', work⟩ o = .ok again ∧ again.unlabelled = plan.unlabelled := by
  have hcandidates : s.candidates ⟨layer', work⟩ o = s.candidates ⟨layer, work⟩ o := rfl
  have hsame : (s.naiveAmong ⟨layer, work⟩ o none (s.candidates ⟨layer, work⟩ o)).map
      Plan.unlabelled = (s.naiveAmong ⟨layer', work⟩ o none (s.candidates ⟨layer, work⟩ o)).map
      Plan.unlabelled :=
    unlabelled_naiveAmong rfl fun i hi =>
      hblind i (List.mem_filter.mp (List.mem_filter.mp hi).1).1
  unfold naive? at h
  split at h
  · cases h
  case h_2 hdevice =>
    split at h
    case h_2 => cases h
    case h_1 found hfound =>
      cases h
      rw [hfound] at hsame
      obtain ⟨again, hagain, hunlabelled⟩ := Option.map_eq_some_iff.mp hsame.symm
      have hdevice' := deviceError?_eq_none layer' hdevice
      exact ⟨again, by rw [naive?, hdevice', hcandidates, hagain], hunlabelled⟩

end Selector

end NetPlan

import NetPlan.Proofs.Pass.Labelled
import NetPlan.Proofs.Pass.Raw
import NetPlan.Proofs.Pass.Rerouted
import NetPlan.Proofs.Pass.Standing

/-!
# Proofs/Pass/Weighing — kernels get the weights they ask for

Node by node and slot by slot the pass changes weights as the plans ask.  What is left of a plan then
stands, and stands for all other nodes (`Satisfied.inherits`): a reorder in front of weights changes the
layout of no node.  The reorder itself is bound as soon as something reads it, and it makes the layout
that is asked for since reorders on record are labelled (`Satisfied.stands`).

`steady_reorderWeights` — a graph whose nodes are bound is steady after the pass.
-/

namespace NetPlan

open Program Edit Preferences Kernel

namespace Program

variable {p q r : Program} {f : String → String} {id u v : String} {l : Layout}

theorem Inherits.trans (h : Inherits p q f v u) (h' : Inherits q r (fun d => d) u u) :
    Inherits p r f v u where
  task := h'.task.trans h.task
  plan := h'.plan.trans h.plan
  deps := by rw [h'.deps, List.map_id', h.deps]
  inputs d hd l hl := h'.inputs (f d) (by rw [h.deps]; exact List.mem_map_of_mem hd) l
    (h.inputs d hd l hl)

/-- A reorder that has a layout is of a kind that is known. -/
theorem find_reorder_of_freshLayout (hr : p.isReorder id) (h : p.freshLayout id = .ok l) :
    ∃ k, p.behaviours.find .reorder = .ok k := by
  obtain ⟨r, hr⟩ := hr
  obtain ⟨t, inputs, ht, -, hlays⟩ := freshLayout_iff.mp h
  rw [shapeOf_eq_taskOf, ht, Option.map_some] at hr
  exact ((Task.lays_reorder_iff (Option.some.inj hr)).mp hlays).1

end Program

namespace Pass

variable {s : Selector} {b : Behaviours} {p q : Program} {m m' : List Entry} {c : Compilation}
  {env : Environment} {id next u r source : String} {index : Nat} {plan : Plan}
  {change : WeightsChange} {done slots : List Nat} {rest : List String}

/-! ## One slot -/

theorem Stands.laid (h : Stands s p u done plan) : ∃ l, p.freshLayout u = .ok l := by
  obtain ⟨_, _, _, output, -, -, hout, -⟩ := h
  exact ⟨output, hout⟩

/-- What the pass needs of a graph, its plans apart: reorders read one node at most, and those on record
make what they are on record for. -/
structure Stocked (b : Behaviours) (p : Program) (m : List Entry) : Prop extends Based p m where
  behaviours : p.behaviours = b
  slim : p.Slim
  labelled : Labelled p m

theorem Stocked.sameGraph (h : Stocked b p m) (hq : SameGraph p q) : Stocked b q m where
  toBased := ⟨h.toSound.kept hq.kept, hq.ranked h.ranked, h.numbered⟩
  behaviours := hq.kept.behaviours.trans h.behaviours
  slim := h.slim.sameGraph hq
  labelled := h.labelled.sameGraph hq

theorem Stocked.served {made : Option String} (h : Stocked b p m) (hnext : p.isWeighted next)
    (hq : Served p q m m' next index made) : Stocked b q m' where
  toBased := Rewrite.based h.toBased (.served hnext hq)
  behaviours := (hq.kept h.linked).behaviours.trans h.behaviours
  slim := hq.slim h.slim h.numbered hnext.not_isReorder
  labelled := h.labelled.served h.numbered hq

theorem Stocked.satisfied {target : WeightTensor} (h : Stocked b p m) (hnext : p.isWeighted next)
    (hq : Satisfied s target p q m m' next index) : Stocked b q m' := by
  cases hq with
  | absent _ same kept => rw [same, kept]; exact h
  | unneeded _ _ _ _ _ same kept => rw [same, kept]; exact h
  | reordered p' r source current _ _ answered planned =>
    exact (h.served hnext answered.served).sameGraph planned.toSameGraph

/-- The reorder is of a kind that is known: it has a plan, and so a layout. -/
theorem find_reorder_of_satisfied {p' : Program} (hrerouted : Rerouted p p' r next source index)
    (hlaid : ∀ u plan, p.planOf u = some plan → ∃ l, p.freshLayout u = .ok l)
    (hplanned : Planned p' q r) (hbound : p'.runsKernelAt r → (q.planOf r).isSome = true)
    (helected : ∀ plan, q.planOf r = some plan → p'.planOf r = some plan ∨ Elected s q r plan) :
    ∃ k, p.behaviours.find .reorder = .ok k := by
  obtain ⟨re, hre⟩ := hrerouted.reorder
  obtain ⟨plan, hplan⟩ := Option.isSome_iff_exists.mp (hbound ⟨_, hre, rfl⟩)
  rcases helected plan hplan with hold | hnew
  · rw [hrerouted.plans] at hold
    have hr : p.isReorder r := by
      rw [isReorder, shapeOf_eq_taskOf, ← hrerouted.tasks r (contains_of_planOf hold),
        ← shapeOf_eq_taskOf]
      exact hrerouted.reorder
    obtain ⟨l, hl⟩ := hlaid r plan hold
    exact find_reorder_of_freshLayout hr hl
  · obtain ⟨l, hl⟩ := hnew.stands.laid
    rw [← hrerouted.behaviours, ← hplanned.kept.behaviours]
    refine find_reorder_of_freshLayout ?_ hl
    rw [isReorder, hplanned.shapes]
    exact hrerouted.reorder

/-- **The plans of all other nodes stay as they are**; the reorder that is read now may be bound. -/
theorem Satisfied.inherits {target : WeightTensor} {plan : Plan} (h : Stocked b p m)
    (hindex : index ∈ p.weightSlotsOf next)
    (hlaid : ∀ u plan, p.planOf u = some plan → ∃ l, p.freshLayout u = .ok l)
    (hq : Satisfied s target p q m m' next index) (hne : u ≠ next) (hplan : q.planOf u = some plan) :
    Inherits p q (fun d => d) u u ∨ q.isReorder u ∧ Elected s q u plan := by
  have hweighted := isWeighted_of_mem_weightSlotsOf hindex
  cases hq with
  | absent _ same => exact Or.inl (same ▸ (SameGraph.refl h.linked).inherits rfl)
  | unneeded _ _ _ _ _ same => exact Or.inl (same ▸ (SameGraph.refl h.linked).inherits rfl)
  | reordered p' r source current _ _ answered planned bound elected =>
    obtain ⟨source', hrerouted⟩ :=
      answered.served.rerouted h.numbered hweighted.not_isReorder h.slim
    have hreg := find_reorder_of_satisfied hrerouted hlaid planned bound elected
    have hpos : index ≠ 0 := by
      obtain ⟨op, hop, -⟩ := hweighted
      rw [weightSlotsOf, hop] at hindex
      exact Operation.pos_of_mem_weightSlots hindex
    have hstay : p'.planOf u = some plan → q.planOf u = p'.planOf u →
        Inherits p q (fun d => d) u u := fun hold hsame => by
      rw [hrerouted.plans] at hold
      exact (hrerouted.inherits hweighted hpos hreg (contains_of_planOf hold) hne).trans
        (planned.toSameGraph.inherits hsame)
    by_cases hu : u = r
    · subst hu
      refine (elected plan hplan).imp (fun hold => hstay hold (hplan.trans hold.symm)) fun hnew => ?_
      refine ⟨?_, hnew⟩
      rw [isReorder, planned.shapes]
      exact hrerouted.reorder
    · exact Or.inl (hstay (planned.plans u hu ▸ hplan) (planned.plans u hu))

/-- **The plan stands on**, with one slot more that is as it asks. -/
theorem Satisfied.stands (h : Stocked b p m) (hindex : index ∈ p.weightSlotsOf next)
    (hlaid : ∀ u plan, p.planOf u = some plan → ∃ l, p.freshLayout u = .ok l)
    (hasks : plan.weightsChange = some change)
    (hq : Satisfied s change.target p q m m' next index) (hstands : Stands s p next done plan) :
    q.planOf next = p.planOf next ∧ Stands s q next (index :: done) plan := by
  have hweighted := isWeighted_of_mem_weightSlotsOf hindex
  obtain ⟨task, given, now, output, htask, hnow, hout, hadjusted, hselected⟩ := hstands
  rw [hasks] at hadjusted
  have hat : ∀ i source, (p.depsOf next)[i]? = some source →
      ∃ l, now[i]? = some l ∧ p.freshLayout source = .ok l := fun i source hi =>
    exists_getElem?_of_forall₂ hnow hi
  cases hq with
  | absent empty same =>
    subst same
    refine ⟨rfl, task, given, now, output, htask, hnow, hout, ?_, hselected⟩
    rw [hasks]
    refine hadjusted.fits fun current hcurrent => ?_
    rw [List.getElem?_eq_none_iff, hnow.length_eq] at empty
    rw [List.getElem?_eq_none empty] at hcurrent
    cases hcurrent
  | unneeded source current reads laid fits same =>
    subst same
    refine ⟨rfl, task, given, now, output, htask, hnow, hout, ?_, hselected⟩
    rw [hasks]
    refine hadjusted.fits fun current' hcurrent => ?_
    obtain ⟨l, hl, hsource⟩ := hat index source reads
    rw [laid] at hsource
    cases hsource
    cases hcurrent.symm.trans hl
    exact fits
  | reordered p' r source current reads laid answered planned bound elected =>
    obtain ⟨source', hrerouted⟩ :=
      answered.served.rerouted h.numbered hweighted.not_isReorder h.slim
    obtain rfl : source = source' := Option.some.inj (reads.symm.trans hrerouted.reads)
    have hreg := find_reorder_of_satisfied hrerouted hlaid planned bound elected
    have hpos : index ≠ 0 := by
      obtain ⟨op, hop, -⟩ := hweighted
      rw [weightSlotsOf, hop] at hindex
      exact Operation.pos_of_mem_weightSlots hindex
    have hstay : ∀ {j l}, p.freshLayout j = .ok l → p'.freshLayout j = .ok l := fun hj =>
      hrerouted.layouts hweighted hpos hreg hj
    -- what is read now was made for this request, by its label
    obtain ⟨e, he, hkey, hid⟩ := answered.recorded r rfl h.numbered
    have hlabel := (h.served hweighted answered.served).labelled e he (hid ▸ hrerouted.reorder)
    rw [hid, hkey] at hlabel
    obtain ⟨padding, hother⟩ := hrerouted.laid hlabel hreg (hstay laid)
    obtain ⟨l, hcurrent, hl⟩ := hat index source reads
    rw [laid] at hl
    cases hl
    have hnow' := hrerouted.read hother (hnow.imp fun _ _ hd => hstay hd)
    refine ⟨by rw [planned.plans next hrerouted.ne.symm, hrerouted.plans], task, given,
      now.set index ((wantedWeights change.target current.size).withPadding padding), output, ?_, ?_,
      ?_, ?_, hselected⟩
    · rw [planned.tasks, hrerouted.tasks next hweighted.contains, htask]
    · rw [planned.deps, planned.toSameGraph.freshLayout]
      exact hnow'
    · rw [planned.toSameGraph.freshLayout, hstay hout]
    · rw [hasks]
      exact hadjusted.set padding hcurrent

/-! ## Node by node -/

/-- While kernels are given their weights: plans are closed, but for those of nodes still to come. -/
structure Weighing (s : Selector) (b : Behaviours) (p : Program) (m : List Entry)
    (rest : List String) : Prop extends Stocked b p m where
  plans : ∀ u plan, p.planOf u = some plan → Closed s p u plan ∨ u ∈ rest ∧ Stands s p u [] plan

/-- In the middle of a node, with some of its slots done. -/
structure Visiting (s : Selector) (b : Behaviours) (p : Program) (m : List Entry)
    (rest : List String) (id : String) (done : List Nat) (plan : Plan) : Prop
    extends Stocked b p m where
  here : p.planOf id = some plan
  stands : Stands s p id done plan
  others : ∀ u, u ≠ id → ∀ plan, p.planOf u = some plan →
    Closed s p u plan ∨ u ∈ rest ∧ Stands s p u [] plan

theorem Closed.laid (h : Closed s p u plan) : ∃ l, p.freshLayout u = .ok l := by
  obtain ⟨asked, hstands, -⟩ := h
  exact hstands.laid

/-- A plan that stands or is closed does so on the same graph. -/
theorem waits_sameGraph (hq : SameGraph p q) (hplan : q.planOf u = p.planOf u)
    (h : Closed s p u plan ∨ u ∈ rest ∧ Stands s p u [] plan) :
    Closed s q u plan ∨ u ∈ rest ∧ Stands s q u [] plan :=
  h.imp (·.inherits (hq.inherits hplan) hq.kept.behaviours)
    fun hw => ⟨hw.1, hw.2.inherits (hq.inherits hplan) hq.kept.behaviours⟩

theorem Visiting.touched (h : Visiting s b p m rest id done plan) (hq : Touched p q) :
    Visiting s b q m rest id done plan where
  toStocked := h.toStocked.sameGraph hq.toSameGraph
  here := by rw [hq.plans, h.here]
  stands := h.stands.inherits (hq.toSameGraph.inherits (congrFun hq.plans id)) hq.kept.behaviours
  others u hu plan hplan :=
    waits_sameGraph hq.toSameGraph (congrFun hq.plans u) (h.others u hu plan (by rwa [← hq.plans]))

/-- **A slot.** -/
theorem Visiting.satisfied (h : Visiting s b p m rest id done plan)
    (hindex : index ∈ p.weightSlotsOf id) (hasks : plan.weightsChange = some change)
    (hq : Satisfied s change.target p q m m' id index) :
    Visiting s b q m' rest id (index :: done) plan := by
  have hlaid : ∀ u plan, p.planOf u = some plan → ∃ l, p.freshLayout u = .ok l := by
    intro u plan' hplan
    by_cases hu : u = id
    · exact hu ▸ h.stands.laid
    · exact (h.others u hu plan' hplan).elim (·.laid) (·.2.laid)
  have hstocked := h.toStocked.satisfied (isWeighted_of_mem_weightSlotsOf hindex) hq
  have hb : q.behaviours = p.behaviours := hstocked.behaviours.trans h.behaviours.symm
  obtain ⟨hplan, hstands⟩ := hq.stands h.toStocked hindex hlaid hasks h.stands
  refine ⟨hstocked, hplan.trans h.here, hstands, fun u hu plan' hplan' => ?_⟩
  obtain hin | ⟨hr, helected⟩ := hq.inherits h.toStocked hindex hlaid hu hplan'
  · exact (h.others u hu plan' (hin.plan ▸ hplan')).imp (·.inherits hin hb)
      fun hw => ⟨hw.1, hw.2.inherits hin hb⟩
  · exact Or.inl (helected.stands.closed fun hne => absurd (weightSlotsOf_of_isReorder hr) hne)

theorem visiting_changeAllWeights (hasks : plan.weightsChange = some change) :
    ∀ (slots done : List Nat) (c : Compilation),
      Visiting s b c.program c.preferences.made rest id done plan →
      (∀ i ∈ slots, i ∈ c.program.weightSlotsOf id) →
      Ends (changeAllWeights s id change.target slots)
        (fun _ c' => Visiting s b c'.program c'.preferences.made rest id (slots.reverse ++ done)
          plan ∧ c'.program.weightSlotsOf id = c.program.weightSlotsOf id)
        (fun e _ => e.closes = false) c
  | [], _, _, h, _ => ⟨h, rfl⟩
  | index :: slots, done, c, h, hslots => by
      have hindex := hslots index List.mem_cons_self
      rw [changeAllWeights, ends_bind]
      refine (changeWeights_effect s change.target h.linked h.coherent
        (isWeighted_of_mem_weightSlotsOf hindex)).imp_good fun _ d hd => ?_
      obtain ⟨p', hfill, hsatisfied⟩ := hd
      have htouch := hfill.touched h.linked
      have hslots' : p'.weightSlotsOf id = c.program.weightSlotsOf id :=
        weightSlotsOf_congr (congrFun htouch.shapes id)
      have hslots'' : d.program.weightSlotsOf id = c.program.weightSlotsOf id :=
        (weightSlotsOf_congr hsatisfied.weighed.shape_next).trans hslots'
      rw [ends_bind]
      refine (visiting_changeAllWeights hasks slots (index :: done) d
        ((h.touched htouch).satisfied (hslots' ▸ hindex) hasks hsatisfied) fun i hi => ?_).imp_good
        fun _ d' hd' => ⟨?_, hd'.2.trans hslots''⟩
      · rw [hslots'']
        exact hslots i (List.mem_cons_of_mem _ hi)
      · rw [List.reverse_cons, List.append_assoc]
        exact hd'.1

/-- **A node whose weights are all as its plan asks**: what is left of the plan is closed. -/
theorem Visiting.finish (h : Visiting s b p m rest id done plan)
    (hdone : ∀ i, i ∈ done ↔ i ∈ p.weightSlotsOf id) (hslots : p.weightSlotsOf id ≠ [])
    (hq : Planned p q id) (hplan : q.planOf id = some { plan with weightsChange := none }) :
    Weighing s b q m rest where
  toStocked := h.toStocked.sameGraph hq.toSameGraph
  plans u plan' hplan' := by
    by_cases hu : u = id
    · subst hu
      cases hplan.symm.trans hplan'
      have hslots' : q.weightSlotsOf u = p.weightSlotsOf u :=
        weightSlotsOf_congr (congrFun hq.shapes u)
      refine Or.inl ⟨plan, ?_, ?_⟩
      · obtain ⟨task, given, now, output, htask, hnow, hout, hadjusted, hselected⟩ :=
          h.stands.congr (p.weightSlotsOf u) fun i => (hdone i).symm
        rw [hslots']
        refine ⟨task, given, now, output, ?_, ?_, ?_, hadjusted, hselected⟩
        · rw [hq.tasks, htask]
        · rw [hq.deps, hq.toSameGraph.freshLayout]
          exact hnow
        · rw [hq.toSameGraph.freshLayout, hout]
      · rw [hslots', Plan.satisfied, if_neg hslots]
    · rw [hq.plans u hu] at hplan'
      exact waits_sameGraph hq.toSameGraph (hq.plans u hu) (h.others u hu plan' hplan')

/-- **A node that is left alone** had nothing to ask for. -/
theorem Weighing.skip (h : Weighing s b p m (id :: rest))
    (hplain : ∀ plan, p.planOf id = some plan → p.weightSlotsOf id ≠ [] →
      plan.weightsChange = none) : Weighing s b p m rest where
  toStocked := h.toStocked
  plans u plan hplan := by
    rcases h.plans u plan hplan with hclosed | ⟨hmem, hstands⟩
    · exact Or.inl hclosed
    · rcases List.mem_cons.mp hmem with rfl | hmem
      · exact Or.inl (hstands.closed (hplain plan hplan))
      · exact Or.inr ⟨hmem, hstands⟩

theorem Weighing.visiting (h : Weighing s b p m (id :: rest)) (hplan : p.planOf id = some plan)
    (hasks : plan.weightsChange = some change) (hslots : p.weightSlotsOf id ≠ []) :
    Visiting s b p m rest id [] plan where
  toStocked := h.toStocked
  here := hplan
  stands := by
    rcases h.plans id plan hplan with ⟨asked, -, hclosed⟩ | ⟨-, hstands⟩
    · -- a closed plan asks for nothing
      rw [Plan.satisfied, if_neg hslots] at hclosed
      rw [hclosed] at hasks
      cases hasks
    · exact hstands
  others u hu plan' hplan' := (h.plans u plan' hplan').imp_right fun hw =>
    ⟨(List.mem_cons.mp hw.1).resolve_left hu, hw.2⟩

theorem weighing_satisfyWeights : ∀ (ids : List String) (c : Compilation),
    Weighing s b c.program c.preferences.made ids →
      Ends (satisfyWeights s ids) (fun _ c' => Weighing s b c'.program c'.preferences.made [])
        (fun e _ => e.closes = false) c
  | [], _, h => h
  | id :: ids, c, h => by
      have hrest : ∀ (here : Nat) (d : Compilation),
          Weighing s b d.program d.preferences.made ids → Ends (do
            let further ← satisfyWeights s ids
            return here + further : Transform Nat)
            (fun _ c' => Weighing s b c'.program c'.preferences.made [])
            (fun e _ => e.closes = false) d := by
        intro here d hd
        rw [ends_bind]
        exact (weighing_satisfyWeights ids d hd).imp_good fun _ _ hr => hr
      rw [satisfyWeights, ends_bind, Transform.ends_liftM, ends_node]
      refine ⟨fun n hn => ?_, fun _ => rfl⟩
      have hplan : c.program.planOf id = n.plan := by rw [planOf, hn, Option.bind_some]
      dsimp only
      rw [← weightSlotsOf_of_node? hn]
      split
      case h_1 hnone =>
        refine hrest 0 c (h.skip fun plan hp _ => ?_)
        rw [← hplan, hp] at hnone
        exact hnone
      case h_2 change hsome =>
        split
        case isTrue hempty =>
          exact hrest 0 c (h.skip fun _ _ hne => absurd (List.isEmpty_iff.mp hempty) hne)
        case isFalse hempty =>
          have hslots : c.program.weightSlotsOf id ≠ [] := fun hnil =>
            hempty (List.isEmpty_iff.mpr hnil)
          obtain ⟨plan, hp, hasks⟩ := Option.bind_eq_some_iff.mp hsome
          rw [ends_bind]
          refine (visiting_changeAllWeights hasks (c.program.weightSlotsOf id) [] c
            (h.visiting (hplan.trans hp) hasks hslots) fun _ hi => hi).imp_good
            fun inserted d hd => ?_
          obtain ⟨hvisiting, hsame⟩ := hd
          rw [ends_bind, Transform.ends_liftM, ends_change]
          refine ⟨fun k hk => hrest inserted _ (hvisiting.finish (fun i => ?_) (hsame ▸ hslots)
            (planned_update hvisiting.linked (f := fun m : Node =>
              { m with plan := m.plan.map fun plan => { plan with weightsChange := none } })
              (fun _ => ⟨rfl, rfl, rfl, rfl, rfl⟩) (fun _ => rfl) fun _ => rfl) ?_), fun _ => rfl⟩
          · rw [hsame, List.append_nil, List.mem_reverse]
          · have hhere := hvisiting.here
            rw [planOf, hk, Option.bind_some] at hhere
            rw [planOf, node?_update (f := fun m : Node =>
              { m with plan := m.plan.map fun plan => { plan with weightsChange := none } })
              fun _ => rfl, if_pos rfl, hk, Option.map_some, Option.bind_some, hhere,
              Option.map_some]

/-- **Kernels get the weights they ask for**: every plan is closed then. -/
theorem steady_reorderWeights
    (h : Weighing env.selector b c.program c.preferences.made c.program.order.ids) :
    Ends (reorderWeights env)
      (fun _ c' => Steady env.selector b c'.program c'.preferences.made)
      (fun e _ => e.closes = false) c := by
  rw [reorderWeights, ends_bind, Transform.ends_program, ends_bind]
  refine (weighing_satisfyWeights _ c h).imp_good fun _ d hd => ?_
  exact ⟨hd.toBased, hd.behaviours, fun u plan hplan => (hd.plans u plan hplan).resolve_right
    fun hw => absurd hw.1 List.not_mem_nil⟩

/-- What binding all nodes of a graph without plans leaves. -/
theorem Bound.weighing (h : Stocked b p m) (hraw : p.Raw) (hq : Bound s p q) :
    Weighing s b q m q.order.ids where
  toStocked := h.sameGraph hq.toSameGraph
  plans u plan hplan := by
    rcases hq.elected u plan hplan with hold | ⟨hmem, helected⟩
    · rw [hraw.unplanned] at hold
      cases hold
    · exact Or.inr ⟨hq.order ▸ hmem, helected.stands⟩

/-- **The standard pipeline** leaves every plan closed. -/
theorem steady_standardPipeline {optimize : Bool} (h : Based c.program c.preferences.made)
    (hm : c.preferences.made = []) (hraw : c.program.Raw)
    (henv : env.evaluator = none ∨ c.program.behaviours.find .data = .ok .data) :
    Ends (runSteps env (standardPipeline optimize))
      (fun _ c' => Steady env.selector c.program.behaviours c'.program c'.preferences.made)
      (fun e _ => e.closes = false) c := by
  refine ends_standardPipeline
    (J := fun d => Stocked c.program.behaviours d.program d.preferences.made ∧ d.program.Raw)
    (K := fun d => Weighing env.selector c.program.behaviours d.program d.preferences.made
      d.program.order.ids)
    ?_ (fun d hd => ?_) (fun _ hd => steady_reorderWeights hd) fun _ hd => steady_cleanup hd henv
  · refine ((rewrites_runSteps env _ c (isRewriting_front optimize) h).and
      (labelled_front h hm)).imp (fun _ d hd => ?_) fun _ _ hb => hb.1
    obtain ⟨⟨hrewritten, -⟩, hlabelled⟩ := hd
    have hraw' := hrewritten.raw hraw h
    have hbehaviours : d.program.behaviours = c.program.behaviours :=
      Rewrites.invariant (I := fun p m => Based p m ∧ p.behaviours = c.program.behaviours)
        (fun hp hr => ⟨hr.based hp.1, (hr.kept hp.1.linked).behaviours.trans hp.2⟩) ⟨h, rfl⟩
        hrewritten.rewrites |>.2
    exact ⟨⟨hrewritten.toBased, hbehaviours, hraw'.slim, hlabelled⟩, hraw'⟩
  · obtain ⟨hstocked, hraw'⟩ := hd
    refine (bindAll_ends env hstocked.linked hstocked.coherent).imp_good fun _ d' hd' => ?_
    rw [hd'.2]
    exact hd'.1.weighing hstocked hraw'

end Pass

end NetPlan

import NetPlan.Proofs.Kernel.Selected
import NetPlan.Proofs.Pass.Inherited
import NetPlan.Proofs.Pass.Rewrite

/-!
# Proofs/Pass/Standing — plans and the buffers they were made for

A plan is selected for the buffers that a node reads.  It **stands** as long as these are laid out as
they were, but for weights that were changed as the plan asks (`Stands`); once all of them are, the plan
does not ask any more (`Closed`).

* `Elected.stands` — a plan stands when it is chosen;
* `Stands.inherits` — and for a node that goes through a rewrite as it is;
* `steady_cleanup` — so a round of cleanup leaves every plan closed that was.  A merged reorder is bound
  anew.
-/

namespace NetPlan

open Program Edit Kernel

/-! ## Work by task -/

section Results

variable {ε α β : Type}

theorem toOption_bind (x : Except ε α) (f : α → Except ε β) :
    (x >>= f).toOption = x.toOption.bind fun a => (f a).toOption := by
  cases x <;> rfl

theorem toOption_map (x : Except ε α) (f : α → β) : (f <$> x).toOption = x.toOption.map f := by
  cases x <;> rfl

theorem toOption_pure (a : α) : (pure a : Except ε α).toOption = some a := rfl

end Results

namespace Node

variable (n : Node) (inputs : List Layout) (output : Layout)

theorem toOption_blame {α : Type} (x : Except PrimitiveProblem α) :
    (n.blame x).toOption = x.toOption := by
  cases x <;> rfl

theorem toOption_mapM_blame {α : Type} (f : Layout → Except PrimitiveProblem α) :
    ∀ ls : List Layout, (ls.mapM fun l => n.blame (f l)).toOption = (ls.mapM f).toOption
  | [] => rfl
  | l :: ls => by
      simp only [List.mapM_cons, toOption_bind, toOption_blame, toOption_mapM_blame f ls,
        toOption_pure]

theorem toOption_expectInputs (k : Nat) : (n.expectInputs inputs k).toOption
    = if inputs.length < k then none else some () := by
  unfold expectInputs
  split <;> rfl

/-- The work of a node comes from its task; the errors alone name the node. -/
theorem toOption_work?_task :
    (n.task.node.work? inputs output).toOption = (n.work? inputs output).toOption := by
  have hact : n.task.node.activation = n.activation := n.activation_task
  have hop : n.task.node.operation = n.operation.shape := rfl
  unfold work?
  rw [hop]
  cases n.operation <;>
    simp only [Operation.shape, Operation.mapSlots, Convolution.mapSlots, Convolution.split,
      List.length_mapIdx, operands, convolutionWork, fullyConnectedWork, poolingWork, reorderWork,
      fusedWork, toOption_bind, toOption_map, toOption_pure, toOption_blame, toOption_mapM_blame,
      toOption_expectInputs, apply_ite Except.toOption, hact]

theorem work?_eq_ok_iff {w : Option Work} :
    n.task.node.work? inputs output = .ok w ↔ n.work? inputs output = .ok w := by
  rw [← toOption_eq_some, toOption_work?_task, toOption_eq_some]

end Node

/-! ## Changed weights -/

namespace Pass

/-- The layouts `now` are the layouts `given`, but for the weights in the slots `done`, which are as
the change asks if there is one. -/
structure Adjusted (change : Option WeightsChange) (done : List Nat) (given now : List Layout) :
    Prop where
  length : now.length = given.length
  changed : ∀ c, change = some c → ∀ i ∈ done, ∀ l, given[i]? = some l →
    ∃ padding, now[i]? = some ((wantedWeights c.target l.size).withPadding padding)
  kept : ∀ i, (i ∈ done → change = none) → now[i]? = given[i]?

namespace Adjusted

variable {change : Option WeightsChange} {done done' : List Nat} {given now : List Layout}

theorem refl (change : Option WeightsChange) (given : List Layout) :
    Adjusted change [] given given where
  length := rfl
  changed _ _ _ hi := absurd hi List.not_mem_nil
  kept _ _ := rfl

/-- The slots are a set. -/
theorem congr (h : Adjusted change done given now) (hdone : ∀ i, i ∈ done' ↔ i ∈ done) :
    Adjusted change done' given now where
  length := h.length
  changed c hc i hi := h.changed c hc i ((hdone i).mp hi)
  kept i hi := h.kept i fun hmem => hi ((hdone i).mpr hmem)

/-- Where nothing is asked for, nothing changes. -/
theorem of_none (h : Adjusted none done given now) : now = given :=
  List.ext_getElem? fun i => h.kept i fun _ => rfl

theorem of_nil (h : Adjusted change [] given now) : now = given :=
  List.ext_getElem? fun i => h.kept i fun hi => absurd hi List.not_mem_nil

/-- A slot more. -/
theorem set {c : WeightsChange} {index : Nat} {current : Layout}
    (h : Adjusted (some c) done given now) (padding : Padding)
    (hcurrent : now[index]? = some current) :
    Adjusted (some c) (index :: done) given
      (now.set index ((wantedWeights c.target current.size).withPadding padding)) where
  length := List.length_set.trans h.length
  changed c' hc i hi l hl := by
    cases hc
    by_cases he : i = index
    · subst he
      have hlt := (List.getElem?_eq_some_iff.mp hcurrent).1
      refine ⟨padding, ?_⟩
      -- the buffer has the size it had, changed before or not
      have hsize : current.size = l.size := by
        by_cases hdone : i ∈ done
        · obtain ⟨_, hnow⟩ := h.changed c rfl i hdone l hl
          rw [hcurrent] at hnow
          rw [Option.some.inj hnow]
          rfl
        · rw [h.kept i fun hmem => absurd hmem hdone, hl] at hcurrent
          rw [Option.some.inj hcurrent]
      rw [List.getElem?_set_self hlt, hsize]
    · rw [List.getElem?_set_ne (Ne.symm he)]
      exact h.changed c rfl i ((List.mem_cons.mp hi).resolve_left he) l hl
  kept i hi := by
    have hne : index ≠ i := fun he => nomatch hi (he ▸ List.mem_cons_self)
    rw [List.getElem?_set_ne hne]
    exact h.kept i fun hmem => hi (List.mem_cons_of_mem _ hmem)

/-- A slot that lies as it should. -/
theorem fits {c : WeightsChange} {index : Nat} (h : Adjusted (some c) done given now)
    (hfits : ∀ current, now[index]? = some current →
      current = wantedWeights c.target current.size) :
    Adjusted (some c) (index :: done) given now := by
  cases hcurrent : now[index]? with
  | some current =>
    have hset := h.set current.padding hcurrent
    have hpadding : (wantedWeights c.target current.size).withPadding current.padding = current := by
      rw [← hfits current hcurrent]
      rfl
    obtain ⟨hlt, rfl⟩ := List.getElem?_eq_some_iff.mp hcurrent
    rwa [hpadding, List.set_getElem_self] at hset
  | none =>
    refine ⟨h.length, fun c' hc i hi l hl => ?_, fun i hi => ?_⟩
    · rcases List.mem_cons.mp hi with rfl | hi
      · rw [List.getElem?_eq_none_iff, h.length] at hcurrent
        rw [List.getElem?_eq_none hcurrent] at hl
        cases hl
      · exact h.changed c' hc i hi l hl
    · exact h.kept i fun hmem => hi (List.mem_cons_of_mem _ hmem)

end Adjusted

/-! ## Plans that stand -/

variable {s : Selector} {p q : Program} {b : Behaviours} {f : String → String}
  {id input u v : String} {done done' : List Nat} {plan : Plan} {m : List Preferences.Entry}

/-- The selector gave the plan to a task with buffers laid out like these. -/
structure Selected (s : Selector) (t : Task) (given : List Layout) (output : Layout) (plan : Plan) :
    Prop where
  slots : t.operation.kind.isWeighted = true → t.operation.weightSlots ≠ []
  run : ∃ w layer session session', t.node.work? given output = .ok (some w) ∧
    (s.select ⟨layer, w⟩ t.operation.kind.options).run.run session = (.ok plan, session')

/-- The selector gave the plan to the node for buffers laid out like those it reads, but for the
weights in the slots `done`. -/
def Stands (s : Selector) (p : Program) (u : String) (done : List Nat) (plan : Plan) : Prop :=
  ∃ task given now output, p.taskOf u = some task ∧
    List.Forall₂ (fun d l => p.freshLayout d = .ok l) (p.depsOf u) now ∧
    p.freshLayout u = .ok output ∧ Adjusted plan.weightsChange done given now ∧
    Selected s task given output plan

/-- **A plan stands when it is chosen.** -/
theorem Elected.stands (h : Elected s p u plan) : Stands s p u [] plan := by
  obtain ⟨p₀, q₀, n, hsame, ⟨hfill, hnode, hslots, inputs, output, session, session', hin, hout,
    hrun⟩⟩ := h
  have htask : p₀.taskOf u = some n.task := by
    rw [← taskOf_of_node? hnode]
    exact (view_of_uncached (Option.map Node.task) (fun _ => rfl) hfill.same u).symm
  have hdeps : p₀.depsOf u = n.dependencies := by
    rw [← depsOf_of_uncached hfill.same, depsOf_of_node? hnode]
  have hkind : n.task.operation.kind = n.kind := n.operation.kind_shape
  have hends := n.kind.choose_ends n inputs output s session
  rw [Ends, hrun] at hends
  obtain ⟨r, hr, hselect⟩ := hends.2 plan rfl
  obtain ⟨w, hw, rfl⟩ := n.kind.request?_eq_some n inputs output hr
  refine ⟨n.task, inputs, inputs, output, ?_, ?_, ?_, .refl _ _, fun hk => ?_, w, n.id, session,
    session', (n.work?_eq_ok_iff inputs output).mpr hw, ?_⟩
  · rw [hsame.tasks, htask]
  · rw [hsame.deps, hsame.freshLayout, hdeps]
    exact mapM_eq_ok_iff.mp hin
  · rw [hsame.freshLayout, hout]
  · rw [Node.task, Operation.weightSlots_shape]
    exact hslots (hkind ▸ hk)
  · rw [hkind]
    exact hselect

/-- **It stands for a node that goes through a rewrite as it is.** -/
theorem Stands.inherits (h : Stands s p v done plan) (hu : Inherits p q f v u)
    (hb : q.behaviours = p.behaviours) : Stands s q u done plan := by
  obtain ⟨task, given, now, output, htask, hnow, hout, hadjusted, hselected⟩ := h
  exact ⟨task, given, now, output, hu.task.trans htask, hu.reads hnow, hu.layout hb hout, hadjusted,
    hselected⟩

theorem Stands.congr (h : Stands s p u done plan) (done' : List Nat)
    (hdone : ∀ i, i ∈ done' ↔ i ∈ done) : Stands s p u done' plan := by
  obtain ⟨task, given, now, output, htask, hnow, hout, hadjusted, hselected⟩ := h
  exact ⟨task, given, now, output, htask, hnow, hout, hadjusted.congr hdone, hselected⟩

end Pass

/-! ## Plans that ask for nothing any more -/

/-- What is left of a plan when the weights in the slots are as it asks. -/
def Kernel.Plan.satisfied (plan : Plan) (slots : List Nat) : Plan :=
  if slots = [] then plan else { plan with weightsChange := none }

theorem Kernel.Plan.satisfied_of_none {plan : Plan} {slots : List Nat}
    (h : slots ≠ [] → plan.weightsChange = none) : plan.satisfied slots = plan := by
  unfold satisfied
  split
  · rfl
  case isFalse hne => rw [← h hne]

namespace Pass

variable {s : Selector} {p q : Program} {b : Behaviours} {f : String → String}
  {id input u v : String} {done done' : List Nat} {plan : Plan} {m : List Preferences.Entry}

/-- What is left of a plan that stands, all weights changed as it asks. -/
def Closed (s : Selector) (p : Program) (u : String) (plan : Plan) : Prop :=
  ∃ asked, Stands s p u (p.weightSlotsOf u) asked ∧ plan = asked.satisfied (p.weightSlotsOf u)

/-- A plan that asks for nothing is closed from the start. -/
theorem Stands.closed (h : Stands s p u [] plan)
    (hplain : p.weightSlotsOf u ≠ [] → plan.weightsChange = none) : Closed s p u plan := by
  refine ⟨plan, ?_, (Plan.satisfied_of_none hplain).symm⟩
  by_cases hslots : p.weightSlotsOf u = []
  · rw [hslots]
    exact h
  · obtain ⟨task, given, now, output, htask, hnow, hout, hadjusted, hselected⟩ := h
    obtain rfl := hadjusted.of_nil
    refine ⟨task, now, now, output, htask, hnow, hout, ?_, hselected⟩
    rw [hplain hslots]
    exact ⟨rfl, nofun, fun _ _ => rfl⟩

theorem weightSlotsOf_of_isReorder (h : p.isReorder u) : p.weightSlotsOf u = [] := by
  obtain ⟨r, hr⟩ := h
  rw [weightSlotsOf, hr]
  rfl

theorem Closed.inherits (h : Closed s p v plan) (hu : Inherits p q f v u)
    (hb : q.behaviours = p.behaviours) : Closed s q u plan := by
  have hslots : q.weightSlotsOf u = p.weightSlotsOf v := by
    rw [weightSlotsOf, weightSlotsOf, shapeOf_eq_taskOf, hu.task, ← shapeOf_eq_taskOf]
  rw [Closed, hslots]
  exact h.imp fun _ ha => ⟨ha.1.inherits hu hb, ha.2⟩

/-! ## Cleanup -/

/-- A graph as passes need it whose plans are all closed. -/
structure Steady (s : Selector) (b : Behaviours) (p : Program) (m : List Preferences.Entry) : Prop
    extends Based p m where
  behaviours : p.behaviours = b
  closed : ∀ u plan, p.planOf u = some plan → Closed s p u plan

/-- **What inherits stays steady.** -/
theorem Steady.rewrite (h : Steady s b p m) (hq : Rewrite p m q m)
    (closed : ∀ u plan, q.planOf u = some plan → (∃ f v, Inherits p q f v u) ∨ Closed s q u plan) :
    Steady s b q m where
  toBased := hq.based h.toBased
  behaviours := (hq.kept h.linked).behaviours.trans h.behaviours
  closed u plan hplan := by
    obtain ⟨f, v, hu⟩ | hclosed := closed u plan hplan
    · exact (h.closed v plan (hu.plan ▸ hplan)).inherits hu (hq.kept h.linked).behaviours
    · exact hclosed

theorem contains_of_planOf (h : p.planOf u = some plan) : p.contains u = true := by
  obtain ⟨n, hn, -⟩ := Option.bind_eq_some_iff.mp h
  exact contains_of_node? hn

theorem Merged.isReorder_survivor {bound : Bool} (h : Merged p q bound id) (hl : p.Linked)
    (hinput : p.depsOf id = [input]) : q.isReorder (survivor p id input) := by
  obtain ⟨input', format, element, padding, absorbed, t, r, hcon, -, ht, hr, -⟩ := h.contracted hl
  obtain rfl : input = input' := (List.cons.inj (hinput.symm.trans hcon.only)).1
  refine ⟨{ r with format, element }, ?_⟩
  rw [shapeOf_eq_taskOf, hcon.task, ht, Option.map_some, Option.map_some, merging, hr]
  rfl

theorem Steady.merged (h : Steady s b p m) (hq : Rebound (some s) p q id) : Steady s b q m := by
  obtain ⟨input, hinput, hplans⟩ := hq.plans
  refine h.rewrite (.merged hq) fun u plan hplan => ?_
  by_cases hu : u = survivor p id input
  · subst hu
    obtain ⟨-, s', hs, helected⟩ := hplans plan hplan
    cases hs
    refine Or.inr (helected.stands.closed fun hne => absurd ?_ hne)
    exact weightSlotsOf_of_isReorder (hq.toMerged.isReorder_survivor h.linked hinput)
  · exact Or.inl ⟨_, u, hq.toMerged.inherits h.linked hinput (contains_of_planOf hplan) hu⟩

theorem Steady.dropped (h : Steady s b p m) (hq : Dropped p q id input) : Steady s b q m :=
  h.rewrite (.dropped hq) fun _ _ hplan =>
    Or.inl ⟨_, hq.inherits h.linked (contains_of_planOf hplan)⟩

theorem Steady.touched (h : Steady s b p m) (hq : Reflagged p q) : Steady s b q m :=
  h.rewrite (.touched hq) fun u _ _ =>
    Or.inl ⟨_, u, hq.toSameGraph.inherits (congrFun hq.plans u)⟩

theorem Steady.folded (h : Steady s b p m) (hb : b.find .data = .ok .data) (hq : Folded p q id) :
    Steady s b q m := by
  refine h.rewrite (.folded hq) fun u plan hplan =>
    Or.inl ⟨_, u, hq.inherits (h.behaviours.symm ▸ hb) ?_⟩
  -- the literal has no plan
  rintro rfl
  obtain ⟨prim, -, hreplaced⟩ := hq.steps
  rw [hreplaced.plans, if_pos rfl] at hplan
  cases hplan

theorem Steady.swept (h : Steady s b p m) (hunread : p.usersOf id = [])
    (hmark : p.isMarked id = false) (hq : Removed p q id) : Steady s b q m := by
  refine h.rewrite (.swept hunread hmark hq) fun u plan hplan =>
    Or.inl ⟨_, u, hq.inherits h.linked hunread ?_⟩
  rintro rfl
  rw [planOf_eq_coreOf, hq.core, if_pos rfl] at hplan
  cases hplan

variable {c : Compilation} {env : Environment}

theorem steady_constants (h : Steady s b c.program m)
    (henv : env.evaluator = none ∨ b.find .data = .ok .data) :
    Ends (propagateConstants env)
      (fun _ c' => Steady s b c'.program m ∧ c'.preferences = c.preferences)
      (fun e _ => e.closes = false) c := by
  obtain hnone | hb := henv
  · rw [propagateConstants, hnone]
    exact ⟨h, rfl⟩
  · exact propagateConstants_ends env (Steady s b · m) (fun hp => ⟨hp.linked, hp.coherent⟩)
      (fun hp hq => hp.touched hq) (fun hp hq => hp.folded hb hq)
      (fun hp hunread hmark hq => hp.swept hunread hmark hq) h

/-- **A round of cleanup leaves every plan closed.** -/
theorem steady_cleanup (h : Steady env.selector b c.program c.preferences.made)
    (henv : env.evaluator = none ∨ b.find .data = .ok .data) :
    Ends (runSteps env (cleanup.map .pass))
      (fun _ c' => Steady env.selector b c'.program c'.preferences.made)
      (fun e _ => e.closes = false) c := by
  refine ends_runSteps_pass (removeRedundantReorders_ends env
    (Steady env.selector b · c.preferences.made) (fun hp => ⟨hp.linked, hp.coherent, hp.ranked⟩)
    (fun hp hq => hp.touched hq.toReflagged) (fun hp hq => hp.merged hq) (fun hp hq => hp.dropped hq)
    h) fun d hd => ends_runSteps_last ?_
  obtain ⟨hsteady, hpref⟩ := hd
  refine (steady_constants hsteady henv).imp_good fun _ d' hd' => ?_
  rw [hd'.2, hpref]
  exact hd'.1

end Pass

end NetPlan

import NetPlan.Pass.Transform
import NetPlan.Proofs.Layout.Cache

/-!
# Proofs/Pass/Binding — what binding a node does

`bindNode` computes layouts, asks the selector and records the plan it gets; the graph stays as it is
(`Planned`).  A node that runs a kernel has a plan afterwards.
-/

namespace NetPlan

/-! ## Asking the selector -/

section Asking

variable {α : Type} {c : Compilation} {bad : CompileError → Compilation → Prop}

/-- **A question** changes the session and nothing else. -/
theorem Transform.ends_ask {good : α → Compilation → Prop}
    (q : ExceptT CompileError (StateM Session) α) :
    Ends (Transform.ask q) good bad c ↔
      Ends q (fun a s => good a { c with session := s })
        (fun e s => bad e { c with session := s }) c.session := by
  have hrun : (Transform.ask q).run.run c
      = ((q.run.run c.session).1, { c with session := (q.run.run c.session).2 }) := rfl
  unfold Ends
  rw [hrun]
  rcases q.run.run c.session with ⟨r | r, s⟩ <;> rfl

/-- The plan for a request is what is selected, unless planning broke off on the way. -/
theorem OpKind.ends_ask {good : Kernel.Plan → Session → Prop} {bad : CompileError → Session → Prop}
    (k : OpKind) (s : Selector) (id : String) (r : Kernel.Request) (earlier : Session) :
    Ends (k.ask s id r) good bad earlier ↔ match (s.select r k.options).run.run earlier with
      | (answer, later) => if later.brokeSince earlier then bad .overflow later else
        match answer with
        | .ok a => good a later
        | .error e => bad (.noImplementation id e) later := by
  have hrun : (k.ask s id r).run.run earlier = match (s.select r k.options).run.run earlier with
      | (answer, later) => (if later.brokeSince earlier then .error .overflow
        else answer.mapError (CompileError.noImplementation id), later) := rfl
  unfold Ends
  rw [hrun]
  obtain ⟨e | a, later⟩ := (s.select r k.options).run.run earlier <;>
    cases hbroke : later.brokeSince earlier <;> simp [Except.mapError, hbroke]

end Asking

/-! ## Requests -/

namespace Node

variable (n : Node) (inputs : List Layout) (output : Layout)

theorem plain_blame {α : Type} (r : Except PrimitiveProblem α) : plain (n.blame r) = true := by
  cases r <;> rfl

theorem plain_mapM_blame {α : Type} (f : Layout → Except PrimitiveProblem α) :
    ∀ ls : List Layout, plain (ls.mapM fun l => n.blame (f l)) = true
  | [] => by
      rw [List.mapM_nil]
      rfl
  | l :: ls => by
      rw [List.mapM_cons]
      exact plain_bind (n.plain_blame _) fun _ => plain_bind (plain_mapM_blame f ls) fun _ => rfl

theorem plain_operands : plain (n.operands inputs output) = true :=
  plain_bind (n.plain_mapM_blame _ inputs) fun _ => plain_bind (n.plain_blame _) fun _ => rfl

theorem plain_convolutionWork (c : Convolution) (data : List Layout) :
    plain (n.convolutionWork c data inputs output) = true :=
  plain_bind (n.plain_expectInputs inputs _) fun _ => plain_bind (plain_inputAt inputs 1) fun _ =>
    plain_bind (n.plain_blame _) fun _ => plain_bind (n.plain_operands data output) fun _ => rfl

theorem plain_fullyConnectedWork : plain (n.fullyConnectedWork inputs output) = true :=
  plain_bind (n.plain_expectInputs inputs 2) fun _ => plain_bind (plain_inputAt inputs 0) fun _ =>
    plain_bind (n.plain_blame _) fun _ => plain_bind (n.plain_blame _) fun _ =>
    plain_bind (plain_inputAt inputs 1) fun _ => plain_bind (n.plain_blame _) fun _ => rfl

theorem plain_reorderWork (r : Reorder) : plain (n.reorderWork r inputs output) = true := by
  unfold reorderWork
  split
  · exact plain_bind (n.plain_expectInputs inputs 1) fun _ =>
      plain_bind (plain_inputAt inputs 0) fun _ => plain_bind (n.plain_blame _) fun _ =>
      plain_bind (n.plain_blame _) fun _ => rfl
  · exact plain_bind (n.plain_operands inputs output) fun _ => rfl

theorem plain_poolingWork (p : Pooling) : plain (n.poolingWork p inputs output) = true :=
  plain_bind (plain_inputAt inputs 0) fun _ => plain_bind (n.plain_operands _ output) fun _ => rfl

theorem plain_fusedWork (f : FusedConvBnScale) : plain (n.fusedWork f inputs output) = true :=
  plain_bind (n.plain_expectInputs inputs _) fun _ => plain_bind (plain_inputAt inputs 0) fun _ =>
    plain_bind (n.plain_convolutionWork inputs output f.conv _) fun _ => rfl

/-- A node that no kernel carries out has no work, and any other has some. -/
theorem plain_work? : plain (n.work? inputs output) = true ∧
    ∀ w, n.work? inputs output = .ok w → w.isSome = n.kind.runsKernel := by
  have hsome : ∀ {α : Type} {x : Except CompileError α} {f : α → Kernel.Work}, plain x = true →
      plain (x >>= fun a => pure (some (f a))) = true ∧
        ∀ w, (x >>= fun a => pure (some (f a))) = .ok w → w.isSome = true := by
    intro α x f hx
    refine ⟨plain_bind hx fun _ => rfl, fun w hw => ?_⟩
    cases x with
    | error e => cases hw
    | ok a =>
      cases hw
      rfl
  have hmap : ∀ {x : Except CompileError Kernel.Work}, plain x = true →
      plain (some <$> x) = true ∧ ∀ w, some <$> x = .ok w → w.isSome = true := by
    intro x hx
    have hbind : some <$> x = x >>= fun a => pure (some a) := by cases x <;> rfl
    rw [hbind]
    exact hsome (f := fun a => a) hx
  have hops := n.plain_operands inputs output
  unfold work? kind
  cases n.operation with
  | inputLayout l => exact ⟨rfl, fun w hw => by cases hw; rfl⟩
  | data l v => exact ⟨rfl, fun w hw => by cases hw; rfl⟩
  | convolution c =>
    have hin := plain_inputAt inputs 0
    cases hx : inputAt inputs 0 with
    | error e =>
      rw [hx] at hin
      exact ⟨hin, fun w hw => nomatch hw⟩
    | ok input => exact hsome (n.plain_convolutionWork inputs output c [input])
  | fullyConnected c => exact hmap (n.plain_fullyConnectedWork inputs output)
  | pooling p => exact hmap (n.plain_poolingWork inputs output p)
  | activation a => exact hsome hops
  | eltwise e => exact hsome hops
  | reorder r => exact hmap (n.plain_reorderWork inputs output r)
  | softmax s => exact hsome hops
  | concatenation c => exact hsome hops
  | batchNorm b => exact hsome hops
  | scale s => exact hsome hops
  | fusedConvBnScale f => exact hmap (n.plain_fusedWork inputs output f)

theorem plain_checkConvolution (c : Convolution) : plain (n.checkConvolution c inputs) = true := by
  unfold checkConvolution
  dsimp only
  refine plain_guard rfl fun _ => ?_
  refine plain_guard rfl fun _ => ?_
  refine plain_bind (n.plain_expectInputs inputs _) fun _ =>
    plain_bind (plain_inputAt inputs 0) fun _ => plain_bind (plain_inputAt inputs 1) fun _ => ?_
  refine plain_guard rfl fun _ => ?_
  split
  · rfl
  · refine plain_guard rfl fun _ => ?_
    refine plain_guard rfl fun _ => ?_
    exact plain_ite rfl rfl

theorem plain_checkFullyConnected (c : FullyConnected) :
    plain (n.checkFullyConnected c inputs) = true := by
  unfold checkFullyConnected
  dsimp only
  refine plain_bind (n.plain_expectInputs inputs 2) fun _ =>
    plain_bind (plain_inputAt inputs 0) fun _ => plain_bind (plain_inputAt inputs 1) fun _ => ?_
  refine plain_guard rfl fun _ => ?_
  exact plain_ite (plain_bind (n.plain_expectInputs inputs 3) fun _ =>
    plain_bind (plain_inputAt inputs 2) fun _ => plain_ite rfl rfl) rfl

theorem plain_check : plain (n.check inputs) = true := by
  unfold check
  cases n.operation with
  | convolution c => exact n.plain_checkConvolution inputs c
  | fusedConvBnScale f => exact n.plain_checkConvolution inputs f.conv
  | fullyConnected c => exact n.plain_checkFullyConnected inputs c
  | eltwise e => exact plain_ite rfl rfl
  | _ => rfl

end Node

namespace OpKind

variable (k : OpKind) (n : Node) (inputs : List Layout) (output : Layout)

theorem plain_kind_check : plain (k.check n inputs) = true := by
  unfold check
  split
  · exact plain_bind (plain_ite rfl rfl) fun _ => n.plain_check inputs
  · rfl

/-- **A node with weights that passes its checks has a slot for them.** -/
theorem weightSlots_of_check {u : Unit} (hk : n.kind.isWeighted = true)
    (h : n.kind.check n inputs = .ok u) : n.operation.weightSlots ≠ [] := by
  have hcheck : n.check inputs = .ok () := by
    unfold check isChecked expect at h
    rw [hk, Bool.true_or, if_pos rfl, if_pos rfl] at h
    exact h
  have hconvolution : ∀ c : Convolution, n.checkConvolution c inputs = .ok () →
      List.range' 1 c.split ≠ [] := by
    intro c hc hnil
    have hsplit : c.split = 0 := by simpa using hnil
    unfold Node.checkConvolution at hc
    rw [if_pos hsplit] at hc
    cases hc
  unfold Node.check at hcheck
  unfold Node.kind at hk
  cases hop : n.operation with
  | convolution c =>
    rw [hop] at hcheck
    exact hconvolution c hcheck
  | fusedConvBnScale f =>
    rw [hop] at hcheck
    exact hconvolution f.conv hcheck
  | fullyConnected c => exact List.cons_ne_nil _ _
  | _ =>
    rw [hop] at hk
    cases hk

theorem request?_eq_some {r : Kernel.Request} (h : k.request? n inputs output = .ok (some r)) :
    ∃ w, n.work? inputs output = .ok (some w) ∧ r = ⟨n.id, w⟩ := by
  unfold request? at h
  split at h
  · unfold expect at h
    split at h
    · change (n.work? inputs output >>= fun w => pure (w.map _)) = .ok (some r) at h
      cases hw : n.work? inputs output with
      | error e =>
        rw [hw] at h
        cases h
      | ok w =>
        rw [hw] at h
        obtain ⟨w, rfl, rfl⟩ := Option.map_eq_some_iff.mp (Except.ok.inj h)
        exact ⟨w, rfl, rfl⟩
    · cases h
  · cases h

theorem plain_request? : plain (k.request? n inputs output) = true ∧
    ∀ r, k.request? n inputs output = .ok r → r.isSome = k.runsKernel := by
  unfold request?
  split
  case isTrue hk =>
    obtain ⟨hplain, hwork⟩ := n.plain_work? inputs output
    refine ⟨plain_bind (plain_ite rfl rfl) fun _ => plain_bind hplain fun _ => rfl, fun r hr => ?_⟩
    unfold expect at hr
    split at hr
    case isTrue hkind =>
      change (n.work? inputs output >>= fun w => pure (w.map _)) = .ok r at hr
      cases hw : n.work? inputs output with
      | error e =>
        rw [hw] at hr
        cases hr
      | ok w =>
        rw [hw] at hr
        cases hr
        rw [Option.isSome_map, hwork w hw, hkind]
    case isFalse => cases hr
  case isFalse hk => exact ⟨rfl, fun r hr => by cases hr; simpa using hk⟩

/-- **A plan is chosen for every node that runs a kernel**, and is the one selected for its
request. -/
theorem choose_ends (s : Selector) (session : Session) :
    Ends (k.choose s n inputs output)
      (fun plan t => plan.isSome = k.runsKernel ∧ ∀ a, plan = some a →
        ∃ r, k.request? n inputs output = .ok (some r) ∧
          (s.select r k.options).run.run session = (.ok a, t))
      (fun e _ => e.closes = false) session := by
  obtain ⟨hplain, hsome⟩ := k.plain_request? n inputs output
  rw [choose, ends_bind]
  cases hr : k.request? n inputs output with
  | error e => exact closes_of_plain hplain hr
  | ok r =>
    have hk := hsome r hr
    cases r with
    | none =>
      refine ⟨hk, fun a ha => ?_⟩
      cases ha
    | some r =>
      change Ends (k.ask s n.id r >>= _) _ _ session
      rw [ends_bind, ends_ask]
      rcases hselect : (s.select r k.options).run.run session with ⟨e | plan, t⟩
      · dsimp only
        split <;> exact rfl
      · dsimp only
        split
        · exact rfl
        · refine ⟨hk, fun a ha => ?_⟩
          cases ha
          exact ⟨r, rfl, hselect⟩

end OpKind

namespace Program

/-- `q` is the same graph as `p`, with another plan for one node. -/
structure Planned (p q : Program) (id : String) : Prop extends SameGraph p q where
  order : q.order = p.order
  marks : q.isMarked = p.isMarked
  flags : q.flagsOf = p.flagsOf
  plans : ∀ j, j ≠ id → q.planOf j = p.planOf j

variable {p q r : Program} {id : String}

theorem Touched.planned (h : Touched p q) (id : String) : Planned p q id :=
  ⟨h.toSameGraph, h.order, h.marks, h.flags, fun j _ => congrFun h.plans j⟩

theorem Planned.trans (h : Planned p q id) (h' : Planned q r id) : Planned p r id :=
  ⟨h.toSameGraph.trans h'.toSameGraph, h'.order.trans h.order, h'.marks.trans h.marks,
    h'.flags.trans h.flags, fun j hj => (h'.plans j hj).trans (h.plans j hj)⟩

theorem planned_update (h : p.Linked) {f : Node → Node} (hf : ∀ n, Node.SamePlace (f n) n)
    (marks : ∀ n, (f n).isOutput = n.isOutput) (flags : ∀ n, (f n).flags = n.flags) :
    Planned p (p.update id f) id := by
  have hmarks : ∀ n : Node, (if n.id = id then f n else n).isOutput = n.isOutput := fun n => by
    split
    · exact marks n
    · rfl
  refine ⟨sameGraph_updateAll (f := fun n => if n.id = id then f n else n)
    (fun n => (hf n).ite (n.id = id)) h hmarks, rfl,
    isMarked_updateAll (f := fun n => if n.id = id then f n else n)
      (fun n => (hf n).ite (n.id = id)) hmarks, funext fun j => ?_, fun j hj => ?_⟩
  · exact view_update (Option.map Node.flags) (fun n => (hf n).id)
      (fun n => congrArg some (flags n)) id j
  · exact view_update_of_ne (fun o => o.bind Node.plan) (fun n => (hf n).id) hj

end Program

namespace Pass

open Program Edit

variable {c : Compilation} {id : String}

/-- A plan for a node as the selector chose it: the layouts are the fresh ones, and `q` is the program
that holds them. -/
structure Chosen (s : Selector) (p q : Program) (id : String) (n : Node)
    (plan : Option Kernel.Plan) : Prop where
  filled : Filled p q
  node : q.node? id = some n
  slots : n.kind.isWeighted = true → n.operation.weightSlots ≠ []
  chosen : ∃ inputs output session session', n.dependencies.mapM p.freshLayout = .ok inputs ∧
    p.freshLayout id = .ok output ∧
    (n.kind.choose s n inputs output).run.run session = (.ok plan, session')

/-- A plan that the selector chose for a node of the graph as it is. -/
def Elected (s : Selector) (p : Program) (id : String) (plan : Kernel.Plan) : Prop :=
  ∃ p₀ q₀ n, SameGraph p₀ p ∧ Chosen s p₀ q₀ id n (some plan)

theorem Elected.sameGraph {s : Selector} {p q : Program} {plan : Kernel.Plan}
    (h : Elected s p id plan) (hq : SameGraph p q) : Elected s q id plan := by
  obtain ⟨p₀, q₀, n, hsame, hchosen⟩ := h
  exact ⟨p₀, q₀, n, hsame.trans hq, hchosen⟩

theorem closes_of_find {b : Behaviours} {k : OpKind} {e : CompileError} (h : b.find k = .error e) :
    e.closes = false := by
  unfold Behaviours.find at h
  split at h
  · cases h
  · cases h
    rfl

/-- **Binding a node** leaves the graph as it was, be the caches right or not. -/
theorem bindNode_planned (s : Selector) (hl : c.program.Linked) :
    Ends (bindNode s id)
      (fun _ c' => Planned c.program c'.program id ∧ c'.preferences = c.preferences)
      (fun e _ => e.closes = false) c := by
  rw [bindNode, ends_bind, Transform.ends_liftM]
  refine (layout_touched hl id).imp_good fun output p hp => ?_
  rw [ends_bind, Transform.ends_liftM]
  refine (inputLayouts_touched hp.kept.linked id).imp_good fun inputs q hq => ?_
  have htouch := hp.trans hq
  rw [ends_bind, Transform.ends_liftM, ends_node]
  refine ⟨fun n hn => ?_, fun _ => rfl⟩
  rw [ends_bind, Transform.ends_program, ends_bind, Transform.ends_liftM, ends_ofExcept]
  refine ⟨fun kind _ => ?_, fun e he => closes_of_find he⟩
  rw [ends_bind, Transform.ends_liftM, ends_ofExcept]
  refine ⟨fun _ _ => ?_, fun e he => closes_of_plain (kind.plain_kind_check n inputs) he⟩
  rw [ends_bind, Transform.ends_ask]
  refine (kind.choose_ends n inputs output s c.session).imp_good fun plan t _ => ?_
  rw [ends_bind, Transform.ends_liftM, ends_change]
  refine ⟨fun _ _ => ⟨(htouch.planned id).trans (planned_update htouch.kept.linked
    (f := fun m : Node => { m with plan }) (fun _ => ⟨rfl, rfl, rfl, rfl, rfl⟩) (fun _ => rfl)
    fun _ => rfl), rfl⟩, fun _ => rfl⟩

/-- **Binding a node** has a plan chosen for it, and puts it on record. -/
theorem bindNode_ends (s : Selector) (hc : c.program.Coherent) :
    Ends (bindNode s id)
      (fun _ c' => ∃ q n plan, Chosen s c.program q id n plan ∧
        c'.program = (q.update id fun m => { m with plan }) ∧ c'.preferences = c.preferences)
      (fun e _ => e.closes = false) c := by
  rw [bindNode, ends_bind, Transform.ends_liftM]
  refine (layout_effect id hc).imp_good fun output p hp => ?_
  obtain ⟨hp, houtput⟩ := hp
  rw [ends_bind, Transform.ends_liftM]
  refine (inputLayouts_effect id hp.coherent).imp_good fun inputs q hq => ?_
  obtain ⟨hq, hinputs⟩ := hq
  rw [ends_bind, Transform.ends_liftM, ends_node]
  refine ⟨fun n hn => ?_, fun _ => rfl⟩
  have hdeps : n.dependencies.mapM c.program.freshLayout = .ok inputs := by
    have hview := congrFun (depsOf_of_uncached hq.same) id
    cases hm : p.node? id with
    | none =>
      have hids := contains_congr (ids_of_uncached hq.same)
      have hnot := node?_eq_none.mp hm
      rw [← hids, contains_of_node? hn] at hnot
      exact absurd rfl hnot
    | some m =>
      rw [depsOf_of_node? hn, depsOf_of_node? hm] at hview
      rw [hview, ← freshLayout_of_uncached hp.same]
      exact hinputs m hm
  rw [ends_bind, Transform.ends_program, ends_bind, Transform.ends_liftM, ends_ofExcept]
  refine ⟨fun kind hkind => ?_, fun e he => ?_⟩
  · have hkind : kind = n.kind := by
      unfold Behaviours.find at hkind
      split at hkind
      · exact (Except.ok.inj hkind).symm
      · cases hkind
    rw [ends_bind, Transform.ends_liftM, ends_ofExcept]
    refine ⟨fun _ hcheck => ?_, fun e he => closes_of_plain (kind.plain_kind_check n inputs) he⟩
    rw [ends_bind, Transform.ends_ask]
    have hchoose := kind.choose_ends n inputs output s c.session
    unfold Ends at hchoose ⊢
    cases hrun : (kind.choose s n inputs output).run.run c.session with
    | mk r t =>
      rw [hrun] at hchoose
      cases r with
      | error e => exact hchoose
      | ok plan =>
        have hchosen : Chosen s c.program q id n plan :=
          ⟨hp.trans hq, hn, fun hk => OpKind.weightSlots_of_check n inputs hk (hkind ▸ hcheck), inputs,
            output, c.session, t, hdeps, houtput, hkind ▸ hrun⟩
        change Ends (_ >>= _) _ _ _
        rw [ends_bind, Transform.ends_liftM, ends_change]
        exact ⟨fun _ _ => ⟨q, n, plan, hchosen, rfl, rfl⟩, fun _ => rfl⟩
  · exact closes_of_find he

/-- The graph is as it was, and a node that a kernel carries out has the plan that was chosen. -/
theorem bindNode_effect (s : Selector) (hl : c.program.Linked) (hc : c.program.Coherent) :
    Ends (bindNode s id)
      (fun _ c' => Planned c.program c'.program id ∧ c'.preferences = c.preferences ∧
        (c.program.runsKernelAt id → (c'.program.planOf id).isSome = true) ∧
        ∀ plan, c'.program.planOf id = some plan → Elected s c'.program id plan)
      (fun e _ => e.closes = false) c := by
  refine (bindNode_ends s hc).imp_good fun _ c' h => ?_
  obtain ⟨q, n, plan, hchosen, hprogram, hpref⟩ := h
  have htouch := hchosen.filled.touched hl
  have hplanned : Planned q (q.update id fun m => { m with plan }) id :=
    planned_update htouch.kept.linked (f := fun m : Node => { m with plan })
      (fun _ => ⟨rfl, rfl, rfl, rfl, rfl⟩) (fun _ => rfl) fun _ => rfl
  rw [hprogram]
  have hplan : (q.update id fun m => { m with plan }).planOf id = plan := by
    rw [planOf, node?_update (f := fun m : Node => { m with plan }) fun _ => rfl, if_pos rfl,
      hchosen.node]
    rfl
  refine ⟨(htouch.planned id).trans hplanned, hpref, fun hruns => ?_, fun a ha => ?_⟩
  case refine_2 =>
    rw [hplan] at ha
    subst ha
    exact ⟨c.program, q, n, htouch.toSameGraph.trans hplanned.toSameGraph, hchosen⟩
  obtain ⟨op, hop, hk⟩ := hruns
  have hshape : q.shapeOf id = some n.operation.shape := by
    rw [shapeOf, hchosen.node, Option.map_some]
  rw [htouch.shapes, hop] at hshape
  have hkind : op.kind = n.kind := by
    rw [Option.some.inj hshape, Operation.kind_shape]
    rfl
  obtain ⟨inputs, output, session, session', -, -, hrun⟩ := hchosen.chosen
  have hsome := n.kind.choose_ends n inputs output s session
  rw [Ends, hrun] at hsome
  rw [hplan, hsome.1, ← hkind, hk]

/-- `q` is the same graph as `p`, with a plan for every node of the order that runs a kernel. -/
structure Bound (s : Selector) (p q : Program) : Prop extends SameGraph p q where
  order : q.order = p.order
  marks : q.isMarked = p.isMarked
  flags : q.flagsOf = p.flagsOf
  bound : ∀ u ∈ p.order.ids, p.runsKernelAt u → (q.planOf u).isSome = true
  elected : ∀ u plan, q.planOf u = some plan →
    p.planOf u = some plan ∨ u ∈ p.order.ids ∧ Elected s q u plan

theorem runsKernelAt_of_node? {p : Program} {n : Node} (hn : p.node? id = some n) :
    p.runsKernelAt id ↔ n.runsKernel = true := by
  have hkind : n.runsKernel = n.kind.runsKernel := Bool.and_comm ..
  rw [runsKernelAt, shapeOf, hn, Option.map_some, hkind, Node.kind, ← Operation.kind_shape]
  constructor
  · rintro ⟨op, hop, hk⟩
    exact Option.some.inj hop ▸ hk
  · exact fun hk => ⟨_, rfl, hk⟩

/-- **Binding all nodes.** -/
theorem bindAll_ends (env : Environment) (hl : c.program.Linked) (hc : c.program.Coherent) :
    Ends (bindAll env)
      (fun _ c' => Bound env.selector c.program c'.program ∧ c'.preferences = c.preferences)
      (fun e _ => e.closes = false) c := by
  rw [bindAll, ends_bind, Transform.countNodes, ends_bind, Transform.ends_program]
  -- of the ids still to come nothing is known; the others are bound
  refine (Transform.ends_countM (fun rest c' => SameGraph c.program c'.program ∧
    c'.program.order = c.program.order ∧ c'.program.isMarked = c.program.isMarked ∧
    c'.program.flagsOf = c.program.flagsOf ∧ c'.preferences = c.preferences ∧
    (∀ u ∈ c.program.order.ids, u ∉ rest → c.program.runsKernelAt u →
      (c'.program.planOf u).isSome = true) ∧
    (∀ u plan, c'.program.planOf u = some plan → c.program.planOf u = some plan ∨
      u ∈ c.program.order.ids ∧ Elected env.selector c'.program u plan) ∧
    rest ⊆ c.program.order.ids)
    (fun id rest d hd => ?_) _ c
    ⟨.refl hl, rfl, rfl, rfl, rfl, fun u hu hnot => absurd hu hnot, fun _ _ => Or.inl,
      List.Subset.refl _⟩).imp_good fun _ d hd => ?_
  · obtain ⟨hsame, horder, hmarks, hflags, hpref, hbound, helected, hrest⟩ := hd
    obtain ⟨hid, hrest⟩ := List.cons_subset.mp hrest
    have hruns : ∀ u, d.program.runsKernelAt u ↔ c.program.runsKernelAt u := fun u => by
      rw [runsKernelAt, hsame.shapes, runsKernelAt]
    rw [ends_bind, Transform.ends_liftM, ends_node]
    refine ⟨fun n hn => ?_, fun _ => rfl⟩
    split
    case isTrue hk =>
      refine (bindNode_effect env.selector hsame.kept.linked (hsame.kept.coherent hc)).imp_good
        fun _ e he => ?_
      obtain ⟨hplanned, hpref', hplan, hchosen⟩ := he
      refine ⟨hsame.trans hplanned.toSameGraph, hplanned.order.trans horder,
        hplanned.marks.trans hmarks, hplanned.flags.trans hflags, hpref'.trans hpref,
        fun u hu hnot hr => ?_, fun u plan hu => ?_, hrest⟩
      · by_cases hu' : u = id
        · subst hu'
          exact hplan ((hruns u).mpr hr)
        · rw [hplanned.plans u hu']
          exact hbound u hu (by simp [hu', hnot]) hr
      · by_cases hu' : u = id
        · subst hu'
          exact Or.inr ⟨hid, hchosen plan hu⟩
        · rw [hplanned.plans u hu'] at hu
          exact (helected u plan hu).imp_right fun h => ⟨h.1, h.2.sameGraph hplanned.toSameGraph⟩
    case isFalse hk =>
      refine ⟨hsame, horder, hmarks, hflags, hpref, fun u hu hnot hr => hbound u hu (fun hmem => ?_) hr,
        helected, hrest⟩
      rcases List.mem_cons.mp hmem with rfl | hmem
      · exact hk ((runsKernelAt_of_node? hn).mp ((hruns u).mpr hr))
      · exact hnot hmem
  · obtain ⟨hsame, horder, hmarks, hflags, hpref, hbound, helected, -⟩ := hd
    exact ⟨⟨hsame, horder, hmarks, hflags, fun u hu hr => hbound u hu List.not_mem_nil hr, helected⟩,
      hpref⟩

end Pass

end NetPlan

import NetPlan.Proofs.Kernel.Layer
import NetPlan.Proofs.Pass.Closing
import NetPlan.Proofs.Pass.Weighing

/-!
# Proofs/Pass/Current — the plans of a compiled graph

A compilation that succeeds leaves a graph in which every node that runs a kernel has a plan, and every
plan is closed: it was selected for buffers laid out like those that the node reads in the end, but for
weights that are as the plan asked (`finished_compile`).

`compile_current` — so nothing that is done to the graph behind the binding makes the plan of a node
without weights stale: the selector gives it again for the final layouts.
-/

namespace NetPlan

open Program Edit Kernel Preferences

namespace Program

variable {p : Program} {id : String}

/-- **What the closing checks make sure of.** -/
theorem checked_of_finalCheck (hl : p.Linked) (h : p.finalCheck = .ok ()) :
    p.Ordered ∧ p.AllBound := by
  rw [finalCheck] at h
  split at h
  · cases h
  case h_2 hunbound =>
    split at h
    case isFalse => cases h
    case isTrue hisOrdered =>
      have hordered := (isOrdered_iff hl).mp hisOrdered
      refine ⟨hordered, fun u hu => ?_⟩
      obtain ⟨op, hop, -⟩ := id hu
      obtain ⟨n, hn, -⟩ := Option.map_eq_some_iff.mp hop
      have hall := List.find?_eq_none.mp hunbound u ((hordered.mem u).mpr (contains_of_node? hn))
      rw [hn] at hall
      dsimp only at hall
      rw [(Pass.runsKernelAt_of_node? hn).mp hu, Bool.true_and] at hall
      rw [planOf, hn, Option.bind_some, ← Option.not_isNone, Bool.eq_false_iff.mpr hall]
      rfl

end Program

namespace Pass

variable {s : Selector} {p q : Program} {b : Behaviours} {m : List Preferences.Entry}
  {u : String} {plan : Plan}

/-- A graph whose plans are all closed. -/
structure Current (s : Selector) (p : Program) : Prop where
  linked : p.Linked
  closed : ∀ u plan, p.planOf u = some plan → Closed s p u plan

theorem Steady.current (h : Steady s b p m) : Current s p := ⟨h.linked, h.closed⟩

/-- Marks and order are not looked at. -/
theorem Current.sameGraph (h : Current s p) (hq : SameGraph p q) (plans : q.planOf = p.planOf) :
    Current s q where
  linked := hq.kept.linked
  closed u plan hplan := (h.closed u plan (plans ▸ hplan)).inherits
    (hq.inherits (congrFun plans u)) hq.kept.behaviours

/-- A graph whose plans are all closed and that passes the closing checks. -/
structure Finished (s : Selector) (p : Program) : Prop extends Current s p where
  checked : p.finalCheck = .ok ()

variable {n : Node}

theorem Current.closed_of_mem (h : Current s p) (hn : n ∈ p.nodes) (hplan : n.plan = some plan) :
    Closed s p n.id plan :=
  h.closed n.id plan (by
    rw [planOf, node?_of_mem h.linked.ids_nodup hn, Option.bind_some, hplan])

theorem Finished.exists_plan (h : Finished s p) (hn : n ∈ p.nodes) (hruns : n.runsKernel = true) :
    ∃ plan, n.plan = some plan := by
  have hnode := node?_of_mem h.linked.ids_nodup hn
  have hbound := (checked_of_finalCheck h.linked h.checked).2 n.id
    ((runsKernelAt_of_node? hnode).mpr hruns)
  rw [planOf, hnode, Option.bind_some] at hbound
  exact Option.isSome_iff_exists.mp hbound

end Pass

/-- **What a compilation that succeeds leaves**: plans that are closed, on all nodes that run kernels. -/
theorem finished_compile {o : BuildOptions} {env : Environment} {b : Behaviours} {t : Topology}
    {session : Session} (ht : t.Distinct)
    (henv : env.evaluator = none ∨ b.find .data = .ok .data) :
    Ends (compile o env b t)
      (fun compiled _ => Pass.Finished env.selector compiled.program) (fun _ _ => True) session := by
  refine (ends_compile ht (fun p => (Pass.Based p [] ∧ p.Raw) ∧ p.behaviours = b)
    (Pass.Current env.selector) (fun _ _ => trivial) (fun p hbuilt => ?_) (fun p hp => ?_)
    (fun hp => hp.linked) (fun hp hq => hp.sameGraph hq.toSameGraph hq.plans)
    (fun _ hp hq => hp.sameGraph hq.toSameGraph hq.plans) fun _ _ => trivial).imp_good
    fun _ _ hc => ⟨hc.1, hc.2⟩
  · exact (prepare_effect hbuilt.wellFormed.toLinked o.outputs).imp_good fun _ q hq =>
      ⟨⟨hbuilt.based hq.1, hbuilt.raw.sameGraph hq.1.toSameGraph hq.1.plans⟩,
        hq.1.kept.behaviours.trans hbuilt.behaviours⟩
  · obtain ⟨⟨hbased, hraw⟩, hbehaviours⟩ := hp
    exact (Pass.steady_standardPipeline (c := ⟨p, .initial, session⟩) hbased rfl hraw
      (hbehaviours.symm ▸ henv)).imp_good fun _ _ hc => hc.current

/-! ## Nodes without weights -/

theorem Node.weightSlots_eq_nil {n : Node} (h : n.kind.isWeighted = false) :
    n.operation.weightSlots = [] := by
  unfold kind at h
  cases hop : n.operation with
  | convolution | fullyConnected | fusedConvBnScale =>
    rw [hop] at h
    cases h
  | _ => rfl

theorem OpKind.request?_of_work? {n : Node} {inputs : List Layout} {output : Layout} {w : Work}
    (h : n.work? inputs output = .ok (some w)) :
    n.kind.request? n inputs output = .ok (some ⟨n.id, w⟩) := by
  have hruns : n.kind.runsKernel = true := by
    unfold Node.work? at h
    unfold Node.kind
    cases hop : n.operation with
    | data | inputLayout =>
      rw [hop] at h
      cases h
    | _ => rfl
  rw [request?, if_pos hruns, expect, if_pos rfl]
  change n.request? inputs output = _
  rw [Node.request?, h]
  rfl

/-- For the layouts of a graph the selector gives a node the plan, whatever the session, if the node
goes by the name of a layer. -/
def Selector.Gives (s : Selector) (p : Program) (n : Node) (layer : String) (plan : Plan) : Prop :=
  ∃ inputs output w, n.dependencies.mapM p.freshLayout = .ok inputs ∧
    p.freshLayout n.id = .ok output ∧ n.kind.request? n inputs output = .ok (some ⟨n.id, w⟩) ∧
    ∀ session, ((s.select ⟨layer, w⟩ n.kind.options).run.run session).1 = .ok plan

namespace Pass

variable {s : Selector} {p : Program} {u : String} {plan : Plan} {n : Node}

/-- Without weights a plan that is closed was selected for what the node reads. -/
theorem Closed.selected (h : Closed s p u plan) (hnode : p.node? u = some n)
    (hplain : n.kind.isWeighted = false) :
    ∃ inputs output w layer session session', n.dependencies.mapM p.freshLayout = .ok inputs ∧
      p.freshLayout u = .ok output ∧ n.work? inputs output = .ok (some w) ∧
      (s.select ⟨layer, w⟩ n.kind.options).run.run session = (.ok plan, session') := by
  obtain ⟨asked, ⟨task, given, now, output, htask, hnow, hout, hadjusted, hselected⟩, rfl⟩ := h
  have hslots : p.weightSlotsOf u = [] := by
    rw [weightSlotsOf_of_node? hnode]
    exact Node.weightSlots_eq_nil hplain
  rw [hslots] at hadjusted ⊢
  obtain rfl := hadjusted.of_nil
  obtain rfl : n.task = task := Option.some.inj ((taskOf_of_node? hnode).symm.trans htask)
  obtain ⟨w, layer, session, session', hw, hrun⟩ := hselected.run
  rw [depsOf_of_node? hnode] at hnow
  have hkind : n.task.operation.kind = n.kind := n.operation.kind_shape
  exact ⟨now, output, w, layer, session, session', mapM_eq_ok_iff.mpr hnow, hout,
    (n.work?_eq_ok_iff now output).mp hw, hkind ▸ hrun⟩

end Pass

/-- **No plan of a node without weights is stale.**  Without tuning, the selector gives it again for the
final layouts, under the name that the node had when it was bound.  Under the name that it has now the
builtin implementations give the same plan, as far as it does not spell the name. -/
theorem compile_current (o : BuildOptions) (env : Environment) (b : Behaviours) (t : Topology)
    (session session' : Session) (compiled : Compiled) (ht : t.Distinct)
    (henv : env.evaluator = none ∨ b.find .data = .ok .data)
    (hmode : env.selector.mode = .disabled)
    (hrun : (compile o env b t).run.run session = (.ok compiled, session')) :
    ∀ n ∈ compiled.program.nodes, n.kind.isWeighted = false → ∀ plan, n.plan = some plan →
      (∃ layer, env.selector.Gives compiled.program n layer plan) ∧
      (env.selector.registry = .builtin → ∃ again,
        env.selector.Gives compiled.program n n.id again ∧
        again.unlabelled = plan.unlabelled) := by
  have hends := @finished_compile o env b t session ht henv
  rw [Ends, hrun] at hends
  have hfinished : Pass.Finished env.selector compiled.program := hends
  intro n hn hplain plan hplan
  obtain ⟨inputs, output, w, layer, before, after, hin, hout, hw, hselect⟩ :=
    (hfinished.closed_of_mem hn hplan).selected (node?_of_mem hfinished.linked.ids_nodup hn) hplain
  have hnaive : env.selector.naive? ⟨layer, w⟩ n.kind.options = .ok plan := by
    rw [← Selector.run_select hmode _ before, hselect]
  have hrequest := OpKind.request?_of_work? hw
  refine ⟨⟨layer, inputs, output, w, hin, hout, hrequest, fun session => ?_⟩, fun hbuiltin => ?_⟩
  · rw [Selector.run_select hmode, hnaive]
  · obtain ⟨again, hagain, hsame⟩ := Selector.naive?_blind n.id (hbuiltin ▸ blind_builtin)
      hnaive
    exact ⟨again, ⟨inputs, output, w, hin, hout, hrequest, fun session => by
      rw [Selector.run_select hmode, hagain]⟩, hsame⟩

/-- A result with a padded copy, and a convolution that reads the result padded. -/
def Topology.shadowed : Topology :=
  ⟨[⟨"x", Padding.none, .inputLayout (.dense .f32 .bfyx ⟨1, 1, 1, 1⟩)⟩,
    ⟨"w", Padding.none, .inputLayout (.dense .f32 .oiyx ⟨1, 1, 1, 1⟩)⟩,
    ⟨"s", Padding.none, .softmax ⟨"x", .x⟩⟩,
    ⟨"b", Padding.spatial 1 1 1 1, .reorder ⟨"s", .bfyx, .f32, []⟩⟩,
    ⟨"c", Padding.none, .convolution ⟨"s", ["w"], [], Planar.one, Planar.one, ⟨-1, -1⟩, none,
      Activation.none⟩⟩]⟩

/-- The softmax is bound as `s`.  Then the copy goes, since the result is padded for the convolution,
and hands on its id; the plan spells the old one. -/
theorem compile_current_shadowed : ∃ compiled session',
    (compile (BuildOptions.plain ["b", "c"]) ⟨.builtin .default, none, false⟩ .builtin
      .shadowed).run.run ⟨.unset, []⟩ = (.ok compiled, session') ∧
    ∃ n ∈ compiled.program.nodes, n.id = "b" ∧ ∃ plan, n.plan = some plan ∧
      plan.launches.map (·.layer) = ["s"] ∧
      (∃ layer, (Selector.builtin .default).Gives compiled.program n layer plan) ∧
      ∃ again, (Selector.builtin .default).Gives compiled.program n "b" again ∧
        again.unlabelled = plan.unlabelled := by
  obtain ⟨compiled, hrun⟩ := exists_run_eq_ok
    (x := compile (BuildOptions.plain ["b", "c"]) ⟨.builtin .default, none, false⟩ .builtin
      .shadowed) (s := ⟨.unset, []⟩) (by decide +kernel)
  have hnode : ((compile (BuildOptions.plain ["b", "c"]) ⟨.builtin .default, none, false⟩ .builtin
      .shadowed).run.run ⟨.unset, []⟩).1.toOption.bind (fun c => (c.program.node? "b").bind
        fun n => n.plan.map fun plan => (n.kind, plan.launches.map (·.layer)))
      = some (.softmax, ["s"]) := by
    decide +kernel
  rw [hrun] at hnode
  change (compiled.program.node? "b").bind _ = _ at hnode
  obtain ⟨n, hn, hnode⟩ := Option.bind_eq_some_iff.mp hnode
  obtain ⟨plan, hplan, hnode⟩ := Option.map_eq_some_iff.mp hnode
  obtain ⟨hkind, hlayer⟩ := Prod.mk.inj hnode
  obtain ⟨hmem, hid⟩ := node?_eq_some hn
  have hcurrent := compile_current (BuildOptions.plain ["b", "c"])
    ⟨.builtin .default, none, false⟩ .builtin .shadowed ⟨.unset, []⟩ _ compiled
    (by unfold Topology.Distinct; decide) (Or.inl rfl) rfl hrun n hmem (by rw [hkind]; rfl) plan hplan
  exact ⟨compiled, _, hrun, n, hmem, hid, plan, hplan, hlayer, hcurrent.1, hid ▸ hcurrent.2 rfl⟩

end NetPlan

import NetPlan.Proofs.Pass.Current

/-!
# Proofs/Pass/Fitting — kernels and the weights they are fed

The plan of a node with weights is made for its first weights.  Where the kernel does not read these it
asks for others, and then gets them in every slot; where it does, nothing is asked for, and the weights
of further groups stay as they are.  Its definitions name the first weights either way.

* `compile_weights` — so in a compiled graph no plan asks for weights any more, and every kernel reads
  what lies in its slots, but for further groups that lie otherwise than the first
  (`compile_weights_mixed`);
* `compile_named` — and its definitions name the weights it is fed just if they name weights that it
  reads: not where others were asked for (`compile_misnamed`).
-/

namespace NetPlan

open Program Edit Kernel

/-! ## Names of types and arrangements -/

theorem Kernel.WeightElement.sourceName_inj {e e' : WeightElement}
    (h : e.sourceName = e'.sourceName) : e = e' := by
  cases e <;> cases e' <;> first | rfl | (revert h; decide)

theorem Kernel.WeightLayout.nodup_names :
    (WeightLayout.all.map fun l => l.name.toLower).Nodup := by
  decide +kernel

theorem Kernel.WeightLayout.toLower_name_inj {l l' : WeightLayout}
    (h : l.name.toLower = l'.name.toLower) : l = l' := by
  have hall : ∀ l : WeightLayout, l ∈ WeightLayout.all := fun l => by cases l <;> decide
  exact List.inj_on_of_nodup_map nodup_names (hall l) (hall l') h

/-- Definitions name one type and one arrangement. -/
theorem Kernel.Defines.Names.inj {ds : Defines} {w w' : WeightTensor} (h : ds.Names w)
    (h' : ds.Names w') : w.element = w'.element ∧ w.layout = w'.layout :=
  ⟨WeightElement.sourceName_inj (Option.some.inj (h.1.symm.trans h'.1)),
    WeightLayout.toLower_name_inj (Option.some.inj (h.2.symm.trans h'.2))⟩

theorem Kernel.Defines.Names.congr {ds : Defines} {w w' : WeightTensor} (h : ds.Names w)
    (helement : w'.element = w.element) (hlayout : w'.layout = w.layout) : ds.Names w' :=
  ⟨helement ▸ h.1, hlayout ▸ h.2⟩

/-! ## What a node is fed -/

/-- Slot `i` of a node reads a buffer that is laid out so. -/
def Program.Feeds (p : Program) (n : Node) (i : Nat) (l : Layout) : Prop :=
  ∃ d, n.dependencies[i]? = some d ∧ p.freshLayout d = .ok l

theorem Program.Feeds.unique {p : Program} {n : Node} {i : Nat} {l l' : Layout}
    (h : p.Feeds n i l) (h' : p.Feeds n i l') : l = l' := by
  obtain ⟨d, hd, hl⟩ := h
  obtain ⟨d', hd', hl'⟩ := h'
  obtain rfl : d = d' := Option.some.inj (hd.symm.trans hd')
  exact Except.ok.inj (hl.symm.trans hl')

/-- The type and the arrangement of a buffer as weights, its padding apart. -/
structure Layout.IsWeights (l : Layout) (w : WeightTensor) : Prop where
  element : l.element.weightElement = .ok w.element
  layout : l.format.weightLayout = .ok w.layout

theorem Layout.isWeights_of_weightTensor {l : Layout} {w : WeightTensor}
    (h : l.weightTensor = .ok w) : l.IsWeights w := by
  obtain ⟨he, hf, -⟩ := weightTensor_eq_ok h
  exact ⟨he, hf⟩

theorem Layout.IsWeights.inj {l : Layout} {w w' : WeightTensor} (h : l.IsWeights w)
    (h' : l.IsWeights w') : w.element = w'.element ∧ w.layout = w'.layout :=
  ⟨Except.ok.inj (h.element.symm.trans h'.element), Except.ok.inj (h.layout.symm.trans h'.layout)⟩

theorem Kernel.Reads.congr {name : String} {input : Element} {w w' : WeightTensor}
    (h : Reads name input w) (helement : w'.element = w.element) (hlayout : w'.layout = w.layout) :
    Reads name input w' := by
  rw [reads_iff] at h ⊢
  rw [helement, hlayout]
  exact h

theorem Operation.one_mem_weightSlots {op : Operation} (h : op.weightSlots ≠ []) :
    1 ∈ op.weightSlots := by
  have hrange : ∀ {k : Nat}, List.range' 1 k ≠ [] → 1 ∈ List.range' 1 k := fun {k} hk => by
    rw [List.mem_range'_1]
    rw [ne_eq, List.range'_eq_nil_iff] at hk
    omega
  cases op with
  | convolution c => exact hrange h
  | fusedConvBnScale f => exact hrange h
  | fullyConnected c => exact List.mem_singleton_self 1
  | _ => exact absurd rfl h

theorem Node.runsKernel_of_isWeighted {n : Node} (h : n.kind.isWeighted = true) :
    n.runsKernel = true := by
  unfold runsKernel
  generalize n.kind = k at h ⊢
  cases k <;> first | rfl | cases h

namespace Pass

variable {s : Selector} {p : Program} {u : String} {plan : Plan} {n : Node}

/-- A plan for weights `w`, and the buffers that its node is fed in the end. -/
structure Fed (p : Program) (n : Node) (plan : Plan) (w : WeightTensor) (data first : Layout) :
    Prop where
  slots : n.operation.weightSlots ≠ []
  quiet : plan.weightsChange = none
  launches : plan.launches ≠ []
  named : plan.Names w
  feedsData : p.Feeds n 0 data
  feedsFirst : p.Feeds n 1 first
  /-- What the kernel reads stays as it was. -/
  kept : Reads plan.implementation data.element w → first.weightTensor = .ok w
  /-- Otherwise it gets what it reads, in every slot. -/
  changed : ¬ Reads plan.implementation data.element w → ∀ i ∈ n.operation.weightSlots,
    ∀ l, p.Feeds n i l → l.ReadBy plan.implementation data.element
  fed : ∀ i ∈ n.operation.weightSlots, ∃ l, p.Feeds n i l

theorem feeds_iff {now : List Layout} {i : Nat} {l : Layout}
    (h : List.Forall₂ (fun d l => p.freshLayout d = .ok l) n.dependencies now) :
    p.Feeds n i l ↔ now[i]? = some l := by
  obtain ⟨hlength, hall⟩ := List.forall₂_iff_get.mp h
  constructor
  · rintro ⟨d, hd, hl⟩
    obtain ⟨hi, rfl⟩ := List.getElem?_eq_some_iff.mp hd
    have hnow := hall i hi (hlength ▸ hi)
    rw [List.get_eq_getElem, hl] at hnow
    exact List.getElem?_eq_some_iff.mpr ⟨hlength ▸ hi, (Except.ok.inj hnow).symm⟩
  · intro hl
    obtain ⟨hi, rfl⟩ := List.getElem?_eq_some_iff.mp hl
    exact ⟨_, List.getElem?_eq_getElem (hlength ▸ hi), hall i (hlength ▸ hi) hi⟩

/-- **A closed plan of a node with weights was made for the first of them.** -/
theorem Closed.fed (hregistry : ∀ i ∈ s.registry.implementations, i.Suits) (h : Closed s p u plan)
    (hnode : p.node? u = some n) (hk : n.kind.isWeighted = true) :
    ∃ w data first, Fed p n plan w data first := by
  obtain ⟨asked, ⟨task, given, now, output, htask, hnow, -, hadjusted, hselected⟩, rfl⟩ := h
  obtain rfl : n.task = task := Option.some.inj ((taskOf_of_node? hnode).symm.trans htask)
  have hkind : n.task.operation.kind = n.kind := n.operation.kind_shape
  have hslots : n.operation.weightSlots ≠ [] := by
    have hshape := hselected.slots (hkind ▸ hk)
    rwa [Node.task, Operation.weightSlots_shape] at hshape
  rw [weightSlotsOf_of_node? hnode] at hadjusted ⊢
  rw [depsOf_of_node? hnode] at hnow
  obtain ⟨work, layer, session, session', hwork, hrun⟩ := hselected.run
  obtain ⟨-, hasks⟩ := Node.asks_of_select hregistry ((n.work?_eq_ok_iff given output).mp hwork) hrun
  obtain ⟨hthere, data, weights, hdata, hweights, w, htensor, hnamed, hlaunches, hprovided, hnone⟩ :=
    hasks hk
  -- the data is as it was
  have hdata' : now[0]? = some data := by
    rw [hadjusted.kept 0 fun hmem => absurd rfl (Operation.pos_of_mem_weightSlots hmem), hdata]
  have hthere' : ∀ i ∈ n.operation.weightSlots, ∃ l, now[i]? = some l := fun i hi =>
    ⟨_, List.getElem?_eq_getElem (hadjusted.length.symm ▸ hthere i hi)⟩
  obtain ⟨first, hfirst⟩ := hthere' 1 (Operation.one_mem_weightSlots hslots)
  rw [Plan.satisfied, if_neg hslots]
  refine ⟨w, data, first, hslots, rfl, hlaunches, hnamed, (feeds_iff hnow).mpr hdata',
    (feeds_iff hnow).mpr hfirst, fun hreads => ?_, fun hnot i hi l hl => ?_, fun i hi => ?_⟩
  · rw [hnone.mpr hreads] at hadjusted
    rw [hadjusted.of_none, hweights] at hfirst
    rw [← Option.some.inj hfirst, htensor]
  · obtain ⟨change, hchange⟩ := Option.ne_none_iff_exists'.mp fun he => hnot (hnone.mp he)
    obtain ⟨padding, hat⟩ := hadjusted.changed change hchange i hi _
      (List.getElem?_eq_getElem (hthere i hi))
    rw [(feeds_iff hnow).mp hl] at hat
    rw [hchange] at hprovided
    rw [Option.some.inj hat]
    exact Layout.readBy_of_target hprovided rfl rfl
  · obtain ⟨l, hl⟩ := hthere' i hi
    exact ⟨l, (feeds_iff hnow).mpr hl⟩

variable {w : WeightTensor} {data first : Layout}

/-- **The first weights are read.** -/
theorem Fed.readBy_first (h : Fed p n plan w data first) :
    first.ReadBy plan.implementation data.element := by
  by_cases hreads : Reads plan.implementation data.element w
  · exact Layout.readBy_of_weightTensor (h.kept hreads) hreads
  · exact h.changed hreads 1 (Operation.one_mem_weightSlots h.slots) first h.feedsFirst

end Pass

/-- **No kernel asks for weights any more, and each reads what is in its slots**, unless it was given the
first weights as they are and others lie otherwise. -/
theorem compile_weights (o : BuildOptions) (env : Environment) (b : Behaviours) (t : Topology)
    (session session' : Session) (compiled : Compiled) (ht : t.Distinct)
    (henv : env.evaluator = none ∨ b.find .data = .ok .data)
    (hregistry : env.selector.registry = .builtin)
    (hrun : (compile o env b t).run.run session = (.ok compiled, session')) :
    ∀ n ∈ compiled.program.nodes,
      (∀ plan, n.plan = some plan → plan.weightsChange = none) ∧
      (n.kind.isWeighted = true → n.operation.weightSlots ≠ [] ∧ ∃ plan data first,
        n.plan = some plan ∧ compiled.program.Feeds n 0 data ∧ compiled.program.Feeds n 1 first ∧
        ∀ i ∈ n.operation.weightSlots, ∃ l, compiled.program.Feeds n i l ∧
          (l.ReadBy plan.implementation data.element ∨
            (∃ w, first.weightTensor = .ok w ∧ plan.Names w) ∧
              (l.element ≠ first.element ∨ l.format ≠ first.format))) := by
  have hends := @finished_compile o env b t session ht henv
  rw [Ends, hrun] at hends
  have hfinished : Pass.Finished env.selector compiled.program := hends
  have hsuits := hregistry ▸ suits_builtin
  intro n hn
  have hnode := node?_of_mem hfinished.linked.ids_nodup hn
  cases hk : n.kind.isWeighted with
  | false =>
    refine ⟨fun plan hplan => ?_, fun hw => by cases hw⟩
    obtain ⟨inputs, output, w, layer, _, _, -, -, hwork, hselect⟩ :=
      (hfinished.closed_of_mem hn hplan).selected hnode hk
    exact (Node.asks_of_select hsuits hwork hselect).1 hk
  | true =>
    refine ⟨fun plan hplan => ?_, fun _ => ?_⟩
    · obtain ⟨w, data, first, hfed⟩ := (hfinished.closed_of_mem hn hplan).fed hsuits hnode hk
      exact hfed.quiet
    · obtain ⟨plan, hplan⟩ := hfinished.exists_plan hn (Node.runsKernel_of_isWeighted hk)
      obtain ⟨w, data, first, hfed⟩ := (hfinished.closed_of_mem hn hplan).fed hsuits hnode hk
      refine ⟨hfed.slots, plan, data, first, hplan, hfed.feedsData, hfed.feedsFirst, fun i hi => ?_⟩
      obtain ⟨l, hl⟩ := hfed.fed i hi
      refine ⟨l, hl, ?_⟩
      by_cases hreads : Reads plan.implementation data.element w
      · by_cases hsame : l.element = first.element ∧ l.format = first.format
        · exact Or.inl (hfed.readBy_first.congr hsame.1 hsame.2)
        · exact Or.inr ⟨⟨w, hfed.kept hreads, hfed.named⟩, not_and_or.mp hsame⟩
      · exact Or.inl (hfed.changed hreads i hi l hl)

/-- Other weights are put in front of the convolution, and it reads them. -/
theorem compile_weights_shadowed : ∃ compiled session',
    (compile (BuildOptions.plain ["b", "c"]) ⟨.builtin .default, none, false⟩ .builtin
      .shadowed).run.run ⟨.unset, []⟩ = (.ok compiled, session') ∧
    ∃ n ∈ compiled.program.nodes, n.dependencies = ["b", "reorder_0_w"] ∧ ∃ plan data first,
      n.plan = some plan ∧ compiled.program.Feeds n 0 data ∧ compiled.program.Feeds n 1 first ∧
      plan.weightsChange = none ∧ first.ReadBy plan.implementation data.element := by
  obtain ⟨compiled, hrun⟩ := exists_run_eq_ok
    (x := compile (BuildOptions.plain ["b", "c"]) ⟨.builtin .default, none, false⟩ .builtin
      .shadowed) (s := ⟨.unset, []⟩) (by decide +kernel)
  have hnode : ((compile (BuildOptions.plain ["b", "c"]) ⟨.builtin .default, none, false⟩ .builtin
      .shadowed).run.run ⟨.unset, []⟩).1.toOption.bind (fun c => (c.program.node? "c").map
        fun n => (n.dependencies, n.kind, n.operation.weightSlots))
      = some (["b", "reorder_0_w"], .convolution, [1]) := by
    decide +kernel
  rw [hrun] at hnode
  change (compiled.program.node? "c").map _ = _ at hnode
  obtain ⟨n, hn, hnode⟩ := Option.map_eq_some_iff.mp hnode
  obtain ⟨hdeps, hnode⟩ := Prod.mk.inj hnode
  obtain ⟨hkind, hslots⟩ := Prod.mk.inj hnode
  obtain ⟨hmem, -⟩ := node?_eq_some hn
  obtain ⟨hquiet, hweighted⟩ := compile_weights (BuildOptions.plain ["b", "c"])
    ⟨.builtin .default, none, false⟩ .builtin .shadowed ⟨.unset, []⟩ _ compiled
    (by unfold Topology.Distinct; decide) (Or.inl rfl) rfl hrun n hmem
  obtain ⟨-, plan, data, first, hplan, hdata, hfirst, hall⟩ := hweighted (by rw [hkind]; rfl)
  obtain ⟨l, hl, hread⟩ := hall 1 (by rw [hslots]; exact List.mem_singleton_self 1)
  obtain rfl := hl.unique hfirst
  refine ⟨compiled, _, hrun, n, hmem, hdeps, plan, data, l, hplan, hdata, hl, hquiet plan hplan,
    hread.resolve_right fun hother => ?_⟩
  exact hother.2.elim (fun h => h rfl) fun h => h rfl

/-- A convolution in two groups, the weights of the first blocked as the kernel reads them, those of the
second plain. -/
def Topology.mixed : Topology :=
  ⟨[⟨"x", Padding.none, .inputLayout (.dense .f32 .bfyx ⟨1, 2, 1, 1⟩)⟩,
    ⟨"w0", Padding.none, .data (.dense .f32 .osIyxOsv16 ⟨1, 1, 1, 1⟩)
      (.f32 (Array.replicate 16 Single.one))⟩,
    ⟨"w1", Padding.none, .data (.dense .f32 .oiyx ⟨1, 1, 1, 1⟩) (.f32 #[Single.one])⟩,
    ⟨"c", Padding.none, .convolution ⟨"x", ["w0", "w1"], [], Planar.one, Planar.one, ⟨0, 0⟩, none,
      Activation.none⟩⟩]⟩

/-- **Weights of a second group are not looked at**: the kernel for blocked weights is fed plain
ones. -/
theorem compile_weights_mixed : ∃ compiled session',
    (compile (BuildOptions.plain []) ⟨.builtin .default, none, false⟩ .builtin
      .mixed).run.run ⟨.unset, []⟩ = (.ok compiled, session') ∧
    ∃ n ∈ compiled.program.nodes, n.kind.isWeighted = true ∧ ∃ plan data l, n.plan = some plan ∧
      compiled.program.Feeds n 0 data ∧ 2 ∈ n.operation.weightSlots ∧ compiled.program.Feeds n 2 l ∧
      ¬ l.ReadBy plan.implementation data.element := by
  obtain ⟨compiled, hrun⟩ := exists_run_eq_ok
    (x := compile (BuildOptions.plain []) ⟨.builtin .default, none, false⟩ .builtin .mixed)
    (s := ⟨.unset, []⟩) (by decide +kernel)
  have hnode : ((compile (BuildOptions.plain []) ⟨.builtin .default, none, false⟩ .builtin
      .mixed).run.run ⟨.unset, []⟩).1.toOption.bind (fun c => (c.program.node? "c").bind
        fun n => n.plan.map fun plan => (n.dependencies, n.kind, n.operation.weightSlots,
          plan.implementation))
      = some (["x", "w0", "w1"], .convolution, [1, 2], Builtin.convolutionBlockName) := by
    decide +kernel
  have hlayouts : ((compile (BuildOptions.plain []) ⟨.builtin .default, none, false⟩ .builtin
      .mixed).run.run ⟨.unset, []⟩).1.toOption.map (fun c =>
        ((c.program.freshLayout "x").toOption, (c.program.freshLayout "w1").toOption))
      = some (some (.dense .f32 .bfyx ⟨1, 2, 1, 1⟩), some (.dense .f32 .oiyx ⟨1, 1, 1, 1⟩)) := by
    decide +kernel
  rw [hrun] at hnode hlayouts
  change (compiled.program.node? "c").bind _ = _ at hnode
  obtain ⟨n, hn, hnode⟩ := Option.bind_eq_some_iff.mp hnode
  obtain ⟨plan, hplan, hnode⟩ := Option.map_eq_some_iff.mp hnode
  simp only [Prod.mk.injEq] at hnode
  obtain ⟨hdeps, hkind, hslots, hname⟩ := hnode
  obtain ⟨hx, hw⟩ := Prod.mk.inj (Option.some.inj hlayouts)
  rw [toOption_eq_some] at hx hw
  obtain ⟨hmem, -⟩ := node?_eq_some hn
  refine ⟨compiled, _, hrun, n, hmem, by rw [hkind]; rfl, plan, _, _, hplan, ⟨"x", by rw [hdeps]; rfl,
    hx⟩, by rw [hslots]; decide, ⟨"w1", by rw [hdeps]; rfl, hw⟩, ?_⟩
  rw [hname]
  rintro ⟨element, layout, -, hlayout, hreads⟩
  cases hlayout
  have hmatch : weightsMatch .oiyx (Builtin.readable Builtin.convolutionBlockName .f32) = true :=
    (reads_iff.mp hreads).2
  exact absurd hmatch (by decide)

/-! ## What definitions say -/

/-- **The definitions of a kernel name the weights it is fed just if they name weights that it reads.**
Otherwise others were asked for in their place. -/
theorem compile_named (o : BuildOptions) (env : Environment) (b : Behaviours) (t : Topology)
    (session session' : Session) (compiled : Compiled) (ht : t.Distinct)
    (henv : env.evaluator = none ∨ b.find .data = .ok .data)
    (hregistry : env.selector.registry = .builtin)
    (hrun : (compile o env b t).run.run session = (.ok compiled, session')) :
    ∀ n ∈ compiled.program.nodes, n.kind.isWeighted = true →
      ∃ plan data first w now, n.plan = some plan ∧ plan.launches ≠ [] ∧
        compiled.program.Feeds n 0 data ∧ compiled.program.Feeds n 1 first ∧
        first.IsWeights now ∧ Reads plan.implementation data.element now ∧ plan.Names w ∧
        (plan.Names now ↔ Reads plan.implementation data.element w) := by
  have hends := @finished_compile o env b t session ht henv
  rw [Ends, hrun] at hends
  have hfinished : Pass.Finished env.selector compiled.program := hends
  intro n hn hk
  obtain ⟨plan, hplan⟩ := hfinished.exists_plan hn (Node.runsKernel_of_isWeighted hk)
  obtain ⟨w, data, first, hfed⟩ := (hfinished.closed_of_mem hn hplan).fed
    (hregistry ▸ suits_builtin) (node?_of_mem hfinished.linked.ids_nodup hn) hk
  obtain ⟨element, layout, helement, hlayout, hreads⟩ := hfed.readBy_first
  have hnow : first.IsWeights ⟨element, layout, first.size.batch, first.size.feature, first.size.x,
    first.size.y⟩ := ⟨helement, hlayout⟩
  refine ⟨plan, data, first, w, _, hplan, hfed.launches, hfed.feedsData, hfed.feedsFirst, hnow, hreads,
    hfed.named, fun hnamed => ?_, fun hw l hl => ?_⟩
  · obtain ⟨launch, hlaunch⟩ := List.exists_mem_of_ne_nil _ hfed.launches
    obtain ⟨he, hf⟩ := (hnamed launch hlaunch).inj (hfed.named launch hlaunch)
    exact hreads.congr he.symm hf.symm
  · obtain ⟨he, hf⟩ := hnow.inj (Layout.isWeights_of_weightTensor (hfed.kept hw))
    exact (hfed.named l hl).congr he hf

/-- A convolution with plain weights. -/
def Topology.plainWeights : Topology :=
  ⟨[⟨"x", Padding.none, .inputLayout (.dense .f32 .bfyx ⟨1, 1, 1, 1⟩)⟩,
    ⟨"w", Padding.none, .data (.dense .f32 .oiyx ⟨1, 1, 1, 1⟩) (.f32 #[Single.one])⟩,
    ⟨"c", Padding.none, .convolution ⟨"x", ["w"], [], Planar.one, Planar.one, ⟨0, 0⟩, none,
      Activation.none⟩⟩]⟩

/-- An optimized build asks for blocked weights before the kernel is chosen, and so they are what the
definitions name. -/
theorem compile_named_plainWeights : ∃ compiled session',
    (compile { BuildOptions.plain [] with optimize := true } ⟨.builtin .default, none, false⟩
      .builtin .plainWeights).run.run ⟨.unset, []⟩ = (.ok compiled, session') ∧
    ∃ n ∈ compiled.program.nodes, n.kind.isWeighted = true ∧ ∃ plan first now, n.plan = some plan ∧
      compiled.program.Feeds n 1 first ∧ first.format = .osIyxOsv16 ∧ first.IsWeights now ∧
      plan.Names now := by
  obtain ⟨compiled, hrun⟩ := exists_run_eq_ok
    (x := compile { BuildOptions.plain [] with optimize := true }
      ⟨.builtin .default, none, false⟩ .builtin .plainWeights) (s := ⟨.unset, []⟩)
    (by decide +kernel)
  have hnode : ((compile { BuildOptions.plain [] with optimize := true }
      ⟨.builtin .default, none, false⟩ .builtin .plainWeights).run.run ⟨.unset, []⟩).1.toOption.bind
        (fun c => (c.program.node? "c").map fun n => (n.dependencies, n.kind))
      = some (["x", "reorder_0_w"], .convolution) := by
    decide +kernel
  have hplan : ((compile { BuildOptions.plain [] with optimize := true }
      ⟨.builtin .default, none, false⟩ .builtin .plainWeights).run.run ⟨.unset, []⟩).1.toOption.bind
        (fun c => (c.program.planOf "c").map fun plan => (plan.implementation, plan.launches.map
          fun l => (l.defines.get? "FILTER_TYPE", l.defines.get? "FILTER_LAYOUT")))
      = some (Builtin.convolutionBlockName, [(some "f32", some "osiyxosv16")]) := by
    decide +kernel
  have hlayouts : ((compile { BuildOptions.plain [] with optimize := true }
      ⟨.builtin .default, none, false⟩ .builtin .plainWeights).run.run ⟨.unset, []⟩).1.toOption.map
        (fun c => ((c.program.freshLayout "x").toOption,
          (c.program.freshLayout "reorder_0_w").toOption))
      = some (some (.dense .f32 .bfyx ⟨1, 1, 1, 1⟩),
          some (.dense .f32 .osIyxOsv16 ⟨1, 1, 1, 1⟩)) := by
    decide +kernel
  rw [hrun] at hnode hplan hlayouts
  change (compiled.program.node? "c").map _ = _ at hnode
  change (compiled.program.planOf "c").map _ = _ at hplan
  obtain ⟨n, hn, hnode⟩ := Option.map_eq_some_iff.mp hnode
  obtain ⟨hdeps, hkind⟩ := Prod.mk.inj hnode
  rw [planOf, hn, Option.bind_some] at hplan
  obtain ⟨plan, hplan, hsaid⟩ := Option.map_eq_some_iff.mp hplan
  obtain ⟨hname, hdefines⟩ := Prod.mk.inj hsaid
  obtain ⟨hx, hw⟩ := Prod.mk.inj (Option.some.inj hlayouts)
  rw [toOption_eq_some] at hx hw
  obtain ⟨hmem, -⟩ := node?_eq_some hn
  have hk : n.kind.isWeighted = true := by
    rw [hkind]
    rfl
  obtain ⟨plan', data, first, w, now, hplan', hlaunches, hdata, hfirst, hnow, -, hnamed, hiff⟩ :=
    compile_named { BuildOptions.plain [] with optimize := true } ⟨.builtin .default, none, false⟩
      .builtin .plainWeights ⟨.unset, []⟩ _ compiled (by unfold Topology.Distinct; decide)
      (Or.inl rfl) rfl hrun n hmem hk
  obtain rfl : plan = plan' := Option.some.inj (hplan.symm.trans hplan')
  obtain rfl := hdata.unique ⟨"x", by rw [hdeps]; rfl, hx⟩
  obtain rfl := hfirst.unique ⟨"reorder_0_w", by rw [hdeps]; rfl, hw⟩
  refine ⟨compiled, _, hrun, n, hmem, hk, plan, _, now, hplan, hfirst, rfl, hnow, hiff.mpr ?_⟩
  -- the plan was made for weights that lie so
  obtain ⟨launch, hlaunch, hstated⟩ := List.map_eq_singleton_iff.mp hdefines
  obtain ⟨htype, hlayout⟩ := hnamed launch (by rw [hlaunch]; exact List.mem_singleton_self _)
  obtain ⟨htype', hlayout'⟩ := Prod.mk.inj hstated
  have he : WeightElement.f32.sourceName = w.element.sourceName :=
    Option.some.inj (htype'.symm.trans htype)
  have hf : WeightLayout.osIyxOsv16.name.toLower = w.layout.name.toLower :=
    (by decide +kernel : _ = "osiyxosv16").trans (Option.some.inj (hlayout'.symm.trans hlayout))
  rw [reads_iff, ← WeightElement.sourceName_inj he, ← WeightLayout.toLower_name_inj hf, hname]
  exact ⟨rfl, by decide⟩

/-- **Definitions do not name what was asked for**: without optimization the kernel for blocked weights
is compiled for plain ones, and fed blocked ones. -/
theorem compile_misnamed : ∃ compiled session',
    (compile (BuildOptions.plain []) ⟨.builtin .default, none, false⟩ .builtin
      .plainWeights).run.run ⟨.unset, []⟩ = (.ok compiled, session') ∧
    ∃ n ∈ compiled.program.nodes, n.kind.isWeighted = true ∧ ∃ plan first now, n.plan = some plan ∧
      compiled.program.Feeds n 1 first ∧ first.weightTensor = .ok now ∧ ¬ plan.Names now := by
  obtain ⟨compiled, hrun⟩ := exists_run_eq_ok
    (x := compile (BuildOptions.plain []) ⟨.builtin .default, none, false⟩ .builtin .plainWeights)
    (s := ⟨.unset, []⟩) (by decide +kernel)
  have hnode : ((compile (BuildOptions.plain []) ⟨.builtin .default, none, false⟩ .builtin
      .plainWeights).run.run ⟨.unset, []⟩).1.toOption.bind
        (fun c => (c.program.node? "c").bind fun n => n.plan.map fun plan =>
          (n.dependencies, n.kind, plan.launches.map (·.defines.get? "FILTER_LAYOUT")))
      = some (["x", "reorder_0_w"], .convolution, [some "oiyx"]) := by
    decide +kernel
  have hlayout : ((compile (BuildOptions.plain []) ⟨.builtin .default, none, false⟩ .builtin
      .plainWeights).run.run ⟨.unset, []⟩).1.toOption.map
        (fun c => (c.program.freshLayout "reorder_0_w").toOption)
      = some (some (.dense .f32 .osIyxOsv16 ⟨1, 1, 1, 1⟩)) := by
    decide +kernel
  rw [hrun] at hnode hlayout
  change (compiled.program.node? "c").bind _ = _ at hnode
  obtain ⟨n, hn, hnode⟩ := Option.bind_eq_some_iff.mp hnode
  obtain ⟨plan, hplan, hnode⟩ := Option.map_eq_some_iff.mp hnode
  simp only [Prod.mk.injEq] at hnode
  obtain ⟨hdeps, hkind, hdefines⟩ := hnode
  have hw := toOption_eq_some.mp (Option.some.inj hlayout)
  obtain ⟨hmem, -⟩ := node?_eq_some hn
  refine ⟨compiled, _, hrun, n, hmem, by rw [hkind]; rfl, plan, _, _, hplan,
    ⟨"reorder_0_w", by rw [hdeps]; rfl, hw⟩, rfl, fun hnamed => ?_⟩
  obtain ⟨launch, hlaunch, hstated⟩ := List.map_eq_singleton_iff.mp hdefines
  obtain ⟨-, hnames⟩ := hnamed launch (by rw [hlaunch]; exact List.mem_singleton_self _)
  exact absurd (hstated.symm.trans hnames) (by decide +kernel)

end NetPlan

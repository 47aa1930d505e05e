import NetPlan.Proofs.Kernel.Layer
import NetPlan.Proofs.Pass.Spacious
import NetPlan.Proofs.Pass.Tolerance

/-!
# Proofs/Pass/Bindable — when padding can be bound

Without tuning, all nodes are bound if each that runs a kernel passes its checks and has a kernel
for its work (`Bindable`).  This is a matter of the graph, of which the plans that are bound on the
way are no part (`bindAll_bindable`).

Padding the inputs of convolutions can take a kernel away.  `padding_binds_iff` tells when: in a
program whose nodes could be bound they still can be, just if reorders can be laid out and the
padding is tolerated (`Program.Tolerates`) everywhere.
-/

namespace NetPlan

open Program Edit Kernel

/-- A node is laid out by the behaviour of its kind. -/
theorem Task.find_of_lays {t : Task} {b : Behaviours} {inputs : List Layout} {l : Layout}
    (h : t.Lays b inputs l) : b.find t.operation.kind = .ok t.operation.kind := by
  rw [Lays, Node.rule_eq] at h
  obtain ⟨k, hk, -⟩ := bind_eq_ok_iff.mp h
  unfold Behaviours.find at hk ⊢
  split at hk
  case isTrue hthere => exact if_pos hthere
  case isFalse => cases hk

theorem Program.runsKernelAt.contains {p : Program} {id : String} (h : p.runsKernelAt id) :
    p.contains id = true := by
  obtain ⟨op, hop, -⟩ := h
  rw [contains_eq_isSome_shapeOf, hop, Option.isSome_some]

/-- The behaviour of a node is there if it is laid out. -/
theorem Program.find_of_freshLayout {p : Program} {id : String} {t : Task} {l : Layout}
    (ht : p.taskOf id = some t) (hl : p.freshLayout id = .ok l) :
    p.behaviours.find t.operation.kind = .ok t.operation.kind := by
  obtain ⟨u, _, hu, -, hlays⟩ := freshLayout_iff.mp hl
  obtain rfl := Option.some.inj (hu.symm.trans ht)
  exact Task.find_of_lays hlays

/-- A computation that ends well iff something holds. -/
theorem Ends.exists_ok_iff {σ α : Type} {x : ExceptT CompileError (StateM σ) α} {t : σ} {P : Prop}
    (h : Ends x (fun _ _ => P) (fun _ _ => ¬ P) t) : (∃ a t', x.run.run t = (.ok a, t')) ↔ P := by
  unfold Ends at h
  rcases hr : x.run.run t with ⟨e | a, t'⟩ <;> rw [hr] at h
  · exact iff_of_false (fun ⟨_, _, h'⟩ => nomatch h') h
  · exact iff_of_true ⟨a, t', rfl⟩ h

namespace Pass

variable {s : Selector} {p q : Program} {c : Compilation} {id j : String}

/-! ## Nodes that can be bound -/

/-- A node passes its checks, and there is a kernel for its work. -/
def Bindable (s : Selector) (p : Program) (id : String) : Prop :=
  ∃ t inputs output w, p.taskOf id = some t ∧ Sees p id inputs ∧ p.freshLayout id = .ok output ∧
    t.node.check inputs = .ok () ∧ t.node.work? inputs output = .ok (some w) ∧
    s.Serves ⟨id, w⟩ t.operation.kind.options

/-- What there is to bind of a node that is there. -/
theorem bindable_iff {n : Node} {inputs : List Layout} {output : Layout}
    (htask : p.taskOf id = some n.task) (hid : n.id = id) (hsees : Sees p id inputs)
    (houtput : p.freshLayout id = .ok output) : Bindable s p id ↔ n.check inputs = .ok () ∧
      ∃ w, n.work? inputs output = .ok (some w) ∧ s.Serves ⟨n.id, w⟩ n.kind.options := by
  have hkind : n.task.operation.kind = n.kind := n.operation.kind_shape
  constructor
  · rintro ⟨t, inputs', output', w, ht, hsees', houtput', hcheck, hwork, hserves⟩
    obtain rfl := Option.some.inj (ht.symm.trans htask)
    obtain rfl := hsees.unique hsees'
    obtain rfl := Except.ok.inj (houtput.symm.trans houtput')
    exact ⟨Node.check_task_iff.mp hcheck, w, (n.work?_eq_ok_iff _ _).mp hwork, by rwa [hid, ← hkind]⟩
  · rintro ⟨hcheck, w, hwork, hserves⟩
    exact ⟨n.task, inputs, output, w, htask, hsees, houtput, Node.check_task_iff.mpr hcheck,
      (n.work?_eq_ok_iff _ _).mpr hwork, by rwa [hkind, ← hid]⟩

theorem bindable_sameGraph (h : SameGraph p q) : Bindable s q id ↔ Bindable s p id := by
  unfold Bindable Sees
  rw [h.tasks, h.deps, h.freshLayout]

/-- Without tuning a plan is chosen where there is a kernel. -/
theorem choose_serves (hmode : s.mode = .disabled) {n : Node} {inputs : List Layout} {output : Layout}
    (hk : n.kind.runsKernel = true) (session : Session) :
    Ends (n.kind.choose s n inputs output)
      (fun _ _ => ∃ w, n.work? inputs output = .ok (some w) ∧ s.Serves ⟨n.id, w⟩ n.kind.options)
      (fun _ _ => ¬ ∃ w, n.work? inputs output = .ok (some w) ∧ s.Serves ⟨n.id, w⟩ n.kind.options)
      session := by
  have hrequest : n.kind.request? n inputs output
      = n.work? inputs output >>= fun w => pure (w.map (⟨n.id, ·⟩)) := by
    unfold OpKind.request? OpKind.expect
    rw [if_pos hk, if_pos rfl]
    rfl
  cases hwork : n.work? inputs output with
  | error e =>
    have herror : n.kind.request? n inputs output = .error e := by
      rw [hrequest, hwork]
      rfl
    rw [OpKind.choose, herror, ends_bind]
    rintro ⟨_, hno, -⟩
    cases hno
  | ok w =>
    have hsome : w.isSome = true := by rw [(n.plain_work? inputs output).2 w hwork, hk]
    obtain ⟨w, rfl⟩ := Option.isSome_iff_exists.mp hsome
    have hok : n.kind.request? n inputs output = .ok (some ⟨n.id, w⟩) := by
      rw [hrequest, hwork]
      rfl
    have hselect := Selector.run_select (o := n.kind.options) hmode ⟨n.id, w⟩ session
    have hbroke := Selector.brokeSince_select_iff (r := ⟨n.id, w⟩) (o := n.kind.options) hmode session
    rw [OpKind.choose, hok, ends_bind]
    change Ends (n.kind.ask s n.id ⟨n.id, w⟩ >>= _) _ _ session
    rw [ends_bind, OpKind.ends_ask]
    generalize (s.select ⟨n.id, w⟩ n.kind.options).run.run session = outcome at hselect hbroke
    obtain ⟨answer, session'⟩ := outcome
    dsimp only at hselect hbroke ⊢
    split
    case isTrue h =>
      obtain ⟨-, i, hi, hno⟩ := hbroke.mp h
      rintro ⟨v, hv, hserves⟩
      cases hv
      exact hno (hserves.concludes i hi)
    case isFalse h =>
      cases answer with
      | error e =>
        rintro ⟨v, hv, hserves⟩
        cases hv
        obtain ⟨plan, hplan⟩ := hserves.planned
        cases hselect.trans hplan
      | ok plan =>
        have hdevice := (Selector.firstPlan?_of_naive? hselect.symm).1
        refine ⟨w, rfl, ⟨plan, hselect.symm⟩, fun i hi => ?_⟩
        by_contra hno
        exact h (hbroke.mpr ⟨hdevice, i, hi, hno⟩)

/-- **A node that runs a kernel is bound iff it can be.** -/
theorem bindNode_bindable (hmode : s.mode = .disabled) (hl : c.program.Linked)
    (hc : c.program.Coherent) (hruns : c.program.runsKernelAt id) :
    Ends (bindNode s id) (fun _ _ => Bindable s c.program id)
      (fun _ _ => ¬ Bindable s c.program id) c := by
  have hthere := hruns.contains
  rw [bindNode, ends_bind, Transform.ends_liftM]
  refine (layout_ends id hc).imp (fun output p₁ h₁ => ?_) fun e _ he hbind => ?_
  case refine_2 =>
    obtain ⟨_, _, _, _, _, _, houtput, -⟩ := hbind
    rw [he.2] at houtput
    cases houtput
  obtain ⟨hfill₁, houtput⟩ := h₁
  have htouch₁ := hfill₁.touched hl
  have hsees₁ : ∀ inputs, Sees p₁ id inputs ↔ Sees c.program id inputs := fun inputs => by
    rw [Sees, Sees, htouch₁.toSameGraph.deps, htouch₁.toSameGraph.freshLayout]
  rw [ends_bind, Transform.ends_liftM]
  refine (inputLayouts_ends id hfill₁.coherent).imp (fun inputs p₂ h₂ => ?_) fun e _ he hbind => ?_
  case refine_2 =>
    obtain ⟨_, _, _, _, _, hsees, -⟩ := hbind
    have hinputs := mapM_eq_ok_iff.mpr ((hsees₁ _).mpr hsees)
    rw [he.2.2 (htouch₁.contains ▸ hthere)] at hinputs
    cases hinputs
  obtain ⟨hfill₂, hinputs⟩ := h₂
  have hsame := htouch₁.toSameGraph.trans (hfill₂.touched htouch₁.kept.linked).toSameGraph
  have hsees : Sees c.program id inputs := (hsees₁ _).mp (mapM_eq_ok_iff.mp hinputs)
  rw [ends_bind, Transform.ends_liftM, ends_node]
  refine ⟨fun n hn => ?_, fun hnone => absurd (hsame.contains ▸ hthere) (node?_eq_none.mp hnone)⟩
  have htask : c.program.taskOf id = some n.task := by rw [← hsame.tasks, taskOf_of_node? hn]
  have hkind : n.task.operation.kind = n.kind := n.operation.kind_shape
  have hk : n.kind.runsKernel = true := by
    obtain ⟨op, hop, hk⟩ := hruns
    rw [shapeOf_eq_taskOf, htask, Option.map_some, Option.some.injEq] at hop
    rwa [← hop, hkind] at hk
  have hiff := bindable_iff (s := s) htask (id_of_node? hn) hsees houtput
  have hfind : p₂.behaviours.find n.kind = .ok n.kind := by
    rw [hsame.kept.behaviours, ← hkind]
    exact find_of_freshLayout htask houtput
  rw [ends_bind, Transform.ends_program, ends_bind, Transform.ends_liftM, ends_ofExcept, hfind]
  refine ⟨fun k hk' => ?_, fun e he => by cases he⟩
  cases hk'
  rw [ends_bind, Transform.ends_liftM, ends_ofExcept, n.check_kind]
  refine ⟨fun u hcheck => ?_, fun e he hbind => by rw [(hiff.mp hbind).1] at he; cases he⟩
  rw [ends_bind, Transform.ends_ask]
  refine (choose_serves hmode hk c.session).imp (fun plan session hw => ?_)
    fun e _ hno hbind => hno (hiff.mp hbind).2
  rw [ends_bind, Transform.ends_liftM, ends_change]
  refine ⟨fun _ _ => hiff.mpr ⟨hcheck, hw⟩, fun hnone => ?_⟩
  cases hn.symm.trans hnone

/-- **All nodes are bound iff each that runs a kernel can be.** -/
theorem bindAll_bindable (env : Environment) (hmode : env.selector.mode = .disabled)
    (hl : c.program.Linked) (hp : c.program.Ordered) (hc : c.program.Coherent) :
    Ends (bindAll env)
      (fun _ _ => ∀ id, c.program.runsKernelAt id → Bindable env.selector c.program id)
      (fun _ _ => ¬ ∀ id, c.program.runsKernelAt id → Bindable env.selector c.program id) c := by
  rw [bindAll, ends_bind, Transform.countNodes, ends_bind, Transform.ends_program]
  -- the ids that are not to come any more can be bound
  refine (Transform.ends_countM (fun rest d => SameGraph c.program d.program ∧
    (∀ id ∈ rest, c.program.contains id = true) ∧
    ∀ id, id ∉ rest → c.program.runsKernelAt id → Bindable env.selector c.program id)
    (fun id rest d hd => ?_) _ c
    ⟨.refl hl, fun id => (hp.mem id).mp, fun id hnot hruns => ?_⟩).imp_good
      fun _ d hd id => hd.2.2 id List.not_mem_nil
  · obtain ⟨hsame, hthere, hbound⟩ := hd
    obtain ⟨hid, hrest⟩ := List.forall_mem_cons.mp hthere
    have hrunsAt : ∀ u, d.program.runsKernelAt u ↔ c.program.runsKernelAt u := fun u => by
      rw [runsKernelAt, hsame.shapes, runsKernelAt]
    have hnow : (c.program.runsKernelAt id → Bindable env.selector c.program id) →
        ∀ u, u ∉ rest → c.program.runsKernelAt u → Bindable env.selector c.program u :=
      fun h u hu hruns => by
        by_cases hu' : u = id
        · subst hu'
          exact h hruns
        · exact hbound u (List.not_mem_cons_of_ne_of_not_mem hu' hu) hruns
    rw [ends_bind, Transform.ends_liftM, ends_node]
    refine ⟨fun n hn => ?_, fun hnone =>
      absurd (hsame.contains ▸ hid) (node?_eq_none.mp hnone)⟩
    split
    case isTrue hk =>
      have hruns := (runsKernelAt_of_node? hn).mpr hk
      have hcoherent := hsame.kept.coherent hc
      refine ((bindNode_bindable hmode hsame.kept.linked hcoherent hruns).and
        (bindNode_effect env.selector hsame.kept.linked hcoherent)).imp (fun _ e he => ?_)
        fun _ _ hno hall => ?_
      · exact ⟨hsame.trans he.2.1.toSameGraph, hrest,
          hnow fun _ => (bindable_sameGraph hsame).mp he.1⟩
      · exact hno.1 ((bindable_sameGraph hsame).mpr (hall id ((hrunsAt id).mp hruns)))
    case isFalse hk =>
      exact ⟨hsame, hrest, hnow fun hruns =>
        absurd ((runsKernelAt_of_node? hn).mp ((hrunsAt id).mpr hruns)) hk⟩
  · exact absurd ((hp.mem id).mpr hruns.contains) hnot

end Pass

/-! ## More padding -/

/-- Padding is only where it leaves a kernel. -/
def Program.Tolerates (p : Program) (id : String) : Prop :=
  ∀ t inputs output, p.taskOf id = some t → Pass.Sees p id inputs → p.freshLayout id = .ok output →
    t.operation.Tolerates inputs output

/-- A convolution reads its first input as data. -/
theorem Node.input_of_convolution {n : Node} {inputs : List Layout} {output l : Layout} {w : Work}
    {c : Convolution} (hop : n.operation = .convolution c) (hl : inputs[0]? = some l)
    (h : n.work? inputs output = .ok (some w)) :
    ∃ v t, w = .convolution v ∧ l.dataTensor = .ok t ∧ t ∈ v.operands.inputs := by
  unfold work? at h
  rw [hop] at h
  obtain ⟨input, hinput, h⟩ := bind_eq_ok_iff.mp h
  obtain rfl := Option.some.inj (hl.symm.trans (inputAt_eq_ok hinput))
  obtain ⟨v, hv, h⟩ := bind_eq_ok_iff.mp h
  cases h
  obtain ⟨_, -, hv⟩ := bind_eq_ok_iff.mp hv
  obtain ⟨_, -, hv⟩ := bind_eq_ok_iff.mp hv
  obtain ⟨_, -, hv⟩ := bind_eq_ok_iff.mp hv
  obtain ⟨o, ho, hv⟩ := bind_eq_ok_iff.mp hv
  cases hv
  obtain ⟨ts, hts, ho⟩ := bind_eq_ok_iff.mp ho
  obtain ⟨_, -, ho⟩ := bind_eq_ok_iff.mp ho
  cases ho
  obtain ⟨t, ts, ht, -, rfl⟩ := List.forall₂_cons_left_iff.mp (mapM_eq_ok_iff.mp hts)
  exact ⟨_, t, rfl, blame_eq_ok ht, List.mem_cons_self⟩

/-- The work of a reorder that is one of data and subtracts nothing. -/
theorem Node.work?_copy {n : Node} {r : Reorder} {input output : Layout} {t u : DataTensor}
    (hop : n.operation = .reorder r) (hformat : r.format.isWeights = false) (hr : r.subtract = [])
    (ht : input.dataTensor = .ok t) (hu : output.dataTensor = .ok u) :
    n.work? [input] output = .ok (some (.reorder ⟨⟨n.activation, [t], u⟩, []⟩)) := by
  rw [reorderWork_iff hop, reorderWork, if_neg (Bool.eq_false_iff.mp hformat), operands,
    List.mapM_cons, List.mapM_nil, ht, hu, hr]
  rfl

namespace Pass

variable {s : Selector} {p q : Program} {c : Compilation} {id j : String}

/-- A node is laid out as its task says. -/
theorem outputLayout_of_freshLayout {t : Task} {inputs : List Layout} {output : Layout}
    (ht : p.taskOf id = some t) (hsees : Sees p id inputs) (hl : p.freshLayout id = .ok output) :
    t.node.outputLayout inputs = .ok output := by
  obtain ⟨u, inputs', hu, hsees', hlays⟩ := freshLayout_iff.mp hl
  obtain rfl := Option.some.inj (ht.symm.trans hu)
  obtain rfl := hsees.unique hsees'
  rw [Task.Lays, Node.rule_eq] at hlays
  obtain ⟨-, -, hlays⟩ := bind_eq_ok_iff.mp hlays
  exact hlays

/-- **What can be bound is tolerated.** -/
theorem Bindable.tolerates (hregistry : s.registry = .builtin) (h : Bindable s p id) :
    p.Tolerates id := by
  obtain ⟨t, inputs, output, w, ht, hsees, houtput, -, hwork, hserves⟩ := h
  intro t' inputs' output' ht' hsees' houtput'
  obtain rfl := Option.some.inj (ht.symm.trans ht')
  obtain rfl := hsees.unique hsees'
  obtain rfl := Except.ok.inj (houtput.symm.trans houtput')
  exact Node.tolerates_of_serves hregistry (outputLayout_of_freshLayout ht hsees houtput) hwork
    hserves

section Widened

variable (hregistry : s.registry = .builtin) (hoverrides : s.overrides = .none)
  (hlays : q.LaysReorders) (htolerates : q.Tolerates j)
include hregistry hoverrides hlays htolerates

/-- **What can be bound can be bound with more padding**, if it is tolerated. -/
theorem Bindable.widened (hw : Widened p q) (h : Bindable s p j) : Bindable s q j := by
  obtain ⟨t, inputs, output, w, ht, hsees, houtput, hcheck, hwork, hserves⟩ := h
  have hthere := contains_of_freshLayout houtput
  obtain ⟨padding, -, ht'⟩ := hw.tasks j t ht
  obtain ⟨inputs', hsees', hin⟩ := sees_widened hw hlays hthere hsees
  obtain ⟨output', houtput', hwide⟩ := (hw.layouts j hthere).widened hlays output houtput
  obtain ⟨w', hwork', hserves'⟩ := Node.serves_widened hregistry hoverrides hin hwide hwork hserves
    (htolerates { t with padding } _ _ ht' hsees' houtput')
    (outputLayout_of_freshLayout ht hsees houtput)
  exact ⟨_, inputs', output', w', ht', hsees', houtput', Node.check_widened hin hcheck, hwork',
    hserves'⟩

/-- **A reorder that came to grow padding can be bound** where the convolution behind it could. -/
theorem bindable_of_copies (h : Copies p q j) (hbound : ∀ id, p.runsKernelAt id → Bindable s p id) :
    Bindable s q j := by
  obtain ⟨hreader, hslot, hlaid, hreads, hstands, htask⟩ := h
  rename_i id d d' conv l padding
  obtain ⟨t, inputs, output, w, ht, hsees, -, -, hwork, hserves⟩ := hbound id ⟨_, hreader, rfl⟩
  obtain ⟨l₀, hl₀, hlaid₀⟩ := exists_getElem?_of_forall₂ hsees hslot
  obtain rfl := Except.ok.inj (hlaid.symm.trans hlaid₀)
  have hop : t.node.operation = .convolution conv := by
    rw [shapeOf_eq_taskOf, ht, Option.map_some, Option.some.injEq] at hreader
    exact hreader
  obtain ⟨v, x, rfl, hx, hmem⟩ := Node.input_of_convolution hop hl₀ hwork
  -- the reorder is laid out, and as data like the input of the convolution
  obtain ⟨l', hl', hwiden⟩ := hstands.widened hlays l hlaid
  have hreorder : q.isReorder j := by
    rw [isReorder, shapeOf_eq_taskOf, htask]
    exact ⟨_, rfl⟩
  have hsees' : Sees q j [l'] := by
    rw [Sees, hreads]
    exact .cons hl' .nil
  have houtput' : q.freshLayout j = .ok ⟨l.element, l.format, l'.size, padding⟩ :=
    freshLayout_iff.mpr ⟨_, [l'], htask, hsees',
      (Task.lays_reorder_iff rfl).mpr ⟨hlays j hreorder, l', [], rfl, rfl⟩⟩
  obtain ⟨x', hx', hxwiden⟩ := hwiden.dataTensor hx
  obtain ⟨e, he, rfl⟩ := Layout.dataTensor_eq_ok_iff.mp hx
  have hformat : l.format.isWeights = false := by
    cases hf : l.format <;> rw [hf] at he <;> first | rfl | cases he
  have hdevice : s.deviceError? ⟨j, .reorder ⟨⟨Activation.none, [x'], ⟨l.element, e, l'.size, padding⟩⟩,
      []⟩⟩ = none :=
    Selector.deviceError?_copy (Selector.offered_of_serves hserves).1 rfl hmem hxwiden.element rfl
  have hcount := (htolerates _ _ _ htask hsees' houtput').filled hformat
  have hserves' := Selector.serves_reorder (k := .reorder) hregistry hoverrides hdevice
    (Node.dataTensor_eq_ok hx').1.symm hcount
  exact ⟨_, [l'], _, _, htask, hsees', houtput', rfl, Node.work?_copy rfl hformat rfl hx'
    (Layout.dataTensor_eq_ok_iff.mpr ⟨e, he, rfl⟩), hserves'⟩

end Widened

/-- **Padding leaves every node that runs a kernel one iff kernels tolerate it.**  The nodes of a
program could be bound; once the inputs of its convolutions are padded they still can, just if its
reorders can be laid out and no node has padding that takes its kernel away. -/
theorem padding_binds_iff {env : Environment} {c c' : Compilation} {bound stats : PassStats}
    {c₁ : Compilation} (hregistry : env.selector.registry = .builtin)
    (hoverrides : env.selector.overrides = .none) (hmode : env.selector.mode = .disabled)
    (hw : c.program.WellFormed) (ho : c.program.isOrdered = true) (hc : c.program.Coherent)
    (hbound : (bindAll env).run.run c = (.ok bound, c₁))
    (hpad : padInputs.run.run c = (.ok stats, c')) :
    (∃ bound' c₂, (bindAll env).run.run c' = (.ok bound', c₂)) ↔
      c'.program.LaysReorders ∧ ∀ id, c'.program.runsKernelAt id → c'.program.Tolerates id := by
  have hp := (isOrdered_iff hw.toLinked).mp ho
  have hends := padInputs_widens hw.toLinked hp hc
  rw [Ends, hpad] at hends
  obtain ⟨hwide, -⟩ := hends
  have hall := bindAll_bindable env hmode hw.toLinked hp hc
  rw [Ends, hbound] at hall
  rw [(bindAll_bindable env hmode hwide.kept.linked hwide.ordered
    (hwide.kept.coherent hc)).exists_ok_iff]
  constructor
  · refine fun h => ⟨fun id hid => ?_, fun id hid => (h id hid).tolerates hregistry⟩
    obtain ⟨r, hr⟩ := hid
    obtain ⟨t, _, _, _, ht, _, houtput, -⟩ := h id ⟨_, hr, rfl⟩
    have hfind := find_of_freshLayout ht houtput
    rw [shapeOf_eq_taskOf, ht, Option.map_some, Option.some.injEq] at hr
    rw [hr] at hfind
    exact ⟨_, hfind⟩
  · rintro ⟨hlays, htolerates⟩ id hid
    rcases hwide.news id hid.contains with hold | hcopies
    · have hold' : c.program.runsKernelAt id := by rwa [runsKernelAt, hwide.shapeOf hold] at hid
      exact (hall id hold').widened hregistry hoverrides hlays (htolerates id hid) hwide
    · exact bindable_of_copies hregistry hoverrides hlays (htolerates id hid) hcopies hall

end Pass

/-- A softmax, two convolutions that it is padded for, and one that reads a new reorder are all
bound. -/
theorem Pass.padding_binds_iff_fanned : ∃ bound c₁ stats c' bound' c₂,
    (Pass.bindAll ⟨.builtin .default, none, false⟩).run.run (.exposing .fanned ["a", "b", "c"])
      = (.ok bound, c₁) ∧
    Pass.padInputs.run.run (.exposing .fanned ["a", "b", "c"]) = (.ok stats, c') ∧
    stats.applied = 3 ∧ c'.program.depsOf "c" = ["reorder_input_c", "w"] ∧
    (Pass.bindAll ⟨.builtin .default, none, false⟩).run.run c' = (.ok bound', c₂) ∧
    c'.program.LaysReorders ∧ ∀ id, c'.program.runsKernelAt id → c'.program.Tolerates id := by
  have hdistinct : Topology.fanned.Distinct := by unfold Topology.Distinct; decide
  obtain ⟨hw, hc⟩ := Compilation.exposing_spec hdistinct ["a", "b", "c"]
  obtain ⟨bound, hbound⟩ := exists_run_eq_ok
    (x := Pass.bindAll ⟨.builtin .default, none, false⟩)
    (s := .exposing .fanned ["a", "b", "c"]) (by decide +kernel)
  obtain ⟨stats, c', hpad, hresult⟩ := exists_run_of_map (x := Pass.padInputs)
    (s := .exposing .fanned ["a", "b", "c"])
    (f := fun stats c' => (stats.applied, c'.program.depsOf "c",
      ((Pass.bindAll ⟨.builtin .default, none, false⟩).run.run c').1.toBool))
    (b := (3, ["reorder_input_c", "w"], true)) (by decide +kernel)
  obtain ⟨happlied, hdeps, hbinds⟩ := by simpa only [Prod.mk.injEq] using hresult
  obtain ⟨bound', hbound'⟩ := exists_run_eq_ok hbinds
  exact ⟨bound, _, stats, c', bound', _, hbound, hpad, happlied, hdeps, hbound',
    (Pass.padding_binds_iff rfl rfl rfl hw (by decide +kernel) hc hbound hpad).mp ⟨_, _, hbound'⟩⟩

/-- A fully connected node over one element, and a window of three by three over its result. -/
def Topology.windowed : Topology :=
  ⟨[⟨"x", Padding.none, .inputLayout (.dense .f32 .bfyx ⟨1, 1, 1, 1⟩)⟩,
    ⟨"w", Padding.none, .inputLayout (.dense .f32 .oiyx ⟨1, 1, 1, 1⟩)⟩,
    ⟨"f", Padding.none, .fullyConnected ⟨"x", "w", none, Activation.none⟩⟩,
    ⟨"k", Padding.none, .inputLayout (.dense .f32 .oiyx ⟨1, 1, 3, 3⟩)⟩,
    ⟨"c", Padding.none, .convolution
      ⟨"f", ["k"], [], ⟨1, 1⟩, ⟨1, 1⟩, ⟨-1, -1⟩, none, Activation.none⟩⟩]⟩

/-- **Padding takes a kernel away**: the window needs a border around the result of the fully
connected node, and with it no kernel is left for that node. -/
theorem unbound_of_padded :
    (Compilation.ofTopology .windowed).program.WellFormed ∧
    (Compilation.ofTopology .windowed).program.isOrdered = true ∧
    ((Pass.bindAll ⟨.builtin .default, none, false⟩).run.run
      (.ofTopology .windowed)).1.toBool = true ∧ ∃ stats c',
    Pass.padInputs.run.run (.ofTopology .windowed) = (.ok stats, c') ∧
    ((Pass.bindAll ⟨.builtin .default, none, false⟩).run.run c').1
      = .error (.noImplementation "f" (.noImplementation .fullyConnected "f")) := by
  obtain ⟨stats, hrun⟩ := exists_run_eq_ok (x := Pass.padInputs) (s := .ofTopology .windowed)
    (by decide +kernel)
  exact ⟨Compilation.wellFormed_ofTopology (by unfold Topology.Distinct; decide), by decide +kernel,
    by decide +kernel, stats, _, hrun, by decide +kernel⟩

end NetPlan

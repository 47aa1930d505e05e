import NetPlan.Proofs.Pass.Records
import NetPlan.Proofs.Pass.Rerouted
import NetPlan.Proofs.Pass.Widened

/-!
# Proofs/Pass/Recast — one input in the preferred layout

What is asked for an input is its own size in the element type of the output, in a format that
depends on that output by element type and batch.  A node with weights takes the element type of its
output from the first input, and no size from a format.  So an answered request can be asked for
again, and does not change what the other inputs are asked for.

* `Preferences.expected_idem` — the preferred layout is the preferred one of itself;
* `Task.lays_recast` — with an input recast a node has the layout it had, up to the format;
* `Rerouted.frame` — what stands before the node that reads the reorder is laid out as it was;
* `Installed.served` — the reorders on record read their sources and do what they are on record for,
  so they lie as asked for (`Installed.laid`).
-/

namespace NetPlan

/-! ## Preferred layouts -/

namespace Preferences

variable {p : Preferences} {current target output output' : Layout} {role : Role} {kind : OpKind}

/-- What is asked for where the output is known. -/
theorem expected_some : p.expected current role kind (some output)
    = if role = .input && kind = .fullyConnected then .ok current
      else match p.format? role kind output.element output.size.batch with
        | some format => .ok (.dense output.element format current.size)
        | none => .error (.invalidGraph (.noLayoutRule role kind)) := rfl

/-- It is the layout that is there, or one of that size in the element type of the output. -/
theorem expected_eq_ok (h : p.expected current role kind (some output) = .ok target) :
    target.size = current.size ∧ (target = current ∨ target.element = output.element) := by
  rw [expected_some] at h
  split at h
  · cases h
    exact ⟨rfl, Or.inl rfl⟩
  · split at h
    · cases h
      exact ⟨rfl, Or.inr rfl⟩
    · cases h

/-- **The preferred layout is that of itself.** -/
theorem expected_idem (h : p.expected current role kind (some output) = .ok target) :
    p.expected target role kind (some output) = .ok target := by
  have hsize := (expected_eq_ok h).1
  rw [expected_some] at h ⊢
  split at h
  case isTrue hinput => rw [if_pos hinput]
  case isFalse hinput => rw [if_neg hinput, hsize, h]

/-- **Of the output it takes the element type and the batch.** -/
theorem expected_congr (helement : output'.element = output.element)
    (hsize : output'.size = output.size) :
    p.expected current role kind (some output') = p.expected current role kind (some output) := by
  rw [expected_some, helement, hsize, expected_some]

end Preferences

/-! ## Recast inputs -/

/-- The second layout is the first, of an element type, up to the format. -/
def Recasts (element : Element) (x y : Except CompileError Layout) : Prop :=
  ∀ l, x = .ok l → l.element = element ∧ ∃ format, y = .ok { l with format }

theorem Recasts.bind {α : Type} {element : Element} (x : Except CompileError α)
    {f g : α → Except CompileError Layout} (h : ∀ a, Recasts element (f a) (g a)) :
    Recasts element (x >>= f) (x >>= g) := fun l hl => by
  obtain ⟨a, ha, hl⟩ := bind_eq_ok_iff.mp hl
  obtain ⟨helement, format, hg⟩ := h a l hl
  exact ⟨helement, format, bind_eq_ok_iff.mpr ⟨a, ha, hg⟩⟩

theorem Recasts.ok {element : Element} (format format' : Format) (size : Shape)
    (padding : Padding) : Recasts element (.ok ⟨element, format, size, padding⟩)
      (.ok ⟨element, format', size, padding⟩) :=
  fun _ hl => Except.ok.inj hl ▸ ⟨rfl, format', rfl⟩

section Recast

variable {inputs : List Layout} {current other l : Layout} (hfirst : inputs[0]? = some current)
  (helement : other.element = current.element) (hsize : other.size = current.size)
include hfirst helement hsize

theorem Node.recasts_convolution (n : Node) (c : Convolution) : Recasts current.element
    (n.convolutionLayout c inputs) (n.convolutionLayout c (inputs.set 0 other)) := by
  obtain ⟨element, format, size, padding⟩ := other
  cases helement
  cases hsize
  match inputs, hfirst with
  | _ :: rest, rfl =>
    refine .bind (n.expectInputs (current :: rest) _) fun _ =>
      .bind (inputAt (current :: rest) 1) fun weights => ?_
    dsimp only
    split
    · exact .ok _ _ _ _
    · exact .bind (n.windowPositions ..) fun x => .bind (n.windowPositions ..) fun y => .ok _ _ _ _

theorem Node.recasts_fullyConnected (n : Node) : Recasts current.element
    (n.fullyConnectedLayout inputs) (n.fullyConnectedLayout (inputs.set 0 other)) := by
  obtain ⟨element, format, size, padding⟩ := other
  cases helement
  cases hsize
  match inputs, hfirst with
  | _ :: rest, rfl =>
    exact .bind (n.expectInputs (current :: rest) _) fun _ =>
      .bind (inputAt (current :: rest) 1) fun weights => .ok _ _ _ _

/-- **A node with weights and its first input in another format** has its layout up to the format;
the element type is that of the input. -/
theorem Task.lays_recast_first {t : Task} {b : Behaviours}
    (hk : t.operation.kind.isWeighted = true) (h : t.Lays b inputs l) :
    l.element = current.element ∧ ∃ format, t.Lays b (inputs.set 0 other) { l with format } := by
  have hop : t.node.operation = t.operation := rfl
  have hrecasts : Recasts current.element (t.node.outputLayout inputs)
      (t.node.outputLayout (inputs.set 0 other)) := by
    unfold Node.outputLayout
    rw [hop]
    cases ht : t.operation with
    | convolution c => exact t.node.recasts_convolution hfirst helement hsize c
    | fusedConvBnScale f => exact t.node.recasts_convolution hfirst helement hsize f.conv
    | fullyConnected c => exact t.node.recasts_fullyConnected hfirst helement hsize
    | _ => simp [ht, Operation.kind, OpKind.isWeighted] at hk
  rw [Lays, Node.rule_eq] at h
  obtain ⟨hl, format, hlays⟩ := Recasts.bind (b.find t.node.kind) (fun _ => hrecasts) l h
  exact ⟨hl, format, by rw [Lays, Node.rule_eq, hlays]⟩

end Recast

/-- With any input recast it has its layout up to the format. -/
theorem Task.lays_recast {t : Task} {b : Behaviours} {inputs : List Layout}
    {l current other : Layout} {index : Nat} (hk : t.operation.kind.isWeighted = true)
    (hcurrent : inputs[index]? = some current) (hsize : other.size = current.size)
    (helement : index = 0 → other.element = current.element) (h : t.Lays b inputs l) :
    ∃ format, t.Lays b (inputs.set index other) { l with format } := by
  by_cases hindex : index = 0
  · subst hindex
    exact (t.lays_recast_first hcurrent (helement rfl) hsize hk h).2
  · exact ⟨l.format, t.lays_set hk hindex hcurrent hsize h⟩

/-! ## Graphs with a recast input -/

open Program Edit

variable {p q : Program} {r next source j : String} {index : Nat} {l current other : Layout}

namespace Program

/-- What is read in a slot is laid out. -/
theorem exists_inputs_of_freshLayout (hl : p.freshLayout next = .ok l)
    (hsource : (p.depsOf next)[index]? = some source)
    (hcurrent : p.freshLayout source = .ok current) :
    ∃ task inputs, p.taskOf next = some task ∧
      List.Forall₂ (fun d i => p.freshLayout d = .ok i) (p.depsOf next) inputs ∧
      task.Lays p.behaviours inputs l ∧ inputs[index]? = some current := by
  obtain ⟨task, inputs, htask, hinputs, hlays⟩ := freshLayout_iff.mp hl
  obtain ⟨input, hinput, hlaid⟩ := exists_getElem?_of_forall₂ hinputs hsource
  obtain rfl : current = input := Except.ok.inj (hcurrent.symm.trans hlaid)
  exact ⟨task, inputs, htask, hinputs, hlays, hinput⟩

theorem isWeighted.kind {task : Task} (h : p.isWeighted next) (htask : p.taskOf next = some task) :
    task.operation.kind.isWeighted = true := by
  obtain ⟨op, hop, hk⟩ := h
  rw [shapeOf_eq_taskOf, htask, Option.map_some, Option.some.injEq] at hop
  rw [hop, hk]

/-- **A node with weights has the element type of its first input.** -/
theorem isWeighted.element (h : p.isWeighted next) (hl : p.freshLayout next = .ok l)
    (hsource : (p.depsOf next)[0]? = some source) (hcurrent : p.freshLayout source = .ok current) :
    l.element = current.element := by
  obtain ⟨task, inputs, htask, -, hlays, hfirst⟩ := exists_inputs_of_freshLayout hl hsource hcurrent
  exact (task.lays_recast_first hfirst rfl rfl (h.kind htask) hlays).1

end Program

/-- **What stands before the node is laid out as it was.** -/
theorem Rerouted.frame (h : Rerouted p q r next source index) (ho : p.Ordered)
    (hj : Before p.order.ids j next) : q.freshLayout j = p.freshLayout j := by
  have hthere : ∀ i, Before p.order.ids i next → p.contains i = true := fun i hi =>
    (ho.mem i).mp hi.mem_left
  have hne : ∀ i, Before p.order.ids i next → i ≠ next := fun i hi he =>
    Before.irrefl ho.nodup next (he ▸ hi)
  exact freshLayout_frame (fun i => Before p.order.ids i next) h.behaviours
    (fun i hi d hd => (ho.before i d hd).trans ho.nodup hi)
    (fun i hi => by rw [outlineOf_eq_taskOf, h.tasks i (hthere i hi), outlineOf_eq_taskOf])
    (fun i hi => by rw [h.deps i (hthere i hi), if_neg (hne i hi)]) hj

/-- **The node itself is laid out up to the format.** -/
theorem Rerouted.recast (h : Rerouted p q r next source index) (ho : p.Ordered)
    (hweighted : p.isWeighted next) (hl : p.freshLayout next = .ok l)
    (hcurrent : p.freshLayout source = .ok current) (hother : q.freshLayout r = .ok other)
    (hsize : other.size = current.size) (helement : index = 0 → other.element = current.element) :
    ∃ format, q.freshLayout next = .ok { l with format } := by
  obtain ⟨task, inputs, htask, hinputs, hlays, hread⟩ :=
    exists_inputs_of_freshLayout hl h.reads hcurrent
  obtain ⟨format, hlays⟩ :=
    task.lays_recast (hweighted.kind htask) hread hsize helement hlays
  have hinputs' : List.Forall₂ (fun d i => q.freshLayout d = .ok i) (p.depsOf next) inputs :=
    List.forall₂_iff_get.mpr ⟨hinputs.length_eq, fun i hi hi' => by
      rw [h.frame ho (ho.before next _ (List.get_mem _ _))]
      exact (List.forall₂_iff_get.mp hinputs).2 i hi hi'⟩
  refine ⟨format, freshLayout_iff.mpr ⟨task, _, ?_, h.read hother hinputs', ?_⟩⟩
  · rw [h.tasks next hweighted.contains, htask]
  · rw [h.behaviours]
    exact hlays

/-! ## Reorders on record that do what they are there for -/

namespace Pass

variable {m m' : List Preferences.Entry} {made : Option String}

/-- The reorders on record that are in the graph read their sources, and are as they were made. -/
def Installed (p : Program) (m : List Preferences.Entry) : Prop :=
  ∀ e ∈ m, p.isReorder e.2.id → p.depsOf e.2.id = [e.1.1] ∧ p.taskOf e.2.id
    = some ⟨e.1.2.padding, .reorder ⟨"", e.1.2.format, e.1.2.element, []⟩, Activation.none⟩

theorem installed_nil (p : Program) : Installed p [] := fun _ he => absurd he List.not_mem_nil

theorem Installed.sameGraph (h : Installed p m) (hq : SameGraph p q) : Installed q m :=
  fun e he hr => by
    rw [isReorder, hq.shapes] at hr
    rw [hq.deps, hq.tasks]
    exact h e he hr

/-- **Answered requests leave them so.** -/
theorem Installed.served (h : Installed p m) (hm : Preferences.Numbered m)
    (hnext : ¬ p.isReorder next) (hq : Served p q m m' next index made) : Installed q m' := by
  have hm' := hq.numbered hm
  obtain ⟨rfl, rfl⟩ | ⟨e, he, hins, hold⟩ | ⟨rfl, e, -, hshare⟩ := hq.cases hm
  · exact h
  · intro e' he' hr
    rw [hins.deps, hins.tasks]
    by_cases hid : e'.2.id = e.2.id
    · obtain rfl := hm'.eq_of_id he' he hid
      rw [if_pos rfl, if_pos rfl, hm'.reorder_of_mem he]
      exact ⟨rfl, rfl⟩
    · rw [isReorder, hins.shapes, if_neg hid] at hr
      rw [if_neg hid, if_neg hid, if_neg fun heq : e'.2.id = next => hnext (heq ▸ hr)]
      exact h e' ((hold e' he').resolve_right fun heq => hid (by rw [heq])) hr
  · intro e' he' hr
    rw [isReorder, hshare.shapes] at hr
    rw [hshare.deps, hshare.tasks, if_neg fun heq : e'.2.id = next => hnext (heq ▸ hr)]
    exact h e' he' hr

/-- **They lie as asked for**, where they can be laid out. -/
theorem Installed.laid (h : Installed p m) (hlays : p.LaysReorders) {e : Preferences.Entry}
    (he : e ∈ m) (hr : p.isReorder e.2.id) {current : Layout}
    (hcurrent : p.freshLayout e.1.1 = .ok current) (hsize : e.1.2.size = current.size) :
    p.freshLayout e.2.id = .ok e.1.2 := by
  obtain ⟨hdeps, htask⟩ := h e he hr
  refine freshLayout_iff.mpr ⟨_, [current], htask, hdeps ▸ .cons hcurrent .nil, ?_⟩
  refine (Task.lays_reorder_iff rfl).mpr ⟨hlays _ hr, current, [], rfl, ?_⟩
  rw [← hsize]

end Pass

end NetPlan

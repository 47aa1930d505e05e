import NetPlan.Proofs.Pass.Inherited
import NetPlan.Proofs.Pass.Preferred
import NetPlan.Proofs.Pass.Raw

/-!
# Proofs/Pass/Rerouted — weights that come by another way

A node with weights is laid out by its first input and by the size of its weights (`Task.lays_congr`).
So a reorder in front of any other input, which keeps the size, changes the layout of no node: that of
the input that is read now is the only one that is new (`Rerouted.layouts`).
-/

namespace NetPlan

/-! ## The layout of a node with weights -/

section Weighted

variable {inputs inputs' : List Layout}

theorem inputAt_congr {index : Nat} (h : inputs'[index]? = inputs[index]?) :
    inputAt inputs' index = inputAt inputs index := by
  rw [inputAt, inputAt, h]

/-- What is computed from an input through its size only. -/
theorem inputAt_bind_congr {α : Type} {index : Nat} {f : Layout → Except CompileError α}
    (hf : ∀ l l' : Layout, l'.size = l.size → f l' = f l)
    (h : inputs'[index]?.map Layout.size = inputs[index]?.map Layout.size) :
    inputAt inputs' index >>= f = inputAt inputs index >>= f := by
  unfold inputAt
  cases hl : inputs[index]? with
  | none =>
    rw [hl, Option.map_none, Option.map_eq_none_iff] at h
    rw [h]
  | some l =>
    rw [hl, Option.map_some, Option.map_eq_some_iff] at h
    obtain ⟨l', hl', hsize⟩ := h
    rw [hl']
    exact hf l l' hsize

variable (hlength : inputs'.length = inputs.length) (hfirst : inputs'[0]? = inputs[0]?)
  (hweights : inputs'[1]?.map Layout.size = inputs[1]?.map Layout.size)
include hlength hfirst hweights

theorem Node.convolutionLayout_congr (n : Node) (c : Convolution) :
    n.convolutionLayout c inputs' = n.convolutionLayout c inputs := by
  unfold convolutionLayout expectInputs
  rw [hlength, inputAt_congr hfirst]
  refine congrArg (Bind.bind _) (funext fun _ => congrArg (Bind.bind _) (funext fun input => ?_))
  exact inputAt_bind_congr (fun l l' hsize => by rw [hsize]) hweights

theorem Node.fullyConnectedLayout_congr (n : Node) :
    n.fullyConnectedLayout inputs' = n.fullyConnectedLayout inputs := by
  unfold fullyConnectedLayout expectInputs
  rw [hlength, inputAt_congr hfirst]
  refine congrArg (Bind.bind _) (funext fun _ => congrArg (Bind.bind _) (funext fun input => ?_))
  exact inputAt_bind_congr (fun l l' hsize => by rw [hsize]) hweights

/-- **A node with weights is laid out by its first input and the size of its second.** -/
theorem Task.lays_congr {t : Task} {b : Behaviours} {l : Layout}
    (hk : t.operation.kind.isWeighted = true) (h : t.Lays b inputs l) : t.Lays b inputs' l := by
  have hlayout : t.node.outputLayout inputs' = t.node.outputLayout inputs := by
    have hop : t.node.operation = t.operation := rfl
    unfold Node.outputLayout
    rw [hop]
    cases ht : t.operation with
    | convolution c => exact t.node.convolutionLayout_congr hlength hfirst hweights c
    | fusedConvBnScale f => exact t.node.convolutionLayout_congr hlength hfirst hweights f.conv
    | fullyConnected c => exact t.node.fullyConnectedLayout_congr hlength hfirst hweights
    | _ => simp [ht, Operation.kind, OpKind.isWeighted] at hk
  rw [Lays, Node.rule_eq] at h ⊢
  rw [hlayout]
  exact h

end Weighted

/-- **Another input behind the first**, of the same size. -/
theorem Task.lays_set {t : Task} {b : Behaviours} {inputs : List Layout} {l current other : Layout}
    {index : Nat} (hk : t.operation.kind.isWeighted = true) (hindex : index ≠ 0)
    (hcurrent : inputs[index]? = some current) (hsize : other.size = current.size)
    (h : t.Lays b inputs l) : t.Lays b (inputs.set index other) l := by
  refine t.lays_congr List.length_set (List.getElem?_set_ne hindex) ?_ hk h
  by_cases h1 : index = 1
  · subst h1
    have hlt : 1 < inputs.length := (List.getElem?_eq_some_iff.mp hcurrent).1
    rw [List.getElem?_set_self hlt, hcurrent, Option.map_some, Option.map_some, hsize]
  · rw [List.getElem?_set_ne h1]

/-- The first input holds no weights. -/
theorem Operation.pos_of_mem_weightSlots {op : Operation} {index : Nat}
    (h : index ∈ op.weightSlots) : index ≠ 0 := by
  cases op with
  | convolution c =>
    have := (List.mem_range'_1.mp h).1
    omega
  | fusedConvBnScale f =>
    have := (List.mem_range'_1.mp h).1
    omega
  | fullyConnected c =>
    rw [List.mem_singleton.mp h]
    exact Nat.one_ne_zero
  | _ => cases h

/-! ## Graphs in which one input comes through a reorder -/

open Program Edit

variable {p q : Program} {r next source j : String} {index : Nat} {current l : Layout} {re : Reorder}

/-- `q` is `p` with one input of `next` read through a reorder of it. -/
structure Rerouted (p q : Program) (r next source : String) (index : Nat) : Prop where
  behaviours : q.behaviours = p.behaviours
  reads : (p.depsOf next)[index]? = some source
  ne : r ≠ next
  reorder : q.isReorder r
  input : q.depsOf r = [source]
  tasks : ∀ j, p.contains j = true → q.taskOf j = p.taskOf j
  plans : q.planOf = p.planOf
  deps : ∀ j, p.contains j = true →
    q.depsOf j = if j = next then (p.depsOf j).set index r else p.depsOf j

theorem Edit.Inserted.rerouted {layout : Layout} {padding : Padding} {prim : Primitive}
    (h : Inserted p q prim next index source)
    (hprim : prim = .reorder prim.id source layout padding) : Rerouted p q prim.id next source index := by
  have hold : ∀ j, p.contains j = true → j ≠ prim.id := fun j hj he => h.free (he ▸ hj)
  have hnext : p.contains next = true := contains_of_mem_depsOf (List.mem_of_getElem? h.source_eq)
  refine ⟨h.kept.behaviours, h.source_eq, (hold next hnext).symm, ?_, ?_, fun j hj => ?_, h.plans,
    fun j hj => ?_⟩
  · rw [isReorder, h.shapes, if_pos rfl, hprim]
    exact ⟨_, rfl⟩
  · rw [h.deps, if_pos rfl, hprim]
    rfl
  · rw [h.tasks, if_neg (hold j hj)]
  · rw [h.deps, if_neg (hold j hj)]

theorem Edit.Shared.rerouted (h : Shared p q r next index source) (hnext : ¬ p.isReorder next)
    (hslim : (p.depsOf r).length ≤ 1) : Rerouted p q r next source index := by
  have hne : r ≠ next := fun he => hnext (he ▸ h.reorder)
  have hdeps : p.depsOf r = [source] := by
    have hreads := h.reads
    match hds : p.depsOf r with
    | [] =>
      rw [hds] at hreads
      cases hreads
    | [d] =>
      rw [hds] at hreads
      exact congrArg (· :: []) (Option.some.inj hreads)
    | _ :: _ :: _ =>
      rw [hds] at hslim
      simp at hslim
  refine ⟨h.kept.behaviours, h.source_eq, hne, ?_, ?_, fun j _ => by rw [h.tasks], h.plans,
    fun j _ => h.deps j⟩
  · rw [isReorder, h.shapes]
    exact h.reorder
  · rw [h.deps, if_neg hne, hdeps]

/-- **An answered request** puts a reorder in front of the slot. -/
theorem Pass.Served.rerouted {m m' : List Preferences.Entry}
    (h : Served p q m m' next index (some r)) (hm : Preferences.Numbered m)
    (hnext : ¬ p.isReorder next) (hslim : p.Slim) :
    ∃ source, Rerouted p q r next source index := by
  cases h with
  | cached target entry _ placed =>
    rcases placed with hins | hshare
    · exact ⟨_, hins.rerouted (hm.reorder_of_mem entry)⟩
    · exact ⟨_, hshare.rerouted hnext (hslim _ hshare.reorder)⟩
  | @new source target prim inserted recorded =>
    obtain ⟨hkept, hm'⟩ := recorded hm
    have he : ((source, target), prim) ∈ m' := by
      rw [hkept]
      exact List.mem_append_right _ List.mem_cons_self
    exact ⟨source, inserted.rerouted (hm'.reorder_of_mem he)⟩

namespace Rerouted

/-- The layout of the reorder follows from that of what it reads. -/
theorem laid (h : Rerouted p q r next source index) (hshape : q.shapeOf r = some (.reorder re))
    (hreg : ∃ k, p.behaviours.find .reorder = .ok k) (hsource : q.freshLayout source = .ok current) :
    ∃ padding, q.freshLayout r = .ok ⟨re.element, re.format, current.size, padding⟩ := by
  rw [shapeOf_eq_taskOf, Option.map_eq_some_iff] at hshape
  obtain ⟨t, ht, hop⟩ := hshape
  refine ⟨t.padding, freshLayout_iff.mpr ⟨t, [current], ht, ?_, ?_⟩⟩
  · rw [h.input]
    exact .cons hsource .nil
  · rw [h.behaviours]
    exact (Task.lays_reorder_iff hop).mpr ⟨hreg, current, [], rfl, rfl⟩

/-- What `next` reads now. -/
theorem read (h : Rerouted p q r next source index) {inputs : List Layout} {other : Layout}
    (hother : q.freshLayout r = .ok other)
    (hinputs : List.Forall₂ (fun d i => q.freshLayout d = .ok i) (p.depsOf next) inputs) :
    List.Forall₂ (fun d i => q.freshLayout d = .ok i) (q.depsOf next) (inputs.set index other) := by
  rw [h.deps next (contains_of_mem_depsOf (List.mem_of_getElem? h.reads)), if_pos rfl]
  refine List.forall₂_iff_get.mpr ⟨by simp [hinputs.length_eq], fun i hi hi' => ?_⟩
  rw [List.get_eq_getElem, List.get_eq_getElem, List.getElem_set, List.getElem_set]
  split
  · exact hother
  · exact (List.forall₂_iff_get.mp hinputs).2 i (by simpa using hi) (by simpa using hi')

/-- **No layout changes** if the input is not the first. -/
theorem layouts (h : Rerouted p q r next source index) (hweighted : p.isWeighted next)
    (hindex : index ≠ 0) (hreg : ∃ k, p.behaviours.find .reorder = .ok k)
    (hj : p.freshLayout j = .ok l) : q.freshLayout j = .ok l := by
  obtain ⟨op, hop, hk⟩ := hweighted
  obtain ⟨re, hre⟩ := h.reorder
  refine freshLayout_rec (motive := fun j l => q.freshLayout j = .ok l)
    (fun j task inputs l _ htask hdeps hlays => ?_) hj
  have hthere : p.contains j = true := by
    rw [contains_eq_isSome_taskOf, htask, Option.isSome_some]
  have hinputs : List.Forall₂ (fun d i => q.freshLayout d = .ok i) (p.depsOf j) inputs :=
    hdeps.imp fun _ _ hd => hd.2
  by_cases he : j = next
  · subst he
    obtain ⟨current, hcurrent, hsource⟩ := exists_getElem?_of_forall₂ hinputs h.reads
    obtain ⟨padding, hother⟩ := h.laid hre hreg hsource
    refine freshLayout_iff.mpr ⟨task, _, (h.tasks j hthere).trans htask, h.read hother hinputs, ?_⟩
    rw [h.behaviours]
    refine Task.lays_set ?_ hindex hcurrent rfl hlays
    rw [shapeOf_eq_taskOf, htask, Option.map_some, Option.some.injEq] at hop
    rw [hop, hk]
  · refine freshLayout_iff.mpr ⟨task, inputs, (h.tasks j hthere).trans htask, ?_, ?_⟩
    · rw [h.deps j hthere, if_neg he]
      exact hinputs
    · rw [h.behaviours]
      exact hlays

/-- **All other nodes stay as they are.** -/
theorem inherits (h : Rerouted p q r next source index) (hweighted : p.isWeighted next)
    (hindex : index ≠ 0) (hreg : ∃ k, p.behaviours.find .reorder = .ok k)
    (hj : p.contains j = true) (hne : j ≠ next) : Inherits p q (fun d => d) j j where
  task := h.tasks j hj
  plan := by rw [h.plans]
  deps := by rw [h.deps j hj, if_neg hne, List.map_id']
  inputs _ _ _ hl := h.layouts hweighted hindex hreg hl

end Rerouted

end NetPlan

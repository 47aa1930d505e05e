import NetPlan.Proofs.Graph.Edges

/-!
# Proofs/Graph/Nodes — edits of nodes

Nodes come, go and change without touching an edge: a new node has none, and a node is isolated
before it is taken out.

* `create_effect`, `remove_effect` — a node more, a node less;
* `SameWiring` — the same nodes with the same edges and slots, which flags do not touch;
* `reflagged_update` — a node changed in what no layout depends on;
* `kept_setOrder` — another order of the same nodes.
-/

namespace NetPlan

/-- What a node does, whatever its id, its edges, its marks and its plan. -/
structure Task where
  padding : Padding
  /-- The operation with blank slots. -/
  operation : Operation
  absorbed : Activation

/-- What the node does. -/
def Node.task (n : Node) : Task := ⟨n.padding, n.operation.shape, n.absorbed⟩

@[simp] theorem Node.task_core (n : Node) : n.core.task = n.task := by
  change (⟨n.padding, n.operation.shape.shape, n.absorbed⟩ : Task) = _
  rw [Operation.shape_shape, task]

/-- Whether the node is marked constant, and whether it is marked as part of the data flow. -/
def Node.flags (n : Node) : Bool × Bool := (n.isConstant, n.isDataFlow)

/-- The activation of the result, the operation's own before an absorbed one. -/
def Task.activation (t : Task) : Activation :=
  if t.operation.ownActivation.isNone then t.absorbed else t.operation.ownActivation

@[simp] theorem Node.activation_task (n : Node) : n.task.activation = n.activation := by
  have hown : n.operation.shape.ownActivation = n.operation.ownActivation := by
    cases n.operation <;> rfl
  rw [Task.activation, activation, task, hown]

namespace Program

variable {p q : Program} {id j : String} {n : Node}

/-! ## One node more -/

/-- The program with the node of a primitive, which has no edges. -/
def withNew (p : Program) (prim : Primitive) : Program :=
  (p.insert (Node.ofPrimitive prim)).setInputs (p.inputs ++ [prim.id])

section New

variable {prim : Primitive}

theorem node?_withNew (h : ¬ p.contains prim.id = true) (j : String) :
    (p.withNew prim).node? j
      = if j = prim.id then some (Node.ofPrimitive prim) else p.node? j :=
  node?_insert (n := Node.ofPrimitive prim) h j

theorem view_withNew {α : Type} (v : Option Node → α) (h : ¬ p.contains prim.id = true)
    (hv : v (some (Node.ofPrimitive prim)) = v none) (j : String) :
    v ((p.withNew prim).node? j) = v (p.node? j) := by
  rw [node?_withNew h]
  split
  case isTrue hj => rw [hj, node?_eq_none.mpr h, hv]
  case isFalse => rfl

theorem depsOf_withNew (h : ¬ p.contains prim.id = true) : (p.withNew prim).depsOf = p.depsOf :=
  funext fun j => view_withNew Node.depsIn h
    rfl j

theorem usersOf_withNew (h : ¬ p.contains prim.id = true) :
    (p.withNew prim).usersOf = p.usersOf :=
  funext fun j => view_withNew Node.usersIn h rfl j

theorem layoutOf_withNew (h : ¬ p.contains prim.id = true) :
    (p.withNew prim).layoutOf = p.layoutOf :=
  funext fun j => view_withNew (fun o => o.bind Node.layout) h rfl j

theorem isMarked_withNew (h : ¬ p.contains prim.id = true) :
    (p.withNew prim).isMarked = p.isMarked :=
  funext fun j => view_withNew Node.markIn h
    rfl j

theorem coreOf_withNew (h : ¬ p.contains prim.id = true) (j : String) :
    (p.withNew prim).coreOf j
      = if j = prim.id then some (Node.ofPrimitive prim).core else p.coreOf j := by
  rw [coreOf, node?_withNew h]
  split <;> rfl

theorem argsOf_withNew (h : ¬ p.contains prim.id = true) (j : String) :
    (p.withNew prim).argsOf j = if j = prim.id then prim.arguments else p.argsOf j := by
  rw [argsOf, node?_withNew h]
  by_cases hj : j = prim.id
  · rw [if_pos hj, if_pos hj]
    rfl
  · rw [if_neg hj, if_neg hj, argsOf]

theorem contains_withNew (h : ¬ p.contains prim.id = true) :
    (p.withNew prim).contains j = true ↔ j = prim.id ∨ p.contains j = true := by
  rw [contains, node?_withNew h, contains]
  split
  case isTrue hj => simp [hj]
  case isFalse hj => simp [hj]

theorem linked_withNew (h : p.Linked) (hnew : ¬ p.contains prim.id = true) :
    (p.withNew prim).Linked where
  ascending := by
    refine List.pairwise_map.mpr (pairwise_insertById _ _ (fun m hm hid => ?_)
      (List.pairwise_map.mp h.ascending))
    exact hnew (contains_iff_mem_ids.mpr (List.mem_map.mpr ⟨m, hm, hid⟩))
  edges := by
    rw [depsOf_withNew hnew, usersOf_withNew hnew]
    exact h.edges
  users_nodup := by
    rw [usersOf_withNew hnew]
    exact h.users_nodup
  irrefl := by
    rw [depsOf_withNew hnew]
    exact h.irrefl
  inputs_nodup := by
    have hni : prim.id ∉ p.inputs := fun hi => hnew ((h.mem_inputs _).mp hi).1
    change (p.inputs ++ [prim.id]).Nodup
    exact List.concat_eq_append ▸ h.inputs_nodup.concat hni
  mem_inputs id := by
    change id ∈ p.inputs ++ [prim.id] ↔ _
    rw [contains_withNew hnew, depsOf_withNew hnew, List.mem_append, h.mem_inputs,
      List.mem_singleton]
    by_cases hid : id = prim.id
    · simp [hid, depsOf_of_not_contains hnew]
    · simp [hid]
  order_nodup := h.order_nodup
  order_contains id hid := (contains_withNew hnew).mpr (Or.inr (h.order_contains id hid))

/-- **A new node disturbs nothing**: nothing reads it. -/
theorem kept_withNew (h : p.Linked) (hnew : ¬ p.contains prim.id = true) :
    Kept p (p.withNew prim) where
  linked := linked_withNew h hnew
  coherent hc := by
    refine hc.frame (fun i => p.contains i = true) rfl (fun i _ d hd => h.contains_dep hd)
      (fun i hi => ?_) (fun i _ => congrFun (depsOf_withNew hnew) i) fun i l hl => ?_
    · rw [outlineOf_eq_coreOf, outlineOf_eq_coreOf, coreOf_withNew hnew,
        if_neg fun he : i = prim.id => hnew (he ▸ hi)]
    · rw [layoutOf_withNew hnew] at hl
      obtain ⟨m, hm, -⟩ := Option.bind_eq_some_iff.mp hl
      exact ⟨contains_of_node? hm, hl⟩
  wellFormed hw := (linked_withNew h hnew).wellFormed hw rfl fun id => by
    rw [isMarked_withNew hnew]
  behaviours := rfl

end New

/-! ## One node less -/

/-- The program without a node; the lists follow. -/
def without (p : Program) (id : String) : Program :=
  { p.dropNode id with
    order := p.order.erase id
    inputs := p.inputs.filter (· ≠ id)
    outputs := p.outputs.filter (· ≠ id)
    removed := p.removed ++ [id] }

section Drop

theorem node?_without (p : Program) (id j : String) :
    (p.without id).node? j = if j = id then none else p.node? j := node?_dropNode p id j

theorem view_without {α : Type} (v : Option Node → α) (p : Program) (id j : String) :
    v ((p.without id).node? j) = if j = id then v none else v (p.node? j) := by
  rw [node?_without]
  split <;> rfl

theorem depsOf_without (p : Program) (id j : String) :
    (p.without id).depsOf j = if j = id then [] else p.depsOf j :=
  view_without Node.depsIn p id j

theorem usersOf_without (p : Program) (id j : String) :
    (p.without id).usersOf j = if j = id then [] else p.usersOf j :=
  view_without Node.usersIn p id j

theorem argsOf_without (p : Program) (id j : String) :
    (p.without id).argsOf j = if j = id then [] else p.argsOf j :=
  view_without Node.argsIn p id j

theorem coreOf_without (p : Program) (id j : String) :
    (p.without id).coreOf j = if j = id then none else p.coreOf j :=
  view_without (Option.map Node.core) p id j

theorem layoutOf_without (p : Program) (id j : String) :
    (p.without id).layoutOf j = if j = id then none else p.layoutOf j :=
  view_without (fun o => o.bind Node.layout) p id j

theorem isMarked_without (p : Program) (id j : String) :
    (p.without id).isMarked j = if j = id then false else p.isMarked j :=
  view_without Node.markIn p id j

theorem contains_without (p : Program) (id j : String) :
    (p.without id).contains j = if j = id then false else p.contains j :=
  view_without Option.isSome p id j

theorem linked_without (h : p.Linked) (hdeps : p.depsOf id = [])
    (hread : ∀ u, id ∉ p.depsOf u) : (p.without id).Linked where
  ascending := List.pairwise_map.mpr ((List.pairwise_map.mp h.ascending).filter _)
  edges d u := by
    have hedge := h.edges d u
    have hd := hread u
    rw [depsOf_without, usersOf_without]
    by_cases hu : u = id
    · rw [hu, hdeps] at hedge
      rw [if_pos hu, hu]
      split
      · simp
      · exact hedge
    · rw [if_neg hu]
      split
      case isTrue hdid => exact ⟨fun hmem => absurd (hdid ▸ hmem) hd, fun hmem => nomatch hmem⟩
      case isFalse => exact hedge
  users_nodup d := by
    rw [usersOf_without]
    split
    · exact List.nodup_nil
    · exact h.users_nodup d
  irrefl u := by
    rw [depsOf_without]
    split
    · exact List.not_mem_nil
    · exact h.irrefl u
  inputs_nodup := h.inputs_nodup.filter _
  mem_inputs i := by
    change i ∈ p.inputs.filter (· ≠ id) ↔ _
    rw [List.mem_filter, h.mem_inputs, contains_without, depsOf_without]
    by_cases hi : i = id <;> simp [hi]
  order_nodup := h.order_nodup.filter _
  order_contains i hi := by
    obtain ⟨hi, hne⟩ := List.mem_filter.mp hi
    rw [contains_without, if_neg (by simpa using hne)]
    exact h.order_contains i hi

theorem kept_without (h : p.Linked) (hdeps : p.depsOf id = []) (hread : ∀ u, id ∉ p.depsOf u) :
    Kept p (p.without id) where
  linked := linked_without h hdeps hread
  coherent hc := by
    refine hc.frame (· ≠ id) rfl (fun i _ d hd he => hread i (he ▸ hd)) (fun i hi => ?_)
      (fun i hi => by rw [depsOf_without, if_neg hi]) fun i l hl => ?_
    · rw [outlineOf_eq_coreOf, outlineOf_eq_coreOf, coreOf_without, if_neg hi]
    · rw [layoutOf_without] at hl
      split at hl
      · cases hl
      case isFalse hi => exact ⟨hi, hl⟩
  wellFormed hw :=
    { linked_without h hdeps hread with
      outputs_nodup := hw.outputs_nodup.filter _
      mem_outputs := fun i => by
        change i ∈ p.outputs.filter (· ≠ id) ↔ _
        rw [List.mem_filter, hw.mem_outputs, isMarked_without]
        by_cases hi : i = id <;> simp [hi] }
  behaviours := rfl

end Drop

/-! ## Changes that no layout depends on -/

/-- The operation of a node with blank slots. -/
def shapeOf (p : Program) (id : String) : Option Operation :=
  (p.node? id).map fun n => n.operation.shape

/-- What a node does. -/
def taskOf (p : Program) (id : String) : Option Task := (p.node? id).map Node.task

/-- The plan of a node. -/
def planOf (p : Program) (id : String) : Option Kernel.Plan := (p.node? id).bind (·.plan)

/-- The flags of a node. -/
def flagsOf (p : Program) (id : String) : Option (Bool × Bool) := (p.node? id).map Node.flags

theorem shapeOf_eq_coreOf (p : Program) (id : String) :
    p.shapeOf id = (p.coreOf id).map (·.operation) := by
  rw [shapeOf, coreOf, Option.map_map]
  rfl

theorem planOf_eq_coreOf (p : Program) (id : String) :
    p.planOf id = (p.coreOf id).bind (·.plan) := by
  rw [planOf, coreOf, Option.bind_map]
  rfl

theorem flagsOf_eq_coreOf (p : Program) (id : String) :
    p.flagsOf id = (p.coreOf id).map Node.flags := by
  rw [flagsOf, coreOf, Option.map_map]
  rfl

theorem isConstant_eq_flagsOf (p : Program) (id : String) :
    p.isConstant id = ((p.flagsOf id).map Prod.fst).getD false := by
  rw [isConstant, flagsOf]
  cases p.node? id <;> rfl

theorem taskOf_eq_coreOf (p : Program) (id : String) :
    p.taskOf id = (p.coreOf id).map Node.task := by
  rw [taskOf, coreOf, Option.map_map]
  exact congrArg (fun f => (p.node? id).map f) (funext fun n => n.task_core.symm)

theorem shapeOf_eq_taskOf (p : Program) (id : String) :
    p.shapeOf id = (p.taskOf id).map Task.operation := by
  rw [taskOf, Option.map_map]
  rfl

/-- The outline of a node is its task under its id. -/
theorem outlineOf_eq_taskOf (p : Program) (id : String) :
    p.outlineOf id = (p.taskOf id).map fun t => ⟨id, t.padding, t.operation⟩ := by
  rw [outlineOf, taskOf, Option.map_map]
  cases hn : p.node? id with
  | none => rfl
  | some n => exact congrArg some (congrArg (Primitive.mk · _ _) (id_of_node? hn))

theorem taskOf_of_node? (h : p.node? id = some n) : p.taskOf id = some n.task := by
  rw [taskOf, h, Option.map_some]

theorem contains_eq_isSome_taskOf (p : Program) (id : String) :
    p.contains id = (p.taskOf id).isSome := by
  rw [contains, taskOf, Option.isSome_map]

theorem taskOf_of_not_contains {id : String} (h : ¬ p.contains id = true) :
    p.taskOf id = none := by
  rw [taskOf, node?_eq_none.mpr h, Option.map_none]

theorem contains_eq_isSome_shapeOf (p : Program) (id : String) :
    p.contains id = (p.shapeOf id).isSome := by
  rw [contains, shapeOf, Option.isSome_map]

theorem shapeOf_of_not_contains {id : String} (h : ¬ p.contains id = true) :
    p.shapeOf id = none := by
  rw [shapeOf, node?_eq_none.mpr h, Option.map_none]

/-- The operation of a node runs a kernel. -/
def runsKernelAt (p : Program) (id : String) : Prop :=
  ∃ op, p.shapeOf id = some op ∧ op.kind.runsKernel = true

/-- The node is a reorder. -/
def isReorder (p : Program) (id : String) : Prop := ∃ r, p.shapeOf id = some (.reorder r)

theorem isReorder_iff_of_node? (hn : p.node? id = some n) :
    p.isReorder id ↔ ∃ r, n.operation = .reorder r := by
  rw [isReorder, shapeOf, hn, Option.map_some]
  constructor
  · rintro ⟨r, hr⟩
    have hk := congrArg Operation.kind (Option.some.inj hr)
    rw [Operation.kind_shape] at hk
    cases hop : n.operation with
    | reorder r => exact ⟨r, rfl⟩
    | _ =>
      rw [hop] at hk
      cases hk
  · rintro ⟨r, hr⟩
    exact ⟨{ r with input := "" }, congrArg (fun op : Operation => some op.shape) hr⟩

theorem isReorder_of_node? (hn : p.node? id = some n) (hk : n.kind = .reorder) :
    p.isReorder id := by
  obtain ⟨r, hr⟩ := Operation.shape_of_kind_reorder hk
  exact ⟨r, by rw [shapeOf, hn, Option.map_some, hr]⟩

theorem contains_of_isReorder (h : p.isReorder id) : p.contains id = true := by
  obtain ⟨r, hr⟩ := h
  rw [contains_eq_isSome_shapeOf, hr, Option.isSome_some]

/-- The node is a reorder that subtracts nothing. -/
def isCopy (p : Program) (id : String) : Prop :=
  ∃ r, p.shapeOf id = some (.reorder r) ∧ r.subtract = []

theorem isCopy.isReorder (h : p.isCopy id) : p.isReorder id := by
  obtain ⟨r, hr, -⟩ := h
  exact ⟨r, hr⟩

theorem isCopy_of_node? {r : Reorder} (hn : p.node? id = some n) (hop : n.operation = .reorder r)
    (hr : r.subtract.isEmpty = true) : p.isCopy id := by
  refine ⟨{ r with input := "" }, ?_, List.isEmpty_iff.mp hr⟩
  rw [shapeOf, hn, Option.map_some, hop]
  rfl

theorem Framed.tasks (h : Framed p q) : q.taskOf = p.taskOf := funext fun j => by
  rw [taskOf_eq_coreOf, taskOf_eq_coreOf, h.core]

/-- `q` is the same graph as `p`, linked or not: marks, flags, caches and plans may differ. -/
structure SameWiring (p q : Program) : Prop where
  ids : q.ids = p.ids
  deps : q.depsOf = p.depsOf
  users : q.usersOf = p.usersOf
  args : q.argsOf = p.argsOf
  tasks : q.taskOf = p.taskOf
  order : q.order = p.order

/-- `q` is the same graph as `p`: marks, flags, caches, plans and order may differ. -/
structure SameGraph (p q : Program) : Prop where
  kept : Kept p q
  ids : q.ids = p.ids
  deps : q.depsOf = p.depsOf
  users : q.usersOf = p.usersOf
  args : q.argsOf = p.argsOf
  tasks : q.taskOf = p.taskOf

/-- `q` is the same graph as `p`, but for marks, flags and caches. -/
structure Remarked (p q : Program) : Prop extends SameGraph p q where
  plans : q.planOf = p.planOf
  order : q.order = p.order

/-- `q` is the same graph as `p` with the same flags, but for marks and caches. -/
structure Published (p q : Program) : Prop extends Remarked p q where
  flags : q.flagsOf = p.flagsOf

/-- `q` is the same graph as `p` with the same outputs, but for flags and caches. -/
structure Reflagged (p q : Program) : Prop extends Remarked p q where
  marks : q.isMarked = p.isMarked

/-- `q` is the same graph as `p` with the same outputs and flags, but for the frontier and caches. -/
structure Touched (p q : Program) : Prop extends Reflagged p q where
  flags : q.flagsOf = p.flagsOf

section Same

variable {r : Program}

theorem SameWiring.refl (p : Program) : SameWiring p p := ⟨rfl, rfl, rfl, rfl, rfl, rfl⟩

theorem SameWiring.trans (h : SameWiring p q) (h' : SameWiring q r) : SameWiring p r :=
  ⟨h'.ids.trans h.ids, h'.deps.trans h.deps, h'.users.trans h.users, h'.args.trans h.args,
    h'.tasks.trans h.tasks, h'.order.trans h.order⟩

theorem SameWiring.contains (h : SameWiring p q) : q.contains = p.contains := contains_congr h.ids

theorem SameGraph.refl (h : p.Linked) : SameGraph p p := ⟨.refl h, rfl, rfl, rfl, rfl, rfl⟩

theorem SameGraph.trans (h : SameGraph p q) (h' : SameGraph q r) : SameGraph p r :=
  ⟨h.kept.trans h'.kept, h'.ids.trans h.ids, h'.deps.trans h.deps, h'.users.trans h.users,
    h'.args.trans h.args, h'.tasks.trans h.tasks⟩

theorem SameGraph.shapes (h : SameGraph p q) : q.shapeOf = p.shapeOf := funext fun j => by
  rw [shapeOf_eq_taskOf, h.tasks, shapeOf_eq_taskOf]

theorem SameGraph.contains (h : SameGraph p q) : q.contains = p.contains := contains_congr h.ids

theorem Remarked.refl (h : p.Linked) : Remarked p p := ⟨.refl h, rfl, rfl⟩

theorem Remarked.trans (h : Remarked p q) (h' : Remarked q r) : Remarked p r :=
  ⟨h.toSameGraph.trans h'.toSameGraph, h'.plans.trans h.plans, h'.order.trans h.order⟩

theorem Published.refl (h : p.Linked) : Published p p := ⟨.refl h, rfl⟩

theorem Published.trans (h : Published p q) (h' : Published q r) : Published p r :=
  ⟨h.toRemarked.trans h'.toRemarked, h'.flags.trans h.flags⟩

theorem Reflagged.refl (h : p.Linked) : Reflagged p p := ⟨.refl h, rfl⟩

theorem Reflagged.trans (h : Reflagged p q) (h' : Reflagged q r) : Reflagged p r :=
  ⟨h.toRemarked.trans h'.toRemarked, h'.marks.trans h.marks⟩

theorem Touched.refl (h : p.Linked) : Touched p p := ⟨.refl h, rfl⟩

theorem Touched.trans (h : Touched p q) (h' : Touched q r) : Touched p r :=
  ⟨h.toReflagged.trans h'.toReflagged, h'.flags.trans h.flags⟩

theorem Touched.published (h : Touched p q) : Published p q := ⟨h.toRemarked, h.flags⟩

end Same

end Program

/-- Two nodes that differ in marks, flags and plan only. -/
structure Node.SamePlace (m n : Node) : Prop where
  primitive : m.primitive = n.primitive
  dependencies : m.dependencies = n.dependencies
  users : m.users = n.users
  layout : m.layout = n.layout
  absorbed : m.absorbed = n.absorbed

/-- Two nodes that differ in marks and flags only. -/
structure Node.SameWork (m n : Node) : Prop extends Node.SamePlace m n where
  plan : m.plan = n.plan

namespace Node

variable {m n : Node}

theorem SamePlace.id (h : SamePlace m n) : m.id = n.id := congrArg Primitive.id h.primitive

theorem SamePlace.operation (h : SamePlace m n) : m.operation = n.operation :=
  congrArg Primitive.operation h.primitive

theorem SamePlace.outline (h : SamePlace m n) : m.outline = n.outline :=
  congrArg (fun p : Primitive => (⟨p.id, p.padding, p.operation.shape⟩ : Primitive)) h.primitive

theorem SamePlace.task (h : SamePlace m n) : m.task = n.task := by
  rw [Node.task, Node.task, h.operation, h.absorbed]
  exact congrArg (fun p : Primitive => (⟨p.padding, n.operation.shape, n.absorbed⟩ : Task))
    h.primitive

theorem SamePlace.ite (h : SamePlace m n) (c : Prop) [Decidable c] :
    SamePlace (if c then m else n) n := by
  split
  · exact h
  · exact ⟨rfl, rfl, rfl, rfl, rfl⟩

theorem SameWork.ite (h : SameWork m n) (c : Prop) [Decidable c] :
    SameWork (if c then m else n) n := by
  split
  · exact h
  · exact ⟨⟨rfl, rfl, rfl, rfl, rfl⟩, rfl⟩

end Node

namespace Program

variable {p : Program} {f : Node → Node}

/-- The program with another list of outputs. -/
def setOutputs (p : Program) (outputs : List String) : Program := { p with outputs }

section Work

variable (hf : ∀ n, Node.SamePlace (f n) n)
include hf

theorem depsOf_updateAll : (p.updateAll f).depsOf = p.depsOf := funext fun j =>
  view_updateAll Node.depsIn
    (fun n => (hf n).id) (fun n => (hf n).dependencies) j

theorem usersOf_updateAll : (p.updateAll f).usersOf = p.usersOf := funext fun j =>
  view_updateAll Node.usersIn
    (fun n => (hf n).id) (fun n => (hf n).users) j

theorem argsOf_updateAll : (p.updateAll f).argsOf = p.argsOf := funext fun j =>
  view_updateAll Node.argsIn
    (fun n => (hf n).id) (fun n => congrArg Operation.arguments (hf n).operation) j

theorem taskOf_updateAll : (p.updateAll f).taskOf = p.taskOf := funext fun j =>
  view_updateAll (Option.map Node.task) (fun n => (hf n).id)
    (fun n => congrArg some (hf n).task) j

theorem sameWiring_updateAll : SameWiring p (p.updateAll f) :=
  ⟨ids_updateAll fun n => (hf n).id, depsOf_updateAll hf, usersOf_updateAll hf, argsOf_updateAll hf,
    taskOf_updateAll hf, rfl⟩

theorem sameWiring_update (id : String) : SameWiring p (p.update id f) :=
  sameWiring_updateAll (f := fun n => if n.id = id then f n else n) fun n => (hf n).ite (n.id = id)

theorem linked_updateAll (h : p.Linked) : (p.updateAll f).Linked :=
  h.of_views (ids_updateAll fun n => (hf n).id) (depsOf_updateAll hf) (usersOf_updateAll hf) rfl
    h.order_nodup h.order_contains

theorem coherent_updateAll (h : p.Coherent) : (p.updateAll f).Coherent := by
  have hlayouts : (p.updateAll f).layoutOf = p.layoutOf := funext fun j =>
    view_updateAll (fun o => o.bind Node.layout) (fun n => (hf n).id) (fun n => (hf n).layout) j
  refine h.frame (fun _ => True) rfl (fun _ _ _ _ => trivial) (fun i _ => ?_)
    (fun i _ => congrFun (depsOf_updateAll hf) i) fun i l hl => ⟨trivial, hlayouts ▸ hl⟩
  exact view_updateAll (Option.map Node.outline) (fun n => (hf n).id)
    (fun n => congrArg some (hf n).outline) i

/-- **Marks and plans may change**: the graph and its layouts do not. -/
theorem sameGraph_setOutputs_updateAll (h : p.Linked) (outputs : List String)
    (hw : p.WellFormed → outputs.Nodup ∧
      ∀ id, id ∈ outputs ↔ (p.updateAll f).isMarked id = true) :
    SameGraph p ((p.updateAll f).setOutputs outputs) := by
  have hl := linked_updateAll hf h
  have hl' : ((p.updateAll f).setOutputs outputs).Linked :=
    hl.of_views rfl rfl rfl rfl hl.order_nodup hl.order_contains
  exact ⟨⟨hl', fun hc => (coherent_updateAll hf hc).congr rfl rfl,
    fun hp => ⟨hl', (hw hp).1, (hw hp).2⟩, rfl⟩, ids_updateAll fun n => (hf n).id,
    depsOf_updateAll hf, usersOf_updateAll hf, argsOf_updateAll hf, taskOf_updateAll hf⟩

theorem isMarked_updateAll (marks : ∀ n, (f n).isOutput = n.isOutput) :
    (p.updateAll f).isMarked = p.isMarked := funext fun j =>
  view_updateAll Node.markIn (fun n => (hf n).id) marks j

theorem flagsOf_updateAll (flags : ∀ n, (f n).flags = n.flags) :
    (p.updateAll f).flagsOf = p.flagsOf := funext fun j =>
  view_updateAll (Option.map Node.flags) (fun n => (hf n).id) (fun n => congrArg some (flags n)) j

theorem sameGraph_updateAll (h : p.Linked) (marks : ∀ n, (f n).isOutput = n.isOutput) :
    SameGraph p (p.updateAll f) :=
  sameGraph_setOutputs_updateAll hf h p.outputs fun hw =>
    ⟨hw.outputs_nodup, fun id => by rw [hw.mem_outputs, isMarked_updateAll hf marks]⟩

end Work

section Marks

variable (hf : ∀ n, Node.SameWork (f n) n)
include hf

theorem planOf_updateAll : (p.updateAll f).planOf = p.planOf := funext fun j =>
  view_updateAll (fun o => o.bind Node.plan) (fun n => (hf n).id) (fun n => (hf n).plan) j

theorem published_setOutputs_updateAll (h : p.Linked) (flags : ∀ n, (f n).flags = n.flags)
    (outputs : List String) (hw : p.WellFormed → outputs.Nodup ∧
      ∀ id, id ∈ outputs ↔ (p.updateAll f).isMarked id = true) :
    Published p ((p.updateAll f).setOutputs outputs) :=
  ⟨⟨sameGraph_setOutputs_updateAll (fun n => (hf n).toSamePlace) h outputs hw,
    planOf_updateAll hf, rfl⟩, flagsOf_updateAll (fun n => (hf n).toSamePlace) flags⟩

theorem reflagged_updateAll (h : p.Linked) (marks : ∀ n, (f n).isOutput = n.isOutput) :
    Reflagged p (p.updateAll f) :=
  ⟨⟨sameGraph_updateAll (fun n => (hf n).toSamePlace) h marks, planOf_updateAll hf, rfl⟩,
    isMarked_updateAll (fun n => (hf n).toSamePlace) marks⟩

theorem reflagged_update (h : p.Linked) (id : String)
    (marks : ∀ n, (f n).isOutput = n.isOutput) : Reflagged p (p.update id f) := by
  refine reflagged_updateAll (f := fun n => if n.id = id then f n else n)
    (fun n => (hf n).ite (n.id = id)) h fun n => ?_
  split
  · exact marks n
  · rfl

end Marks

/-- The program with another order. -/
def setOrder (p : Program) (order : Order) : Program := { p with order }

/-- **Another order of nodes changes nothing else.** -/
theorem kept_setOrder (h : p.Linked) {order : Order} (nodup : order.ids.Nodup)
    (mem : ∀ id ∈ order.ids, p.contains id = true) : Kept p (p.setOrder order) := by
  have hl : (p.setOrder order).Linked := h.of_views rfl rfl rfl rfl nodup mem
  exact ⟨hl, fun hc => hc.congr rfl rfl, fun hw => hl.wellFormed hw rfl fun _ => rfl, rfl⟩

end Program

/-- The outputs that are asked for: every endpoint of the order if none is named. -/
def Program.requestedOutputs (p : Program) (requested : List String) : List String :=
  if requested.isEmpty then
    p.order.ids.filter fun id => p.contains id && (p.usersOf id).isEmpty
  else requested

/-! ## The edits -/

namespace Edit

open Program

variable {p : Program} {id : String}

/-- **Creating** gives the node that is there, or a new one. -/
theorem create_effect (prim : Primitive) {bad : CompileError → Program → Prop} :
    Ends (create prim)
      (fun n q => (p.node? prim.id = some n ∧ q = p) ∨
        (¬ p.contains prim.id = true ∧ n = Node.ofPrimitive prim ∧ q = p.withNew prim)) bad p := by
  rw [create, ends_bind, ends_get]
  cases hn : p.node? prim.id with
  | some n => exact Or.inl ⟨rfl, rfl⟩
  | none => exact Or.inr ⟨node?_eq_none.mp hn, rfl, rfl⟩

/-- Changing marks, flags and plan of a node, linked or not. -/
theorem sameWiring_change (id : String) {f : Node → Node} (hf : ∀ n, Node.SamePlace (f n) n) :
    Ends (change id f) (fun _ q => SameWiring p q) (fun _ _ => ¬ p.contains id = true) p := by
  rw [ends_change]
  exact ⟨fun _ _ => sameWiring_update hf id, node?_eq_none.mp⟩

theorem sameWiring_markOutput (id : String) :
    Ends (markOutput id) (fun _ q => SameWiring p q) (fun _ _ => ¬ p.contains id = true) p := by
  rw [markOutput, ends_bind]
  refine (sameWiring_change id (by exact fun _ => ⟨rfl, rfl, rfl, rfl, rfl⟩)).imp_good fun _ q hq => ?_
  rw [ends_modify]
  split
  · exact hq
  · exact hq.trans ⟨rfl, rfl, rfl, rfl, rfl, rfl⟩

/-- What is left when a node is removed. -/
structure Removed (p q : Program) (id : String) : Prop where
  kept : Kept p q
  contains : p.contains id = true
  core : ∀ j, q.coreOf j = if j = id then none else p.coreOf j
  args : ∀ j, q.argsOf j = if j = id then [] else p.argsOf j
  deps : ∀ j, q.depsOf j = if j = id then [] else (p.depsOf j).filter (· ≠ id)
  thinned : Thinned p q []
  order : q.order.ids = p.order.ids.filter (· ≠ id)
  log : q.removed = p.removed ++ [id]

/-- **Removing** a node takes it out of the graph and of every list of dependencies. -/
theorem remove_effect (h : p.Linked) :
    Ends (remove id) (fun _ q => Removed p q id)
      (fun e q => e = .missingNode id ∧ p.node? id = none ∧ q = p) p := by
  rw [remove, ends_bind]
  refine (isolate_effect h).imp_good fun _ q hq => ?_
  obtain ⟨hrew, hargs, hc, hthin, hdeps⟩ := hq
  rw [ends_modify]
  change Removed p (q.without id) id
  refine ⟨hrew.kept.trans (kept_without hrew.linked ?_ fun u => ?_), hc, fun j => ?_, fun j => ?_,
    fun j => ?_, fun j hj => ?_, ?_, congrArg (· ++ [id]) hrew.removed⟩
  · rw [hdeps, if_pos rfl]
  · rw [hdeps]
    split <;> simp
  · rw [coreOf_without, hrew.core]
  · rw [argsOf_without, hargs]
  · rw [depsOf_without, hdeps]
    split <;> rfl
  · rw [usersOf_without]
    split
    · exact List.nil_sublist _
    · exact hthin j hj
  · change q.order.ids.filter _ = _
    rw [hrew.order]

/-- `q` is `p` without a node that nothing reads, linked or not. -/
structure Shed (p q : Program) (id : String) : Prop where
  tasks : ∀ j, q.taskOf j = if j = id then none else p.taskOf j
  deps : ∀ j, q.depsOf j = if j = id then [] else p.depsOf j
  args : ∀ j, q.argsOf j = if j = id then [] else p.argsOf j

theorem remove_frame (hc : p.contains id = true)
    (husers : ∀ u ∈ p.usersOf id, p.contains u = true) (hread : ∀ u, id ∉ p.depsOf u) :
    Ends (remove id) (fun _ q => Shed p q id) (fun _ _ => False) p := by
  rw [remove, ends_bind]
  refine (isolate_frame hc husers hread).imp_good fun _ q hq => ?_
  obtain ⟨hframe, hargs, hdeps⟩ := hq
  rw [ends_modify]
  change Shed p (q.without id) id
  refine ⟨fun j => ?_, fun j => ?_, fun j => ?_⟩
  · rw [taskOf_eq_coreOf, coreOf_without, hframe.core, taskOf_eq_coreOf]
    split <;> rfl
  · rw [depsOf_without]
    split
    case isTrue => rfl
    case isFalse hj => exact hdeps j hj
  · rw [argsOf_without, hargs]

/-- **Removing a node without edges** takes what nobody reads, or nothing. -/
theorem removeIfDangling_outcome (h : p.Linked) :
    Ends (removeIfDangling id)
      (fun done q => p.contains id = true ∧
        if done then p.usersOf id = [] ∧ Removed p q id else q = p)
      (fun e q => e.closes = false ∧ q = p ∧ ¬ p.contains id = true) p := by
  rw [removeIfDangling, ends_bind, ends_node]
  refine ⟨fun n hn => ?_, fun hnone => ⟨rfl, rfl, node?_eq_none.mp hnone⟩⟩
  have hc := contains_of_node? hn
  split
  · exact ⟨hc, rfl⟩
  case isFalse hfree =>
    have husers : p.usersOf id = [] := by
      rw [usersOf_of_node? hn]
      simp only [Bool.or_eq_true, not_or] at hfree
      simpa using hfree.1.1
    rw [ends_bind]
    exact (remove_effect h).imp (fun _ q hq => ⟨hc, husers, hq⟩) fun e q hq =>
      absurd hc (node?_eq_none.mp hq.2.1)

theorem removeIfDangling_effect (h : p.Linked) :
    Ends (removeIfDangling id) (fun _ q => Kept p q) (fun e q => e.closes = false ∧ q = p) p := by
  refine (removeIfDangling_outcome h).imp (fun done q hq => ?_) fun e q hq => ⟨hq.1, hq.2.1⟩
  cases done with
  | false => exact hq.2.symm ▸ .refl h
  | true => exact hq.2.2.kept

theorem isMarked_update_output (hc : p.contains id = true) (j : String) :
    (p.update id fun n => { n with isOutput := true }).isMarked j
      = (decide (j = id) || p.isMarked j) := by
  obtain ⟨n, hn⟩ := contains_iff.mp hc
  rw [isMarked, node?_update (f := fun n : Node => { n with isOutput := true }) (fun _ => rfl)]
  by_cases hj : j = id
  · rw [if_pos hj, hj, hn]
    simp
  · rw [if_neg hj]
    simp [hj, isMarked]

/-- **Marking an output** keeps the list of outputs in step. -/
theorem markOutput_effect (h : p.Linked) :
    Ends (markOutput id)
      (fun _ q => Published p q ∧ ∀ j, q.isMarked j = (decide (j = id) || p.isMarked j))
      (fun e q => e.closes = false ∧ q = p ∧ ¬ p.contains id = true) p := by
  rw [markOutput, ends_bind, ends_change]
  refine ⟨fun n hn => ?_, fun hnone => ⟨rfl, rfl, node?_eq_none.mp hnone⟩⟩
  have hmark := isMarked_update_output (contains_of_node? hn)
  have hwork : ∀ n : Node, Node.SameWork
      (if n.id = id then { n with isOutput := true } else n) n := fun n =>
    Node.SameWork.ite (m := { n with isOutput := true }) (n := n) ⟨⟨rfl, rfl, rfl, rfl, rfl⟩, rfl⟩ _
  have hflags : ∀ n : Node, (if n.id = id then { n with isOutput := true } else n).flags = n.flags :=
    fun n => by split <;> rfl
  rw [ends_modify]
  split
  case isTrue hin =>
    refine ⟨published_setOutputs_updateAll hwork h hflags p.outputs fun hw =>
      ⟨hw.outputs_nodup, fun j => ?_⟩, hmark⟩
    have hid : p.isMarked id = true := (hw.mem_outputs id).mp (List.contains_iff_mem.mp hin)
    refine (hw.mem_outputs j).trans ?_
    change _ ↔ (p.update id _).isMarked j = true
    rw [hmark]
    by_cases hj : j = id <;> simp [hj, hid]
  case isFalse hin =>
    have hni : id ∉ p.outputs := fun hmem => hin (List.contains_iff_mem.mpr hmem)
    refine ⟨published_setOutputs_updateAll hwork h hflags (p.outputs ++ [id]) fun hw =>
      ⟨List.concat_eq_append ▸ hw.outputs_nodup.concat hni, fun j => ?_⟩, hmark⟩
    change _ ↔ (p.update id _).isMarked j = true
    rw [hmark, List.mem_append, List.mem_singleton, hw.mem_outputs, Bool.or_eq_true,
      decide_eq_true_eq, or_comm]

/-- The program without outputs. -/
def cleared (p : Program) : Program :=
  (p.updateAll fun n => { n with isOutput := false }).setOutputs []

theorem node?_cleared (p : Program) (j : String) :
    (cleared p).node? j = (p.node? j).map fun n => { n with isOutput := false } :=
  node?_updateAll (f := fun n : Node => { n with isOutput := false }) (fun _ => rfl) j

theorem isMarked_cleared (p : Program) (j : String) : (cleared p).isMarked j = false := by
  rw [isMarked, node?_cleared]
  cases p.node? j <;> rfl

theorem published_cleared (h : p.Linked) : Published p (cleared p) :=
  published_setOutputs_updateAll (f := fun n : Node => { n with isOutput := false })
    (fun _ => ⟨⟨rfl, rfl, rfl, rfl, rfl⟩, rfl⟩) h (fun _ => rfl) [] fun _ =>
      ⟨List.nodup_nil, fun j => ⟨fun hj => absurd hj List.not_mem_nil, fun hj =>
        absurd hj (Bool.eq_false_iff.mp (isMarked_cleared p j))⟩⟩

/-- The outputs that are asked for are those of the program without outputs. -/
theorem requestedOutputs_eq (p : Program) (requested : List String) :
    p.requestedOutputs requested = if requested.isEmpty then (cleared p).order.ids.filter fun id =>
      match (cleared p).node? id with
      | some n => n.isEndpoint
      | none => false
    else requested := by
  rw [requestedOutputs]
  split
  · refine List.filter_congr fun id _ => ?_
    have hcleared := node?_cleared p id
    split
    case h_1 n hn =>
      obtain ⟨m, hm, rfl⟩ := Option.map_eq_some_iff.mp (hcleared.symm.trans hn)
      rw [contains_of_node? hm, usersOf_of_node? hm]
      rfl
    case h_2 hn =>
      rw [contains, Option.map_eq_none_iff.mp (hcleared.symm.trans hn)]
      rfl
  · rfl

/-- **Setting the outputs** clears every mark and sets those that are asked for. -/
theorem setOutputs_effect (h : p.Linked) (requested : List String) :
    Ends (setOutputs requested)
      (fun _ q => Published p q ∧ ∀ j, q.isMarked j = true ↔ j ∈ p.requestedOutputs requested)
      (fun e q => e.closes = false ∧ Published p q) p := by
  rw [setOutputs, ends_bind, ends_modify, ends_bind, ends_get]
  dsimp only
  rw [ends_bind]
  generalize hasked : (if requested.isEmpty = true then _ else requested) = asked
  rw [(requestedOutputs_eq p requested).trans hasked]
  -- what was marked so far stands before what is still to come
  refine ends_forIn (fun rest q => Published p q ∧ ∃ done, asked = done ++ rest ∧
      ∀ j, q.isMarked j = true ↔ j ∈ done) (fun id rest q hq => ?_) (fun q hq => ?_) _ (cleared p)
    ⟨published_cleared h, [], rfl, fun j => by rw [isMarked_cleared]; simp⟩
  · obtain ⟨hsame, done, rfl, hmarks⟩ := hq
    rw [ends_bind]
    refine (markOutput_effect hsame.kept.linked).imp
      (fun _ r hr => ⟨rfl, hsame.trans hr.1, done ++ [id], by simp, fun j => ?_⟩)
      fun e r hr => ⟨hr.1, hr.2.1 ▸ hsame⟩
    rw [hr.2, Bool.or_eq_true, decide_eq_true_eq, hmarks, List.mem_append, List.mem_singleton,
      or_comm]
  · obtain ⟨hsame, done, rfl, hmarks⟩ := hq
    rw [List.append_nil]
    exact ⟨hsame, hmarks⟩

end Edit

end NetPlan

import NetPlan.Proofs.Graph.Nodes

/-!
# Proofs/Graph/Rework — other work for a node

A node may get another padding, another operation with the same arguments, another plan.  Then the
layouts downstream are stale until the node is invalidated: `Reworked p q id g` says that `q` is `p`
with one task so changed and no cache added, and `Reworked.kept` that an invalidation makes it whole
again.
-/

namespace NetPlan

/-- Two nodes that differ in what edges do not show; the first has no plan if the second has none. -/
structure Node.SameEdges (m n : Node) : Prop where
  id : m.id = n.id
  dependencies : m.dependencies = n.dependencies
  users : m.users = n.users
  arguments : m.operation.arguments = n.operation.arguments
  isOutput : m.isOutput = n.isOutput
  flags : m.flags = n.flags
  unplanned : n.plan = none → m.plan = none

namespace Program

variable {p q r : Program} {id j : String} {f : Node → Node} {g g' : Task → Task}

/-- `q` is `p` with other work for one node; its task changed by `g`. -/
structure Reworked (p q : Program) (id : String) (g : Task → Task) : Prop where
  linked : q.Linked
  wellFormed : p.WellFormed → q.WellFormed
  behaviours : q.behaviours = p.behaviours
  ids : q.ids = p.ids
  deps : q.depsOf = p.depsOf
  args : q.argsOf = p.argsOf
  order : q.order = p.order
  tasks : ∀ j, q.taskOf j = if j = id then (p.taskOf j).map g else p.taskOf j
  plans : ∀ j, j ≠ id → q.planOf j = p.planOf j
  unplanned : p.planOf id = none → q.planOf id = none
  marks : q.isMarked = p.isMarked
  flags : q.flagsOf = p.flagsOf
  caches : ∀ j l, j ≠ id → q.layoutOf j = some l → p.layoutOf j = some l

namespace Reworked

theorem refl (h : p.Linked) (id : String) : Reworked p p id fun t => t where
  linked := h
  wellFormed hw := hw
  behaviours := rfl
  ids := rfl
  deps := rfl
  args := rfl
  order := rfl
  tasks j := by rw [Option.map_id', ite_self]
  plans _ _ := rfl
  unplanned hp := hp
  marks := rfl
  flags := rfl
  caches _ _ _ hl := hl

theorem trans (h : Reworked p q id g) (h' : Reworked q r id g') :
    Reworked p r id fun t => g' (g t) where
  linked := h'.linked
  wellFormed hw := h'.wellFormed (h.wellFormed hw)
  behaviours := h'.behaviours.trans h.behaviours
  ids := h'.ids.trans h.ids
  deps := h'.deps.trans h.deps
  args := h'.args.trans h.args
  order := h'.order.trans h.order
  tasks j := by
    rw [h'.tasks, h.tasks]
    split
    · rw [Option.map_map]
      rfl
    · rfl
  plans j hj := (h'.plans j hj).trans (h.plans j hj)
  unplanned hp := h'.unplanned (h.unplanned hp)
  marks := h'.marks.trans h.marks
  flags := h'.flags.trans h.flags
  caches j l hj hl := h.caches j l hj (h'.caches j l hj hl)

theorem contains (h : Reworked p q id g) : q.contains = p.contains := contains_congr h.ids

theorem shapes (h : Reworked p q id g) {k : Operation → Operation}
    (hk : ∀ t, (g t).operation = k t.operation) (j : String) :
    q.shapeOf j = if j = id then (p.shapeOf j).map k else p.shapeOf j := by
  rw [shapeOf_eq_taskOf, h.tasks, shapeOf_eq_taskOf]
  split
  · rw [Option.map_map, Option.map_map]
    exact congrArg (fun k => (p.taskOf j).map k) (funext hk)
  · rfl

/-- Other work of the same kind. -/
theorem exists_kind (h : Reworked p q id g) (hg : ∀ t, (g t).operation.kind = t.operation.kind)
    {op : Operation} (hop : q.shapeOf j = some op) :
    ∃ op', p.shapeOf j = some op' ∧ op'.kind = op.kind := by
  rw [shapeOf_eq_taskOf, h.tasks] at hop
  split at hop
  · rw [Option.map_map] at hop
    obtain ⟨t, ht, rfl⟩ := Option.map_eq_some_iff.mp hop
    exact ⟨t.operation, by rw [shapeOf_eq_taskOf, ht, Option.map_some], (hg t).symm⟩
  · exact ⟨op, by rw [shapeOf_eq_taskOf, hop], rfl⟩

theorem outlines (h : Reworked p q id g) (hj : j ≠ id) : q.outlineOf j = p.outlineOf j := by
  rw [outlineOf_eq_taskOf, h.tasks, if_neg hj, outlineOf_eq_taskOf]

/-- **An invalidation makes a reworked program whole.** -/
theorem kept (h : Reworked p q id g) : Kept p (q.invalidate id) := by
  have hl : (q.invalidate id).Linked := h.linked.of_views (ids_invalidate q id)
    (depsOf_invalidate q id) (usersOf_invalidate q id) rfl h.linked.order_nodup
    h.linked.order_contains
  refine ⟨hl, fun hc => ?_, fun hw => hl.wellFormed (h.wellFormed hw) rfl fun j => ?_,
    h.behaviours⟩
  · exact hc.invalidate id h.linked.ids_nodup (fun d i hd => (h.linked.edges d i).mp hd)
      h.behaviours (fun _ => h.outlines) (fun i _ => congrFun h.deps i) h.caches
  · rw [isMarked_eq_coreOf, coreOf_invalidate, ← isMarked_eq_coreOf]

end Reworked

theorem view_update_of_ne {α : Type} (v : Option Node → α) (hf : ∀ n, (f n).id = n.id)
    (hj : j ≠ id) : v ((p.update id f).node? j) = v (p.node? j) := by
  rw [node?_update hf, if_neg hj]

theorem reworked_update (h : p.Linked) (hf : ∀ n, Node.SameEdges (f n) n)
    (hg : ∀ n, (f n).task = g n.task) : Reworked p (p.update id f) id g := by
  have hid := fun n => (hf n).id
  have hdeps : (p.update id f).depsOf = p.depsOf :=
    depsOf_update_same hid fun n => (hf n).dependencies
  have hmarks : (p.update id f).isMarked = p.isMarked := funext fun j =>
    view_update Node.markIn hid
      (fun n => (hf n).isOutput) id j
  have hl : (p.update id f).Linked := h.of_views (ids_update hid id) hdeps
    (usersOf_update_same hid fun n => (hf n).users) rfl h.order_nodup h.order_contains
  refine ⟨hl, fun hw => hl.wellFormed hw rfl fun j => congrFun hmarks j, rfl, ids_update hid id,
    hdeps, funext fun j => ?_, rfl, fun j => ?_, fun j hj => ?_, fun hp => ?_, hmarks,
    funext fun j => ?_, fun j l hj hl => ?_⟩
  · exact view_update Node.argsIn hid
      (fun n => (hf n).arguments) id j
  · rw [taskOf, node?_update hid, taskOf]
    split
    · rw [Option.map_map, Option.map_map]
      exact congrArg (fun k => (p.node? j).map k) (funext hg)
    · rfl
  · exact view_update_of_ne (fun o => o.bind Node.plan) hid hj
  · rw [planOf, node?_update hid, if_pos rfl]
    rw [planOf] at hp
    cases hn : p.node? id with
    | none => rfl
    | some n =>
      rw [hn] at hp
      exact (hf n).unplanned hp
  · exact view_update (Option.map Node.flags) hid (fun n => congrArg some (hf n).flags) id j
  · exact (view_update_of_ne (fun o => o.bind Node.layout) hid hj).symm.trans hl

theorem reworked_invalidate (h : p.Linked) (id : String) :
    Reworked p (p.invalidate id) id fun t => t where
  linked := h.of_views (ids_invalidate p id) (depsOf_invalidate p id) (usersOf_invalidate p id) rfl
    h.order_nodup h.order_contains
  wellFormed hw := ((Reworked.refl h id).kept).wellFormed hw
  behaviours := rfl
  ids := ids_invalidate p id
  deps := depsOf_invalidate p id
  args := argsOf_invalidate p id
  order := rfl
  tasks j := by
    rw [taskOf_eq_coreOf, coreOf_invalidate, ← taskOf_eq_coreOf, Option.map_id', ite_self]
  plans j _ := by rw [planOf_eq_coreOf, coreOf_invalidate, ← planOf_eq_coreOf]
  unplanned hp := by rw [planOf_eq_coreOf, coreOf_invalidate, ← planOf_eq_coreOf, hp]
  marks := funext fun j => by rw [isMarked_eq_coreOf, coreOf_invalidate, ← isMarked_eq_coreOf]
  flags := funext fun j => by rw [flagsOf_eq_coreOf, coreOf_invalidate, ← flagsOf_eq_coreOf]
  caches j l _ hl := by
    rw [layoutOf_invalidate] at hl
    split at hl
    · cases hl
    · exact hl

end Program

namespace Edit

open Program

variable {p : Program} {id : String} {g : Task → Task}

/-- Changing the work of a node. -/
theorem rework_change (h : p.Linked) (f : Node → Node) (hf : ∀ n, Node.SameEdges (f n) n)
    (hg : ∀ n, (f n).task = g n.task) :
    Ends (change id f) (fun _ q => Reworked p q id g)
      (fun e q => e.closes = false ∧ q = p ∧ ¬ p.contains id = true) p := by
  rw [ends_change]
  exact ⟨fun _ _ => reworked_update h hf hg, fun hnone => ⟨rfl, rfl, node?_eq_none.mp hnone⟩⟩

/-- **Padding** a node invalidates it, if it changes anything. -/
theorem setPadding_effect (h : p.Linked) (padding : Padding) :
    Ends (setPadding id padding)
      (fun _ q => Reworked p q id (fun t => { t with padding }) ∧ Kept p q ∧ q.planOf = p.planOf)
      (fun e q => e.closes = false ∧ q = p ∧ ¬ p.contains id = true) p := by
  rw [setPadding, ends_bind, ends_node]
  refine ⟨fun n hn => ?_, fun hnone => ⟨rfl, rfl, node?_eq_none.mp hnone⟩⟩
  split
  case isTrue hsame =>
    refine ⟨{ Reworked.refl h id with tasks := fun j => ?_ }, .refl h, rfl⟩
    split
    case isTrue hj => rw [hj, taskOf_of_node? hn, Option.map_some, ← hsame, Node.task]
    case isFalse => rfl
  · rw [ends_bind, ends_change]
    refine ⟨fun _ _ => ?_, fun hnone => ⟨rfl, rfl, node?_eq_none.mp hnone⟩⟩
    have hwork : Reworked p (p.update id (·.withPadding padding)) id
        fun t => { t with padding } :=
      reworked_update h (fun _ => ⟨rfl, rfl, rfl, rfl, rfl, rfl, fun hp => hp⟩) fun _ => rfl
    refine ⟨hwork.trans (reworked_invalidate hwork.linked id), hwork.kept, funext fun j => ?_⟩
    rw [planOf_eq_coreOf, coreOf_invalidate, ← planOf_eq_coreOf]
    exact view_update (fun o => o.bind Node.plan) (f := (·.withPadding padding)) (fun _ => rfl)
      (fun _ => rfl) id j

end Edit

end NetPlan

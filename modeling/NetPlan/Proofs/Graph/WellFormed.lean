import NetPlan.Proofs.Graph.Reach

/-!
# Proofs/Graph/WellFormed — what all edits keep

A program holds the same facts in several places: an edge stands on both of its ends, the nodes
without dependencies are listed as inputs, and the nodes with the output mark as outputs.

* `Linked` — edges agree on both ends, no node reads itself, the inputs are the nodes without
  dependencies, and the order lists nodes, each once;
* `WellFormed` — and the outputs are the nodes with the mark.

They are apart because putting a node in the place of another sets the mark before the list follows.
`Linked.rewire` is the one argument behind all edits of edges: what a change of the edges into one
node has to get right.
-/

namespace NetPlan.Program

/-- Whether a node is there and marked as an output. -/
def isMarked (p : Program) (id : String) : Bool := Node.markIn (p.node? id)

/-- Edges, inputs and order agree with the nodes. -/
structure Linked (p : Program) : Prop where
  /-- One node for an id, in ascending order. -/
  ascending : p.ids.Pairwise (· < ·)
  /-- An edge stands on both ends. -/
  edges : ∀ d u, d ∈ p.depsOf u ↔ u ∈ p.usersOf d
  users_nodup : ∀ d, (p.usersOf d).Nodup
  irrefl : ∀ u, u ∉ p.depsOf u
  inputs_nodup : p.inputs.Nodup
  mem_inputs : ∀ id, id ∈ p.inputs ↔ p.contains id = true ∧ p.depsOf id = []
  order_nodup : p.order.ids.Nodup
  order_contains : ∀ id ∈ p.order.ids, p.contains id = true

/-- Everything that is held twice agrees. -/
structure WellFormed (p : Program) : Prop extends Linked p where
  outputs_nodup : p.outputs.Nodup
  mem_outputs : ∀ id, id ∈ p.outputs ↔ p.isMarked id = true

variable {p q : Program} {d u id : String}

theorem isMarked_of_node? {n : Node} (h : p.node? id = some n) : p.isMarked id = n.isOutput :=
  congrArg Node.markIn h

theorem isMarked_of_not_contains (h : ¬ p.contains id = true) : p.isMarked id = false := by
  cases hn : p.node? id with
  | none => exact congrArg Node.markIn hn
  | some n => exact absurd (contains_of_node? hn) h

theorem isMarked_eq_coreOf (p : Program) (id : String) :
    p.isMarked id = ((p.coreOf id).map (·.isOutput)).getD false := by
  rw [isMarked, coreOf]
  cases p.node? id <;> rfl

namespace Linked

theorem ids_nodup (h : p.Linked) : p.ids.Nodup := by
  refine List.Pairwise.imp ?_ h.ascending
  rintro a _ hlt rfl
  exact String.lt_irrefl a hlt

theorem contains_dep (h : p.Linked) (hd : d ∈ p.depsOf u) : p.contains d = true :=
  contains_of_mem_usersOf ((h.edges d u).mp hd)

theorem contains_user (h : p.Linked) (hu : u ∈ p.usersOf d) : p.contains u = true :=
  contains_of_mem_depsOf ((h.edges d u).mpr hu)

theorem usersOf_eq_nil_iff (h : p.Linked) : p.usersOf d = [] ↔ ∀ u, d ∉ p.depsOf u := by
  rw [List.eq_nil_iff_forall_not_mem]
  exact forall_congr' fun u => not_congr (h.edges d u).symm

theorem eq_of_usersOf (h : p.Linked) (sole : p.usersOf d = [u]) (hd : d ∈ p.depsOf id) : id = u := by
  rw [h.edges, sole] at hd
  exact List.mem_singleton.mp hd

theorem dep_ne (h : p.Linked) (hd : d ∈ p.depsOf u) : d ≠ u := fun he => h.irrefl u (he ▸ hd)

/-- **The edges into one node changed.**  The lists of users took the change over, and the node is
an input just if it lost its last dependency. -/
theorem rewire (h : p.Linked) (ids : q.ids = p.ids) (order : q.order = p.order)
    (deps : ∀ v, v ≠ u → q.depsOf v = p.depsOf v) (irrefl : u ∉ q.depsOf u)
    (others : ∀ d v, v ≠ u → (v ∈ q.usersOf d ↔ v ∈ p.usersOf d))
    (user : ∀ d, u ∈ q.usersOf d ↔ d ∈ q.depsOf u) (nodup : ∀ d, (q.usersOf d).Nodup)
    (inputs_nodup : q.inputs.Nodup) (inputs : ∀ v, v ≠ u → (v ∈ q.inputs ↔ v ∈ p.inputs))
    (input : u ∈ q.inputs ↔ p.contains u = true ∧ q.depsOf u = []) : q.Linked where
  ascending := ids ▸ h.ascending
  edges d v := by
    by_cases hv : v = u
    · rw [hv, user]
    · rw [deps v hv, others d v hv, h.edges]
  users_nodup := nodup
  irrefl v := by
    by_cases hv : v = u
    · rw [hv]
      exact irrefl
    · rw [deps v hv]
      exact h.irrefl v
  inputs_nodup := inputs_nodup
  mem_inputs v := by
    by_cases hv : v = u
    · rw [hv, input, contains_congr ids]
    · rw [inputs v hv, h.mem_inputs, contains_congr ids, deps v hv]
  order_nodup := order ▸ h.order_nodup
  order_contains v hv := by
    rw [contains_congr ids]
    exact h.order_contains v (order ▸ hv)

/-- A program with the same edges and lists. -/
theorem of_views (h : p.Linked) (ids : q.ids = p.ids) (deps : q.depsOf = p.depsOf)
    (users : q.usersOf = p.usersOf) (inputs : q.inputs = p.inputs)
    (nodup : q.order.ids.Nodup) (order : ∀ id ∈ q.order.ids, p.contains id = true) : q.Linked where
  ascending := ids ▸ h.ascending
  edges := by
    rw [deps, users]
    exact h.edges
  users_nodup := by
    rw [users]
    exact h.users_nodup
  irrefl := by
    rw [deps]
    exact h.irrefl
  inputs_nodup := inputs ▸ h.inputs_nodup
  mem_inputs := by
    rw [inputs, deps, contains_congr ids]
    exact h.mem_inputs
  order_nodup := nodup
  order_contains id hid := by
    rw [contains_congr ids]
    exact order id hid

/-- Linked, with marks and outputs as they were. -/
theorem wellFormed (h : q.Linked) (hp : p.WellFormed) (outputs : q.outputs = p.outputs)
    (marks : ∀ id, q.isMarked id = p.isMarked id) : q.WellFormed where
  toLinked := h
  outputs_nodup := outputs ▸ hp.outputs_nodup
  mem_outputs id := by rw [outputs, marks, hp.mem_outputs]

end Linked

theorem wellFormed_empty (b : Behaviours) : (empty b).WellFormed where
  ascending := List.Pairwise.nil
  edges _ _ := ⟨fun h => (nomatch h), fun h => nomatch h⟩
  users_nodup _ := List.nodup_nil
  irrefl _ := List.not_mem_nil
  inputs_nodup := List.nodup_nil
  mem_inputs _ := ⟨fun h => (nomatch h), fun h => nomatch h.1⟩
  order_nodup := List.nodup_nil
  order_contains _ h := nomatch h
  outputs_nodup := List.nodup_nil
  mem_outputs _ := ⟨fun h => (nomatch h), fun h => nomatch h⟩

end NetPlan.Program

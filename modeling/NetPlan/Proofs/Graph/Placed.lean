import NetPlan.Proofs.Graph.Ordered
import NetPlan.Proofs.Graph.Resort
import NetPlan.Proofs.Layout.Coherence

/-!
# Proofs/Graph/Placed — two checks of an order agree

`isOrdered` walks along the processing order and collects what it has passed; `isPlaced` compares the
positions recorded for a node and for what it reads.  Once the positions are recorded anew, a node is
placed just if it is listed behind everything it reads (`isPlaced_numbered_iff`), so the walk succeeds
just if every node is placed (`isOrdered_iff_isPlaced`): a node that is not listed has no position, and
for the walk it is missing in the count.
-/

namespace NetPlan.Program

variable {p : Program} {id : String}

/-- **A node is placed** if it is listed, and all that it reads is listed before it. -/
theorem isPlaced_numbered_iff (hnodup : p.order.ids.Nodup) :
    (p.setOrder p.order.number).isPlaced id = true ↔
      p.contains id = true ∧ id ∈ p.order.ids ∧ ∀ d ∈ p.depsOf id, Before p.order.ids d id := by
  have hnode : (p.setOrder p.order.number).node? id = p.node? id := rfl
  have hnumber : ∀ x, (p.setOrder p.order.number).order.number? x
      = if x ∈ p.order.ids then some (p.order.ids.idxOf x) else none :=
    Order.number?_number p.order
  simp only [isPlaced, hnode, hnumber]
  cases hn : p.node? id with
  | none =>
    have hnot := node?_eq_none.mp hn
    simp [hnot]
  | some n =>
    rw [depsOf_of_node? hn]
    by_cases hid : id ∈ p.order.ids
    · simp only [hid, contains_of_node? hn, if_true, List.all_eq_true, true_and]
      refine forall₂_congr fun d _ => ?_
      rw [before_iff_idxOf_lt hnodup hid]
      by_cases hd : d ∈ p.order.ids
      · simp [hd]
      · -- what is not listed has the length for an index, which is no index before another
        have hlast := List.idxOf_lt_length_of_mem hid
        simp [hd, Nat.le_of_lt hlast]
    · simp [hid]

end NetPlan.Program

namespace NetPlan.Edit

open Program

variable {p : Program}

/-- **With recorded positions the two checks of an order agree**, in a program whose order lists
nodes, each once: it is in order just if every node is placed. -/
theorem isOrdered_iff_isPlaced (hids : p.ids.Nodup) (hnodup : p.order.ids.Nodup)
    (hnodes : ∀ id ∈ p.order.ids, p.contains id = true) :
    ∃ q, number.run.run p = (.ok (), q) ∧ q.nodes = p.nodes ∧ q.order.ids = p.order.ids ∧
      (q.isOrdered = true ↔ ∀ n ∈ q.nodes, q.isPlaced n.id = true) := by
  refine ⟨p.setOrder p.order.number, rfl, rfl, rfl, ?_⟩
  rw [isOrdered_iff_of_listed (p := p.setOrder p.order.number) hids hnodup hnodes]
  constructor
  · intro hordered n hn
    have hnode := node?_of_mem hids hn
    have hlisted : n.id ∈ p.order.ids := (hordered.mem n.id).mpr (contains_of_node? hnode)
    exact (isPlaced_numbered_iff hnodup).mpr
      ⟨contains_of_node? hnode, hlisted, fun d hd => hordered.before n.id d hd⟩
  · intro hplaced
    have hplaced' : ∀ id, p.contains id = true →
        id ∈ p.order.ids ∧ ∀ d ∈ p.depsOf id, Before p.order.ids d id := fun id hid => by
      obtain ⟨n, hn⟩ := contains_iff.mp hid
      obtain ⟨hmem, rfl⟩ := node?_eq_some hn
      exact ((isPlaced_numbered_iff hnodup).mp (hplaced n hmem)).2
    exact ⟨hnodup, fun id => ⟨hnodes id, fun hid => (hplaced' id hid).1⟩,
      fun u d hd => (hplaced' u (contains_of_mem_depsOf hd)).2 d hd⟩

/-- Both checks pass the order of a diamond, and neither passes it upside down. -/
theorem isOrdered_iff_isPlaced_diamond :
    (∃ q, number.run.run (.laidOut .diamond) = (.ok (), q) ∧
      ∀ n ∈ q.nodes, q.isPlaced n.id = true) ∧
    ∃ q, number.run.run ((Program.laidOut .diamond).setOrder (.ofList ["d", "c", "b", "a"]))
        = (.ok (), q) ∧ ¬ ∀ n ∈ q.nodes, q.isPlaced n.id = true := by
  obtain ⟨q, hq, -, -, hiff⟩ := isOrdered_iff_isPlaced (p := .laidOut .diamond)
    (by decide +kernel) (by decide +kernel) (by decide +kernel)
  obtain ⟨r, hr, -, -, hiff'⟩ := isOrdered_iff_isPlaced
    (p := (Program.laidOut .diamond).setOrder (.ofList ["d", "c", "b", "a"]))
    (by decide +kernel) (by decide) (by decide +kernel)
  obtain rfl : _ = q := (Prod.mk.inj hq).2
  obtain rfl : _ = r := (Prod.mk.inj hr).2
  refine ⟨⟨_, hq, hiff.mp (by decide +kernel)⟩, _, hr, fun hplaced => ?_⟩
  exact absurd (hiff'.mpr hplaced) (by decide +kernel)

end NetPlan.Edit

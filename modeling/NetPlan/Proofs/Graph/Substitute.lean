import Mathlib.Data.List.Sort
import NetPlan.Proofs.Graph.Numbers
import NetPlan.Proofs.Layout.Coherence

/-!
# Proofs/Graph/Substitute — renaming is substitution

`rename` takes a node out, changes it and its neighbours, and puts it back where its new id belongs.
In a program that is well formed and aligned its neighbours are all that name it, so what comes out
is the program with the one id in the place of the other wherever it stands (`Program.substitute`):

* `renameEnds_eq_substitute` — a node that is no neighbour does not name the id;
* `renamed_eq_substitute` — the nodes, sorted again, the lists and the order;
* `Program.substitute_substitute` — substituting back restores what did not have the new id;
* `rename_eq_substitute` — so `rename` substitutes, and renaming back restores the program.
-/

namespace NetPlan

/-! ## Substitution -/

/-- The node with one id in the place of another: as its own, in its slots and at its edges. -/
def Node.substitute (old new : String) (n : Node) : Node :=
  { n with
    primitive := ⟨swap old new n.id, n.padding, n.operation.mapSlots fun _ a => swap old new a⟩
    dependencies := n.dependencies.map (swap old new)
    users := n.users.map (swap old new) }

/-- The order with one id in the place of another, at its position and with its number. -/
def Order.substitute (old new : String) (o : Order) : Order where
  ids := o.ids.map (swap old new)
  numbers := o.numbers.map (Prod.map (swap old new) id)

/-- The program with one id in the place of another, wherever it stands; nodes are kept by id. -/
def Program.substitute (old new : String) (p : Program) : Program :=
  { p with
    nodes := (p.nodes.map (Node.substitute old new)).mergeSort (·.id ≤ ·.id)
    inputs := p.inputs.map (swap old new)
    outputs := p.outputs.map (swap old new)
    order := p.order.substitute old new }

variable {p : Program} {n m : Node} {o : Order} {old new : String}

/-- A node that does not have the new id gets all its ids back. -/
theorem Node.substitute_substitute (hid : n.id ≠ new) (hdeps : new ∉ n.dependencies)
    (husers : new ∉ n.users) (hargs : new ∉ n.operation.arguments) :
    (n.substitute old new).substitute new old = n := by
  have hop : (n.operation.mapSlots fun _ a => swap old new a).mapSlots (fun _ a => swap new old a)
      = n.operation := by
    rw [Operation.mapSlots_mapSlots]
    exact Operation.mapSlots_eq_self fun i a hi =>
      swap_swap fun he : a = new => hargs (he ▸ List.mem_of_getElem? hi)
  have hprimitive : (⟨swap new old (swap old new n.id), n.padding,
      (n.operation.mapSlots fun _ a => swap old new a).mapSlots fun _ a => swap new old a⟩ :
      Primitive) = n.primitive := by
    rw [swap_swap hid, hop]
    rfl
  calc (n.substitute old new).substitute new old
      = { n with
          primitive := ⟨swap new old (swap old new n.id), n.padding,
            (n.operation.mapSlots fun _ a => swap old new a).mapSlots fun _ a => swap new old a⟩
          dependencies := (n.dependencies.map (swap old new)).map (swap new old)
          users := (n.users.map (swap old new)).map (swap new old) } := rfl
    _ = n := by rw [hprimitive, Edit.map_swap_swap hdeps, Edit.map_swap_swap husers]

namespace Order

theorem rename_of_sound (ho : o.Sound) (old new : String) :
    o.rename old new = o.substitute old new := by
  rw [rename]
  split
  · rfl
  case isFalse hc =>
    have hnot : old ∉ o.ids := by simpa [contains] using hc
    have hnumbers : o.numbers.map (Prod.map (swap old new) id) = o.numbers := by
      refine (List.map_congr_left fun x hx => ?_).trans (List.map_id _)
      exact Prod.ext (swap_of_ne fun he => hnot (he ▸ ho x hx)) rfl
    rw [substitute, map_swap_of_not_mem hnot, hnumbers]

theorem substitute_substitute (ho : o.Sound) (hnew : new ∉ o.ids) :
    (o.substitute old new).substitute new old = o := by
  have hnumbers : (o.numbers.map (Prod.map (swap old new) id)).map (Prod.map (swap new old) id)
      = o.numbers := by
    rw [List.map_map]
    refine (List.map_congr_left fun x hx => ?_).trans (List.map_id _)
    exact Prod.ext (swap_swap fun he : x.1 = new => hnew (he ▸ ho x hx)) rfl
  rw [substitute, substitute, Edit.map_swap_swap hnew, hnumbers]

end Order

/-! ## Nodes by id -/

/-- Nodes that are kept by id are what any list of them is sorted to. -/
theorem eq_mergeSort_of_ascending {l k : List Node} (hl : l.Pairwise (·.id < ·.id))
    (hk : (k.map (·.id)).Nodup) (hmem : ∀ m, m ∈ l ↔ m ∈ k) :
    l = k.mergeSort (·.id ≤ ·.id) := by
  have hirrefl : Std.Irrefl fun m n : Node => m.id < n.id := ⟨fun m => String.lt_irrefl m.id⟩
  have hsorted : (k.mergeSort (·.id ≤ ·.id)).Pairwise fun m n => m.id ≤ n.id := by
    refine (List.pairwise_mergeSort (fun a b c hab hbc => ?_) (fun a b => ?_) k).imp fun h => ?_
    · exact decide_eq_true (String.le_trans (of_decide_eq_true hab) (of_decide_eq_true hbc))
    · simpa using String.le_total a.id b.id
    · exact of_decide_eq_true h
  have hnodup : (k.mergeSort (·.id ≤ ·.id)).Pairwise fun m n => m.id ≠ n.id :=
    List.pairwise_map.mp (((List.mergeSort_perm k _).map _).nodup_iff.mpr hk)
  have hstrict : (k.mergeSort (·.id ≤ ·.id)).Pairwise (·.id < ·.id) :=
    (hsorted.and hnodup).imp fun ⟨hle, hne⟩ => by
      by_contra hlt
      exact hne (String.le_antisymm hle (String.not_lt.mp hlt))
  exact hl.eq_of_mem_iff hstrict fun m => by rw [hmem, List.mem_mergeSort]

/-! ## Renaming -/

namespace Program

section Renaming

variable (h : p.Linked) (ha : p.Aligned) (hn : p.node? old = some n)
include h ha hn

theorem withId_eq_substitute : n.withId new = n.substitute old new := by
  have hdeps : n.dependencies = p.depsOf old := (depsOf_of_node? hn).symm
  have hargs : n.operation.arguments = p.depsOf old := (argsOf_of_node? hn).symm.trans (ha old)
  have husers : old ∉ n.users := fun hmem =>
    h.irrefl old ((h.edges old old).mpr (usersOf_of_node? hn ▸ hmem))
  have hop : (n.operation.mapSlots fun _ a => swap old new a) = n.operation :=
    Operation.mapSlots_eq_self fun i a hi => swap_of_ne fun he : a = old =>
      h.irrefl old (hargs ▸ he ▸ List.mem_of_getElem? hi)
  rw [Node.substitute, hop, id_of_node? hn, swap_self, map_swap_of_not_mem (hdeps ▸ h.irrefl old),
    map_swap_of_not_mem husers]
  rfl

/-- **What is no neighbour of a node does not name it.** -/
theorem renameEnds_eq_substitute (hm : m ∈ p.nodes) (hne : m.id ≠ old) :
    renameEnds n new m = m.substitute old new := by
  have hmn : p.node? m.id = some m := node?_of_mem h.ids_nodup hm
  have hmargs : m.operation.arguments = m.dependencies := by
    rw [← argsOf_of_node? hmn, ← depsOf_of_node? hmn, ha]
  have husers : m.id ∉ n.dependencies → m.users.map (swap old new) = m.users := fun hnot =>
    map_swap_of_not_mem fun hmem => hnot (by
      rw [← depsOf_of_node? hn, h.edges, usersOf_of_node? hmn]
      exact hmem)
  have hdeps : m.id ∉ n.users → old ∉ m.dependencies := fun hnot hmem => hnot (by
    rw [← usersOf_of_node? hn, ← h.edges, depsOf_of_node? hmn]
    exact hmem)
  have hop : m.id ∉ n.users → (m.operation.mapSlots fun _ a => swap old new a) = m.operation :=
    fun hnot => Operation.mapSlots_eq_self fun i a hi => swap_of_ne fun he : a = old =>
      hdeps hnot (hmargs ▸ he ▸ List.mem_of_getElem? hi)
  rw [renameEnds, Node.substitute, swap_of_ne hne, id_of_node? hn]
  by_cases hd : m.id ∈ n.dependencies <;> by_cases hu : m.id ∈ n.users
  · rw [if_pos hd, if_pos hu]
    rfl
  · rw [if_pos hd, if_neg hu, hop hu, map_swap_of_not_mem (hdeps hu)]
    rfl
  · rw [if_neg hd, if_pos hu, husers hd]
    rfl
  · rw [if_neg hd, if_neg hu, husers hd, hop hu, map_swap_of_not_mem (hdeps hu)]
    rfl

/-- **A renamed program is the program with the one id in the place of the other.** -/
theorem renamed_eq_substitute (ho : p.order.Sound) (hnew : ¬ p.contains new = true) :
    Edit.renamed p n new = p.substitute old new := by
  have hnodup : ((p.nodes.map (Node.substitute old new)).map (·.id)).Nodup := by
    have hids : (p.nodes.map (Node.substitute old new)).map (·.id) = p.ids.map (swap old new) := by
      rw [List.map_map, ids, List.map_map]
      rfl
    rw [hids]
    exact nodup_map_swap h.ids_nodup fun hmem => hnew (contains_iff_mem_ids.mpr hmem)
  have hnodes : (Edit.renamed p n new).nodes
      = (p.nodes.map (Node.substitute old new)).mergeSort (·.id ≤ ·.id) := by
    refine eq_mergeSort_of_ascending (List.pairwise_map.mp (ascending_renamed h hn hnew)) hnodup
      fun m => ?_
    rw [nodes_renamed hn]
    change m ∈ insertById _ _ ↔ _
    rw [mem_insertById, List.mem_map]
    change m = n.withId new ∨ m ∈ (p.nodes.filter (·.id ≠ old)).map (renameEnds n new) ↔ _
    rw [List.mem_map]
    constructor
    · rintro (rfl | ⟨k, hk, rfl⟩)
      · exact ⟨n, (node?_eq_some hn).1, (withId_eq_substitute h ha hn).symm⟩
      · obtain ⟨hk, hne⟩ := List.mem_filter.mp hk
        exact ⟨k, hk, (renameEnds_eq_substitute h ha hn hk (by simpa using hne)).symm⟩
    · rintro ⟨k, hk, rfl⟩
      by_cases hko : k.id = old
      · have hkn := node?_of_mem h.ids_nodup hk
        rw [hko, hn] at hkn
        cases hkn
        exact Or.inl (withId_eq_substitute h ha hn).symm
      · exact Or.inr ⟨k, List.mem_filter.mpr ⟨hk, by simpa using hko⟩,
          renameEnds_eq_substitute h ha hn hk hko⟩
  have hold : n.id = old := id_of_node? hn
  refine (Program.mk.injEq ..).mpr ⟨hnodes, ?_, ?_, ?_, rfl, rfl⟩
  · rw [hold]
    rfl
  · rw [hold]
    rfl
  · rw [hold]
    exact Order.rename_of_sound ho old new

end Renaming

/-- Substituting back restores a program that does not have the new id. -/
theorem substitute_substitute (h : p.Linked) (ha : p.Aligned) (ho : p.order.Sound)
    (hw : ∀ id ∈ p.outputs, p.contains id = true) (hnew : ¬ p.contains new = true) :
    (p.substitute old new).substitute new old = p := by
  have hback : ∀ k ∈ p.nodes, (k.substitute old new).substitute new old = k := fun k hk => by
    have hkn := node?_of_mem h.ids_nodup hk
    have hdeps : new ∉ k.dependencies := fun hmem =>
      hnew (h.contains_dep (u := k.id) (depsOf_of_node? hkn ▸ hmem))
    refine Node.substitute_substitute (fun he => hnew (he ▸ contains_of_node? hkn)) hdeps
      (fun hmem => hnew (h.contains_user (d := k.id) (usersOf_of_node? hkn ▸ hmem))) ?_
    rwa [← argsOf_of_node? hkn, ha, depsOf_of_node? hkn]
  have hperm : (((p.nodes.map (Node.substitute old new)).mergeSort (·.id ≤ ·.id)).map
      (Node.substitute new old)).Perm p.nodes := by
    have hmap : (p.nodes.map (Node.substitute old new)).map (Node.substitute new old)
        = p.nodes := by
      rw [List.map_map]
      exact (List.map_congr_left hback).trans (List.map_id _)
    exact ((List.mergeSort_perm _ _).map _).trans (.of_eq hmap)
  refine (Program.mk.injEq ..).mpr ⟨?_, ?_, ?_, ?_, rfl, rfl⟩
  · exact (eq_mergeSort_of_ascending (List.pairwise_map.mp h.ascending)
      ((hperm.map _).nodup_iff.mpr h.ids_nodup) fun m => hperm.symm.mem_iff).symm
  · exact Edit.map_swap_swap fun hmem => hnew ((h.mem_inputs new).mp hmem).1
  · exact Edit.map_swap_swap fun hmem => hnew (hw new hmem)
  · exact Order.substitute_substitute ho fun hmem => hnew (h.order_contains new hmem)

end Program

namespace Edit

open Program

theorem run_rename (h : p.Linked) (ha : p.Aligned) (ho : p.order.Sound)
    (hold : p.contains old = true) (hnew : ¬ p.contains new = true) :
    (rename old new).run.run p = (.ok (), p.substitute old new) := by
  have hends : Ends (rename old new) (fun _ q => q = p.substitute old new) (fun _ _ => False) p :=
    ends_rename (fun he => absurd (he ▸ hold) hnew) (fun _ hc => hnew hc)
      (fun _ hnone => node?_eq_none.mp hnone hold)
      fun n hn _ => renamed_eq_substitute h ha hn ho hnew
  obtain ⟨_, _, hrun, rfl⟩ := hends.exists_ok
  exact hrun

/-- **Renaming is substitution**: it puts the new id in the place of the old one wherever that
stands and changes nothing else, and renaming back restores the program.  No edit lets an order keep
the number of an id it does not list (`Program.sound_ofTopology`, `Change.sound_applyAll`). -/
theorem rename_eq_substitute (h : p.WellFormed) (ha : p.Aligned) (ho : p.order.Sound)
    (hold : p.contains old = true) (hnew : ¬ p.contains new = true) :
    (rename old new).run.run p = (.ok (), p.substitute old new) ∧
    (rename new old).run.run (p.substitute old new) = (.ok (), p) := by
  have hl := h.toLinked
  obtain ⟨n, hn⟩ := contains_iff.mp hold
  have hne : old ≠ new := fun he => hnew (he ▸ hold)
  have hq := renamed_eq_substitute hl ha hn ho hnew
  have houtputs : ∀ id ∈ p.outputs, p.contains id = true := fun id hid => by
    by_contra hnot
    have hmark := (h.mem_outputs id).mp hid
    rw [isMarked_of_not_contains hnot] at hmark
    cases hmark
  have hback : (rename new old).run.run (p.substitute old new)
      = (.ok (), (p.substitute old new).substitute new old) := run_rename
    (hq ▸ linked_renamed hl hn hnew) (hq ▸ (swapped_renamed hn hnew).aligned ha)
    (hq ▸ ho.rename n.id new)
    (hq ▸ (contains_renamed hn hnew new).mpr (Or.inl rfl))
    (hq ▸ fun hc => ((contains_renamed hn hnew old).mp hc).elim hne fun hc => hc.1 rfl)
  rw [substitute_substitute hl ha ho houtputs hnew] at hback
  exact ⟨run_rename hl ha ho hold hnew, hback⟩

/-- The middle of a chain, renamed and back. -/
theorem rename_eq_substitute_copied :
    (rename "b" "z").run.run (.laidOut .copied)
      = (.ok (), (Program.laidOut .copied).substitute "b" "z") ∧
    (rename "z" "b").run.run ((Program.laidOut .copied).substitute "b" "z")
      = (.ok (), .laidOut .copied) := by
  refine rename_eq_substitute (laidOut_spec (by unfold Topology.Distinct; decide)).1
    (aligned_of_nodes (by decide +kernel)) ?_ (by decide +kernel) (by decide +kernel)
  unfold Order.Sound
  decide +kernel

end Edit

end NetPlan

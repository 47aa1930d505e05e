import NetPlan.Proofs.Layout.Coherence

/-!
# Proofs/Graph/Alignment — slots in step with edges

A node reads what its argument slots name (`Aligned`).  Edges and slots are changed apart from each
other, by position in one edit and by name in another; whoever changes one has to change the other,
and nothing else of the operation.

* `Swapped.task`, `Removed.task` — what a node does stays under the id it has then;
* `addIntermediate_slots` — inserting keeps the slots right even where a reorder is put in front of
  itself;
* `aligned_of_edit` — so does every edit that moves an edge for good.
-/

namespace NetPlan.Edit

open Program

variable {p q : Program} {old new id next : String} {prim : Primitive} {index : Nat}

/-- Renaming leaves what a node does, under the id it has then. -/
theorem Swapped.task (h : Swapped p q old new) {j : String} (hj : p.contains j = true) :
    q.taskOf (swap old new j) = p.taskOf j := by
  have hjn : j ≠ new := fun he => h.free (he ▸ hj)
  rw [h.tasks]
  by_cases hjo : j = old
  · rw [hjo, swap_self, if_pos rfl]
  · rw [swap_of_ne hjo, if_neg hjn, if_neg hjo]

/-- Removing leaves what the other nodes do. -/
theorem Removed.task (h : Removed p q id) {j : String} (hj : j ≠ id) : q.taskOf j = p.taskOf j := by
  rw [taskOf_eq_coreOf, h.core, if_neg hj, taskOf_eq_coreOf]

/-- **Inserting keeps the slots right**, also where a reorder is put in front of itself. -/
theorem addIntermediate_slots (h : p.Linked) (ha : p.Aligned) :
    Ends (addIntermediate prim next index)
      (fun _ q => q.Aligned ∧ ∀ j, p.contains j = true → q.taskOf j = p.taskOf j)
      (fun _ _ => True) p := by
  rw [addIntermediate, ends_bind, ends_node]
  refine ⟨fun n _ => ?_, fun _ => trivial⟩
  split
  case h_1 => trivial
  rw [ends_bind]
  refine (placeIntermediate_effect h).imp (fun _ q hq => ?_) fun _ _ _ => trivial
  have hplaced : q.Aligned ∧ ∀ j, p.contains j = true → q.taskOf j = p.taskOf j := by
    obtain ⟨rfl, -⟩ | ⟨-, hfree, -, -, hcore, hdeps, hargs, -⟩ := hq
    · exact ⟨ha, fun _ _ => rfl⟩
    · refine ⟨fun j => ?_, fun j hj => ?_⟩
      · rw [hargs, hdeps, ha j]
      · rw [taskOf_eq_coreOf, hcore, if_neg fun he : j = prim.id => hfree (he ▸ hj),
          taskOf_eq_coreOf]
  rw [ends_bind]
  refine replaceDependency_effect.imp (fun _ r hr => ?_) fun _ _ _ => trivial
  obtain ⟨-, hframe, -, -, halign, -⟩ := hr
  refine sameWiring_inheritFlags.imp (fun _ s hs => ⟨fun j => ?_, fun j hj => ?_⟩)
    fun _ _ _ => trivial
  · rw [hs.args, hs.deps, halign j (hplaced.1 j)]
  · rw [hs.tasks, hframe.tasks, hplaced.2 j hj]

/-- **Aligned programs stay aligned**, and of a node that was there and stays, only the edges change
and the slots with them. -/
theorem aligned_of_edit (h : p.WellFormed) (ha : p.Aligned) :
    (∀ user index new q, (replaceDependency user index new).run.run p = (.ok (), q) →
      q.Aligned ∧ q.taskOf = p.taskOf) ∧
    (∀ user old new q, (replaceDependencyOf user old new).run.run p = (.ok (), q) →
      q.Aligned ∧ q.taskOf = p.taskOf) ∧
    (∀ old new q, (rename old new).run.run p = (.ok (), q) →
      q.Aligned ∧ ∀ j, p.contains j = true → q.taskOf (swap old new j) = p.taskOf j) ∧
    (∀ id done q, (extract id).run.run p = (.ok done, q) →
      q.Aligned ∧ if done then
        ∃ input, p.depsOf id = [input] ∧ ∀ j, p.contains j = true → j ≠ id →
          q.taskOf (if id ∈ p.outputs then swap input id j else j) = p.taskOf j
      else q.taskOf = p.taskOf) ∧
    (∀ id done q, (removeIfDangling id).run.run p = (.ok done, q) →
      q.Aligned ∧ ∀ j, (done = true → j ≠ id) → q.taskOf j = p.taskOf j) ∧
    (∀ prim next index q, (addIntermediate prim next index).run.run p = (.ok (), q) →
      q.Aligned ∧ ∀ j, p.contains j = true → q.taskOf j = p.taskOf j) ∧
    ∀ old prim q, old ∉ prim.arguments → (replace old prim false).run.run p = (.ok (), q) →
      q.Aligned ∧ ∀ j, j ≠ old → q.taskOf j = p.taskOf j := by
  have hl := h.toLinked
  refine ⟨fun user index new q hrun => ?_, fun user old new q hrun => ?_, fun old new q hrun => ?_,
    fun id done q hrun => ?_, fun id done q hrun => ?_, fun prim next index q hrun => ?_,
    fun old prim q hold hrun => ?_⟩
  · have hends : Ends (replaceDependency user index new) _ _ p := replaceDependency_effect
    rw [Ends, hrun] at hends
    obtain ⟨-, hframe, -, -, halign, -⟩ := hends
    exact ⟨fun j => halign j (ha j), hframe.tasks⟩
  · have hends : Ends (replaceDependencyOf user old new) _ _ p := replaceDependencyOf_effect
    rw [Ends, hrun] at hends
    obtain ⟨-, hframe, halign, -⟩ := hends
    exact ⟨fun j => halign j (ha j), hframe.tasks⟩
  · have hends : Ends (rename old new) _ _ p := rename_effect hl
    rw [Ends, hrun] at hends
    obtain ⟨rfl, rfl⟩ | hq := hends
    · have hsame : ∀ j, swap old old j = j := fun j => ite_eq_right_iff.mpr fun he => he.symm
      exact ⟨ha, fun j _ => by rw [hsame]⟩
    · exact ⟨hq.toSwapped.aligned ha, fun j hj => hq.task hj⟩
  · have hends : Ends (extract id) _ _ p := extract_outcome hl
    rw [Ends, hrun] at hends
    cases done with
    | false =>
      obtain ⟨-, rfl, -⟩ := hends
      exact ⟨ha, rfl⟩
    | true =>
      obtain ⟨-, input, hq⟩ := hends
      refine ⟨hq.args ha, input, hq.only, fun j hj hne => ?_⟩
      simp only [h.mem_outputs]
      exact hq.tasks j hne hj
  · have hends : Ends (removeIfDangling id) _ _ p := removeIfDangling_outcome hl
    rw [Ends, hrun] at hends
    cases done with
    | false =>
      obtain ⟨-, rfl⟩ := hends
      exact ⟨ha, fun _ _ => rfl⟩
    | true =>
      obtain ⟨-, husers, hq⟩ := hends
      exact ⟨hq.aligned (hl.usersOf_eq_nil_iff.mp husers) ha, fun j hj => hq.task (hj rfl)⟩
  · have hends : Ends (addIntermediate prim next index) _ _ p := addIntermediate_slots hl ha
    rw [Ends, hrun] at hends
    exact hends
  · have hends : Ends (replace old prim false) _ _ p := replace_effect hl false
    rw [Ends, hrun] at hends
    refine ⟨hends.aligned (Order.filter_ne_of_not_mem hold).symm ha, fun j hj => ?_⟩
    rw [hends.tasks, if_neg hj]

/-- The middle of a chain taken out, and replaced. -/
theorem aligned_of_edit_copied :
    (∃ q, (extract "b").run.run (.laidOut .copied) = (.ok true, q) ∧ q.Aligned ∧
      q.taskOf "c" = (laidOut .copied).taskOf "c") ∧
    ∃ q, (replace "b" ⟨"n", .none, .softmax ⟨"a", .x⟩⟩ false).run.run (.laidOut .copied)
        = (.ok (), q) ∧
      q.Aligned ∧ q.taskOf "c" = (laidOut .copied).taskOf "c" := by
  obtain ⟨-, -, -, hextract, -, -, hreplace⟩ := aligned_of_edit (p := .laidOut .copied)
    (laidOut_spec (by unfold Topology.Distinct; decide)).1 (aligned_of_nodes (by decide +kernel))
  have hout : (extract "b").run.run (.laidOut .copied)
      = (.ok true, ((extract "b").run.run (.laidOut .copied)).2) :=
    Prod.ext (by decide +kernel) rfl
  obtain ⟨_, hin⟩ := exists_run_eq_ok
    (x := replace "b" ⟨"n", .none, .softmax ⟨"a", .x⟩⟩ false) (s := .laidOut .copied)
    (by decide +kernel)
  obtain ⟨haligned, input, -, htasks⟩ := hextract "b" true _ hout
  obtain ⟨haligned', htasks'⟩ := hreplace "b" _ _ (by decide) hin
  have hkept := htasks "c" (by decide +kernel) (by decide)
  rw [if_neg (by decide +kernel)] at hkept
  exact ⟨⟨_, hout, haligned, hkept⟩, _, hin, haligned', htasks' "c" (by decide)⟩

end NetPlan.Edit

import NetPlan.Proofs.Graph.Ordered

/-!
# Proofs/Graph/Contract — two nodes as one

When a node with one dependency is taken out, the dependency takes its place: its users read the
dependency, and if the node was an output the dependency has its id from then on.  In `Contracted`
the two cases are one: the two nodes became their `survivor`, and every id but those of the two means
what it meant.  The survivor may have got other work at the same time.  The other id, the `leaver`, is
the only one that is gone (`Contracted.contains_iff`).
-/

namespace NetPlan.Edit

open Program

variable {p q r : Program} {id input j : String} {g : Task → Task}

/-- The id that is left of two: that of an output stays. -/
def survivor (p : Program) (id input : String) : String :=
  if p.isMarked id = true then id else input

/-- The other id, that nothing has any more. -/
def leaver (p : Program) (id input : String) : String :=
  if p.isMarked id = true then input else id

/-- Both ids become that of the survivor. -/
def onto (p : Program) (id input j : String) : String :=
  if j = id ∨ j = input then survivor p id input else j

theorem survivor_mem (p : Program) (id input : String) :
    survivor p id input = id ∨ survivor p id input = input := by
  rw [survivor]
  split
  · exact Or.inl rfl
  · exact Or.inr rfl

@[simp] theorem onto_id (p : Program) (id input : String) :
    onto p id input id = survivor p id input := if_pos (Or.inl rfl)

@[simp] theorem onto_input (p : Program) (id input : String) :
    onto p id input input = survivor p id input := if_pos (Or.inr rfl)

theorem onto_of_ne (hid : j ≠ id) (hin : j ≠ input) : onto p id input j = j :=
  if_neg fun h => h.elim hid hin

/-- `q` is `p` with a node and its only dependency as one, whose work is that of the dependency,
changed by `g`. -/
structure Contracted (p q : Program) (id input : String) (g : Task → Task) : Prop where
  kept : Kept p q
  only : p.depsOf id = [input]
  acyclic : id ∉ p.depsOf input
  task : q.taskOf (survivor p id input) = (p.taskOf input).map g
  tasks : ∀ j, j ≠ id → j ≠ input → q.taskOf j = p.taskOf j
  gone : ∀ j, j ≠ survivor p id input → j = id ∨ j = input → q.taskOf j = none
  reads : q.depsOf (survivor p id input) = p.depsOf input
  deps : ∀ j, j ≠ id → j ≠ input → q.depsOf j = (p.depsOf j).map (onto p id input)
  marks : q.isMarked = p.isMarked
  flag : q.flagsOf (survivor p id input) = p.flagsOf input
  flags : ∀ j, j ≠ id → j ≠ input → q.flagsOf j = p.flagsOf j
  silent : p.isMarked id = true → p.isMarked input = false

/-- The order without the node, with the id of the survivor for that of the input. -/
theorem Extracted.ids_order (h : Extracted p q id input) :
    q.order.ids = (p.order.ids.filter (· ≠ id)).map (onto p id input) := by
  obtain ⟨r, hby, hq⟩ := h
  have honto : ∀ x ∈ p.order.ids.filter (· ≠ id),
      onto p id input x = if x = input then survivor p id input else x := fun x hx => by
    have hne : x ≠ id := by simpa using (List.mem_filter.mp hx).2
    rw [onto]
    simp only [hne, false_or]
  rw [List.map_congr_left honto, survivor]
  split at hq
  case isTrue hid =>
    obtain ⟨-, s, hs, -, hren⟩ := hq
    rw [hren.order, hs.order, hby.order, if_pos hid]
    rfl
  case isFalse hid =>
    rw [hq.order, hby.order, if_neg hid]
    refine ((List.map_congr_left fun x _ => ?_).trans (List.map_id _)).symm
    split
    · exact (‹x = input›).symm
    · rfl

theorem Extracted.contracted (h : Extracted p q id input) (hl : p.Linked) :
    Contracted p q id input fun t => t := by
  have hmarks := h.marks hl
  have hkept := h.kept
  obtain ⟨r, hby, hq⟩ := h
  have hne := hby.ne hl
  have hself : input ∉ p.depsOf input := fun hd => hl.dep_ne hd rfl
  split at hq
  case isTrue hid =>
    obtain ⟨hin, s, hs, -, hren⟩ := hq
    have hsurvivor : survivor p id input = id := if_pos hid
    have hmap : ∀ j, (p.depsOf j).map (onto p id input)
        = ((p.depsOf j).map (swap id input)).map (swap input id) := fun j => by
      rw [List.map_map]
      refine List.map_congr_left fun d _ => ?_
      rw [onto, hsurvivor, Function.comp_apply, swap, swap]
      by_cases hd : d = id
      · simp [hd]
      · by_cases hd' : d = input <;> simp [hd, hd']
    refine ⟨hkept, hby.only, hby.acyclic, ?_, fun j hj hj' => ?_, fun j hj hj' => ?_, ?_,
      fun j hj hj' => ?_, hmarks, ?_, fun j hj hj' => ?_, fun _ => hin⟩
    · rw [hsurvivor, hren.tasks, if_pos rfl, hs.tasks, hby.tasks, if_neg hne, Option.map_id']
    · rw [hren.tasks, if_neg hj, if_neg hj', hs.tasks, hby.tasks, if_neg hj]
    · rw [hsurvivor] at hj
      rw [hren.tasks, if_neg hj, if_pos (hj'.resolve_left hj)]
    · rw [hsurvivor, hren.deps, if_pos rfl, hs.deps, hby.deps, if_neg hne,
        map_swap_of_not_mem hby.acyclic]
    · rw [hren.deps, if_neg hj, if_neg hj', hs.deps, hby.deps, if_neg hj, hmap]
    · rw [hsurvivor, hren.flags, if_pos rfl, hs.flags, hby.flags, if_neg hne]
    · rw [hren.flags, if_neg hj, if_neg hj', hs.flags, hby.flags, if_neg hj]
  case isFalse hid =>
    have hsurvivor : survivor p id input = input := if_neg hid
    refine ⟨hkept, hby.only, hby.acyclic, ?_, fun j hj hj' => ?_, fun j hj hj' => ?_, ?_,
      fun j hj hj' => ?_, hmarks, ?_, fun j hj hj' => ?_, fun h => absurd h hid⟩
    · rw [hsurvivor, hq.tasks, hby.tasks, if_neg hne, Option.map_id']
    · rw [hq.tasks, hby.tasks, if_neg hj]
    · rw [hsurvivor] at hj
      rw [hq.tasks, hby.tasks, if_pos (hj'.resolve_right hj)]
    · rw [hsurvivor, hq.deps, hby.deps, if_neg hne, map_swap_of_not_mem hby.acyclic]
    · rw [hq.deps, hby.deps, if_neg hj]
      refine List.map_congr_left fun d _ => ?_
      rw [onto, hsurvivor, swap]
      by_cases hd : d = id
      · simp [hd]
      · by_cases hd' : d = input <;> simp [hd, hd']
    · rw [hsurvivor, hq.flags, hby.flags, if_neg hne]
    · rw [hq.flags, hby.flags, if_neg hj]

namespace Contracted

theorem ne (h : Contracted p q id input g) (hl : p.Linked) : input ≠ id :=
  hl.dep_ne (by rw [h.only]; exact List.mem_singleton_self input)

/-- The input reads neither of the two. -/
theorem map_onto (h : Contracted p q id input g) (hl : p.Linked) :
    (p.depsOf input).map (onto p id input) = p.depsOf input := by
  refine (List.map_congr_left fun d hd => ?_).trans (List.map_id' _)
  exact onto_of_ne (fun he => h.acyclic (he ▸ hd)) (hl.dep_ne hd)

/-- The survivor may get other work. -/
theorem reworked {s : String} (h : Contracted p q id input fun t => t)
    (hs : s = survivor p id input) (hr : Reworked q r s g) (hk : Kept q r) :
    Contracted p r id input g := by
  subst hs
  have hother : ∀ j, j ≠ id → j ≠ input → j ≠ survivor p id input := fun j hj hj' he =>
    (survivor_mem p id input).elim (fun h => hj (he.trans h)) fun h => hj' (he.trans h)
  refine ⟨h.kept.trans hk, h.only, h.acyclic, ?_, fun j hj hj' => ?_, fun j hj hj' => ?_, ?_,
    fun j hj hj' => ?_, hr.marks.trans h.marks, ?_, fun j hj hj' => ?_, h.silent⟩
  · rw [hr.tasks, if_pos rfl, h.task, Option.map_id']
  · rw [hr.tasks, if_neg (hother j hj hj'), h.tasks j hj hj']
  · rw [hr.tasks, if_neg hj, h.gone j hj hj']
  · rw [hr.deps, h.reads]
  · rw [hr.deps, h.deps j hj hj']
  · rw [hr.flags, h.flag]
  · rw [hr.flags, h.flags j hj hj']

theorem sameGraph (h : Contracted p q id input g) (hr : SameGraph q r)
    (hm : r.isMarked = q.isMarked) (hf : r.flagsOf = q.flagsOf) : Contracted p r id input g where
  kept := h.kept.trans hr.kept
  only := h.only
  acyclic := h.acyclic
  task := by rw [hr.tasks, h.task]
  tasks j hj hj' := by rw [hr.tasks, h.tasks j hj hj']
  gone j hj hj' := by rw [hr.tasks, h.gone j hj hj']
  reads := by rw [hr.deps, h.reads]
  deps j hj hj' := by rw [hr.deps, h.deps j hj hj']
  marks := hm.trans h.marks
  flag := by rw [hf, h.flag]
  flags j hj hj' := by rw [hf, h.flags j hj hj']
  silent := h.silent

theorem contains_survivor (h : Contracted p q id input g) (hl : p.Linked) :
    q.contains (survivor p id input) = true := by
  have hin : p.contains input = true :=
    hl.contains_dep (by rw [h.only]; exact List.mem_singleton_self input)
  rw [contains_eq_isSome_taskOf] at hin ⊢
  rw [h.task, Option.isSome_map, hin]

/-- Every node that is left came from one that was there. -/
theorem exists_onto (h : Contracted p q id input g) (hj : q.contains j = true) :
    j = survivor p id input ∨ (j ≠ id ∧ j ≠ input ∧ p.contains j = true) := by
  by_cases hs : j = survivor p id input
  · exact Or.inl hs
  rw [contains_eq_isSome_taskOf] at hj
  have hne : ¬ (j = id ∨ j = input) := fun he => by
    rw [h.gone j hs he] at hj
    cases hj
  rw [not_or] at hne
  refine Or.inr ⟨hne.1, hne.2, ?_⟩
  rw [contains_eq_isSome_taskOf, ← h.tasks j hne.1 hne.2, hj]

theorem contains_leaver (h : Contracted p q id input g) (hl : p.Linked) :
    p.contains (leaver p id input) = true := by
  have hmem : input ∈ p.depsOf id := h.only ▸ List.mem_singleton_self input
  rw [leaver]
  split
  · exact hl.contains_dep hmem
  · exact contains_of_mem_depsOf hmem

/-- All ids but one are there still. -/
theorem contains_iff (h : Contracted p q id input g) (hl : p.Linked) (j : String) :
    q.contains j = true ↔ j ≠ leaver p id input ∧ p.contains j = true := by
  have hmem : input ∈ p.depsOf id := h.only ▸ List.mem_singleton_self input
  have hne := h.ne hl
  by_cases hs : j = survivor p id input
  · subst hs
    refine iff_of_true (h.contains_survivor hl) ?_
    rw [survivor, leaver]
    split
    · exact ⟨hne.symm, contains_of_mem_depsOf hmem⟩
    · exact ⟨hne, hl.contains_dep hmem⟩
  by_cases hj : j = id ∨ j = input
  · have hleaver : j = leaver p id input := by
      rw [leaver]
      rw [survivor] at hs
      split at hs
      case isTrue hm => rw [if_pos hm, hj.resolve_left hs]
      case isFalse hm => rw [if_neg hm, hj.resolve_right hs]
    refine iff_of_false ?_ fun hc => hc.1 hleaver
    rw [contains_eq_isSome_taskOf, h.gone j hs hj]
    simp
  · obtain ⟨hid, hin⟩ := not_or.mp hj
    have hleaver : j ≠ leaver p id input := by
      rw [leaver]
      split
      · exact hin
      · exact hid
    rw [contains_eq_isSome_taskOf, h.tasks j hid hin, ← contains_eq_isSome_taskOf]
    exact (and_iff_right hleaver).symm

/-- An output keeps its id. -/
theorem onto_of_marked (h : Contracted p q id input g) (hj : p.isMarked j = true) :
    onto p id input j = j := by
  rw [onto]
  split
  case isTrue he =>
    rw [survivor]
    rcases he with rfl | rfl
    · rw [if_pos hj]
    · split
      case isTrue hid =>
        rw [h.silent hid] at hj
        cases hj
      case isFalse => rfl
  case isFalse => rfl

end Contracted

end NetPlan.Edit

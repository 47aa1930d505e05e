import NetPlan.Proofs.Pass.Rendering

/-!
# Proofs/Pass/Inherited — nodes that go through a rewrite as they are

A node of the graph behind a rewrite **inherits** from one of the graph before it: it does the same,
under the same plan, and what it reads is laid out as before (`Inherits`).  Its own layout is the old one
then (`Inherits.layout`).

* `SameGraph.inherits`, `Removed.inherits`, `Folded.inherits` — under the same id;
* `Dropped.inherits`, `Merged.inherits` — two nodes become their survivor; behind a dropped reorder it
  is the input, behind merged ones it is new.

Nothing is asked of the order: a layout that was found follows from the layouts below it.
-/

namespace NetPlan

open Program Edit

namespace Program

variable {p q : Program} {f : String → String} {id u v : String} {l : Layout}

/-- **Induction on how a layout is found**, by tasks. -/
theorem freshLayout_rec {motive : String → Layout → Prop}
    (step : ∀ id task inputs l, p.freshLayout id = .ok l → p.taskOf id = some task →
      List.Forall₂ (fun d i => p.freshLayout d = .ok i ∧ motive d i) (p.depsOf id) inputs →
      task.Lays p.behaviours inputs l → motive id l)
    (h : p.freshLayout id = .ok l) : motive id l := by
  refine freshLayout_induction (fun id n inputs l hn hdeps hrule => ?_) h
  rw [← depsOf_of_node? hn] at hdeps
  have hlays := Node.rule_eq_ok_iff.mp hrule
  have hlaid := freshLayout_iff.mpr
    ⟨_, inputs, taskOf_of_node? hn, hdeps.imp fun _ _ hd => hd.1, hlays⟩
  exact step id _ inputs l hlaid (taskOf_of_node? hn) hdeps hlays

/-- **The same graph has the same layouts.** -/
theorem SameGraph.freshLayout (h : SameGraph p q) : q.freshLayout = p.freshLayout := funext fun j =>
  freshLayout_frame (fun _ => True) h.kept.behaviours (fun _ _ _ _ => trivial)
    (fun i _ => by rw [outlineOf_eq_taskOf, h.tasks, outlineOf_eq_taskOf])
    (fun i _ => congrFun h.deps i) trivial

/-- Node `u` of `q` is node `v` of `p`: it does the same under the same plan, and all it reads, which
`f` leads to, is laid out as it was. -/
structure Inherits (p q : Program) (f : String → String) (v u : String) : Prop where
  task : q.taskOf u = p.taskOf v
  plan : q.planOf u = p.planOf v
  deps : q.depsOf u = (p.depsOf v).map f
  inputs : ∀ d ∈ p.depsOf v, ∀ l, p.freshLayout d = .ok l → q.freshLayout (f d) = .ok l

theorem Inherits.reads (h : Inherits p q f v u) {layouts : List Layout}
    (hv : List.Forall₂ (fun d l => p.freshLayout d = .ok l) (p.depsOf v) layouts) :
    List.Forall₂ (fun d l => q.freshLayout d = .ok l) (q.depsOf u) layouts := by
  rw [h.deps]
  exact forall₂_map_of_mem h.inputs hv

/-- **It has the layout it had.** -/
theorem Inherits.layout (h : Inherits p q f v u) (hb : q.behaviours = p.behaviours)
    (hl : p.freshLayout v = .ok l) : q.freshLayout u = .ok l := by
  obtain ⟨task, inputs, htask, hin, hlays⟩ := freshLayout_iff.mp hl
  exact freshLayout_iff.mpr ⟨task, inputs, h.task.trans htask, h.reads hin, hb ▸ hlays⟩

theorem SameGraph.inherits (h : SameGraph p q) (hplan : q.planOf u = p.planOf u) :
    Inherits p q (fun d => d) u u where
  task := by rw [h.tasks]
  plan := hplan
  deps := by rw [h.deps, List.map_id']
  inputs d _ l hl := by rw [h.freshLayout, hl]

end Program

namespace Edit

variable {p q : Program} {id input u j : String} {l : Layout} {g : Task → Task}

/-- Removing a node nothing reads leaves every other its operation, dependencies and layout. -/
theorem Removed.frame (h : Removed p q id) (hl : p.Linked) (unread : p.usersOf id = []) :
    (∀ j, ∀ d ∈ p.depsOf j, d ≠ id) ∧ (∀ j, j ≠ id → q.taskOf j = p.taskOf j) ∧
    (∀ j, j ≠ id → q.depsOf j = p.depsOf j) ∧ ∀ j, j ≠ id → q.freshLayout j = p.freshLayout j := by
  have hread := hl.usersOf_eq_nil_iff.mp unread
  have hclosed : ∀ j, ∀ d ∈ p.depsOf j, d ≠ id := fun j d hd he => hread j (he ▸ hd)
  have hdeps : ∀ j, j ≠ id → q.depsOf j = p.depsOf j := fun j hj => by
    rw [h.deps, if_neg hj, Order.filter_ne_of_not_mem (hread j)]
  have htasks : ∀ j, j ≠ id → q.taskOf j = p.taskOf j := fun j hj => by
    rw [taskOf_eq_coreOf, h.core, if_neg hj, ← taskOf_eq_coreOf]
  refine ⟨hclosed, htasks, hdeps, fun j hj => ?_⟩
  exact freshLayout_frame (· ≠ id) h.kept.behaviours (fun i _ => hclosed i)
    (fun i hi => by rw [outlineOf_eq_taskOf, htasks i hi, outlineOf_eq_taskOf]) hdeps hj

/-- **What nothing reads is missed by nothing.** -/
theorem Removed.inherits (h : Removed p q id) (hl : p.Linked) (hunread : p.usersOf id = [])
    (hu : u ≠ id) : Inherits p q (fun d => d) u u := by
  obtain ⟨hclosed, htasks, hdeps, hlayouts⟩ := h.frame hl hunread
  refine ⟨htasks u hu, ?_, by rw [hdeps u hu, List.map_id'], fun d hd l hlaid => ?_⟩
  · rw [planOf_eq_coreOf, h.core, if_neg hu, ← planOf_eq_coreOf]
  · rw [hlayouts d (hclosed u d hd), hlaid]

/-- **Every node keeps its layout** when two become one, but for a dependency that was changed. -/
theorem Contracted.layouts (h : Contracted p q id input g) (hl : p.Linked)
    (hin : p.usersOf input = [id] ∨ g = fun t => t)
    (hid : ∀ l, p.freshLayout id = .ok l → (∀ d ∈ p.depsOf input, ∀ i, p.freshLayout d = .ok i →
      q.freshLayout (onto p id input d) = .ok i) → q.freshLayout (survivor p id input) = .ok l)
    (hj : p.freshLayout j = .ok l) :
    ((j = input → g = fun t => t) → q.freshLayout (onto p id input j) = .ok l) ∧
      ∀ d ∈ p.depsOf j, (d = input → g = fun t => t) → ∀ i, p.freshLayout d = .ok i →
        q.freshLayout (onto p id input d) = .ok i := by
  refine freshLayout_rec (motive := fun j l =>
    ((j = input → g = fun t => t) → q.freshLayout (onto p id input j) = .ok l) ∧
      ∀ d ∈ p.depsOf j, (d = input → g = fun t => t) → ∀ i, p.freshLayout d = .ok i →
        q.freshLayout (onto p id input d) = .ok i)
    (fun j task inputs l hlaid htask hdeps hlays => ?_) hj
  have hbelow : ∀ d ∈ p.depsOf j, (d = input → g = fun t => t) → ∀ i, p.freshLayout d = .ok i →
      q.freshLayout (onto p id input d) = .ok i := fun d hd hlive i hi => by
    obtain ⟨_, -, hi', hmotive⟩ := exists_mem_of_forall₂ hdeps d hd
    rw [hi, Except.ok.injEq] at hi'
    exact hi' ▸ hmotive.1 hlive
  refine ⟨fun hlive => ?_, hbelow⟩
  by_cases he : j = id
  · subst he
    rw [onto_id]
    refine hid l hlaid fun d hd i hi => ?_
    -- what the dependency reads keeps its layout, whatever became of the dependency
    rw [h.only] at hdeps
    obtain ⟨_, rfl, -, -, hmotive⟩ := forall₂_singleton hdeps
    exact hmotive d hd (fun hself => absurd hself (hl.dep_ne hd)) i hi
  · have hread : ∀ d ∈ p.depsOf j, ∀ i, p.freshLayout d = .ok i →
        q.freshLayout (onto p id input d) = .ok i := fun d hd i hi => by
      exact hbelow d hd (fun hself => hin.resolve_left fun husers =>
        he (hl.eq_of_usersOf husers (hself ▸ hd))) i hi
    refine freshLayout_iff.mpr ⟨task, inputs, ?_, ?_, h.kept.behaviours ▸ hlays⟩
    · by_cases hself : j = input
      · rw [hself, onto_input, h.task, hlive hself, Option.map_id', ← hself, htask]
      · rw [onto_of_ne he hself, h.tasks j he hself, htask]
    · have hmap : q.depsOf (onto p id input j) = (p.depsOf j).map (onto p id input) := by
        by_cases hself : j = input
        · rw [hself, onto_input, h.reads, h.map_onto hl]
        · rw [onto_of_ne he hself, h.deps j he hself]
      rw [hmap]
      exact forall₂_map_of_mem hread (hdeps.imp fun _ _ hd => hd.1)

/-- What the survivor inherits it has from the input. -/
theorem Extracted.plans (h : Extracted p q id input) (hl : p.Linked) :
    q.planOf (survivor p id input) = p.planOf input ∧
      ∀ j, j ≠ id → j ≠ input → q.planOf j = p.planOf j := by
  obtain ⟨r, hby, hq⟩ := h
  have hne := hby.ne hl
  split at hq
  case isTrue hid =>
    obtain ⟨-, s, hs, -, hren⟩ := hq
    rw [survivor, if_pos hid]
    constructor
    · rw [hren.plans, if_pos rfl, hs.plans, hby.plans, if_neg hne]
    · intro j hj hj'
      rw [hren.plans, if_neg hj, if_neg hj', hs.plans, hby.plans, if_neg hj]
  case isFalse hid =>
    rw [survivor, if_neg hid]
    constructor
    · rw [hq.plans, hby.plans, if_neg hne]
    · intro j hj _
      rw [hq.plans, hby.plans, if_neg hj]

end Edit

namespace Pass

variable {p q : Program} {id input u : String}

/-- **A literal in the place of a constant** leaves everything else as it was. -/
theorem Folded.inherits (h : Folded p q id) (hb : p.behaviours.find .data = .ok .data)
    (hu : u ≠ id) : Inherits p q (fun d => d) u u := by
  obtain ⟨prim, -, hreplaced⟩ := h.steps
  refine ⟨?_, ?_, ?_, fun d _ l hl => h.layouts hb d l hl⟩
  · rw [hreplaced.tasks, if_neg hu]
  · rw [hreplaced.plans, if_neg hu]
  · rw [hreplaced.deps, if_neg hu, List.map_id']

/-- **A reorder without effect** leaves all layouts as they were. -/
theorem Dropped.freshLayout (h : Dropped p q id input) (hl : p.Linked) {j : String} {l : Layout}
    (hj : p.freshLayout j = .ok l) : q.freshLayout (onto p id input j) = .ok l := by
  have hcon := h.extracted.contracted hl
  obtain ⟨l', hid, hinput⟩ := h.layout
  refine (hcon.layouts hl (Or.inr rfl) (fun k hk hdeps => ?_) hj).1 fun _ => rfl
  rw [hid] at hk
  cases hk
  obtain ⟨task, inputs, htask, hin, hlays⟩ := freshLayout_iff.mp hinput
  refine freshLayout_iff.mpr ⟨task, inputs, ?_, ?_, hcon.kept.behaviours ▸ hlays⟩
  · rw [hcon.task, Option.map_id', htask]
  · rw [hcon.reads, ← hcon.map_onto hl]
    exact forall₂_map_of_mem hdeps hin

/-- It is missed by nothing; its input has its place. -/
theorem Dropped.inherits (h : Dropped p q id input) (hl : p.Linked) (hu : q.contains u = true) :
    ∃ v, Inherits p q (onto p id input) v u := by
  have hcon := h.extracted.contracted hl
  obtain ⟨hplan, hplans⟩ := h.extracted.plans hl
  rcases hcon.exists_onto hu with rfl | ⟨hne, hne', -⟩
  · refine ⟨input, ?_, hplan, ?_, fun d _ l => h.freshLayout hl⟩
    · rw [hcon.task, Option.map_id']
    · rw [hcon.reads, hcon.map_onto hl]
  · exact ⟨u, hcon.tasks u hne hne', hplans u hne hne', hcon.deps u hne hne', fun d _ l =>
      h.freshLayout hl⟩

/-- **Where two reorders become one**, it has the layout of the second, and all but the first keep
theirs. -/
theorem freshLayout_merging {format : Format} {element : Element} {padding : Padding}
    {absorbed : Activation} {t : Task} {r : Reorder} {j : String} {l : Layout}
    (h : Contracted p q id input (merging format element padding)) (hl : p.Linked)
    (htask : p.taskOf id = some ⟨padding, .reorder ⟨"", format, element, []⟩, absorbed⟩)
    (ht : p.taskOf input = some t) (hr : t.operation = .reorder r) (husers : p.usersOf input = [id])
    (hne : j ≠ input) (hj : p.freshLayout j = .ok l) : q.freshLayout (onto p id input j) = .ok l := by
  obtain ⟨paddingIn, op, absorbedIn⟩ := t
  cases hr
  have hq : q.taskOf (survivor p id input)
      = some ⟨padding, .reorder { r with format, element }, absorbedIn⟩ := by
    rw [h.task, ht]
    rfl
  refine (h.layouts hl (Or.inl husers) (fun k hk hdeps => ?_) hj).1 fun he => absurd he hne
  obtain ⟨task, inputs, htask', hin, hlays⟩ := freshLayout_iff.mp hk
  rw [htask] at htask'
  cases htask'
  rw [h.only] at hin
  obtain ⟨i, rfl, hi⟩ := forall₂_singleton hin
  obtain ⟨_, inputs, ht', hread, hlays'⟩ := freshLayout_iff.mp hi
  rw [ht] at ht'
  cases ht'
  obtain ⟨hreg, first, rest, rfl, rfl⟩ := (Task.lays_reorder_iff rfl).mp hlays'
  obtain ⟨-, _, _, he, rfl⟩ := (Task.lays_reorder_iff rfl).mp hlays
  cases he
  refine freshLayout_iff.mpr ⟨_, first :: rest, hq, ?_, ?_⟩
  · rw [h.reads, ← h.map_onto hl]
    exact forall₂_map_of_mem hdeps hread
  · rw [h.kept.behaviours]
    exact (Task.lays_reorder_iff (r := { r with format, element }) rfl).mpr
      ⟨hreg, first, rest, rfl, rfl⟩

/-- **Merged reorders** have the layout of the second, so what read that is as it was. -/
theorem Merged.inherits {bound : Bool} (h : Merged p q bound id) (hl : p.Linked)
    (hinput : p.depsOf id = [input]) (hu : q.contains u = true) (hne : u ≠ survivor p id input) :
    Inherits p q (onto p id input) u u := by
  obtain ⟨input', format, element, padding, absorbed, t, r, hcon, htask, ht, hr, husers, -⟩ :=
    h.contracted hl
  obtain ⟨input'', survivor', _, _, _, q₁, q₂, hex, -, -, hwork, -, hplanned, -, hsurvivor, -⟩ :=
    h.steps
  obtain rfl : input = input' := (List.cons.inj (hinput.symm.trans hcon.only)).1
  obtain rfl : input = input'' := by
    exact (List.cons.inj (hinput.symm.trans (hex.contracted hl).only)).1
  obtain ⟨hid, hself, -⟩ := (hcon.exists_onto hu).resolve_left hne
  refine ⟨hcon.tasks u hid hself, ?_, hcon.deps u hid hself, fun d hd l =>
    freshLayout_merging hcon hl htask ht hr husers fun he => ?_⟩
  · rw [hplanned.plans u (hsurvivor ▸ hne), hwork.plans u (hsurvivor ▸ hne),
      (hex.plans hl).2 u hid hself]
  · exact hid (hl.eq_of_usersOf husers (he ▸ hd))

end Pass

end NetPlan

import NetPlan.Pass.Trim
import NetPlan.Proofs.Graph.Ordered
import NetPlan.Proofs.Graph.Resort

/-!
# Proofs/Pass/Trim — the first two passes

What no output depends on (`Needed`) is removed, inputs of the network apart (`trim_spec`).  Then
the nodes are ordered by level and all layouts are computed (`calculateLayouts_ends`).
-/

namespace NetPlan

open Program

/-- A node that an output depends on. -/
def Program.Needed (p : Program) (id : String) : Prop :=
  ∃ o ∈ p.outputs, Relation.ReflTransGen p.Reads id o

theorem Program.Needed.dep {p : Program} {u d : String} (h : p.Needed u) (hd : d ∈ p.depsOf u) :
    p.Needed d := by
  obtain ⟨o, ho, hr⟩ := h
  exact ⟨o, ho, hr.head hd⟩

theorem Program.argsOf_of_inputLayout {p : Program} {id : String} {l : Layout}
    (h : p.shapeOf id = some (.inputLayout l)) : p.argsOf id = [] := by
  obtain ⟨n, hn, hop⟩ := Option.map_eq_some_iff.mp h
  rw [argsOf_of_node? hn]
  cases hop' : n.operation with
  | inputLayout => rfl
  | _ =>
    rw [hop'] at hop
    cases hop

theorem Program.kind_eq_inputLayout_iff {p : Program} {id : String} {n : Node}
    (hn : p.node? id = some n) :
    n.kind = .inputLayout ↔ ∃ l, p.shapeOf id = some (.inputLayout l) := by
  rw [shapeOf, hn, Option.map_some, Node.kind]
  cases n.operation with
  | inputLayout l => exact iff_of_true rfl ⟨l, rfl⟩
  | _ =>
    refine iff_of_false (fun hk => by cases hk) ?_
    rintro ⟨l, hl⟩
    cases hl

namespace Edit

variable {p q r : Program} {id : String}

/-! ## What is needed -/

/-- A walk along dependencies changes nothing and goes where the edges go, unless a node is
missing. -/
theorem walk_dependencies_effect : ∀ (steps : Nat) (queue seen : List String),
    Ends (walk (fun id => do return (← node id).dependencies) steps queue seen)
      (fun found q => q = p ∧
        found = Id.run (walk (fun i => pure (p.depsOf i)) steps queue seen))
      (fun e _ => e.closes = false ∧
        ∃ i, ¬ p.contains i = true ∧ (i ∈ queue ∨ ∃ u, i ∈ p.depsOf u)) p
  | 0, _, _ => ⟨rfl, rfl⟩
  | _ + 1, [], _ => ⟨rfl, rfl⟩
  | steps + 1, id :: queue, seen => by
      rw [walk, walk]
      split
      · refine (walk_dependencies_effect steps queue seen).imp (fun _ _ hq => hq) fun _ _ hb => ?_
        obtain ⟨he, i, hi, hmem⟩ := hb
        exact ⟨he, i, hi, hmem.imp_left (List.mem_cons_of_mem id)⟩
      · rw [ends_bind, ends_bind, ends_node]
        refine ⟨fun n hn => ?_, fun hn => ⟨rfl, id, node?_eq_none.mp hn, Or.inl List.mem_cons_self⟩⟩
        have hdeps : n.dependencies = p.depsOf id := (depsOf_of_node? hn).symm
        rw [ends_pure, hdeps]
        refine (walk_dependencies_effect steps (queue ++ p.depsOf id) (id :: seen)).imp
          (fun _ _ hq => hq) fun _ _ hb => ?_
        obtain ⟨he, i, hi, hmem⟩ := hb
        refine ⟨he, i, hi, hmem.elim (fun hq => ?_) Or.inr⟩
        exact (List.mem_append.mp hq).imp (List.mem_cons_of_mem id) fun hd => ⟨id, hd⟩

/-- **What is needed for the outputs** is what they depend on. -/
theorem neededForOutputs_effect (h : p.Linked) :
    Ends neededForOutputs (fun needed q => q = p ∧ ∀ i, i ∈ needed ↔ p.Needed i)
      (fun e _ => e.closes = false ∧ ∃ o ∈ p.outputs, ¬ p.contains o = true) p := by
  rw [neededForOutputs, ends_bind, ends_get]
  have hkeys : ∀ i, i ∉ p.ids → p.depsOf i = [] := fun i hi =>
    depsOf_of_not_contains fun hc => hi (contains_iff_mem_ids.mp hc)
  have hsteps : p.outputs.length + unseen p.depsOf p.ids [] ≤ p.outputs.length + p.dependencyCount :=
    Nat.le_of_eq (by rw [sum_length_depsOf h.ids_nodup])
  refine (walk_dependencies_effect _ _ _).imp (fun found q hq => ⟨hq.1, fun i => ?_⟩) fun _ _ hb => ?_
  · rw [hq.2]
    exact mem_walk_iff hkeys hsteps i
  · obtain ⟨he, i, hi, hout | ⟨u, hd⟩⟩ := hb
    · exact ⟨he, i, hout, hi⟩
    · exact absurd (h.contains_dep hd) hi

/-! ## What goes -/

/-- `q` is `p` without some nodes. -/
structure Cleared (p q : Program) (doomed : List String) : Prop where
  kept : Kept p q
  core : ∀ j, q.coreOf j = if j ∈ doomed then none else p.coreOf j
  args : ∀ j, q.argsOf j = if j ∈ doomed then [] else p.argsOf j
  deps : ∀ j, q.depsOf j = if j ∈ doomed then [] else (p.depsOf j).filter (· ∉ doomed)
  thinned : Thinned p q []
  order : q.order.ids = p.order.ids.filter (· ∉ doomed)
  log : q.removed = p.removed ++ doomed

theorem Cleared.refl (h : p.Linked) : Cleared p p [] where
  kept := .refl h
  core _ := rfl
  args _ := rfl
  deps j := by simp
  thinned := .refl p []
  order := by simp
  log := (List.append_nil _).symm

theorem Cleared.removed {doomed : List String} (h : Cleared p q doomed) (h' : Removed q r id) :
    Cleared p r (doomed ++ [id]) := by
  have hmem : ∀ j, j ∈ doomed ++ [id] ↔ j ∈ doomed ∨ j = id := fun j => by simp
  refine ⟨h.kept.trans h'.kept, fun j => ?_, fun j => ?_, fun j => ?_, h.thinned.trans h'.thinned,
    ?_, by rw [h'.log, h.log, List.append_assoc]⟩
  · rw [h'.core, h.core]
    by_cases hj : j = id <;> by_cases hd : j ∈ doomed <;> simp [hj, hd]
  · rw [h'.args, h.args]
    by_cases hj : j = id <;> by_cases hd : j ∈ doomed <;> simp [hj, hd]
  · rw [h'.deps, h.deps]
    by_cases hj : j = id
    · simp [hj]
    · by_cases hd : j ∈ doomed
      · simp [hd]
      · simp [hj, hd, List.filter_filter, and_comm]
  · rw [h'.order, h.order]
    simp [List.filter_filter, and_comm]

section Closed

variable {doomed : List String} (h : Cleared p q doomed)
include h

theorem Cleared.shapes (j : String) : q.shapeOf j = if j ∈ doomed then none else p.shapeOf j := by
  rw [shapeOf_eq_coreOf, h.core, shapeOf_eq_coreOf]
  split <;> rfl

theorem Cleared.contains_iff (j : String) :
    q.contains j = true ↔ j ∉ doomed ∧ p.contains j = true := by
  rw [contains_eq_isSome_coreOf, h.core, contains_eq_isSome_coreOf]
  by_cases hj : j ∈ doomed <;> simp [hj]

/-- The users that stay are as they were. -/
theorem Cleared.users (hl : p.Linked) (j : String) :
    q.usersOf j = if j ∈ doomed then [] else (p.usersOf j).filter (· ∉ doomed) := by
  rw [h.thinned.users hl h.kept.linked List.not_mem_nil]
  split
  case isTrue hj =>
    refine List.filter_eq_nil_iff.mpr fun u _ => ?_
    rw [h.deps]
    split <;> simp [hj]
  case isFalse hj =>
    refine List.filter_congr fun u hu => decide_eq_decide.mpr ?_
    rw [h.deps]
    split <;> simp [*, (hl.edges j u).mpr hu]

/-- What stays reads what it read before, if all of that stays. -/
theorem Cleared.deps_of_closed (hclosed : ∀ u ∉ doomed, ∀ d ∈ p.depsOf u, d ∉ doomed) (j : String) :
    q.depsOf j = if j ∈ doomed then [] else p.depsOf j := by
  rw [h.deps]
  split
  · rfl
  case isFalse hj =>
    exact List.filter_eq_self.mpr fun d hd => decide_eq_true (hclosed j hj d hd)

theorem Cleared.aligned (hclosed : ∀ u ∉ doomed, ∀ d ∈ p.depsOf u, d ∉ doomed)
    (hp : p.Aligned) : q.Aligned := fun j => by
  rw [h.args, h.deps_of_closed hclosed, hp]

theorem Cleared.ordered (hp : p.Ordered) : q.Ordered where
  nodup := by
    rw [h.order]
    exact hp.nodup.filter _
  mem x := by
    rw [h.order, List.mem_filter, hp.mem, h.contains_iff]
    simp [and_comm]
  before u d hd := by
    rw [h.deps] at hd
    split at hd
    · cases hd
    case isFalse hu =>
      obtain ⟨hd, hne⟩ := List.mem_filter.mp hd
      rw [h.order]
      exact (hp.before u d hd).filter hne (decide_eq_true hu)

/-- Removing what is no output leaves the outputs. -/
theorem Cleared.marks (hmarks : ∀ j ∈ doomed, p.isMarked j = false) :
    q.isMarked = p.isMarked := funext fun j => by
  rw [isMarked_eq_coreOf, h.core]
  split
  case isTrue hj => exact (hmarks j hj).symm
  case isFalse => rw [isMarked_eq_coreOf]

end Closed

/-- Nodes that are there, each named once, can be removed. -/
theorem removeAll_effect (h : p.Linked) {doomed : List String} (hnodup : doomed.Nodup)
    (hcontains : ∀ j ∈ doomed, p.contains j = true) :
    Ends (forIn doomed PUnit.unit fun id _ => do
      remove id
      pure (ForInStep.yield PUnit.unit))
      (fun _ q => Cleared p q doomed ∧ (doomed = [] → q = p)) (fun _ _ => False) p := by
  refine ends_forIn (fun rest q => ∃ gone, doomed = gone ++ rest ∧ Cleared p q gone ∧
      (gone = [] → q = p))
    (fun id rest q hq => ?_) (fun q hq => ?_) doomed p ⟨[], rfl, .refl h, fun _ => rfl⟩
  · obtain ⟨gone, rfl, hcleared, -⟩ := hq
    rw [ends_bind]
    refine (remove_effect hcleared.kept.linked).imp (fun _ r hr => ⟨rfl, gone ++ [id], ?_, ?_⟩)
      fun e _ hb => ?_
    · rw [List.append_assoc]
      rfl
    · exact ⟨hcleared.removed hr, fun hnil => absurd hnil (by simp)⟩
    · have hnew : id ∉ gone := (Order.nodup_split_iff.mp hnodup).1
      refine node?_eq_none.mp hb.2.1 ((hcleared.contains_iff id).mpr ⟨hnew, hcontains id ?_⟩)
      simp
  · obtain ⟨gone, rfl, hcleared, hsame⟩ := hq
    rw [List.append_nil]
    exact ⟨hcleared, hsame⟩

/-- **Trimming** removes what no output depends on, inputs of the network apart, and counts it. -/
theorem trim_spec (h : p.Linked) :
    Ends trim
      (fun count q => ∃ doomed, count = doomed.length ∧ doomed.Nodup ∧
        doomed = p.order.ids.filter (· ∈ doomed) ∧ Cleared p q doomed ∧ (doomed = [] → q = p) ∧
        ∀ u, u ∈ doomed ↔
          u ∈ p.order.ids ∧ ¬ p.Needed u ∧ ¬ ∃ l, p.shapeOf u = some (.inputLayout l))
      (fun e _ => e.closes = false ∧ ∃ o ∈ p.outputs, ¬ p.contains o = true) p := by
  rw [trim, ends_bind]
  refine (neededForOutputs_effect h).imp_good fun needed q hq => ?_
  obtain ⟨rfl, hneeded⟩ := hq
  rw [ends_bind, ends_get]
  dsimp only
  rw [ends_bind]
  refine (removeAll_effect h (h.order_nodup.filter _) fun j hj =>
    h.order_contains j (List.mem_filter.mp hj).1).imp (fun _ r hr => ⟨_, rfl,
      h.order_nodup.filter _, ?_, hr.1, hr.2, fun u => ?_⟩) fun _ _ hb => hb.elim
  · refine List.filter_congr fun u hu => ?_
    rw [Bool.eq_iff_iff, decide_eq_true_eq, List.mem_filter]
    exact (and_iff_right hu).symm
  rw [List.mem_filter, Bool.and_eq_true, ← hneeded]
  refine and_congr_right fun hu => and_congr (by simp) ?_
  obtain ⟨n, hn⟩ := contains_iff.mp (h.order_contains u hu)
  rw [hn, decide_eq_true_eq]
  exact not_congr (kind_eq_inputLayout_iff hn)

theorem trim_effect (h : p.Linked) :
    Ends trim
      (fun _ q => ∃ doomed, Cleared p q doomed ∧ ∀ u, u ∈ doomed ↔
        u ∈ p.order.ids ∧ ¬ p.Needed u ∧ ¬ ∃ l, p.shapeOf u = some (.inputLayout l))
      (fun e _ => e.closes = false) p :=
  (trim_spec h).imp (fun _ _ ⟨doomed, _, _, _, hq, _, hdoomed⟩ => ⟨doomed, hq, hdoomed⟩)
    fun _ _ hb => hb.1

/-- `q` is what is needed of `p`. -/
structure Trimmed (p q : Program) : Prop where
  kept : Kept p q
  contains : ∀ j, q.contains j = true ↔
    p.contains j = true ∧ (p.Needed j ∨ ∃ l, p.shapeOf j = some (.inputLayout l))
  shapes : ∀ j, q.contains j = true → q.shapeOf j = p.shapeOf j
  deps : ∀ j, q.contains j = true → q.depsOf j = p.depsOf j
  marks : q.isMarked = p.isMarked
  ordered : q.Ordered
  aligned : q.Aligned

/-- What is needed reads what is needed, and an input of the network reads nothing. -/
theorem Cleared.trimmed {doomed : List String} (h : Cleared p q doomed)
    (hdoomed : ∀ u, u ∈ doomed ↔
      u ∈ p.order.ids ∧ ¬ p.Needed u ∧ ¬ ∃ l, p.shapeOf u = some (.inputLayout l))
    (hw : p.WellFormed) (ho : p.Ordered) (ha : p.Aligned) : Trimmed p q := by
  have hcontains : ∀ j, q.contains j = true ↔
      p.contains j = true ∧ (p.Needed j ∨ ∃ l, p.shapeOf j = some (.inputLayout l)) := fun j => by
    rw [h.contains_iff, hdoomed, ho.mem]
    tauto
  have hclosed : ∀ u ∉ doomed, ∀ d ∈ p.depsOf u, d ∉ doomed := by
    intro u hu d hd hdd
    have hc := contains_of_mem_depsOf hd
    obtain ⟨-, hneeded | ⟨l, hl⟩⟩ := (hcontains u).mp ((h.contains_iff u).mpr ⟨hu, hc⟩)
    · exact ((hdoomed d).mp hdd).2.1 (hneeded.dep hd)
    · rw [← ha, argsOf_of_inputLayout hl] at hd
      cases hd
  refine ⟨h.kept, hcontains, fun j hj => ?_, fun j hj => ?_, h.marks fun j hj => ?_,
    h.ordered ho, h.aligned hclosed ha⟩
  · rw [h.shapes, if_neg ((h.contains_iff j).mp hj).1]
  · rw [h.deps_of_closed hclosed, if_neg ((h.contains_iff j).mp hj).1]
  · by_contra hm
    rw [Bool.not_eq_false] at hm
    exact ((hdoomed j).mp hj).2.1 ⟨j, (hw.mem_outputs j).mpr hm, .refl⟩

end Edit

namespace Pass

open Edit

variable {c : Compilation}

/-- **The first layouts**: the nodes are ordered by level. -/
theorem calculateLayouts_ends (hl : c.program.Linked) (hc : c.program.Coherent) :
    Ends calculateLayouts
      (fun _ c' => c'.preferences = c.preferences ∧ ∃ p, Reordered c.program p ∧
        (∀ u ∈ p.order.ids, ∀ d ∈ p.depsOf u, Before p.order.ids d u) ∧ Filled p c'.program)
      (fun e _ => e.closes = false) c := by
  rw [calculateLayouts, ends_bind, Transform.ends_liftM]
  refine (sortByLevel_effect hl).imp_good fun _ p hp => ?_
  rw [ends_bind, Transform.ends_liftM]
  exact (layoutAll_effect (hp.1.kept.coherent hc)).imp_good
    fun _ q hq => ⟨rfl, p, hp.1, hp.2, hq⟩

end Pass

end NetPlan

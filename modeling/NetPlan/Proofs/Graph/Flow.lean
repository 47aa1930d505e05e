import NetPlan.Proofs.Graph.Constant
import NetPlan.Proofs.Graph.Reach

/-!
# Proofs/Graph/Flow — what the data flow reaches

The data flow is marked from its ends, the nodes not constant that are outputs or read by nothing
(`Drain`).  The walk goes back along the dependencies and turns round at constants, so it marks what
leads to an end without a constant on the way (`Flows`).

* `markDataFlow_flow` — marking never fails, and these are marked and no others;
* `flows_iff` — where no constant reads a node that is none, they are all that is not constant.
-/

namespace NetPlan

namespace Program

variable {p q : Program} {id : String} {n : Node}

/-- What the walk goes on to from a node: its dependencies, unless it is constant. -/
def feeders (p : Program) (id : String) : List String :=
  if p.isVariable id then p.depsOf id else []

/-- An end of the data flow: not constant, and an output or read by nothing. -/
def Drain (p : Program) (id : String) : Prop :=
  p.isVariable id = true ∧ (p.usersOf id = [] ∨ p.isMarked id = true)

/-- Not constant, and an end of the data flow is reached from here without a constant on the way. -/
def Flows (p : Program) (id : String) : Prop :=
  p.isVariable id = true ∧
    ∃ o, p.Drain o ∧ Relation.ReflTransGen (fun d u => d ∈ p.feeders u) id o

/-- `q` is `p` with the marks of the data flow. -/
def Traced (p q : Program) : Prop :=
  ∀ id n, p.node? id = some n → ∃ flow,
    q.node? id = some { n with isDataFlow := flow } ∧ (flow = true ↔ p.Flows id)

theorem isVariable_of_node? (hn : p.node? id = some n) : p.isVariable id = !n.isConstant := by
  rw [isVariable, hn]

theorem isVariable_iff : p.isVariable id = true ↔ p.contains id = true ∧ p.isConstant id = false := by
  rw [isVariable, contains, isConstant]
  cases p.node? id <;> simp

/-- The ids of some of the nodes. -/
theorem mem_map_id_filter (h : p.ids.Nodup) {keep : Node → Bool} :
    id ∈ (p.nodes.filter keep).map (·.id) ↔ ∃ n, p.node? id = some n ∧ keep n = true := by
  rw [List.mem_map]
  constructor
  · rintro ⟨n, hn, rfl⟩
    obtain ⟨hmem, hkeep⟩ := List.mem_filter.mp hn
    exact ⟨n, node?_of_mem h hmem, hkeep⟩
  · rintro ⟨n, hn, hkeep⟩
    exact ⟨n, List.mem_filter.mpr ⟨(node?_eq_some hn).1, hkeep⟩, id_of_node? hn⟩

theorem drain_iff_of_node? (hn : p.node? id = some n) :
    p.Drain id ↔ (!n.isConstant && (n.isEndpoint || n.isOutput)) = true := by
  rw [Drain, isVariable_of_node? hn, usersOf_of_node? hn, isMarked_of_node? hn, Bool.and_eq_true,
    Bool.or_eq_true, Node.isEndpoint, List.isEmpty_iff]

theorem length_feeders_le (p : Program) (id : String) :
    (p.feeders id).length ≤ (p.depsOf id).length := by
  rw [feeders]
  split
  · exact Nat.le_refl _
  · exact Nat.zero_le _

/-- **All that is not constant flows**, where no constant reads it. -/
theorem flows_iff (hl : p.Linked) (ho : p.Ordered)
    (hup : ∀ u d, d ∈ p.depsOf u → p.isVariable d = true → p.isVariable u = true) :
    p.Flows id ↔ p.isVariable id = true := by
  refine ⟨fun h => h.1, ?_⟩
  -- what nothing reads is an end itself, and the others lead to where their users lead
  refine ho.induction_users (motive := fun d => p.isVariable d = true → p.Flows d)
    (fun d ih hd => ?_) id
  cases husers : p.usersOf d with
  | nil => exact ⟨hd, d, ⟨hd, Or.inl husers⟩, .refl⟩
  | cons u us =>
    have hread : d ∈ p.depsOf u := (hl.edges d u).mpr (by rw [husers]; exact List.mem_cons_self)
    have hu := hup u d hread hd
    obtain ⟨-, o, ho, hr⟩ := ih u hread hu
    refine ⟨hd, o, ho, .head ?_ hr⟩
    rwa [feeders, if_pos hu]

end Program

namespace Edit

open Program

variable {p q : Program} {id : String} {seen : List String}

/-- The nodes of a list marked, unless they are constant, and no others. -/
def FlowUpTo (p q : Program) (seen : List String) : Prop :=
  ∀ j, q.node? j = (p.node? j).map fun n =>
    { n with isDataFlow := !n.isConstant && seen.contains j }

theorem flowUpTo_nil (p : Program) :
    FlowUpTo p (p.updateAll fun n => { n with isDataFlow := false }) [] := fun j => by
  rw [node?_updateAll (f := fun n : Node => { n with isDataFlow := false }) fun _ => rfl]
  simp

/-- A constant is seen without being marked. -/
theorem FlowUpTo.constant (h : FlowUpTo p q seen) (hid : p.isVariable id = false) :
    FlowUpTo p q (id :: seen) := fun j => by
  rw [h]
  refine Option.map_congr fun n hn => ?_
  by_cases hj : j = id
  · rw [← hj, isVariable_of_node? hn] at hid
    rw [hid, Bool.false_and, Bool.false_and]
  · simp [hj]

theorem FlowUpTo.visited (h : FlowUpTo p q seen) (hid : p.isVariable id = true) :
    FlowUpTo p (q.update id fun m => { m with isDataFlow := true }) (id :: seen) := fun j => by
  rw [node?_update (f := fun m : Node => { m with isDataFlow := true }) fun _ => rfl, h]
  by_cases hj : j = id
  · rw [if_pos hj, Option.map_map]
    refine Option.map_congr fun n hn => ?_
    rw [← hj, isVariable_of_node? hn] at hid
    simp [hj, hid]
  · simp [hj]

/-- **The walk marks what it sees**, and sees what feeds its start. -/
theorem walk_flow (h : p.Linked) : ∀ (steps : Nat) (queue seen : List String) {q : Program},
    FlowUpTo p q seen → (∀ i ∈ queue, p.contains i = true) →
    Ends (walk (fun id => do
        let n ← node id
        if n.isConstant then
          return []
        change id fun m => { m with isDataFlow := true }
        return n.dependencies) steps queue seen)
      (fun found r => FlowUpTo p r found ∧
        found = Id.run (walk (fun i => pure (p.feeders i)) steps queue seen))
      (fun _ _ => False) q
  | 0, _, _, _, hq, _ => ⟨hq, rfl⟩
  | _ + 1, [], _, _, hq, _ => ⟨hq, rfl⟩
  | steps + 1, id :: queue, seen, q, hq, hqueue => by
      obtain ⟨hid, hrest⟩ := List.forall_mem_cons.mp hqueue
      rw [walk, walk]
      split
      · exact walk_flow h steps queue seen hq hrest
      obtain ⟨n, hn⟩ := contains_iff.mp hid
      have hn' : q.node? id = _ := (hq id).trans (congrArg _ hn)
      rw [Option.map_some] at hn'
      rw [ends_bind, ends_bind, ends_node]
      refine ⟨fun m hm => ?_, fun hnone => by rw [hn'] at hnone; cases hnone⟩
      rw [hn'] at hm
      cases hm
      have hvar := isVariable_of_node? hn
      dsimp only
      split
      case isTrue hc =>
        rw [hc, Bool.not_true] at hvar
        have hnone : p.feeders id = [] := by rw [feeders, hvar, if_neg Bool.false_ne_true]
        rw [ends_pure, hnone]
        refine walk_flow h steps (queue ++ []) (id :: seen) (hq.constant hvar) fun i hi => ?_
        rw [List.append_nil] at hi
        exact hrest i hi
      case isFalse hc =>
        rw [Bool.not_eq_true] at hc
        rw [hc, Bool.not_false] at hvar
        have hdeps : p.feeders id = n.dependencies := by
          rw [feeders, if_pos hvar, depsOf_of_node? hn]
        rw [ends_bind, ends_change]
        refine ⟨fun _ _ => ?_, fun hnone => by rw [hn'] at hnone; cases hnone⟩
        rw [ends_pure, ← hdeps]
        refine walk_flow h steps (queue ++ p.feeders id) (id :: seen) (hq.visited hvar)
          fun i hi => (List.mem_append.mp hi).elim (hrest i) fun hmem => ?_
        rw [hdeps, ← depsOf_of_node? hn] at hmem
        exact h.contains_dep hmem

/-- **Marking the data flow** marks what flows. -/
theorem markDataFlow_flow (h : p.Linked) :
    Ends markDataFlow (fun _ q => Traced p q) (fun _ _ => False) p := by
  rw [markDataFlow, ends_bind, ends_modify, ends_bind, ends_get]
  dsimp only
  generalize hclear : p.updateAll (fun n => { n with isDataFlow := false }) = p₁
  have hp₁ : FlowUpTo p p₁ [] := hclear ▸ flowUpTo_nil p
  have hcount : p₁.dependencyCount = p.dependencyCount := by
    rw [← hclear, dependencyCount, dependencyCount, updateAll, List.map_map]
    rfl
  have hids : p₁.ids = p.ids := by
    rw [← hclear]
    exact ids_updateAll (f := fun n : Node => { n with isDataFlow := false }) fun _ => rfl
  generalize hstarts : p₁.nodes.filter _ = starts
  have hdrain : ∀ i, i ∈ starts.map (·.id) ↔ p.Drain i := fun i => by
    rw [← hstarts, mem_map_id_filter (hids ▸ h.ids_nodup), hp₁]
    cases hn : p.node? i with
    | none => simp [Drain, isVariable, hn]
    | some n => simp [drain_iff_of_node? hn, Node.isEndpoint]
  rw [ends_bind]
  refine (walk_flow h _ _ [] hp₁ fun i hi => ?_).imp_good fun found q hq id n hn => ?_
  · exact (isVariable_iff.mp ((hdrain i).mp hi).1).1
  obtain ⟨hflow, hfound⟩ := hq
  have hkeys : ∀ i, i ∉ p.ids → p.feeders i = [] := fun i hi => by
    rw [feeders, depsOf_of_not_contains fun hc => hi (contains_iff_mem_ids.mp hc), ite_self]
  have hsteps : (starts.map (·.id)).length + unseen p.feeders p.ids []
      ≤ starts.length + p₁.dependencyCount := by
    rw [List.length_map, hcount, ← sum_length_depsOf h.ids_nodup]
    exact Nat.add_le_add_left (unseen_mono (length_feeders_le p) _ _) _
  refine ⟨!n.isConstant && found.contains id, by rw [hflow, hn, Option.map_some], ?_⟩
  rw [Bool.and_eq_true, ← isVariable_of_node? hn, List.contains_iff_mem, hfound,
    mem_walk_iff hkeys hsteps]
  exact and_congr_right fun _ => exists_congr fun o => and_congr_left fun _ => hdrain o

end Edit

end NetPlan

import NetPlan.Proofs.Graph.Insert
import NetPlan.Proofs.Graph.Ordered

/-!
# Proofs/Graph/Constant — which nodes are constant

Marking goes over the nodes and sets flags; the graph stays as it is.

Literals are constant, and so is what reads constants and nothing else (`Constant`).  The marks are
set in processing order, so that those of the dependencies are right when a node is looked at: at the
end (`Marked`) the mark of a node says whether it is constant, and the mark of the frontier whether
something reads it that is not.
-/

namespace NetPlan.Edit

/-! ## Marks are flags -/

open Program

variable {p : Program}

/-- **Marking constants** sets flags. -/
theorem markConstants_effect (h : p.Linked) :
    Ends markConstants (fun _ q => Reflagged p q) (fun e _ => e.closes = false) p := by
  rw [markConstants, ends_bind, ends_get, ends_bind]
  refine ends_forIn (fun _ q => Reflagged p q) (fun id _ q hq => ?_) (fun q hq => ?_) _ p (.refl h)
  · rw [ends_bind, ends_node]
    refine ⟨fun n _ => ?_, fun _ => rfl⟩
    rw [ends_bind, ends_get, ends_bind]
    exact (reflagged_change hq.kept.linked
      (fun m => { m with isConstant := isConstantIn q n, isFrontier := false })
      (fun _ => ⟨⟨rfl, rfl, rfl, rfl, rfl⟩, rfl⟩) fun _ => rfl).imp
      (fun _ r hr => ⟨rfl, hq.trans hr⟩) fun _ _ hb => hb.1
  rw [ends_bind, ends_get, ends_bind]
  refine ends_forIn (fun _ r => Reflagged p r) (fun id _ r hr => ?_) (fun r hr => hr) _ q hq
  rw [ends_bind, ends_node]
  refine ⟨fun n _ => ?_, fun _ => rfl⟩
  split
  · rw [ends_bind]
    refine ends_forIn (fun _ s => Reflagged p s) (fun dep _ s hs => ?_) (fun s hs => ⟨rfl, hs⟩) _ r hr
    rw [ends_bind]
    refine (reflagged_change hs.kept.linked
      (fun m => if m.isConstant then { m with isFrontier := true } else m) (fun m => ?_)
      fun m => ?_).imp (fun _ t ht => ⟨rfl, hs.trans ht⟩) fun _ _ hb => hb.1
    · exact Node.SameWork.ite (m := { m with isFrontier := true }) (n := m)
        ⟨⟨rfl, rfl, rfl, rfl, rfl⟩, rfl⟩ _
    · split <;> rfl
  · exact ⟨rfl, hr⟩

/-- **Marking the data flow** sets flags. -/
theorem markDataFlow_effect (h : p.Linked) :
    Ends markDataFlow (fun _ q => Reflagged p q) (fun e _ => e.closes = false) p := by
  rw [markDataFlow, ends_bind, ends_modify, ends_bind, ends_get]
  have hclear : Reflagged p (p.updateAll fun n => { n with isDataFlow := false }) :=
    reflagged_updateAll (f := fun n : Node => { n with isDataFlow := false })
      (fun _ => ⟨⟨rfl, rfl, rfl, rfl, rfl⟩, rfl⟩) h fun _ => rfl
  dsimp only
  rw [ends_bind]
  refine ends_walk (fun q => Reflagged p q) (fun id q hq => ?_) _ _ _ _ hclear
  rw [ends_bind, ends_node]
  refine ⟨fun n _ => ?_, fun _ => rfl⟩
  split
  · exact hq
  · rw [ends_bind]
    exact (reflagged_change hq.kept.linked (fun m => { m with isDataFlow := true })
      (fun _ => ⟨⟨rfl, rfl, rfl, rfl, rfl⟩, rfl⟩) fun _ => rfl).imp (fun _ r hr => hq.trans hr)
      fun _ _ hb => hb.1

end NetPlan.Edit

/-! ## Constants and their marks -/

namespace NetPlan

namespace Program

/-- Literals, and nodes with dependencies that are all constant, inputs of the network apart. -/
inductive Constant (p : Program) : String → Prop
  | literal {id : String} {n : Node} (there : p.node? id = some n) (kind : n.kind = .data) :
      Constant p id
  | computed {id : String} {n : Node} (there : p.node? id = some n)
      (kind : n.kind ≠ .inputLayout) (reads : n.dependencies ≠ [])
      (constant : ∀ d ∈ n.dependencies, Constant p d) : Constant p id

/-- Constants that something not constant reads. -/
def Frontier (p : Program) (id : String) : Prop :=
  p.Constant id ∧ ∃ u ∈ p.usersOf id, ¬ p.Constant u

/-- `q` is `p` with the marks of constants and of the frontier. -/
def Marked (p q : Program) : Prop :=
  ∀ id n, p.node? id = some n → ∃ constant frontier,
    q.node? id = some { n with isConstant := constant, isFrontier := frontier } ∧
      (constant = true ↔ p.Constant id) ∧ (frontier = true ↔ p.Frontier id)

variable {p q : Program} {id : String} {n : Node}

theorem constant_iff (hn : p.node? id = some n) : p.Constant id ↔
    n.kind = .data ∨
      n.kind ≠ .inputLayout ∧ n.dependencies ≠ [] ∧ ∀ d ∈ n.dependencies, p.Constant d := by
  constructor
  · intro h
    cases h with
    | literal there kind =>
      rw [hn] at there
      cases there
      exact Or.inl kind
    | computed there kind reads constant =>
      rw [hn] at there
      cases there
      exact Or.inr ⟨kind, reads, constant⟩
  · rintro (hk | ⟨hk, hreads, hall⟩)
    · exact .literal hn hk
    · exact .computed hn hk hreads hall

theorem Constant.contains (h : p.Constant id) : p.contains id = true := by
  cases h with
  | literal there => exact contains_of_node? there
  | computed there => exact contains_of_node? there

/-- What the check of a node asks for, in terms of the marks of its dependencies. -/
theorem isConstantIn_iff_marks : Edit.isConstantIn q n = true ↔ n.kind = .data ∨
    n.kind ≠ .inputLayout ∧ n.dependencies ≠ [] ∧ ∀ d ∈ n.dependencies, q.isConstant d = true := by
  rw [Edit.isConstantIn]
  split
  case h_1 hk => simp [hk]
  case h_2 hk => simp [hk]
  case h_3 hdata hinput =>
    rw [Bool.and_eq_true, List.all_eq_true, Bool.not_eq_true', List.isEmpty_eq_false_iff,
      or_iff_right hdata, and_iff_right hinput]

/-- **One node at a time**: the check of a node is right if the marks of its dependencies are. -/
theorem isConstantIn_iff (hn : p.node? id = some n)
    (hdeps : ∀ d ∈ n.dependencies, q.isConstant d = true ↔ p.Constant d) :
    Edit.isConstantIn q n = true ↔ p.Constant id := by
  rw [constant_iff hn, isConstantIn_iff_marks, forall₂_congr hdeps]

theorem Marked.isConstant_iff (h : Marked p q) (hid : p.contains id = true) :
    q.isConstant id = true ↔ p.Constant id := by
  obtain ⟨n, hn⟩ := contains_iff.mp hid
  obtain ⟨constant, frontier, hm, hconstant, -⟩ := h id n hn
  rw [isConstant, hm]
  exact hconstant

end Program

namespace Edit

open Program

variable {p q : Program} {done rest : List String} {id : String}

/-- The nodes of a list marked, the others as they were. -/
def MarkedUpTo (p q : Program) (mark : String → Bool) (done : List String) : Prop :=
  q.order = p.order ∧ ∀ j, q.node? j = (p.node? j).map fun n =>
    if j ∈ done then { n with isConstant := mark j, isFrontier := false } else n

theorem markedUpTo_nil (p : Program) (mark : String → Bool) : MarkedUpTo p p mark [] :=
  ⟨rfl, fun j => by simp⟩

/-- One round of the first loop. -/
theorem MarkedUpTo.step {mark : String → Bool} (hmark : ∀ j, mark j = true ↔ p.Constant j)
    (ho : p.Ordered) (hsplit : p.order.ids = done ++ id :: rest) (hq : MarkedUpTo p q mark done)
    {n : Node} (hn : q.node? id = some n) :
    MarkedUpTo p
      (q.update id fun m => { m with isConstant := isConstantIn q n, isFrontier := false }) mark
      (done ++ [id]) := by
  have hnodup := ho.nodup
  rw [hsplit] at hnodup
  have hnew : id ∉ done := (Order.nodup_split_iff.mp hnodup).1
  have hn' : p.node? id = some n := by
    rw [hq.2] at hn
    obtain ⟨m, hm, hmn⟩ := Option.map_eq_some_iff.mp hn
    rwa [if_neg hnew, ← hmn] at *
  have hconst : isConstantIn q n = mark id := by
    rw [Bool.eq_iff_iff, hmark]
    refine isConstantIn_iff hn' fun d hd => ?_
    -- a dependency stands before the node, so it is marked
    have hbefore := ho.before id d (depsOf_of_node? hn' ▸ hd)
    have hdone : d ∈ done := by
      rw [hsplit] at hbefore
      rcases List.mem_append.mp hbefore.mem_left with hmem | hmem
      · exact hmem
      rcases List.mem_cons.mp hmem with rfl | hmem
      · exact absurd hbefore (Before.irrefl hnodup d)
      · refine absurd hbefore (Before.asymm hnodup ?_)
        exact before_iff_append.mpr ⟨done ++ [id], rest, by simp, by simp, hmem⟩
    obtain ⟨m, hm⟩ := contains_iff.mp ((ho.mem d).mp hbefore.mem_left)
    rw [← hmark, isConstant, hq.2, hm, Option.map_some, if_pos hdone]
  refine ⟨hq.1, fun j => ?_⟩
  rw [node?_update (f := fun m : Node =>
    { m with isConstant := isConstantIn q n, isFrontier := false }) (fun _ => rfl), hconst, hq.2]
  by_cases hj : j = id
  · subst hj
    rw [if_pos rfl, Option.map_map]
    simp [hnew, Function.comp_def]
  · simp [hj]

/-- Constants marked, and as the frontier those that are read from the list and from `deps`. -/
def FrontierUpTo (p q : Program) (mark : String → Bool) (done deps : List String) : Prop :=
  q.order = p.order ∧ ∀ j, q.node? j = (p.node? j).map fun n =>
    { n with
      isConstant := mark j
      isFrontier := mark j &&
        (done.any (fun u => !mark u && (p.depsOf u).contains j) || deps.contains j) }

theorem MarkedUpTo.frontier {mark : String → Bool} (hq : MarkedUpTo p q mark p.order.ids)
    (ho : p.Ordered) : FrontierUpTo p q mark [] [] := by
  refine ⟨hq.1, fun j => ?_⟩
  rw [hq.2]
  cases hn : p.node? j with
  | none => rfl
  | some n =>
    rw [Option.map_some, if_pos ((ho.mem j).mpr (contains_of_node? hn))]
    simp

theorem FrontierUpTo.dep {mark : String → Bool} {deps : List String} {d : String}
    (hq : FrontierUpTo p q mark done deps) :
    FrontierUpTo p (q.update d fun m => if m.isConstant then { m with isFrontier := true } else m)
      mark done (deps ++ [d]) := by
  refine ⟨hq.1, fun j => ?_⟩
  rw [node?_update (f := fun m : Node => if m.isConstant then { m with isFrontier := true } else m)
    (fun m => by split <;> rfl), hq.2]
  by_cases hj : j = d
  · subst hj
    rw [if_pos rfl, Option.map_map]
    refine congrArg (fun f => (p.node? j).map f) (funext fun n => ?_)
    cases mark j <;> simp
  · simp [hj]

theorem FrontierUpTo.next {mark : String → Bool}
    (hq : FrontierUpTo p q mark done (if mark id then [] else p.depsOf id)) :
    FrontierUpTo p q mark (done ++ [id]) [] := by
  refine ⟨hq.1, fun j => ?_⟩
  rw [hq.2]
  refine congrArg (fun f => (p.node? j).map f) (funext fun n => ?_)
  cases hid : mark id <;> simp [hid]

/-- **Marking constants** sets the marks right. -/
theorem markConstants_marked (h : p.Linked) (ho : p.Ordered) :
    Ends markConstants (fun _ q => Marked p q) (fun _ _ => False) p := by
  classical
  let mark : String → Bool := fun j => decide (p.Constant j)
  have hmark : ∀ j, mark j = true ↔ p.Constant j := fun j => decide_eq_true_iff
  rw [markConstants, ends_bind, ends_get, ends_bind]
  refine ends_forIn (fun rest q => ∃ done, p.order.ids = done ++ rest ∧ MarkedUpTo p q mark done)
    (fun id rest q hq => ?_) (fun q hq => ?_) _ p ⟨[], rfl, markedUpTo_nil p mark⟩
  · obtain ⟨done, hsplit, hq⟩ := hq
    have hthere : q.node? id ≠ none := by
      obtain ⟨n, hn⟩ := contains_iff.mp (h.order_contains id (by rw [hsplit]; simp))
      rw [hq.2, hn]
      simp
    rw [ends_bind, ends_node]
    refine ⟨fun n hn => ?_, fun hnone => hthere hnone⟩
    rw [ends_bind, ends_get, ends_bind, ends_change]
    refine ⟨fun _ _ => ⟨rfl, done ++ [id], by simp [hsplit], ?_⟩, fun hnone => hthere hnone⟩
    exact hq.step hmark ho hsplit hn
  obtain ⟨done, hsplit, hq⟩ := hq
  rw [List.append_nil] at hsplit
  have hfrontier := (hsplit ▸ hq).frontier ho
  rw [ends_bind, ends_get, hfrontier.1, ends_bind]
  refine ends_forIn
    (fun rest r => ∃ done, p.order.ids = done ++ rest ∧ FrontierUpTo p r mark done [])
    (fun id rest r hr => ?_) (fun r hr => ?_) _ q ⟨[], rfl, hfrontier⟩
  · obtain ⟨done, hsplit, hr⟩ := hr
    obtain ⟨n, hn⟩ := contains_iff.mp (h.order_contains id (by rw [hsplit]; simp))
    rw [ends_bind, ends_node]
    refine ⟨fun m hm => ?_, fun hnone => ?_⟩
    · rw [hr.2, hn, Option.map_some] at hm
      cases hm
      have hdone : ∀ s, FrontierUpTo p s mark done (if mark id then [] else p.depsOf id) →
          ∃ done, p.order.ids = done ++ rest ∧ FrontierUpTo p s mark done [] := fun s hs =>
        ⟨done ++ [id], by simp [hsplit], hs.next⟩
      dsimp only
      split
      case isTrue hvar =>
        rw [Bool.not_eq_true'] at hvar
        rw [ends_bind]
        refine ends_forIn (fun rest' s => ∃ deps, n.dependencies = deps ++ rest' ∧
            FrontierUpTo p s mark done deps) (fun d rest' s hs => ?_) (fun s hs => ?_) _ r
          ⟨[], rfl, hr⟩
        · obtain ⟨deps, hdeps, hs⟩ := hs
          have hd : d ∈ p.depsOf id := by
            rw [depsOf_of_node? hn, hdeps]
            simp
          obtain ⟨m, hm⟩ := contains_iff.mp (h.contains_dep hd)
          rw [ends_bind, ends_change]
          refine ⟨fun _ _ => ⟨rfl, deps ++ [d], by simp [hdeps], hs.dep⟩, fun hnone => ?_⟩
          rw [hs.2, hm] at hnone
          cases hnone
        · obtain ⟨deps, hdeps, hs⟩ := hs
          rw [List.append_nil] at hdeps
          refine ⟨rfl, hdone s ?_⟩
          rw [hvar, if_neg Bool.false_ne_true, depsOf_of_node? hn, hdeps]
          exact hs
      case isFalse hconst =>
        rw [Bool.not_eq_true', Bool.not_eq_false] at hconst
        refine ⟨rfl, hdone r ?_⟩
        rwa [hconst, if_pos rfl]
    · rw [hr.2, hn] at hnone
      cases hnone
  · obtain ⟨done, hsplit, hr⟩ := hr
    rw [List.append_nil] at hsplit
    intro id n hn
    refine ⟨mark id, mark id && p.order.ids.any fun u => !mark u && (p.depsOf u).contains id, ?_,
      hmark id, ?_⟩
    · rw [hr.2, hn, Option.map_some, ← hsplit, List.contains_nil, Bool.or_false]
    rw [Bool.and_eq_true, hmark, Frontier]
    refine and_congr_right fun _ => ?_
    simp only [List.any_eq_true, Bool.and_eq_true, Bool.not_eq_true', List.contains_eq_mem,
      decide_eq_true_eq]
    constructor
    · rintro ⟨u, -, hu, hd⟩
      refine ⟨u, (h.edges id u).mp hd, fun hc => ?_⟩
      rw [(hmark u).mpr hc] at hu
      cases hu
    · rintro ⟨u, hu, hc⟩
      exact ⟨u, (ho.mem u).mpr (h.contains_user hu), Bool.eq_false_iff.mpr fun hm =>
        hc ((hmark u).mp hm), (h.edges id u).mpr hu⟩

/-- **Whether a node is constant can be computed.** -/
theorem constant_iff_isConstant (h : p.Linked) (ho : p.Ordered) (id : String) :
    p.Constant id ↔ (markConstants.run.run p).2.isConstant id = true := by
  refine Ends.final ((markConstants_effect h).and (markConstants_marked h ho))
    (fun q => p.Constant id ↔ q.isConstant id = true) (fun _ q hq => ?_) fun _ _ hb => hb.2.elim
  by_cases hid : p.contains id = true
  · exact (hq.2.isConstant_iff hid).symm
  · refine iff_of_false (fun hc => hid hc.contains) fun hc => hid ?_
    rw [isConstant_eq_flagsOf] at hc
    rw [← hq.1.contains, contains]
    cases hn : q.node? id with
    | none => simp [flagsOf, hn] at hc
    | some n => rfl

end Edit

end NetPlan

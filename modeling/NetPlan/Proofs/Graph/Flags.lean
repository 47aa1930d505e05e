import NetPlan.Proofs.Graph.Contract
import NetPlan.Proofs.Graph.Flow
import NetPlan.Proofs.Graph.Resort

/-!
# Proofs/Graph/Flags — flags that are exact

A node is due to be constant if it is a literal, or computes something from dependencies that are marked
constant (`Due`).  The flags of a graph are exact if the nodes marked constant are those that are due,
and the others are marked as part of the data flow (`Flagged`).  `markConstants` and `markDataFlow` make
them so (`mark_flagged`).

Exact flags are a matter of the kind of each node and the flags of what it reads, so an edit that
copies flags from node to node keeps them exact if both stay the same (`Flagged.of_views`):

* a node that goes is read by nothing, or its only dependency has the flags it had
  (`Flagged.flagsOf_of_only`), and stands for it in `Flagged.contracted`;
* a node that comes gets the flags of its only dependency (`Flagged.inserted`, `Flagged.shared`).
-/

namespace NetPlan

namespace Program

variable {p q : Program} {id input i j : String} {n : Node} {op : Operation}

/-- The kind of a node. -/
def kindOf (p : Program) (id : String) : Option OpKind := (p.shapeOf id).map (·.kind)

/-- The node is a literal, or reads something, nothing that is not marked constant, and is no input of
the network. -/
def Due (p : Program) (id : String) : Prop :=
  p.kindOf id = some .data ∨
    p.kindOf id ≠ some .inputLayout ∧ p.depsOf id ≠ [] ∧ ∀ d ∈ p.depsOf id, p.isConstant d = true

/-- Nodes are marked constant if they are due, and else as part of the data flow. -/
structure Flagged (p : Program) : Prop where
  constant : ∀ id, p.contains id = true → (p.isConstant id = true ↔ p.Due id)
  dataFlow : ∀ id, p.contains id = true → p.flagsOf id = some (p.isConstant id, !p.isConstant id)

/-! ## What is due -/

theorem kindOf_of_node? (hn : p.node? id = some n) : p.kindOf id = some n.kind := by
  rw [kindOf, shapeOf, hn, Option.map_some, Option.map_some, Operation.kind_shape, Node.kind]

theorem kindOf_of_shapeOf (h : p.shapeOf id = some op) : p.kindOf id = some op.kind := by
  rw [kindOf, h, Option.map_some]

theorem kindOf_congr (h : q.shapeOf j = p.shapeOf i) : q.kindOf j = p.kindOf i := by
  rw [kindOf, h, kindOf]

theorem kindOf_eq_taskOf (p : Program) (id : String) :
    p.kindOf id = (p.taskOf id).map (·.operation.kind) := by
  rw [kindOf, shapeOf_eq_taskOf, Option.map_map]
  rfl

/-- A literal has no slots. -/
theorem argsOf_of_literal (h : p.kindOf id = some .data) : p.argsOf id = [] := by
  obtain ⟨op, hop, hk⟩ := Option.map_eq_some_iff.mp h
  obtain ⟨n, hn, rfl⟩ := Option.map_eq_some_iff.mp hop
  rw [Operation.kind_shape] at hk
  rw [argsOf_of_node? hn]
  cases hop' : n.operation with
  | data => rfl
  | _ =>
    rw [hop'] at hk
    cases hk

theorem isConstant_congr (h : q.flagsOf j = p.flagsOf i) : q.isConstant j = p.isConstant i := by
  rw [isConstant_eq_flagsOf, h, isConstant_eq_flagsOf]

theorem contains_eq_isSome_flagsOf (p : Program) (id : String) :
    p.contains id = (p.flagsOf id).isSome := by
  rw [contains, flagsOf, Option.isSome_map]

theorem due_of_literal (h : p.kindOf id = some .data) : p.Due id := Or.inl h

/-- For a node that runs a kernel only its dependencies matter. -/
theorem due_iff (h : p.runsKernelAt id) :
    p.Due id ↔ p.depsOf id ≠ [] ∧ ∀ d ∈ p.depsOf id, p.isConstant d = true := by
  obtain ⟨op, hop, hk⟩ := h
  rw [OpKind.runsKernel, Bool.and_eq_true, decide_eq_true_eq, decide_eq_true_eq] at hk
  rw [Due, kindOf_of_shapeOf hop, or_iff_right fun he => hk.2 (Option.some.inj he)]
  exact and_iff_right fun he => hk.1 (Option.some.inj he)

/-- **Whether a node is due** depends on its kind and on the flags of what it reads. -/
theorem due_congr (kind : q.kindOf j = p.kindOf i)
    (reads : (q.depsOf j).map q.isConstant = (p.depsOf i).map p.isConstant) :
    q.Due j ↔ p.Due i := by
  have hdue : ∀ (r : Program) (k : String), r.Due k ↔ r.kindOf k = some .data ∨
      r.kindOf k ≠ some .inputLayout ∧ (r.depsOf k).map r.isConstant ≠ [] ∧
        ∀ c ∈ (r.depsOf k).map r.isConstant, c = true := fun r k => by simp [Due]
  rw [hdue, hdue, kind, reads]

/-! ## Flags that stay exact -/

namespace Flagged

theorem of_views (h : p.Flagged)
    (hq : ∀ j, q.contains j = true → ∃ i, q.flagsOf j = p.flagsOf i ∧ (q.Due j ↔ p.Due i)) :
    q.Flagged := by
  have hsame : ∀ j, q.contains j = true → ∃ i, p.contains i = true ∧ q.flagsOf j = p.flagsOf i ∧
      (q.Due j ↔ p.Due i) := fun j hj => by
    obtain ⟨i, hflags, hdue⟩ := hq j hj
    refine ⟨i, ?_, hflags, hdue⟩
    rw [contains_eq_isSome_flagsOf, ← hflags, ← contains_eq_isSome_flagsOf, hj]
  constructor
  · intro j hj
    obtain ⟨i, hi, hflags, hdue⟩ := hsame j hj
    rw [isConstant_congr hflags, h.constant i hi, hdue]
  · intro j hj
    obtain ⟨i, hi, hflags, -⟩ := hsame j hj
    rw [isConstant_congr hflags, hflags, h.dataFlow i hi]

/-- The same kinds, edges and flags. -/
theorem congr (h : p.Flagged) (kinds : q.kindOf = p.kindOf) (deps : q.depsOf = p.depsOf)
    (flags : q.flagsOf = p.flagsOf) : q.Flagged := by
  have hconstant : q.isConstant = p.isConstant := funext fun j => isConstant_congr (congrFun flags j)
  refine h.of_views fun j _ => ⟨j, congrFun flags j, due_congr (congrFun kinds j) ?_⟩
  rw [deps, hconstant]

theorem sameGraph (h : p.Flagged) (hq : SameGraph p q) (flags : q.flagsOf = p.flagsOf) :
    q.Flagged :=
  h.congr (funext fun j => kindOf_congr (congrFun hq.shapes j)) hq.deps flags

theorem reworked {g : Task → Task} (h : p.Flagged) (hq : Reworked p q id g)
    (hg : ∀ t, (g t).operation.kind = t.operation.kind) : q.Flagged := by
  refine h.congr (funext fun j => ?_) hq.deps hq.flags
  rw [kindOf_eq_taskOf, hq.tasks, kindOf_eq_taskOf]
  split
  · rw [Option.map_map]
    exact congrArg (fun k => (p.taskOf j).map k) (funext hg)
  · rfl

/-- Flags follow from whether a node is constant. -/
theorem flagsOf_congr (h : p.Flagged) (hi : p.contains i = true) (hj : p.contains j = true)
    (hc : p.isConstant i = p.isConstant j) : p.flagsOf i = p.flagsOf j := by
  rw [h.dataFlow i hi, h.dataFlow j hj, hc]

/-- **A node with one dependency has its flags.** -/
theorem flagsOf_of_only (h : p.Flagged) (hl : p.Linked) (only : p.depsOf id = [input])
    (runs : p.runsKernelAt id) : p.flagsOf id = p.flagsOf input := by
  have hread : input ∈ p.depsOf id := by
    rw [only]
    exact List.mem_singleton_self input
  have hid := contains_of_mem_depsOf hread
  refine h.flagsOf_congr hid (hl.contains_dep hread) ?_
  rw [Bool.eq_iff_iff, h.constant id hid, due_iff runs, only, List.forall_mem_singleton]
  exact and_iff_right (List.cons_ne_nil _ _)

end Flagged

/-! ## Exact flags, node by node -/

/-- A node is marked constant if and only if it is a literal, or it is no input of the network and has
dependencies that are all marked constant; and as part of the data flow if and only if it is not marked
constant. -/
structure ExactFlags (p : Program) : Prop where
  constant : ∀ n ∈ p.nodes, n.isConstant = true ↔ n.kind = .data ∨
    n.kind ≠ .inputLayout ∧ n.dependencies ≠ [] ∧ ∀ d ∈ n.dependencies, p.isConstant d = true
  dataFlow : ∀ n ∈ p.nodes, n.isDataFlow = true ↔ ¬ n.isConstant = true

theorem isConstant_of_node? (hn : p.node? id = some n) : p.isConstant id = n.isConstant := by
  rw [isConstant, hn]

theorem due_iff_of_node? (hn : p.node? id = some n) : p.Due id ↔ n.kind = .data ∨
    n.kind ≠ .inputLayout ∧ n.dependencies ≠ [] ∧ ∀ d ∈ n.dependencies, p.isConstant d = true := by
  rw [Due, kindOf_of_node? hn, depsOf_of_node? hn, Option.some.injEq, Ne, Option.some.injEq]

theorem Flagged.exactFlags (h : p.Flagged) (hl : p.Linked) : p.ExactFlags := by
  have hnode : ∀ n ∈ p.nodes, p.node? n.id = some n := fun n hn => node?_of_mem hl.ids_nodup hn
  constructor
  · intro n hn
    rw [← due_iff_of_node? (hnode n hn), ← h.constant _ (contains_of_node? (hnode n hn)),
      isConstant_of_node? (hnode n hn)]
  · intro n hn
    have hflags := h.dataFlow _ (contains_of_node? (hnode n hn))
    rw [flagsOf, hnode n hn, Option.map_some, Option.some.injEq, Node.flags, Prod.mk.injEq,
      isConstant_of_node? (hnode n hn)] at hflags
    rw [hflags.2, Bool.not_eq_true', Bool.not_eq_true]

end Program

namespace Edit

open Program

variable {p q : Program} {id input next source : String} {index : Nat} {prim : Primitive}
  {g : Task → Task}

/-! ## Edits that keep them exact -/

theorem Removed.flags (h : Removed p q id) (j : String) :
    q.flagsOf j = if j = id then none else p.flagsOf j := by
  rw [flagsOf_eq_coreOf, h.core, flagsOf_eq_coreOf]
  split <;> rfl

/-- What nothing reads is due to nothing. -/
theorem Removed.flagged (h : Removed p q id) (hl : p.Linked) (unread : p.usersOf id = [])
    (hp : p.Flagged) : q.Flagged := by
  have hread := hl.usersOf_eq_nil_iff.mp unread
  have hflags : ∀ j, j ≠ id → q.flagsOf j = p.flagsOf j := fun j hj => by
    rw [h.flags, if_neg hj]
  refine hp.of_views fun j hj => ?_
  have hne : j ≠ id := ((h.contains_iff j).mp hj).1
  refine ⟨j, hflags j hne, due_congr (kindOf_congr ?_) ?_⟩
  · rw [h.shapes, if_neg hne]
  · rw [h.deps, if_neg hne, Order.filter_ne_of_not_mem (hread j)]
    exact List.map_congr_left fun d hd => isConstant_congr (hflags d fun he => hread j (he ▸ hd))

/-- **Another primitive in one place** keeps flags exact if it is due when the old one was. -/
theorem Replaced.flagged {reads : List String} (h : Replaced p q id prim reads) (hp : p.Flagged)
    (due : q.Due id ↔ p.Due id) : q.Flagged := by
  refine hp.of_views fun j _ => ⟨j, congrFun h.flags j, ?_⟩
  by_cases hj : j = id
  · rw [hj, due]
  · refine due_congr (kindOf_congr ?_) ?_
    · rw [h.shapes, if_neg hj]
    · rw [h.deps, if_neg hj]
      exact List.map_congr_left fun d _ => isConstant_congr (congrFun h.flags d)

/-- **Two nodes as one** had the same flags. -/
theorem Contracted.flagged (h : Contracted p q id input g) (hl : p.Linked)
    (runs : p.runsKernelAt id) (hg : ∀ t, (g t).operation.kind = t.operation.kind)
    (hp : p.Flagged) : q.Flagged := by
  have honto : ∀ d, q.flagsOf (onto p id input d) = p.flagsOf d := fun d => by
    by_cases hd : d = id
    · rw [hd, onto_id, h.flag, hp.flagsOf_of_only hl h.only runs]
    · by_cases hd' : d = input
      · rw [hd', onto_input, h.flag]
      · rw [onto_of_ne hd hd', h.flags d hd hd']
  have hreads : ∀ l : List String, (l.map (onto p id input)).map q.isConstant = l.map p.isConstant :=
    fun l => by
      rw [List.map_map]
      exact List.map_congr_left fun d _ => isConstant_congr (honto d)
  refine hp.of_views fun j hj => ?_
  obtain rfl | ⟨hne, hne', -⟩ := h.exists_onto hj
  · refine ⟨input, h.flag, due_congr ?_ ?_⟩
    · rw [kindOf_eq_taskOf, h.task, Option.map_map, kindOf_eq_taskOf]
      exact congrArg (fun k => (p.taskOf input).map k) (funext hg)
    · rw [h.reads, ← h.map_onto hl, hreads, h.map_onto hl]
  · refine ⟨j, h.flags j hne hne', due_congr ?_ ?_⟩
    · rw [kindOf_eq_taskOf, h.tasks j hne hne', kindOf_eq_taskOf]
    · rw [h.deps j hne hne', hreads]

/-- A dependency that has the flags of the one it stands for. -/
theorem map_isConstant_set {l : List String} {r : String} (hsource : l[index]? = some source)
    (hother : ∀ d ∈ l, q.isConstant d = p.isConstant d) (hr : q.isConstant r = p.isConstant source) :
    (l.set index r).map q.isConstant = l.map p.isConstant := by
  obtain ⟨hlt, hget⟩ := List.getElem?_eq_some_iff.mp hsource
  have hlength : index < (l.map p.isConstant).length := by rwa [List.length_map]
  have hat : (l.map p.isConstant)[index] = p.isConstant source := by rw [List.getElem_map, hget]
  rw [List.map_set, List.map_congr_left hother, hr, ← hat, List.set_getElem_self]

/-- **A new node in between** has the flags of the one it reads. -/
theorem Inserted.flagged (h : Inserted p q prim next index source) (hl : p.Linked)
    (hargs : prim.arguments = [source]) (runs : prim.operation.kind.runsKernel = true)
    (hp : p.Flagged) : q.Flagged := by
  have hnew : q.flagsOf prim.id = p.flagsOf source := (h.flags prim.id).trans (if_pos rfl)
  have hold : ∀ d, p.contains d = true → q.isConstant d = p.isConstant d := fun d hd =>
    isConstant_congr ((h.flags d).trans (if_neg fun he : d = prim.id => h.free (he ▸ hd)))
  have hsource : p.contains source = true := h.known source h.consumes
  have hreads : ∀ u, ∀ d ∈ p.depsOf u, q.isConstant d = p.isConstant d := fun u d hd =>
    hold d (hl.contains_dep hd)
  refine hp.of_views fun j _ => ?_
  by_cases hjp : j = prim.id
  · refine ⟨source, by rw [hjp, hnew], ?_⟩
    have hruns : q.runsKernelAt j := by
      refine ⟨prim.operation.shape, (h.shapes j).trans (if_pos hjp), ?_⟩
      rw [Operation.kind_shape, runs]
    rw [due_iff hruns, h.deps, if_pos hjp, hargs, List.forall_mem_singleton,
      and_iff_right (List.cons_ne_nil _ _), hold source hsource, hp.constant source hsource]
  · refine ⟨j, (h.flags j).trans (if_neg hjp), due_congr (kindOf_congr ?_) ?_⟩
    · rw [h.shapes, if_neg hjp]
    · rw [h.deps, if_neg hjp]
      split
      case isTrue hjn =>
        exact map_isConstant_set (hjn ▸ h.source_eq) (hreads j) (isConstant_congr hnew)
      case isFalse => exact List.map_congr_left (hreads j)

/-- **A node that is shared** had the flags of the one it reads, and keeps them. -/
theorem Shared.flagged {shared : String} (h : Shared p q shared next index source) (hl : p.Linked)
    (only : p.depsOf shared = [source]) (hp : p.Flagged) : q.Flagged := by
  obtain ⟨r, hr⟩ := h.reorder
  have hshared : p.flagsOf shared = p.flagsOf source := hp.flagsOf_of_only hl only ⟨_, hr, rfl⟩
  have hflags : q.flagsOf = p.flagsOf := funext fun j => by
    rw [h.flags]
    split
    case isTrue hj => rw [hj, hshared]
    case isFalse => rfl
  have hold : ∀ d, q.isConstant d = p.isConstant d := fun d => isConstant_congr (congrFun hflags d)
  refine hp.of_views fun j _ => ⟨j, congrFun hflags j, due_congr ?_ ?_⟩
  · exact kindOf_congr (congrFun h.shapes j)
  · rw [h.deps]
    split
    case isTrue hj =>
      refine map_isConstant_set (hj ▸ h.source_eq) (fun d _ => hold d) ?_
      rw [hold, isConstant_congr hshared]
    case isFalse => exact List.map_congr_left fun d _ => hold d

/-! ## Marking -/

/-- **Marking constants again** changes nothing but the frontier, whatever the order. -/
theorem markConstants_touched (h : p.Linked) (hp : p.Flagged) :
    Ends markConstants (fun _ q => Touched p q) (fun e _ => e.closes = false) p := by
  rw [markConstants, ends_bind, ends_get, ends_bind]
  refine ends_forIn (fun _ q => Touched p q) (fun id _ q hq => ?_) (fun q hq => ?_) _ p (.refl h)
  · have hflagged := hp.sameGraph hq.toSameGraph hq.flags
    rw [ends_bind, ends_node]
    refine ⟨fun n hn => ?_, fun _ => rfl⟩
    rw [ends_bind, ends_get, ends_bind]
    have hmark : isConstantIn q n = n.isConstant := by
      rw [Bool.eq_iff_iff, isConstantIn_iff_marks, ← due_iff_of_node? hn,
        ← hflagged.constant id (contains_of_node? hn), isConstant_of_node? hn]
    refine (touched_change hq.kept.linked
      (fun m => { m with isConstant := isConstantIn q n, isFrontier := false })
      (fun _ => ⟨⟨rfl, rfl, rfl, rfl, rfl⟩, rfl⟩) (fun _ => rfl) fun m hm => ?_).imp
      (fun _ r hr => ⟨rfl, hq.trans hr⟩) fun _ _ hb => hb.1
    rw [hn] at hm
    cases hm
    rw [Node.flags, hmark, Node.flags]
  rw [ends_bind, ends_get, ends_bind]
  refine ends_forIn (fun _ r => Touched p r) (fun id _ r hr => ?_) (fun r hr => hr) _ q hq
  rw [ends_bind, ends_node]
  refine ⟨fun n _ => ?_, fun _ => rfl⟩
  split
  · rw [ends_bind]
    refine ends_forIn (fun _ s => Touched p s) (fun dep _ s hs => ?_) (fun s hs => ⟨rfl, hs⟩) _ r hr
    rw [ends_bind]
    refine (touched_change hs.kept.linked
      (fun m => if m.isConstant then { m with isFrontier := true } else m) (fun m => ?_) (fun m => ?_)
      fun m _ => ?_).imp (fun _ t ht => ⟨rfl, hs.trans ht⟩) fun _ _ hb => hb.1
    · exact Node.SameWork.ite (m := { m with isFrontier := true }) (n := m)
        ⟨⟨rfl, rfl, rfl, rfl, rfl⟩, rfl⟩ _
    · split <;> rfl
    · split <;> rfl
  · exact ⟨rfl, hr⟩

end Edit

namespace Program

variable {p q r : Program} {id : String}

/-- **Marked constants are those that are due.** -/
theorem Marked.isConstant_iff_due (h : Marked p q) (hs : SameGraph p q) (hl : p.Linked)
    (hid : q.contains id = true) : q.isConstant id = true ↔ q.Due id := by
  rw [hs.contains] at hid
  obtain ⟨n, hn⟩ := contains_iff.mp hid
  obtain ⟨constant, frontier, hm, -, -⟩ := h id n hn
  have hdeps : ∀ d ∈ n.dependencies, q.isConstant d = true ↔ p.Constant d := fun d hd =>
    h.isConstant_iff (hl.contains_dep (depsOf_of_node? hn ▸ hd))
  rw [h.isConstant_iff hid, constant_iff hn, due_iff_of_node? hm]
  exact or_congr_right (and_congr_right fun _ => and_congr_right fun _ =>
    forall₂_congr fun d hd => (hdeps d hd).symm)

/-- **The data flow is what is not constant**, if constants are marked where they are due and literals
read nothing. -/
theorem Traced.flagged (h : Traced p q) (hs : SameGraph p q) (hl : p.Linked) (ho : p.Ordered)
    (hliteral : ∀ u, p.kindOf u = some .data → p.depsOf u = [])
    (hconstant : ∀ u, p.contains u = true → (p.isConstant u = true ↔ p.Due u)) : q.Flagged := by
  have hup : ∀ u d, d ∈ p.depsOf u → p.isVariable d = true → p.isVariable u = true := by
    intro u d hd hvar
    have hu := contains_of_mem_depsOf hd
    refine isVariable_iff.mpr ⟨hu, Bool.eq_false_iff.mpr fun hc => ?_⟩
    obtain hk | ⟨-, -, hall⟩ := (hconstant u hu).mp hc
    · rw [hliteral u hk] at hd
      exact List.not_mem_nil hd
    · exact Bool.eq_false_iff.mp (isVariable_iff.mp hvar).2 (hall d hd)
  have hmarks : q.isConstant = p.isConstant := funext fun u => by
    cases hn : p.node? u with
    | none => rw [isConstant, isConstant, hn, node?_eq_none.mpr (hs.contains ▸ node?_eq_none.mp hn)]
    | some n =>
      obtain ⟨flow, hm, -⟩ := h u n hn
      rw [isConstant_of_node? hm, isConstant_of_node? hn]
  constructor
  · intro u hu
    rw [hmarks, hconstant u (hs.contains ▸ hu)]
    refine (due_congr (kindOf_congr (congrFun hs.shapes u)) ?_).symm
    rw [hs.deps, hmarks]
  · intro u hu
    obtain ⟨n, hn⟩ := contains_iff.mp (hs.contains ▸ hu)
    obtain ⟨flow, hm, hflow⟩ := h u n hn
    have hvar : flow = !n.isConstant := by
      rw [Bool.eq_iff_iff, hflow, flows_iff hl ho hup, isVariable_of_node? hn]
    rw [flagsOf, hm, isConstant_of_node? hm, Option.map_some, Node.flags, hvar]

end Program

namespace Edit

open Program

variable {p : Program}

/-- **Marking makes flags exact**, whatever they were, and does not fail. -/
theorem mark_flagged (h : p.Linked) (ho : p.Ordered) (ha : p.Aligned) :
    Ends markConstants
      (fun _ q => Ends markDataFlow (fun _ r => Reflagged p r ∧ r.Flagged) (fun _ _ => False) q)
      (fun _ _ => False) p := by
  refine ((markConstants_effect h).and (markConstants_marked h ho)).imp (fun _ q hq => ?_)
    fun _ _ hb => hb.2
  obtain ⟨hq, hmarked⟩ := hq
  have hl := hq.kept.linked
  refine ((markDataFlow_effect hl).and (markDataFlow_flow hl)).imp (fun _ r hr => ?_)
    fun _ _ hb => hb.2
  obtain ⟨hr, htraced⟩ := hr
  refine ⟨hq.trans hr, htraced.flagged hr.toSameGraph hl
    (hq.ordered (congrArg Order.ids hq.order) ho) (fun u hu => ?_) fun u hu =>
      hmarked.isConstant_iff_due hq.toSameGraph h hu⟩
  rw [← hq.aligned ha, argsOf_of_literal hu]

end Edit

end NetPlan

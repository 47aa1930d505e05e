import NetPlan.Proofs.Layout.Coherence
import NetPlan.Proofs.Pass.Flags
import NetPlan.Proofs.Pass.Inherited

/-!
# Proofs/Pass/Listing — the order in which a topology is listed

A topology lists its primitives in some order, and the graph of it is walked in orders that come from
there: users are recorded as the edges are made, endpoints become outputs and constants are marked in
processing order.  What is found out is not a matter of these orders:

* `Edit.prepare_annotated` — preparing a graph gives every node the marks that its edges call for;
* `Alike` — graphs with the same nodes and the same edges;
* `ofTopology_perm` — topologies that list the same primitives have graphs that are alike, or none has
  one, and prepared these have the same marks and the same layouts.
-/

namespace NetPlan

open Program Edit

/-! ## Prepared graphs -/

namespace Program

/-- `q` is `p` with every endpoint as an output, and with its constants, their frontier and the data
flow marked. -/
def Annotated (p q : Program) : Prop :=
  ∀ id n, p.node? id = some n → ∃ constant frontier,
    q.node? id = some
      { n with isOutput := n.isEndpoint, isConstant := constant, isFrontier := frontier,
               isDataFlow := !constant } ∧
    (constant = true ↔ p.Constant id) ∧ (frontier = true ↔ p.Frontier id)

/-- The same nodes and the same edges. -/
structure Alike (p q : Program) : Prop where
  behaviours : q.behaviours = p.behaviours
  primitives : q.primitiveOf = p.primitiveOf
  deps : q.depsOf = p.depsOf
  users : ∀ id, (q.usersOf id).Perm (p.usersOf id)

namespace Alike

variable {p q : Program} {id : String} {n : Node}

theorem symm (h : Alike p q) : Alike q p :=
  ⟨h.behaviours.symm, h.primitives.symm, h.deps.symm, fun id => (h.users id).symm⟩

/-- What changes neither primitives nor edges. -/
theorem of_map {f : String → Node → Node} (hq : ∀ j, q.node? j = (p.node? j).map (f j))
    (behaviours : q.behaviours = p.behaviours) (primitive : ∀ j n, (f j n).primitive = n.primitive)
    (deps : ∀ j n, (f j n).dependencies = n.dependencies)
    (users : ∀ j n, (f j n).users = n.users) : Alike p q := by
  refine ⟨behaviours, funext fun j => ?_, funext fun j => ?_, fun j => List.Perm.of_eq ?_⟩
  · rw [primitiveOf, hq, Option.map_map, primitiveOf]
    exact Option.map_congr fun n _ => primitive j n
  · rw [depsOf, hq, depsOf]
    cases p.node? j with
    | none => rfl
    | some n => exact deps j n
  · rw [usersOf, hq, usersOf]
    cases p.node? j with
    | none => rfl
    | some n => exact users j n

theorem contains (h : Alike p q) : q.contains = p.contains := funext fun j => by
  rw [contains_eq_isSome_primitiveOf, h.primitives, contains_eq_isSome_primitiveOf]

theorem exists_node (h : Alike p q) (hn : p.node? id = some n) :
    ∃ m, q.node? id = some m ∧ m.primitive = n.primitive ∧ m.dependencies = n.dependencies ∧
      m.users.Perm n.users := by
  have hprimitive : q.primitiveOf id = some n.primitive := by
    rw [h.primitives, primitiveOf, hn, Option.map_some]
  obtain ⟨m, hm, hmn⟩ := Option.map_eq_some_iff.mp hprimitive
  refine ⟨m, hm, hmn, ?_, ?_⟩
  · rw [← depsOf_of_node? hm, h.deps, depsOf_of_node? hn]
  · rw [← usersOf_of_node? hm, ← usersOf_of_node? hn]
    exact h.users id

theorem constant (h : Alike p q) (hc : p.Constant id) : q.Constant id := by
  induction hc with
  | literal there kind =>
    obtain ⟨m, hm, hprimitive, -, -⟩ := h.exists_node there
    exact .literal hm (by rw [Node.kind, Node.operation, hprimitive]; exact kind)
  | computed there kind reads _ ih =>
    obtain ⟨m, hm, hprimitive, hdeps, -⟩ := h.exists_node there
    refine .computed hm ?_ (hdeps ▸ reads) fun d hd => ih d (hdeps ▸ hd)
    rw [Node.kind, Node.operation, hprimitive]
    exact kind

theorem constant_iff (h : Alike p q) : q.Constant id ↔ p.Constant id :=
  ⟨h.symm.constant, h.constant⟩

theorem frontier_iff (h : Alike p q) : q.Frontier id ↔ p.Frontier id := by
  refine and_congr h.constant_iff (exists_congr fun u => ?_)
  rw [(h.users id).mem_iff, h.constant_iff]

/-- **Layouts are a matter of nodes and edges.** -/
theorem freshLayout (h : Alike p q) : q.freshLayout = p.freshLayout := by
  have houtline : ∀ (r : Program) (i : String),
      r.outlineOf i = (r.primitiveOf i).map fun a => ⟨a.id, a.padding, a.operation.shape⟩ :=
    fun r i => by
      rw [outlineOf, primitiveOf, Option.map_map]
      rfl
  funext j
  exact freshLayout_frame (fun _ => True) h.behaviours (fun _ _ _ _ => trivial)
    (fun i _ => by rw [houtline, h.primitives, houtline]) (fun i _ => congrFun h.deps i) trivial

end Alike

end Program

namespace Edit

variable {p q : Program}

/-- The nodes of a list marked as outputs, and no others. -/
def OutputsUpTo (p q : Program) (done : List String) : Prop :=
  ∀ j, q.node? j = (p.node? j).map fun n => { n with isOutput := done.contains j }

theorem OutputsUpTo.marked {done : List String} {id : String} (h : OutputsUpTo p q done) :
    OutputsUpTo p (q.update id fun n => { n with isOutput := true }) (done ++ [id]) := fun j => by
  rw [node?_update (f := fun n : Node => { n with isOutput := true }) fun _ => rfl, h]
  by_cases hj : j = id
  · rw [if_pos hj, Option.map_map]
    refine Option.map_congr fun n _ => ?_
    simp [hj]
  · rw [if_neg hj]
    simp [hj]

/-- **Setting outputs that are there** succeeds, and changes nothing but the marks. -/
theorem setOutputs_marks (requested : List String)
    (there : ∀ id ∈ p.requestedOutputs requested, p.contains id = true) :
    Ends (setOutputs requested) (fun _ q => OutputsUpTo p q (p.requestedOutputs requested))
      (fun _ _ => False) p := by
  rw [setOutputs, ends_bind, ends_modify, ends_bind, ends_get]
  dsimp only
  rw [ends_bind]
  generalize hasked : (if requested.isEmpty = true then _ else requested) = asked
  rw [(requestedOutputs_eq p requested).trans hasked] at there ⊢
  refine ends_forIn (fun rest q => ∃ done, asked = done ++ rest ∧ OutputsUpTo p q done)
    (fun id rest q hq => ?_) (fun q hq => ?_) _ (cleared p) ⟨[], rfl, fun j => ?_⟩
  · obtain ⟨done, rfl, hq⟩ := hq
    rw [markOutput, ends_bind, ends_bind, ends_change]
    refine ⟨fun n _ => ?_, fun hnone => ?_⟩
    · rw [ends_modify]
      refine ⟨rfl, done ++ [id], by simp, ?_⟩
      split
      · exact hq.marked
      · exact hq.marked
    · obtain ⟨n, hn⟩ := contains_iff.mp (there id (by simp))
      rw [hq, hn] at hnone
      cases hnone
  · obtain ⟨done, rfl, hq⟩ := hq
    rwa [List.append_nil]
  · rw [node?_cleared]
    simp

/-- The outputs of a graph for which none is named are its endpoints. -/
theorem mem_requestedOutputs_nil (ho : p.Ordered) {id : String} :
    id ∈ p.requestedOutputs [] ↔ ∃ n, p.node? id = some n ∧ n.isEndpoint = true := by
  rw [requestedOutputs, List.isEmpty_nil, if_pos rfl, List.mem_filter, ho.mem, Bool.and_eq_true]
  constructor
  · rintro ⟨hid, -, hnone⟩
    obtain ⟨n, hn⟩ := contains_iff.mp hid
    exact ⟨n, hn, by rwa [usersOf_of_node? hn] at hnone⟩
  · rintro ⟨n, hn, hnone⟩
    exact ⟨contains_of_node? hn, contains_of_node? hn, by rwa [usersOf_of_node? hn]⟩

/-- **Preparing a graph without naming outputs** marks every node as its edges call for. -/
theorem prepare_annotated (h : p.Linked) (ho : p.Ordered) (ha : p.Aligned) :
    Ends (prepare []) (fun _ q => Remarked p q ∧ p.Annotated q) (fun _ _ => False) p := by
  rw [prepare, ends_bind]
  refine ((setOutputs_effect h []).and (setOutputs_marks (p := p) [] fun id hid => ?_)).imp
    (fun _ p₀ hp₀ => ?_) fun _ _ hb => hb.2
  · obtain ⟨n, hn, -⟩ := (mem_requestedOutputs_nil ho).mp hid
    exact contains_of_node? hn
  obtain ⟨⟨hpub, -⟩, houtputs⟩ := hp₀
  have hl₀ := hpub.kept.linked
  have ho₀ := hpub.ordered (congrArg Order.ids hpub.order) ho
  have halike : Alike p p₀ :=
    .of_map houtputs hpub.kept.behaviours (fun _ _ => rfl) (fun _ _ => rfl) fun _ _ => rfl
  rw [ends_bind]
  refine (((markConstants_effect hl₀).and (markConstants_marked hl₀ ho₀)).and
    (mark_flagged hl₀ ho₀ (hpub.aligned ha))).imp (fun _ p₁ hp₁ => ?_) fun _ _ hb => hb.2
  obtain ⟨⟨hflag, hmarked⟩, hflow⟩ := hp₁
  refine ((markDataFlow_flow hflag.kept.linked).and hflow).imp (fun _ q hq => ?_)
    fun _ _ hb => hb.2
  obtain ⟨htraced, hreflagged, hflagged⟩ := hq
  refine ⟨hpub.toRemarked.trans hreflagged.toRemarked, fun id n hn => ?_⟩
  have hn₀ : p₀.node? id = some { n with isOutput := n.isEndpoint } := by
    rw [houtputs, hn, Option.map_some]
    refine congrArg (fun b => some { n with isOutput := b }) ?_
    rw [Bool.eq_iff_iff, List.contains_iff_mem, mem_requestedOutputs_nil ho, hn]
    simp
  obtain ⟨constant, frontier, hn₁, hconstant, hfrontier⟩ := hmarked id _ hn₀
  obtain ⟨flow, hnq, -⟩ := htraced id _ hn₁
  have hflow : flow = !constant := by
    have hflags := hflagged.dataFlow id (contains_of_node? hnq)
    rw [flagsOf, hnq, isConstant_of_node? hnq] at hflags
    exact congrArg Prod.snd (Option.some.inj hflags)
  refine ⟨constant, frontier, hflow ▸ hnq, hconstant.trans halike.constant_iff,
    hfrontier.trans halike.frontier_iff⟩

end Edit

/-! ## Other listings -/

namespace Topology

variable {t t' : Topology}

theorem Distinct.get?_eq_some_iff (ht : t.Distinct) {id : String} {prim : Primitive} :
    t.get? id = some prim ↔ prim ∈ t.primitives ∧ prim.id = id := by
  constructor
  · intro h
    exact ⟨List.mem_of_find?_eq_some h, by simpa using List.find?_some h⟩
  · rintro ⟨hmem, rfl⟩
    exact ht.get?_of_mem hmem

variable (hperm : t'.primitives.Perm t.primitives)
include hperm

theorem Distinct.perm (ht : t.Distinct) : t'.Distinct := (hperm.map _).nodup_iff.mpr ht

theorem get?_perm (ht : t.Distinct) : t'.get? = t.get? := by
  funext id
  refine Option.ext fun prim => ?_
  rw [(ht.perm hperm).get?_eq_some_iff, ht.get?_eq_some_iff, hperm.mem_iff]

theorem Closed.perm (h : t.Closed) : t'.Closed := by
  intro prim hprim a ha
  have hcontains := h prim (hperm.mem_iff.mp hprim) a ha
  rw [contains, List.any_eq_true] at hcontains ⊢
  obtain ⟨other, hother, hid⟩ := hcontains
  exact ⟨other, hperm.mem_iff.mpr hother, hid⟩

theorem reads_perm : t'.Reads = t.Reads := by
  funext a id
  rw [Reads, Reads]
  exact propext (exists_congr fun prim => and_congr_left' hperm.mem_iff)

theorem Acyclic.perm (h : t.Acyclic) : t'.Acyclic := by
  rw [Acyclic, reads_perm hperm]
  exact h

end Topology

/-- Nodes that agree in all but the order of their users. -/
structure Node.Agrees (n m : Node) : Prop where
  primitive : m.primitive = n.primitive
  dependencies : m.dependencies = n.dependencies
  users : m.users.Perm n.users
  isOutput : m.isOutput = n.isOutput
  isConstant : m.isConstant = n.isConstant
  isFrontier : m.isFrontier = n.isFrontier
  isDataFlow : m.isDataFlow = n.isDataFlow

namespace Program

variable {p p' q q' : Program} {t t' : Topology} {b : Behaviours}

/-- **Prepared graphs have the same marks if they are alike.** -/
theorem Alike.annotated (h : Alike p p') (hq : p.Annotated q) (hq' : p'.Annotated q')
    {id : String} {n : Node} (hn : p.node? id = some n) :
    ∃ m m', q.node? id = some m ∧ q'.node? id = some m' ∧ m.Agrees m' := by
  obtain ⟨n', hn', hprimitive, hdeps, husers⟩ := h.exists_node hn
  obtain ⟨constant, frontier, hm, hconstant, hfrontier⟩ := hq id n hn
  obtain ⟨constant', frontier', hm', hconstant', hfrontier'⟩ := hq' id n' hn'
  have hc : constant' = constant := by
    rw [Bool.eq_iff_iff, hconstant', h.constant_iff, hconstant]
  have hf : frontier' = frontier := by
    rw [Bool.eq_iff_iff, hfrontier', h.frontier_iff, hfrontier]
  have hend : n'.isEndpoint = n.isEndpoint := by
    rw [Bool.eq_iff_iff, Node.isEndpoint, Node.isEndpoint, List.isEmpty_iff, List.isEmpty_iff]
    exact ⟨fun he => (he ▸ husers).symm.eq_nil, fun he => (he ▸ husers).eq_nil⟩
  exact ⟨_, _, hm, hm', ⟨hprimitive, hdeps, husers, hend, hc, hf, congrArg (!·) hc⟩⟩

theorem Built.alike (h : Built t b p) (h' : Built t' b p') (ht : t.Distinct)
    (hperm : t'.primitives.Perm t.primitives) : Alike p p' := by
  have hprimitives : p'.primitiveOf = p.primitiveOf := by
    rw [h'.primitives, h.primitives, Topology.get?_perm hperm ht]
  have hdeps : p'.depsOf = p.depsOf := funext fun j => by
    rw [h'.aligned, argsOf_eq_primitiveOf, hprimitives, ← argsOf_eq_primitiveOf, h.aligned]
  refine ⟨h'.behaviours.trans h.behaviours.symm, hprimitives, hdeps, fun id => ?_⟩
  refine (List.perm_ext_iff_of_nodup (h'.wellFormed.users_nodup id)
    (h.wellFormed.users_nodup id)).mpr fun u => ?_
  rw [← h'.wellFormed.edges, hdeps, h.wellFormed.edges]

/-- **Whether there is a graph** is no matter of the order. -/
theorem exists_ofTopology_perm (ht : t.Distinct) (hperm : t'.primitives.Perm t.primitives)
    (h : ∃ p, ofTopology t b = .ok p) : ∃ p', ofTopology t' b = .ok p' := by
  obtain ⟨p, hp⟩ := h
  have hbuilt := built_of_ofTopology ht hp
  have hacyclic : t.Acyclic :=
    (acyclic_iff_topology ht hbuilt.primitives hbuilt.aligned).mp hbuilt.topological.acyclic
  obtain ⟨p', hp', -⟩ | ⟨e, -, -, hbad⟩ := ofTopology_ends (ht.perm hperm) b
  · exact ⟨p', hp'⟩
  · exact absurd ⟨hbuilt.closed.perm hperm, hacyclic.perm hperm⟩ hbad

/-- The graph of a topology can be prepared. -/
theorem Built.prepared_endpoints (h : Built t b p) : ∃ q, (prepare []).run.run p = (.ok (), q) ∧
    Remarked p q ∧ p.Annotated q := by
  have hends := prepare_annotated h.wellFormed.toLinked h.topological h.slots
  rw [Ends] at hends
  generalize (prepare []).run.run p = out at hends
  obtain ⟨e | u, q⟩ := out
  · exact hends.elim
  · exact ⟨q, rfl, hends⟩

end Program

/-- **The order in which primitives are listed does not matter.**  Topologies that list the same
primitives both have a graph, or neither has.  With every endpoint as an output and with constants and
data flow marked, the two graphs have the same nodes; each has the same primitive, dependencies and
marks in both, the same users in some order, and the same layout or problem with it. -/
theorem ofTopology_perm (b : Behaviours) (t t' : Topology) (ht : t.Distinct)
    (hperm : t'.primitives.Perm t.primitives) :
    ((∃ p, Program.ofTopology t b = .ok p) ↔ ∃ p', Program.ofTopology t' b = .ok p') ∧
    ∀ p p', Program.ofTopology t b = .ok p → Program.ofTopology t' b = .ok p' →
      ∃ q q', (Edit.prepare []).run.run p = (.ok (), q) ∧
        (Edit.prepare []).run.run p' = (.ok (), q') ∧
        ∀ id, Option.Rel Node.Agrees (q.node? id) (q'.node? id) ∧
          ((Edit.layout id).run.run q).1 = ((Edit.layout id).run.run q').1 := by
  refine ⟨⟨exists_ofTopology_perm ht hperm,
    exists_ofTopology_perm (ht.perm hperm) hperm.symm⟩, fun p p' hp hp' => ?_⟩
  have hbuilt := built_of_ofTopology ht hp
  have hbuilt' := built_of_ofTopology (ht.perm hperm) hp'
  have halike := hbuilt.alike hbuilt' ht hperm
  obtain ⟨q, hq, hmarked, hannotated⟩ := hbuilt.prepared_endpoints
  obtain ⟨q', hq', hmarked', hannotated'⟩ := hbuilt'.prepared_endpoints
  refine ⟨q, q', hq, hq', fun id => ⟨?_, ?_⟩⟩
  · cases hn : p.node? id with
    | none =>
      have hfree := node?_eq_none.mp hn
      rw [node?_eq_none.mpr (hmarked.toSameGraph.contains ▸ hfree),
        node?_eq_none.mpr (hmarked'.toSameGraph.contains ▸ halike.contains ▸ hfree)]
      exact .none
    | some n =>
      obtain ⟨m, m', hm, hm', hagrees⟩ := halike.annotated hannotated hannotated' hn
      rw [hm, hm']
      exact .some hagrees
  · obtain ⟨_, hlayout, -⟩ := layout_eq_freshLayout (hmarked.kept.coherent hbuilt.coherent) id
    obtain ⟨_, hlayout', -⟩ := layout_eq_freshLayout (hmarked'.kept.coherent hbuilt'.coherent) id
    rw [hlayout, hlayout', hmarked.toSameGraph.freshLayout, hmarked'.toSameGraph.freshLayout,
      halike.freshLayout]

/-- Listed backwards, the input of the diamond comes first and its readers in the other order. -/
theorem ofTopology_perm_diamond : ∃ p p' q q',
    Program.ofTopology .diamond .builtin = .ok p ∧
    Program.ofTopology ⟨Topology.diamond.primitives.reverse⟩ .builtin = .ok p' ∧
    (Edit.prepare []).run.run p = (.ok (), q) ∧ (Edit.prepare []).run.run p' = (.ok (), q') ∧
    p.usersOf "a" = ["d", "b", "c"] ∧ p'.usersOf "a" = ["c", "b", "d"] ∧
    Option.Rel Node.Agrees (q.node? "a") (q'.node? "a") ∧
    ((Edit.layout "d").run.run q).1 = ((Edit.layout "d").run.run q').1 := by
  obtain ⟨hiff, hsame⟩ := ofTopology_perm .builtin .diamond
    ⟨Topology.diamond.primitives.reverse⟩ (by unfold Topology.Distinct; decide)
    (List.reverse_perm _)
  obtain ⟨p, hp, husers⟩ : ∃ p, Program.ofTopology .diamond .builtin = .ok p ∧
    p.usersOf "a" = ["d", "b", "c"] := ⟨_, rfl, by decide +kernel⟩
  obtain ⟨p', hp', husers'⟩ : ∃ p,
    Program.ofTopology ⟨Topology.diamond.primitives.reverse⟩ .builtin = .ok p ∧
    p.usersOf "a" = ["c", "b", "d"] := ⟨_, rfl, by decide +kernel⟩
  obtain ⟨q, q', hq, hq', hboth⟩ := hsame p p' hp hp'
  exact ⟨p, p', q, q', hp, hp', hq, hq', husers, husers', (hboth "a").1, (hboth "d").2⟩

end NetPlan

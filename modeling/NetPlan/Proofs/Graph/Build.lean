import NetPlan.Proofs.Graph.Nodes
import NetPlan.Proofs.Graph.Search

/-!
# Proofs/Graph/Build — the graph of a topology

A graph is built in three steps: a node for every primitive, an edge for every argument, and the
depth-first order of the nodes.  The first cannot fail; the second fails where an argument names no
primitive, or the primitive itself; the third fails if there is a cycle.

`ofTopology_ok_iff` — so a topology of primitives with distinct ids has a graph just if every
argument names a primitive and there is no cycle, and the graph has the edges that the arguments ask
for and a topological order.
-/

namespace NetPlan

namespace Topology

/-- No two primitives have the same id. -/
def Distinct (t : Topology) : Prop := (t.primitives.map (·.id)).Nodup

theorem Distinct.get?_of_mem {t : Topology} {prim : Primitive} (ht : t.Distinct)
    (hmem : prim ∈ t.primitives) : t.get? prim.id = some prim := by
  have hsome : (t.get? prim.id).isSome = true := List.find?_isSome.mpr ⟨prim, hmem, by simp⟩
  obtain ⟨other, hother⟩ := Option.isSome_iff_exists.mp hsome
  have hid : other.id = prim.id := by simpa using List.find?_some hother
  rw [hother, List.inj_on_of_nodup_map ht (List.mem_of_find?_eq_some hother) hmem hid]

/-- Every argument names a primitive. -/
def Closed (t : Topology) : Prop :=
  ∀ prim ∈ t.primitives, ∀ a ∈ prim.arguments, t.contains a = true

/-- The primitive of one id is an argument of another. -/
def Reads (t : Topology) (a id : String) : Prop :=
  ∃ prim ∈ t.primitives, prim.id = id ∧ a ∈ prim.arguments

/-- No primitive leads back to itself. -/
def Acyclic (t : Topology) : Prop := ∀ id, ¬ Relation.TransGen t.Reads id id

end Topology

namespace Program

variable {p q : Program} {prim : Primitive} {ps : List Primitive} {id j dep user : String}

/-- The primitive of a node. -/
def primitiveOf (p : Program) (id : String) : Option Primitive := (p.node? id).map (·.primitive)

theorem contains_eq_isSome_primitiveOf (p : Program) (id : String) :
    p.contains id = (p.primitiveOf id).isSome := by
  rw [contains, primitiveOf, Option.isSome_map]

theorem argsOf_eq_primitiveOf (p : Program) (id : String) :
    p.argsOf id = ((p.primitiveOf id).map (·.arguments)).getD [] := by
  rw [argsOf, primitiveOf]
  cases p.node? id <;> rfl

theorem primitiveOf_link : (p.link dep user).primitiveOf = p.primitiveOf := funext fun j => by
  have huser : ∀ n : Node, (n.addUser user).primitive = n.primitive := fun n => by
    rw [Node.addUser]
    split <;> rfl
  refine (view_invalidate (Option.map fun n : Node => n.primitive) (fun _ => rfl) user j).trans ?_
  refine (view_update (Option.map fun n : Node => n.primitive) (fun n => n.id_addUser user)
    (fun n => congrArg some (huser n)) dep j).trans ?_
  exact view_update (Option.map fun n : Node => n.primitive) (f := (·.addDependency dep))
    (fun _ => rfl) (fun _ => rfl) user j

/-- What a list of primitives gives an id to read. -/
def argumentsIn (ps : List Primitive) (id : String) : List String :=
  ((ps.find? (·.id = id)).map (·.arguments)).getD []

theorem find?_append_new (hnew : ∀ q ∈ ps, q.id ≠ prim.id) (id : String) :
    (ps ++ [prim]).find? (·.id = id)
      = if id = prim.id then some prim else ps.find? (·.id = id) := by
  rw [List.find?_append]
  by_cases hid : id = prim.id
  · have hnone : ps.find? (·.id = id) = none :=
      List.find?_eq_none.mpr fun q hq => by simpa [hid] using hnew q hq
    rw [if_pos hid, hnone, List.find?_cons_of_pos (by simp [hid])]
    rfl
  · rw [if_neg hid, List.find?_cons_of_neg (by simpa using Ne.symm hid), List.find?_nil,
      Option.or_none]

end Program

namespace Edit

open Program

variable {p q : Program} {prim : Primitive} {ps rest : List Primitive} {b : Behaviours}

/-! ## Nodes -/

/-- The nodes of a list of primitives, without edges. -/
structure Laid (b : Behaviours) (ps : List Primitive) (p : Program) : Prop where
  wellFormed : p.WellFormed
  coherent : p.Coherent
  behaviours : p.behaviours = b
  primitives : ∀ j, p.primitiveOf j = ps.find? (·.id = j)
  deps : ∀ j, p.depsOf j = []
  unplanned : ∀ j, p.planOf j = none

theorem laid_empty (b : Behaviours) : Laid b [] (Program.empty b) where
  wellFormed := wellFormed_empty b
  coherent _ _ h := nomatch h
  behaviours := rfl
  primitives _ := rfl
  deps _ := rfl
  unplanned _ := rfl

theorem Laid.withNew (h : Laid b ps p) (hnew : ∀ q ∈ ps, q.id ≠ prim.id) :
    Laid b (ps ++ [prim]) (p.withNew prim) := by
  have hfree : ¬ p.contains prim.id = true := by
    rw [contains_eq_isSome_primitiveOf, h.primitives, List.find?_eq_none.mpr fun q hq => by
      simpa using hnew q hq]
    exact Bool.false_ne_true
  have hkept := kept_withNew h.wellFormed.toLinked hfree
  refine ⟨hkept.wellFormed h.wellFormed, hkept.coherent h.coherent, h.behaviours, fun j => ?_,
    fun j => ?_, fun j => ?_⟩
  · rw [primitiveOf, node?_withNew hfree, find?_append_new hnew, ← h.primitives, primitiveOf]
    split <;> rfl
  · rw [depsOf_withNew hfree, h.deps]
  · rw [planOf, view_withNew (fun o => o.bind Node.plan) hfree rfl, ← h.unplanned j, planOf]

/-- **Creating the nodes** of primitives with distinct ids. -/
theorem createAll_effect (hps : (ps.map (·.id)).Nodup) {bad : CompileError → Program → Prop} :
    Ends (forIn ps PUnit.unit fun prim _ => do
      let _ ← create prim
      pure (ForInStep.yield PUnit.unit))
      (fun _ q => Laid b ps q) bad (Program.empty b) := by
  refine ends_forIn (fun rest q => ∃ done, ps = done ++ rest ∧ Laid b done q)
    (fun prim rest q hq => ?_) (fun q hq => ?_) ps _ ⟨[], rfl, laid_empty b⟩
  · obtain ⟨done, rfl, hlaid⟩ := hq
    have hnew : ∀ q ∈ done, q.id ≠ prim.id := fun q hq he => by
      rw [List.map_append, List.nodup_append] at hps
      exact hps.2.2 q.id (List.mem_map_of_mem hq) prim.id (by simp) he
    rw [ends_bind]
    refine (create_effect prim).imp_good fun _ r hr => ⟨rfl, done ++ [prim], by simp, ?_⟩
    obtain ⟨hn, -⟩ | ⟨-, -, rfl⟩ := hr
    · have hsome := hlaid.primitives prim.id
      rw [primitiveOf, hn, List.find?_eq_none.mpr fun q hq => by simpa using hnew q hq] at hsome
      cases hsome
    · exact hlaid.withNew hnew
  · obtain ⟨done, rfl, hlaid⟩ := hq
    rw [List.append_nil]
    exact hlaid

/-! ## Edges -/

/-- An edge for every argument of one primitive, or an argument that cannot be read. -/
theorem connectArguments_effect (h : p.Linked) (hprim : p.contains prim.id = true) :
    Ends (forIn prim.arguments PUnit.unit fun dep _ => do
      if !(← get).contains dep then
        throw (.missingDependency prim.id dep)
      connect dep prim.id
      pure (ForInStep.yield PUnit.unit))
      (fun _ q => Rewired p q ∧ q.primitiveOf = p.primitiveOf ∧
        (∀ a ∈ prim.arguments, a ≠ prim.id ∧ p.contains a = true) ∧
        ∀ j, q.depsOf j = if j = prim.id then p.depsOf j ++ prim.arguments else p.depsOf j)
      (fun e _ => e.closes = false ∧
        ∃ a ∈ prim.arguments, a = prim.id ∨ ¬ p.contains a = true) p := by
  refine ends_forIn (fun rest q => Rewired p q ∧ q.primitiveOf = p.primitiveOf ∧
      ∃ done, prim.arguments = done ++ rest ∧
        (∀ a ∈ done, a ≠ prim.id ∧ p.contains a = true) ∧
        ∀ j, q.depsOf j = if j = prim.id then p.depsOf j ++ done else p.depsOf j)
    (fun dep rest q hq => ?_) (fun q hq => ?_) _ p
    ⟨.refl h, rfl, [], rfl, fun _ ha => absurd ha List.not_mem_nil, fun j => by simp⟩
  · obtain ⟨hrew, hprims, done, hsplit, hok, hdeps⟩ := hq
    have hmem : dep ∈ prim.arguments := by
      rw [hsplit]
      exact List.mem_append_right _ List.mem_cons_self
    rw [ends_bind, ends_get]
    dsimp only
    split
    case isTrue hmissing =>
      refine ⟨rfl, dep, hmem, Or.inr fun hc => ?_⟩
      rw [hrew.contains, hc] at hmissing
      cases hmissing
    case isFalse hthere =>
      have hthere' : q.contains dep = true := by simpa using hthere
      rw [ends_bind]
      refine ends_connect (fun hself => ⟨rfl, dep, hmem, Or.inl hself⟩)
        (fun hnone => absurd hthere' (node?_eq_none.mp hnone))
        (fun hnone => absurd (hrew.contains ▸ hprim) (node?_eq_none.mp hnone))
        fun hne hd hu => ⟨rfl, hrew.trans (rewired_link hrew.linked hne hd hu),
          primitiveOf_link.trans hprims, done ++ [dep], by rw [hsplit]; simp, fun a ha => ?_,
          fun j => ?_⟩
      · rcases List.mem_append.mp ha with ha | ha
        · exact hok a ha
        · rw [List.mem_singleton.mp ha, ← hrew.contains]
          exact ⟨hne, hd⟩
      · rw [depsOf_link hu, hdeps]
        split
        · rw [List.append_assoc]
        · rfl
  · obtain ⟨hrew, hprims, done, hsplit, hok, hdeps⟩ := hq
    rw [List.append_nil] at hsplit
    rw [hsplit]
    exact ⟨hrew, hprims, hok, hdeps⟩

/-- The nodes of a list of primitives, with the edges of those in another. -/
structure Wired (p : Program) (ps : List Primitive) (q : Program) : Prop where
  rewired : Rewired p q
  primitives : q.primitiveOf = p.primitiveOf
  known : ∀ prim ∈ ps, ∀ a ∈ prim.arguments, a ≠ prim.id ∧ p.contains a = true
  deps : ∀ j, q.depsOf j = argumentsIn ps j

/-- **Connecting all nodes**, or an argument that cannot be read. -/
theorem connectAllArguments_effect (h : Laid b ps p) (hps : (ps.map (·.id)).Nodup) :
    Ends (forIn ps PUnit.unit fun prim _ => do
      forIn prim.arguments PUnit.unit fun dep _ => do
        if !(← get).contains dep then
          throw (.missingDependency prim.id dep)
        connect dep prim.id
        pure (ForInStep.yield PUnit.unit)
      pure (ForInStep.yield PUnit.unit))
      (fun _ q => Wired p ps q)
      (fun e _ => e.closes = false ∧
        ∃ prim ∈ ps, ∃ a ∈ prim.arguments, a = prim.id ∨ ¬ p.contains a = true) p := by
  refine ends_forIn (fun rest q => ∃ done, ps = done ++ rest ∧ Wired p done q)
    (fun prim rest q hq => ?_) (fun q hq => ?_) ps p
    ⟨[], rfl, .refl h.wellFormed.toLinked, rfl, fun _ hp => absurd hp List.not_mem_nil, h.deps⟩
  · obtain ⟨done, rfl, hwired⟩ := hq
    have hcontains := hwired.rewired.contains
    have hmem : prim ∈ done ++ prim :: rest := List.mem_append_right _ List.mem_cons_self
    have hnew : ∀ q ∈ done, q.id ≠ prim.id := fun q hq he => by
      rw [List.map_append, List.nodup_append] at hps
      exact hps.2.2 q.id (List.mem_map_of_mem hq) prim.id (by simp) he
    have hthere : q.contains prim.id = true := by
      rw [hcontains, contains_eq_isSome_primitiveOf, h.primitives, List.find?_isSome]
      exact ⟨prim, hmem, by simp⟩
    rw [ends_bind]
    refine (connectArguments_effect hwired.rewired.linked hthere).imp
      (fun _ r hr => ⟨rfl, done ++ [prim], by simp, ?_⟩) fun e r hr => ⟨hr.1, prim, hmem, ?_⟩
    · obtain ⟨hrew, hprims, hknown, hdeps⟩ := hr
      rw [hcontains] at hknown
      refine ⟨hwired.rewired.trans hrew, hprims.trans hwired.primitives, fun q hq => ?_,
        fun j => ?_⟩
      · rcases List.mem_append.mp hq with hq | hq
        · exact hwired.known q hq
        · rw [List.mem_singleton.mp hq]
          exact hknown
      · rw [hdeps, hwired.deps, argumentsIn, argumentsIn, find?_append_new hnew]
        split
        case isTrue hj =>
          rw [hj, List.find?_eq_none.mpr fun q hq => by simpa using hnew q hq]
          rfl
        case isFalse => rfl
    · rw [← hcontains]
      exact hr.2
  · obtain ⟨done, rfl, hwired⟩ := hq
    rw [List.append_nil]
    exact hwired

end Edit

/-! ## The graph -/

namespace Program

open Edit

variable {t : Topology} {b : Behaviours} {p : Program}

/-- The graph of a topology. -/
structure Built (t : Topology) (b : Behaviours) (p : Program) : Prop where
  wellFormed : p.WellFormed
  coherent : p.Coherent
  behaviours : p.behaviours = b
  closed : t.Closed
  primitives : p.primitiveOf = t.get?
  aligned : p.depsOf = p.argsOf
  unplanned : ∀ j, p.planOf j = none
  topological : p.Topological p.order.ids

theorem contains_iff_topology (h : p.primitiveOf = t.get?) (id : String) :
    p.contains id = true ↔ t.contains id = true := by
  rw [contains_eq_isSome_primitiveOf, h, Topology.get?, List.find?_isSome, Topology.contains,
    List.any_eq_true]

/-- The edges are those that the arguments ask for. -/
theorem reads_iff_topology (ht : t.Distinct) (hprims : p.primitiveOf = t.get?)
    (hdeps : p.depsOf = p.argsOf) (a id : String) : p.Reads a id ↔ t.Reads a id := by
  rw [Program.Reads, hdeps, argsOf_eq_primitiveOf, hprims]
  constructor
  · intro ha
    cases hget : t.get? id with
    | none =>
      rw [hget] at ha
      cases ha
    | some prim =>
      rw [hget] at ha
      exact ⟨prim, List.mem_of_find?_eq_some hget, by simpa using List.find?_some hget, ha⟩
  · rintro ⟨prim, hmem, rfl, ha⟩
    rw [ht.get?_of_mem hmem]
    exact ha

theorem acyclic_iff_topology (ht : t.Distinct) (hprims : p.primitiveOf = t.get?)
    (hdeps : p.depsOf = p.argsOf) : p.Acyclic ↔ t.Acyclic := by
  have hreads : p.Reads = t.Reads := by
    funext a id
    exact propext (reads_iff_topology ht hprims hdeps a id)
  rw [Acyclic, Topology.Acyclic, hreads]

/-- **Building a graph** gives the graph of the topology, or an argument cannot be read, or there is a
cycle. -/
theorem build_effect (ht : t.Distinct) (b : Behaviours) :
    Ends (build t) (fun _ p => Built t b p)
      (fun e _ => e.closes = false ∧ ¬ (t.Closed ∧ t.Acyclic)) (empty b) := by
  rw [build, ends_bind]
  refine (createAll_effect ht).imp_good fun _ p hp => ?_
  rw [ends_bind]
  refine (connectAllArguments_effect hp ht).imp (fun _ q hq => ?_) fun e _ hb => ⟨hb.1, ?_⟩
  · have hprims : q.primitiveOf = t.get? := hq.primitives.trans (funext hp.primitives)
    have hdeps : q.depsOf = q.argsOf := funext fun j => by
      rw [hq.deps, argsOf_eq_primitiveOf, hprims]
      rfl
    have hacyclic := acyclic_iff_topology ht hprims hdeps
    have hcontains : ∀ a, p.contains a = true → t.contains a = true := fun a ha =>
      (contains_iff_topology (funext hp.primitives) a).mp ha
    rw [sortDepthFirst, ends_bind, ends_get, ends_bind, ends_ofExcept]
    obtain ⟨ids, hids, htop⟩ | ⟨e, he, hcloses, hcycle⟩ := depthFirst_ends hq.rewired.linked
    · rw [hids]
      refine ⟨fun ids' hids' => ?_, fun _ he => nomatch he⟩
      cases hids'
      change Built t b (q.setOrder (Order.ofList ids).number)
      have hkept : Kept q (q.setOrder (Order.ofList ids).number) :=
        kept_setOrder hq.rewired.linked htop.nodup fun x hx => (htop.mem x).mp hx
      refine ⟨hkept.wellFormed (hq.rewired.kept.wellFormed hp.wellFormed),
        hkept.coherent (hq.rewired.coherent hp.coherent), ?_, fun prim hprim a ha => ?_, hprims,
        hdeps, fun j => ?_, htop.nodup, htop.mem, htop.before⟩
      · exact hq.rewired.behaviours.trans hp.behaviours
      · exact hcontains a (hq.known prim hprim a ha).2
      · change q.planOf j = none
        rw [planOf_eq_coreOf, hq.rewired.core, ← planOf_eq_coreOf, hp.unplanned]
    · rw [he]
      refine ⟨fun _ hok => (nomatch hok), fun e' he' => ?_⟩
      cases he'
      exact ⟨hcloses, fun hgood => hcycle (hacyclic.mpr hgood.2)⟩
  · rintro ⟨hclosed, hacyclic⟩
    obtain ⟨prim, hprim, a, ha, rfl | hmissing⟩ := hb.2
    · exact hacyclic prim.id (.single ⟨prim, hprim, rfl, ha⟩)
    · exact hmissing ((contains_iff_topology (funext hp.primitives) a).mpr (hclosed prim hprim a ha))

theorem ofTopology_ends (ht : t.Distinct) (b : Behaviours) :
    (∃ p, ofTopology t b = .ok p ∧ Built t b p) ∨
      ∃ e, ofTopology t b = .error e ∧ e.closes = false ∧ ¬ (t.Closed ∧ t.Acyclic) := by
  have hends := build_effect ht b
  rw [Ends] at hends
  rw [ofTopology]
  generalize (build t).run.run (empty b) = out at hends ⊢
  obtain ⟨e | u, q⟩ := out
  · exact Or.inr ⟨e, rfl, hends⟩
  · exact Or.inl ⟨q, rfl, hends⟩

theorem built_of_ofTopology (ht : t.Distinct) (h : ofTopology t b = .ok p) : Built t b p := by
  obtain ⟨q, hq, hbuilt⟩ | ⟨e, he, -⟩ := ofTopology_ends ht b
  · rw [hq] at h
    exact Except.ok.inj h ▸ hbuilt
  · rw [he] at h
    cases h

theorem closes_of_ofTopology {e : CompileError} (ht : t.Distinct) (h : ofTopology t b = .error e) :
    e.closes = false := by
  obtain ⟨q, hq, -⟩ | ⟨e', he, hcloses, -⟩ := ofTopology_ends ht b
  · rw [hq] at h
    cases h
  · rw [he] at h
    exact Except.error.inj h ▸ hcloses

end Program

/-- **A topology has a graph just if every argument names a primitive and there is no cycle.**  The
nodes of the graph are the primitives, each reads its arguments, and the order lists every node once
and behind all it reads. -/
theorem ofTopology_ok_iff (t : Topology) (b : Behaviours) (ht : t.Distinct) :
    ((∃ p, Program.ofTopology t b = .ok p) ↔ t.Closed ∧ t.Acyclic) ∧
      ∀ p, Program.ofTopology t b = .ok p →
        (∀ id, p.contains id = true ↔ ∃ prim ∈ t.primitives, prim.id = id) ∧
        (∀ prim ∈ t.primitives, ∃ n, p.node? prim.id = some n ∧ n.primitive = prim ∧
          n.dependencies = prim.arguments) ∧
        p.order.ids.Nodup ∧ (∀ id, id ∈ p.order.ids ↔ p.contains id = true) ∧
        ∀ prim ∈ t.primitives, ∀ a ∈ prim.arguments, Before p.order.ids a prim.id := by
  refine ⟨?_, fun p hp => ?_⟩
  · obtain ⟨p, hp, hbuilt⟩ | ⟨e, he, -, hbad⟩ := Program.ofTopology_ends ht b
    · refine iff_of_true ⟨p, hp⟩ ⟨hbuilt.closed, ?_⟩
      exact (Program.acyclic_iff_topology ht hbuilt.primitives hbuilt.aligned).mp
        hbuilt.topological.acyclic
    · refine iff_of_false ?_ hbad
      rintro ⟨p, hp⟩
      rw [he] at hp
      cases hp
  · obtain ⟨p', hp', hbuilt⟩ | ⟨e, he, -⟩ := Program.ofTopology_ends ht b
    · obtain rfl : p' = p := Except.ok.inj (hp'.symm.trans hp)
      have hreads := Program.reads_iff_topology ht hbuilt.primitives hbuilt.aligned
      refine ⟨fun id => ?_, fun prim hprim => ?_, hbuilt.topological.nodup, hbuilt.topological.mem,
        fun prim hprim a ha => hbuilt.topological.before prim.id a
          ((hreads a prim.id).mpr ⟨prim, hprim, rfl, ha⟩)⟩
      · rw [Program.contains_iff_topology hbuilt.primitives, Topology.contains, List.any_eq_true]
        simp only [decide_eq_true_eq]
      · have hprimitive := (congrFun hbuilt.primitives prim.id).trans (ht.get?_of_mem hprim)
        obtain ⟨n, hn, hnp⟩ := Option.map_eq_some_iff.mp hprimitive
        refine ⟨n, hn, hnp, ?_⟩
        rw [← Program.depsOf_of_node? hn, hbuilt.aligned, Program.argsOf_of_node? hn,
          Node.operation, hnp]
        rfl
    · rw [he] at hp
      cases hp

/-- Two readers of one input, put together with it; the reader comes first, and the input is read
twice. -/
def Topology.diamond : Topology :=
  ⟨[⟨"d", Padding.none, .concatenation ⟨["b", "a", "c", "a"], .feature⟩⟩,
    ⟨"b", Padding.none, .softmax ⟨"a", .x⟩⟩, ⟨"c", Padding.none, .softmax ⟨"a", .x⟩⟩,
    ⟨"a", Padding.none, .inputLayout (.dense .f32 .bfyx ⟨1, 1, 1, 1⟩)⟩]⟩

/-- The graph of the diamond is built, though arguments come before what they name. -/
theorem ofTopology_diamond : ∃ p, Program.ofTopology .diamond .builtin = .ok p ∧
    Topology.diamond.Acyclic ∧ p.depsOf "d" = ["b", "a", "c", "a"] ∧ Before p.order.ids "a" "b" := by
  obtain ⟨hiff, hgraph⟩ := ofTopology_ok_iff .diamond .builtin (by unfold Topology.Distinct; decide)
  have hok : ∃ p, Program.ofTopology .diamond .builtin = .ok p := ⟨_, rfl⟩
  obtain ⟨p, hp⟩ := hok
  obtain ⟨-, hnodes, -, -, hbefore⟩ := hgraph p hp
  obtain ⟨n, hn, -, hdeps⟩ := hnodes _ List.mem_cons_self
  refine ⟨p, hp, (hiff.mp ⟨p, hp⟩).2, (Program.depsOf_of_node? hn).trans hdeps, ?_⟩
  exact hbefore _ (List.mem_cons_of_mem _ List.mem_cons_self) "a" List.mem_cons_self

end NetPlan

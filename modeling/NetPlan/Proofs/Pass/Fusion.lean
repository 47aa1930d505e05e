import NetPlan.Pass.Fusion
import NetPlan.Proofs.Graph.Ordered
import NetPlan.Proofs.Graph.Resort
import NetPlan.Proofs.Graph.Search
import NetPlan.Proofs.Pass.Redundant

/-!
# Proofs/Pass/Fusion — several nodes as one

A fused convolution stands in the place of the scaling it ends with; the two nodes before it, which
nothing else reads, are removed (`Fused`).  A node that absorbs an activation takes over its padding,
and the activation is extracted (`Absorbed`).

`fuse_ends` — an invariant of these rewrites and of merging reorders is an invariant of the pass.
-/

namespace NetPlan.Pass

open Program Edit

variable {p q : Program} {c : Compilation} {id : String}

/-- Users that already stand behind a node are left where they are. -/
def Relocated (p q : Program) (id : String) : Prop :=
  Reordered p q ∧ ((∀ u ∈ p.usersOf id, Before p.order.ids id u) → q.order.ids = p.order.ids)

/-- `q` is `p` with a convolution, a normalization and a scaling as one. -/
structure Fused (p q : Program) (id norm scale : String) (prim : Primitive) : Prop where
  convolution : ∃ c, p.shapeOf id = some (.convolution c)
  batchNorm : ∃ b, p.shapeOf norm = some (.batchNorm b)
  scaling : ∃ s, p.shapeOf scale = some (.scale s)
  fused : ∃ f, prim.operation = .fusedConvBnScale f
  users : p.usersOf id = [norm]
  norm_users : p.usersOf norm = [scale]
  unmarked : p.isMarked id = false
  norm_unmarked : p.isMarked norm = false
  /-- The fused node reads what the three do, but for the first argument of the second and third. -/
  reads : ∃ stats factors, p.argsOf norm = id :: stats ∧ p.argsOf scale = norm :: factors ∧
    prim.arguments = p.argsOf id ++ stats ++ factors
  steps : ∃ q₁ q₂ q₃, Replaced p q₁ scale prim prim.arguments ∧ Removed q₁ q₂ norm ∧
    Removed q₂ q₃ id ∧ Relocated q₃ q scale

/-- The task of a node that takes over an activation and its padding. -/
def absorbing (a : Activation) (padding : Padding) (t : Task) : Task :=
  { t with padding, absorbed := a }

/-- `q` is `p` with an activation absorbed by the node it reads. -/
structure Absorbed (p q : Program) (id input : String) : Prop where
  activation : ∃ a, p.shapeOf id = some (.activation a)
  host : ∃ op, p.shapeOf input = some op ∧ hostsActivation op.kind = true
  unmarked : p.isMarked id = false
  users : p.usersOf input = [id]
  idle : ∃ t, p.taskOf input = some t ∧ t.activation.isNone = true
  /-- The layout of the host was asked for. -/
  dense : ∃ l, p.layoutOf input = some l ∧ l.padding.isNone = true
  steps : ∃ q₁ q₂ a padding, (∃ absorbed, p.taskOf id = some ⟨padding, .activation a, absorbed⟩) ∧
    Bypassed p q₁ id input ∧ Reworked q₁ q₂ input (absorbing a.activation padding) ∧ Kept q₁ q₂ ∧
    Relocated q₂ q input

theorem onlyUser?_eq_some {n : Node} {u : String} : n.onlyUser? = some u ↔ n.users = [u] := by
  rw [Node.onlyUser?]
  split
  case h_1 v hv => simp [hv]
  case h_2 hne => exact ⟨fun h => (nomatch h), fun h => absurd h (hne u)⟩

theorem allPerFeature_effect (features : Nat) : ∀ (ids : List String) {p : Program}, p.Linked →
    Ends (allPerFeature features ids) (fun _ q => Touched p q) (fun e _ => e.closes = false) p
  | [], _, hl => .refl hl
  | id :: ids, p, hl => by
      rw [allPerFeature, ends_bind]
      refine (layout_touched hl id).imp_good fun l q hq => ?_
      split
      · exact hq
      · exact (allPerFeature_effect features ids hq.kept.linked).imp_good
          fun _ _ hr => hq.trans hr

/-- **Fusing a convolution.** -/
theorem fuseConvolution_effect (hl : p.Linked) :
    Ends (fuseConvolution id)
      (fun _ q => ∃ p', Touched p p' ∧ (q = p' ∨ ∃ norm scale prim, Fused p' q id norm scale prim))
      (fun e _ => e.closes = false ∧
        (p.contains id = true → ∃ c, p.shapeOf id = some (.convolution c))) p := by
  have hstay : ∃ p', Touched p p' ∧ (p = p' ∨ ∃ norm scale prim, Fused p' p id norm scale prim) :=
    ⟨p, .refl hl, Or.inl rfl⟩
  rw [fuseConvolution, ends_bind, ends_node]
  refine ⟨fun n hn => ?_, fun hnone => ⟨rfl, fun h => absurd h (node?_eq_none.mp hnone)⟩⟩
  split
  case h_2 => exact hstay
  case h_1 conv hconv =>
  have hkind : p.contains id = true → ∃ c, p.shapeOf id = some (.convolution c) := fun _ =>
    ⟨_, by rw [shapeOf, hn, Option.map_some]
           exact congrArg (fun op : Operation => some op.shape) hconv⟩
  split
  · exact hstay
  case isFalse hfree =>
  split
  case h_2 => exact hstay
  case h_1 normId hnorm =>
  rw [ends_bind, ends_node]
  refine ⟨fun norm hnormn => ?_, fun _ => ⟨rfl, hkind⟩⟩
  split
  case h_2 => exact hstay
  case h_1 bn hbn =>
  split
  · exact hstay
  case isFalse hnfree =>
  split
  case h_2 => exact hstay
  case h_1 scaleId hscale =>
  rw [ends_bind, ends_node]
  refine ⟨fun scaling hscalen => ?_, fun _ => ⟨rfl, hkind⟩⟩
  split
  case h_2 => exact hstay
  case h_1 sc hsc =>
  split
  · exact hstay
  case isFalse hsfree =>
  rw [ends_bind]
  refine (layout_touched hl id).imp (fun output p₁ h₁ => ?_) fun _ _ hb => ⟨hb, hkind⟩
  split
  · exact ⟨p₁, h₁, Or.inl rfl⟩
  rw [ends_bind]
  refine (allPerFeature_effect _ _ h₁.kept.linked).imp (fun fits p₂ h₂ => ?_) fun _ _ hb => ⟨hb, hkind⟩
  have htouch := h₁.trans h₂
  split
  · exact ⟨p₂, htouch, Or.inl rfl⟩
  rw [ends_bind]
  refine (replace_effect htouch.kept.linked false).imp (fun _ q₁ hq₁ => ?_) fun _ _ hb => ⟨hb.1, hkind⟩
  rw [ends_bind]
  refine (remove_effect hq₁.kept.linked).imp (fun _ q₂ hq₂ => ?_) fun _ _ hb => ⟨hb.1 ▸ rfl, hkind⟩
  rw [ends_bind]
  refine (remove_effect hq₂.kept.linked).imp (fun _ q₃ hq₃ => ?_) fun _ _ hb => ⟨hb.1 ▸ rfl, hkind⟩
  rw [ends_bind]
  refine (relocateUsersAfter_effect hq₃.kept.linked).imp (fun _ q₄ hq₄ => ?_)
    fun _ _ hb => ⟨hb.1, hkind⟩
  have hshape : ∀ {j : String} {m : Node}, p.node? j = some m →
      p₂.shapeOf j = some m.operation.shape := fun hm => by
    rw [htouch.shapes, shapeOf, hm, Option.map_some]
  have hargs : ∀ {j : String} {m : Node}, p.node? j = some m →
      p₂.argsOf j = m.operation.arguments := fun hm => by rw [htouch.args, argsOf_of_node? hm]
  rw [Bool.or_eq_true, not_or, Bool.not_eq_true] at hfree
  rw [Bool.or_eq_true, not_or, Bool.not_eq_true, decide_eq_true_eq, not_not] at hnfree
  rw [Bool.or_eq_true, not_or, decide_eq_true_eq, not_not] at hsfree
  refine ⟨p₂, htouch, Or.inr ⟨normId, scaleId, _,
    { convolution := ⟨_, (hshape hn).trans (congrArg (fun op : Operation => some op.shape) hconv)⟩
      batchNorm := ⟨_, (hshape hnormn).trans (congrArg (fun op : Operation => some op.shape) hbn)⟩
      scaling := ⟨_, (hshape hscalen).trans (congrArg (fun op : Operation => some op.shape) hsc)⟩
      fused := ⟨_, rfl⟩
      users := ?_
      norm_users := ?_
      unmarked := ?_
      norm_unmarked := ?_
      reads := ⟨[bn.mean, bn.variance], sc.scale :: sc.bias.toList, ?_, ?_, ?_⟩
      steps := ⟨q₁, q₂, q₃, hq₁, hq₂, hq₃, hq₄⟩ }⟩⟩
  · rw [htouch.users, usersOf_of_node? hn]
    exact onlyUser?_eq_some.mp hnorm
  · rw [htouch.users, usersOf_of_node? hnormn]
    exact onlyUser?_eq_some.mp hscale
  · rw [htouch.marks, isMarked_of_node? hn]
    exact hfree.1
  · rw [htouch.marks, isMarked_of_node? hnormn]
    exact hnfree.1
  · rw [hargs hnormn, hbn, ← hnfree.2]
    rfl
  · rw [hargs hscalen, hsc, ← hsfree.1]
    rfl
  · rw [hargs hn, hconv]
    exact List.append_assoc conv.arguments [bn.mean, bn.variance] (sc.scale :: sc.bias.toList) ▸
      List.append_assoc conv.arguments [bn.mean, bn.variance, sc.scale] sc.bias.toList

/-- A node whose only dependency has a layout can be taken out: the dependency does not read it. -/
theorem layout_extractable {input : String} (hl : p.Linked) (hc : p.Coherent ∨ p.Acyclic)
    (hdeps : p.depsOf id = [input]) :
    Ends (layout input) (fun _ q => Touched p q ∧ q.Extractable id)
      (fun e _ => e.closes = false ∧ (p.Coherent → ∀ l, p.freshLayout input ≠ .ok l)) p := by
  by_cases hco : p.Coherent
  · refine (layout_ends input hco).imp (fun l q hq => ?_) fun _ _ hb =>
      ⟨closes_of_freshWithin hb.2, fun _ l hl => by
        rw [hb.2] at hl
        cases hl⟩
    have htouch := hq.1.touched hl
    obtain ⟨depth, hdepth⟩ := freshLayout_eq_ok_iff.mp hq.2
    refine ⟨htouch, htouch.extractable fun input' _ hi => Or.inr fun hmem => ?_⟩
    rw [hdeps] at hi
    cases hi
    exact not_mem_of_freshWithin hdepth hmem (hdeps ▸ List.mem_singleton_self input)
  · have ha := hc.resolve_left hco
    exact (layout_touched hl input).imp (fun _ q hq => ⟨hq, hq.extractable (ha.extractable id)⟩)
      fun _ _ hb => ⟨hb, fun h => absurd h hco⟩

/-- **Absorbing an activation.** -/
theorem absorbActivation_effect (debug : Bool) (hl : p.Linked) (hc : p.Coherent ∨ p.Acyclic) :
    Ends (absorbActivation debug id)
      (fun _ q => ∃ p', Touched p p' ∧ (q = p' ∨ ∃ input, Absorbed p' q id input ∧
        (debug = false → p'.isMarked input = false)))
      (fun e _ => e.closes = false ∧ (p.contains id = true → p.Ordered → p.Coherent →
        ∃ d ∈ p.depsOf id, ∀ l, p.freshLayout d ≠ .ok l)) p := by
  have hstay : ∃ p', Touched p p' ∧ (p = p' ∨ ∃ input, Absorbed p' p id input ∧
      (debug = false → p'.isMarked input = false)) := ⟨p, .refl hl, Or.inl rfl⟩
  rw [absorbActivation, ends_bind, ends_node]
  refine ⟨fun n hn => ?_, fun hnone => ⟨rfl, fun h => absurd h (node?_eq_none.mp hnone)⟩⟩
  split
  case h_2 => exact hstay
  case h_1 a hop =>
  split
  case h_2 => exact hstay
  case h_1 input honly =>
  have hdeps : p.depsOf id = [input] := by
    rw [depsOf_of_node? hn]
    exact onlyDependency?_eq_some.mp honly
  split
  · exact hstay
  case isFalse hout =>
  have hmem : input ∈ p.depsOf id := hdeps ▸ List.mem_singleton_self input
  have hinput : p.contains input = true := hl.contains_dep hmem
  rw [ends_bind]
  refine ((layout_extractable hl hc hdeps).and (layout_computed input)).imp (fun l p₁ h₁ => ?_)
    fun _ _ hb => ⟨hb.1.1, fun _ _ hc => ⟨input, hmem, hb.1.2 hc⟩⟩
  obtain ⟨⟨htouch, hfit⟩, -, hcached⟩ := h₁
  have hleave : ∃ p', Touched p p' ∧ (p₁ = p' ∨ ∃ input, Absorbed p' p₁ id input ∧
      (debug = false → p'.isMarked input = false)) := ⟨p₁, htouch, Or.inl rfl⟩
  split
  · exact hleave
  case isFalse hpadded =>
  rw [ends_bind, ends_node]
  refine ⟨fun source hsource => ?_, fun hnone => absurd hinput ?_⟩
  case refine_2 =>
    rw [← htouch.contains]
    exact node?_eq_none.mp hnone
  split
  · exact hleave
  case isFalse hcond =>
  rw [ends_bind]
  refine (extract_effect htouch.kept.linked hfit).imp (fun done q₁ hq₁ => ?_)
    fun _ _ hb => ⟨hb.1, fun h => absurd (htouch.contains ▸ h) hb.2.2⟩
  cases done with
  | false =>
    obtain rfl : q₁ = p₁ := hq₁.1
    exact hleave
  | true =>
  obtain ⟨input', q₀, hby, hq₁⟩ := hq₁
  obtain rfl : input = input' := by
    have honly' := hby.only
    rw [htouch.deps, hdeps] at honly'
    exact (List.cons.inj honly').1
  have hmark : ¬ p₁.isMarked id = true := by
    rw [htouch.marks, isMarked_of_node? hn]
    exact hout
  rw [if_neg hmark] at hq₁
  have hstill : q₁.contains input = true := by
    rw [hq₁.contains, hby.contains_iff, htouch.contains]
    exact ⟨hl.dep_ne hmem, hinput⟩
  rw [if_neg (by simp), ends_bind]
  refine (rework_change (g := fun t => { t with absorbed := a.activation }) hq₁.kept.linked
    (fun m => { m with absorbed := a.activation }) (fun _ => ⟨rfl, rfl, rfl, rfl, rfl, rfl, fun hp => hp⟩)
    fun _ => rfl).imp (fun _ q₂ hq₂ => ?_) fun _ _ hb => absurd hstill hb.2.2
  rw [ends_bind]
  refine (setPadding_effect hq₂.linked n.padding).imp (fun _ q₃ hq₃ => ?_)
    fun _ _ hb => absurd (hq₂.contains ▸ hstill) hb.2.2
  rw [ends_bind, ends_invalidate, ends_bind]
  have hwork₃ := hq₂.trans hq₃.1
  have hwork := hwork₃.trans (reworked_invalidate hwork₃.linked input)
  refine (relocateUsersAfter_effect hwork.linked).imp (fun _ q₄ hq₄ => ?_)
    fun _ _ hb => ⟨hb.1, fun _ ho _ => absurd (hwork.contains ▸ hstill) (hb.2 fun u hu => ?_)⟩
  case refine_2 =>
    have ho₂ := hwork.ordered ((hby.touched hq₁).ordered (htouch.ordered
      (congrArg Order.ids htouch.order) ho) htouch.kept.linked)
    exact ho₂.before u input ((hwork.linked.edges input u).mpr hu)
  rw [Bool.or_eq_true, Bool.or_eq_true, Bool.or_eq_true, not_or, not_or, not_or,
    decide_eq_true_eq, not_not, Bool.not_eq_true', Bool.not_eq_false, Bool.not_eq_true',
    Bool.not_eq_false] at hcond
  obtain ⟨⟨⟨hseen, hone⟩, hidle⟩, hhost⟩ := hcond
  have htask : p₁.taskOf id = some ⟨n.padding, (Operation.activation a).shape, n.absorbed⟩ := by
    rw [htouch.tasks, taskOf_of_node? hn, Node.task, hop]
  refine ⟨p₁, htouch, Or.inr ⟨input, ⟨?_, ⟨source.operation.shape, ?_, ?_⟩,
    Bool.eq_false_iff.mpr hmark, ?_, ⟨source.task, taskOf_of_node? hsource, ?_⟩,
    ⟨l, hcached, by simpa using hpadded⟩, q₁, q₃.invalidate input, _, n.padding, ⟨n.absorbed, htask⟩,
    hby.touched hq₁, hwork, hwork₃.kept, hq₄⟩, fun hdebug => ?_⟩⟩
  · exact ⟨_, by rw [shapeOf_eq_taskOf, htask]; rfl⟩
  · rw [shapeOf, hsource, Option.map_some]
  · rw [Operation.kind_shape]
    exact hhost
  · have hmem : id ∈ p₁.usersOf input := by
      rw [← htouch.kept.linked.edges, htouch.deps, hdeps]
      exact List.mem_singleton_self input
    rw [usersOf_of_node? hsource] at hmem ⊢
    obtain ⟨u, hu⟩ := List.length_eq_one_iff.mp hone
    rw [hu, List.mem_singleton] at hmem
    rw [hu, hmem]
  · rw [Node.activation_task]
    exact hidle
  · rw [isMarked_of_node? hsource]
    simpa [hdebug] using hseen

/-- A rewrite of every node that is still there keeps what it keeps of each. -/
theorem countPresent_ends {f : String → Transform Bool} {bad : CompileError → Compilation → Prop}
    (inv : Compilation → Prop)
    (step : ∀ id c, inv c → c.program.contains id = true → Ends (f id) (fun _ c' => inv c') bad c)
    (h : inv c) : Ends (countPresent f) (fun _ c' => inv c') bad c := by
  refine Transform.ends_countNodes inv (fun id d hd => ?_) h
  rw [ends_bind, Transform.ends_program]
  split
  case isTrue hid => exact step id d hd hid
  case isFalse => exact hd

/-- **What the fusions keep, the pass keeps**: `inv` is kept while convolutions are fused, and then
`inv'` while activations are absorbed and reorders merged.  Without a convolution, and with a layout
for every node, the pass does not fail. -/
theorem fuse_ends (env : Environment) (inv inv' : Program → Prop)
    (base : ∀ {p}, inv p → p.Linked)
    (touched : ∀ {p q}, inv p → Touched p q → inv q)
    (fused : ∀ {p q id norm scale prim}, inv p → Fused p q id norm scale prim → inv q)
    (next : ∀ {p}, inv p → inv' p)
    (base' : ∀ {p}, inv' p → p.Linked ∧ (p.Coherent ∨ p.Acyclic) ∧ p.Ranked)
    (touched' : ∀ {p q}, inv' p → Touched p q → inv' q)
    (absorbed : ∀ {p q id input}, inv' p → Absorbed p q id input →
      (env.debug = false → p.isMarked input = false) → inv' q)
    (merged : ∀ {p q id}, inv' p → Rebound none p q id → inv' q) (h : inv c.program) :
    Ends (fuse env) (fun _ c' => inv' c'.program ∧ c'.preferences = c.preferences)
      (fun e _ => e.closes = false ∧
        ((∃ p, inv p ∧ ∃ id conv, p.shapeOf id = some (.convolution conv)) ∨
          ∃ p, inv' p ∧ (p.Ordered → p.Coherent →
            ∃ id, p.contains id = true ∧ ∀ l, p.freshLayout id ≠ .ok l))) c := by
  rw [fuse, ends_bind, Transform.ends_program, ends_bind]
  refine (countPresent_ends (fun c' => inv c'.program ∧ c'.preferences = c.preferences)
    (fun id d hd hid => ?_) ⟨h, rfl⟩).imp_good fun _ d hd => ?_
  · rw [Transform.ends_liftM]
    refine (fuseConvolution_effect (base hd.1)).imp (fun _ q hq => ⟨?_, hd.2⟩)
      fun _ _ hb => ⟨hb.1, Or.inl ⟨d.program, hd.1, id, hb.2 hid⟩⟩
    obtain ⟨p', htouch, rfl | ⟨norm, scale, prim, hf⟩⟩ := hq
    · exact touched hd.1 htouch
    · exact fused (touched hd.1 htouch) hf
  rw [ends_bind]
  refine (countPresent_ends (fun c' => inv' c'.program ∧ c'.preferences = c.preferences)
    (fun id d hd hid => ?_) ⟨next hd.1, hd.2⟩).imp_good fun _ d hd => ?_
  · obtain ⟨hl, hc, -⟩ := base' hd.1
    rw [Transform.ends_liftM]
    refine (absorbActivation_effect env.debug hl hc).imp (fun _ q hq => ⟨?_, hd.2⟩)
      fun _ _ hb => ⟨hb.1, Or.inr ⟨d.program, hd.1, fun ho hc => ?_⟩⟩
    · obtain ⟨p', htouch, rfl | ⟨input, ha, hsilent⟩⟩ := hq
      · exact touched' hd.1 htouch
      · exact absorbed (touched' hd.1 htouch) ha hsilent
    · obtain ⟨j, hj, hfail⟩ := hb.2 hid ho hc
      exact ⟨j, hl.contains_dep hj, hfail⟩
  rw [ends_bind]
  refine (countPresent_ends (fun c' => inv' c'.program ∧ c'.preferences = c.preferences)
    (fun id d hd hid => ?_) hd).imp_good fun _ d hd => ?_
  · obtain ⟨hl, -, hr⟩ := base' hd.1
    refine (mergeReorders_effect none hl hr).imp
      (fun done e he => ⟨?_, he.1.trans hd.2⟩) fun _ _ hb => absurd rfl (hb.2 hid).1
    cases done with
    | true => exact merged hd.1 (he.2.2 (Or.inl rfl))
    | false => exact he.2.1 ▸ hd.1
  · rw [ends_bind, Transform.ends_program]
    exact hd

end NetPlan.Pass

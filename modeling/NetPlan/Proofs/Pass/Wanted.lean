import NetPlan.Proofs.Layout.Coherence
import NetPlan.Proofs.Pass.Suited

/-!
# Proofs/Pass/Wanted — preferred layouts once and again

Where every slot suits, each request is for the layout that is there, so that nothing is put on
record and nothing inserted (`rests_reorderSlots`).  One run of the passes leaves every slot so, as
long as reorders can be laid out (`requests_settle`).
-/

namespace NetPlan

open Program Edit Preferences

namespace Pass

variable {p q : Program} {c c' c'' : Compilation} {id : String} {index : Nat} {kind : OpKind}
  {output : Layout} {role : Role} {slots : Operation → List (Role × Nat)}

/-! ## Requests for what is there -/

/-- Nothing changed but for caches. -/
structure Unmoved (c c' : Compilation) : Prop where
  filled : Filled c.program c'.program
  preferences : c'.preferences = c.preferences

theorem Unmoved.refl (hc : c.program.Coherent) : Unmoved c c := ⟨⟨rfl, hc⟩, rfl⟩

theorem Unmoved.trans (h : Unmoved c c') (h' : Unmoved c' c'') : Unmoved c c'' :=
  ⟨h.filled.trans h'.filled, h'.preferences.trans h.preferences⟩

/-- **A slot that suits is left alone.** -/
theorem rests_reorderDependency (hc : c.program.Coherent)
    (h : Suits c.preferences.grouped c.program id kind output (role, index)) :
    Ends (reorderDependency id kind output role index)
      (fun b c' => b = false ∧ Unmoved c c') (fun _ _ => False) c := by
  obtain ⟨source, current, hsource, hcurrent, hexpected⟩ := h
  rw [reorderDependency, ends_bind, Transform.ends_liftM, ends_node]
  refine ⟨fun n hn => ?_, fun hnone => ?_⟩
  · rw [depsOf_of_node? hn] at hsource
    have hread : n.dependency? index = some source := hsource
    rw [hread]
    dsimp only
    rw [ends_bind, Transform.ends_liftM]
    refine (layout_ends source hc).imp (fun l p' hp' => ?_) fun e _ he => ?_
    · obtain ⟨hfill, hl⟩ := hp'
      obtain rfl : current = l := Except.ok.inj (hcurrent.symm.trans hl)
      have hrequest : c.preferences.request source current role kind (some output)
          = .ok (.notNeeded, c.preferences) := by
        have hexpected' : c.preferences.expected current role kind (some output) = .ok current :=
          hexpected
        rw [request, hexpected']
        exact congrArg Except.ok (if_pos rfl)
      rw [ends_bind, Transform.ends_preferences, ends_bind, Transform.ends_liftM, ends_ofExcept,
        hrequest]
      refine ⟨fun answer hanswer => ?_, fun e he => by cases he⟩
      obtain rfl := Except.ok.inj hanswer
      dsimp only
      rw [ends_bind, Transform.ends_setPreferences]
      exact ⟨rfl, hfill, rfl⟩
    · rw [hcurrent] at he
      cases he.2
  · have hthere := contains_of_mem_depsOf (List.mem_of_getElem? hsource)
    exact node?_eq_none.mp hnone hthere

theorem rests_reorderDependencies : ∀ (wanted : List (Role × Nat)) (c : Compilation),
    c.program.Linked → c.program.Coherent →
    (∀ slot ∈ wanted, Suits c.preferences.grouped c.program id kind output slot) →
    Ends (reorderDependencies id kind output wanted)
      (fun count c' => count = 0 ∧ Unmoved c c') (fun _ _ => False) c
  | [], _, _, hc, _ => ⟨rfl, .refl hc⟩
  | (role, index) :: wanted, c, hl, hc, h => by
      obtain ⟨hfirst, hothers⟩ := List.forall_mem_cons.mp h
      rw [reorderDependencies, ends_bind]
      refine (rests_reorderDependency hc hfirst).imp_good fun _ d hd => ?_
      obtain ⟨hb, hd⟩ := hd
      rw [ends_bind]
      refine (rests_reorderDependencies wanted d (hd.filled.touched hl).kept.linked
        hd.filled.coherent fun slot hslot => ?_).imp_good fun count d' hd' => ?_
      · rw [hd.preferences]
        exact (hothers slot hslot).filled hl hd.filled
      · exact ⟨by rw [hb, hd'.1]; rfl, hd.trans hd'.2⟩

/-- **Where all nodes are suited the run does nothing.** -/
theorem rests_reorderSlots (hslots : Slotted slots) : ∀ (ids : List String) (c : Compilation),
    c.program.Linked → c.program.Coherent → (∀ id ∈ ids, c.program.contains id = true) →
    (∀ id, Suited slots c.preferences.grouped c.program id) →
    Ends (reorderSlots slots ids)
      (fun count c' => count = 0 ∧ Unmoved c c') (fun _ _ => False) c
  | [], _, _, hc, _, _ => ⟨rfl, .refl hc⟩
  | id :: ids, c, hl, hc, hids, h => by
      obtain ⟨hid, hids⟩ := List.forall_mem_cons.mp hids
      have hrest : ∀ d : Compilation, Unmoved c d → Ends (do
          let further ← reorderSlots slots ids
          return 0 + further : Transform Nat)
          (fun count c' => count = 0 ∧ Unmoved c c') (fun _ _ => False) d := by
        intro d hd
        have htouch := hd.filled.touched hl
        rw [ends_bind]
        refine (rests_reorderSlots hslots ids d htouch.kept.linked hd.filled.coherent
          (fun j hj => ?_) fun j => ?_).imp_good fun count d' hd' => ?_
        · rw [htouch.contains, hids j hj]
        · rw [hd.preferences]
          exact (h j).filled hl hd.filled
        · exact ⟨by rw [hd'.1], hd.trans hd'.2⟩
      rw [reorderSlots, ends_bind, Transform.ends_liftM, ends_node]
      refine ⟨fun n hn => ?_, fun hnone => node?_eq_none.mp hnone hid⟩
      have hop : c.program.shapeOf id = some n.operation.shape := by
        rw [shapeOf, hn, Option.map_some]
      dsimp only
      split
      case isTrue => exact hrest c (.refl hc)
      case isFalse hwanted =>
        obtain ⟨output, houtput, hsuits⟩ := h id n.operation.shape hop fun hnil =>
          hwanted (List.isEmpty_iff.mpr (hslots.shape n.operation ▸ hnil))
        rw [hslots.shape, Operation.kind_shape] at hsuits
        rw [ends_bind, Transform.ends_liftM]
        refine (layout_ends id hc).imp (fun l p' hp' => ?_) fun e _ he => ?_
        · obtain ⟨hfill, hl'⟩ := hp'
          obtain rfl : output = l := Except.ok.inj (houtput.symm.trans hl')
          rw [ends_bind]
          refine (rests_reorderDependencies _ { c with program := p' }
            (hfill.touched hl).kept.linked hfill.coherent
            fun slot hslot => (hsuits slot hslot).filled hl hfill).imp_good
            fun count d hd => ?_
          obtain ⟨hcount, hd⟩ := hd
          have hstart : Unmoved c { c with program := p' } := ⟨hfill, rfl⟩
          subst hcount
          exact hrest d (hstart.trans hd)
        · rw [houtput] at he
          cases he.2

/-! ## The passes -/

theorem slotted_preferredSlots : Slotted preferredSlots where
  weighted := isWeighted_of_preferredSlots
  shape := preferredSlots_shape
  nodup := nodup_preferredSlots
  bound op := by
    cases op <;>
      simp [preferredSlots, Operation.weightSlots, Operation.arguments, Convolution.arguments,
        Convolution.split] <;> omega

/-- The slots of the bias, as they are asked for. -/
def preferredBias (op : Operation) : List (Role × Nat) := op.biasSlots.map fun i => (Role.bias, i)

theorem lt_of_mem_biasSlots {op : Operation} {i : Nat} (h : i ∈ op.biasSlots) :
    i < op.arguments.length := by
  have hconv : ∀ c : Convolution, i ∈ List.range' (1 + c.split) c.bias.length →
      i < c.arguments.length := fun c hi => by
    have hlt := (List.mem_range'_1.mp hi).2
    rw [Convolution.split] at hlt
    simp only [Convolution.arguments, List.length_append, List.length_cons]
    omega
  cases op with
  | convolution c => exact hconv c h
  | fusedConvBnScale f =>
    refine Nat.lt_of_lt_of_le (hconv f.conv h) ?_
    simp [Operation.arguments]
  | fullyConnected c =>
    obtain ⟨input, weights, _ | bias, activation⟩ := c
    · cases h
    · rw [List.mem_singleton.mp h]
      exact Nat.lt_succ_self 2
  | _ => cases h

theorem slotted_preferredBias : Slotted preferredBias where
  weighted h := isWeighted_of_biasSlots fun hnil => h (by rw [preferredBias, hnil, List.map_nil])
  shape op := by rw [preferredBias, Operation.biasSlots_shape, preferredBias]
  nodup op := by
    rw [preferredBias, List.map_map]
    exact (List.map_id _).symm ▸ nodup_biasSlots op
  bound op slot hslot := by
    obtain ⟨i, hi, rfl⟩ := List.mem_map.mp hslot
    exact lt_of_mem_biasSlots hi

/-- The slots that a pass puts into the preferred layouts. -/
def requests : Pass → Operation → List (Role × Nat)
  | .inputReorders => preferredSlots
  | .biasReorders => preferredBias
  | _ => fun _ => []

section Run

variable {pass : Pass} {env : Environment} (hpass : pass = .inputReorders ∨ pass = .biasReorders)
include hpass

/-- **One run of a pass suits all its slots.** -/
theorem suited_requests (h : Furnished c.program c.preferences.made) :
    Ends (pass.run env) (fun _ c' => Furnished c'.program c'.preferences.made ∧
      (pass = .inputReorders → c'.preferences.grouped = c'.program.nodes.any isGrouped) ∧
      Done pass.requests c' []) (fun _ _ => True) c := by
  have hfront := front_order h.ordered
  have hstart : ∀ {slots} {d : Compilation}, d.program = c.program →
      Done slots d c.program.order.ids := fun {slots d} hd _ v hv op hop => by
    rw [hd] at hop
    refine absurd ((h.ordered.mem v).mpr ?_) hv
    rw [contains_eq_isSome_shapeOf, hop, Option.isSome_some]
  rcases hpass with rfl | rfl
  · change Ends reorderInputs _ _ c
    rw [reorderInputs, ends_bind, Transform.ends_program, ends_bind, Transform.ends_preferences,
      ends_bind, Transform.ends_setPreferences, ends_bind]
    refine (suited_reorderSlots slotted_preferredSlots c.program.order.ids
      { c with preferences := ⟨c.program.nodes.any isGrouped, c.preferences.made⟩ } h hfront
      (hstart rfl)).imp_good fun _ c' hc' => ?_
    obtain ⟨ht, hgrouped, hany, hdone⟩ := hc'
    exact ⟨ht, fun _ => hgrouped.trans hany.symm, hdone⟩
  · change Ends reorderBias _ _ c
    rw [reorderBias, ends_bind, Transform.ends_program, ends_bind]
    exact (suited_reorderSlots slotted_preferredBias _ c h hfront (hstart rfl)).imp_good
      fun _ c' hc' => ⟨hc'.1, fun h => absurd h (by decide), hc'.2.2.2⟩

/-- **Where all its slots suit it does nothing.** -/
theorem rests_requests (h : Furnished c.program c.preferences.made)
    (hgrouped : pass = .inputReorders → c.preferences.grouped = c.program.nodes.any isGrouped)
    (hsuited : ∀ id, Suited pass.requests c.preferences.grouped c.program id) :
    Ends (pass.run env) (fun stats c' => stats = .ofCounts 0 0 ∧ Unmoved c c') (fun _ _ => False)
      c := by
  have hids : ∀ id ∈ c.program.order.ids, c.program.contains id = true := fun id hid =>
    (h.ordered.mem id).mp hid
  rcases hpass with rfl | rfl
  · change Ends reorderInputs _ _ c
    rw [reorderInputs, ends_bind, Transform.ends_program, ends_bind, Transform.ends_preferences,
      ends_bind, Transform.ends_setPreferences, ends_bind, ← hgrouped rfl]
    exact (rests_reorderSlots slotted_preferredSlots _ c h.linked h.coherent hids hsuited).imp_good
      fun _ c' hc' => ⟨by rw [hc'.1], hc'.2⟩
  · change Ends reorderBias _ _ c
    rw [reorderBias, ends_bind, Transform.ends_program, ends_bind]
    exact (rests_reorderSlots slotted_preferredBias _ c h.linked h.coherent hids hsuited).imp_good
      fun _ c' hc' => ⟨by rw [hc'.1], hc'.2⟩

end Run

/-- **Preferred layouts are a matter of one run.**  A pass that puts slots into preferred layouts,
on preferences with nothing on record, leaves edges, slots, order and caches right.  If reorders can
be laid out there, what is read in each of its slots is laid out as is preferred for the layout of
the node, and the pass once more inserts nothing. -/
theorem requests_settle {env : Environment} {c c' : Compilation} {stats : PassStats} {pass : Pass}
    (hpass : pass = .inputReorders ∨ pass = .biasReorders) (hw : c.program.WellFormed)
    (ho : c.program.isOrdered = true) (ha : c.program.Aligned) (hc : c.program.Coherent)
    (hm : c.preferences.made = []) (hrun : (pass.run env).run.run c = (.ok stats, c')) :
    c'.program.WellFormed ∧ c'.program.isOrdered = true ∧ c'.program.Aligned ∧ c'.program.Coherent ∧
    (c'.program.LaysReorders →
      (∀ id n, c'.program.node? id = some n → ∀ slot ∈ pass.requests n.operation,
        ∃ source current output, n.dependencies[slot.2]? = some source ∧
          c'.program.freshLayout source = .ok current ∧ c'.program.freshLayout id = .ok output ∧
          c'.preferences.expected current slot.1 n.kind (some output) = .ok current) ∧
      ∃ stats' c'', (pass.run env).run.run c' = (.ok stats', c'') ∧ stats'.changed = false ∧
        c''.program.uncached = c'.program.uncached ∧ c''.preferences = c'.preferences) := by
  have hstart : Furnished c.program c.preferences.made := by
    rw [hm]
    exact ⟨⟨⟨hw.toLinked, hc⟩, (isOrdered_iff hw.toLinked).mp ho⟩, hw, ha, recorded_nil _,
      installed_nil _⟩
  have hends : Ends (pass.run env) _ _ c := suited_requests hpass hstart
  rw [Ends, hrun] at hends
  obtain ⟨ht, hgrouped, hdone⟩ := hends
  refine ⟨ht.wellFormed, (isOrdered_iff ht.linked).mpr ht.ordered, ht.aligned, ht.coherent,
    fun hlays => ⟨fun id n hn slot hslot => ?_, ?_⟩⟩
  · have hop : c'.program.shapeOf id = some n.operation.shape := by
      rw [shapeOf, hn, Option.map_some]
    have hshape : pass.requests n.operation.shape = pass.requests n.operation := by
      rcases hpass with rfl | rfl
      · exact preferredSlots_shape _
      · exact slotted_preferredBias.shape _
    rw [← hshape] at hslot
    obtain ⟨output, houtput, hsuits⟩ :=
      hdone hlays id List.not_mem_nil _ hop (List.ne_nil_of_mem hslot)
    obtain ⟨source, current, hsource, hcurrent, hexpected⟩ := hsuits slot hslot
    rw [depsOf_of_node? hn] at hsource
    rw [Operation.kind_shape] at hexpected
    exact ⟨source, current, output, hsource, hcurrent, houtput, hexpected⟩
  · have hrests : Ends (pass.run env) _ _ c' :=
      rests_requests hpass ht hgrouped fun id => hdone hlays id List.not_mem_nil
    obtain ⟨stats', c'', hagain, rfl, hunmoved⟩ := hrests.exists_ok
    exact ⟨_, c'', hagain, rfl, hunmoved.filled.same, hunmoved.preferences⟩

end Pass

/-- Two convolutions of one input by the same weights, and a bias, all in other layouts than
preferred. -/
def Topology.transposed : Topology :=
  ⟨[⟨"x", Padding.none, .inputLayout (.dense .f32 .yxfb ⟨1, 1, 2, 2⟩)⟩,
    ⟨"w", Padding.none, .inputLayout (.dense .f32 .oiyx ⟨1, 1, 1, 1⟩)⟩,
    ⟨"b", Padding.none, .inputLayout (.dense .f32 .yxfb ⟨1, 1, 1, 1⟩)⟩,
    ⟨"c", Padding.none, .convolution ⟨"x", ["w"], ["b"], Planar.one, Planar.one, Offset.zero, none,
      Activation.none⟩⟩,
    ⟨"d", Padding.none, .convolution ⟨"x", ["w"], [], Planar.one, Planar.one, Offset.zero, none,
      Activation.none⟩⟩]⟩

/-- Input and weights get one reorder each, for both convolutions, and then there is nothing left to
insert. The bias gets a reorder of its own. -/
theorem Pass.requests_settle_transposed :
    (∃ stats c', (Pass.inputReorders.run ⟨.builtin .default, none, false⟩).run.run
        (.exposing .transposed ["c", "d"]) = (.ok stats, c') ∧ stats.applied = 4 ∧
      c'.program.depsOf "c" = ["reorder_0_x", "reorder_1_w", "b"] ∧
      c'.program.depsOf "d" = ["reorder_0_x", "reorder_1_w"] ∧ ∃ stats' c'',
        (Pass.inputReorders.run ⟨.builtin .default, none, false⟩).run.run c' = (.ok stats', c'') ∧
        stats'.changed = false ∧ c''.program.uncached = c'.program.uncached) ∧
    ∃ stats c', (Pass.biasReorders.run ⟨.builtin .default, none, false⟩).run.run
        (.exposing .transposed ["c", "d"]) = (.ok stats, c') ∧
      c'.program.depsOf "c" = ["x", "w", "reorder_0_b"] ∧ ∃ stats' c'',
        (Pass.biasReorders.run ⟨.builtin .default, none, false⟩).run.run c' = (.ok stats', c'') ∧
        stats'.changed = false ∧ c''.program.uncached = c'.program.uncached := by
  have hdistinct : Topology.transposed.Distinct := by unfold Topology.Distinct; decide
  obtain ⟨hw, hc⟩ := Compilation.exposing_spec hdistinct ["c", "d"]
  have ho : (Compilation.exposing .transposed ["c", "d"]).program.isOrdered = true := by
    decide +kernel
  have ha : (Compilation.exposing .transposed ["c", "d"]).program.Aligned :=
    aligned_of_nodes (by decide +kernel)
  refine ⟨?_, ?_⟩
  · obtain ⟨stats, c', hrun, hresult⟩ := exists_run_of_map
      (x := Pass.inputReorders.run ⟨.builtin .default, none, false⟩)
      (s := .exposing .transposed ["c", "d"])
      (f := fun stats c' => (stats.applied, c'.program.depsOf "c", c'.program.depsOf "d",
        c'.program.behaviours.kinds.contains .reorder))
      (b := (4, ["reorder_0_x", "reorder_1_w", "b"], ["reorder_0_x", "reorder_1_w"], true))
      (by decide +kernel)
    obtain ⟨happlied, hfirst, hsecond, hreg⟩ := by simpa only [Prod.mk.injEq] using hresult
    obtain ⟨-, -, -, -, hagain⟩ := requests_settle (Or.inl rfl) hw ho ha hc rfl hrun
    obtain ⟨-, stats', c'', hrun', hstill, hsame, -⟩ :=
      hagain fun _ _ => ⟨.reorder, if_pos hreg⟩
    exact ⟨stats, c', hrun, happlied, hfirst, hsecond, stats', c'', hrun', hstill, hsame⟩
  · obtain ⟨stats, c', hrun, hresult⟩ := exists_run_of_map
      (x := Pass.biasReorders.run ⟨.builtin .default, none, false⟩)
      (s := .exposing .transposed ["c", "d"])
      (f := fun _ c' => (c'.program.depsOf "c", c'.program.behaviours.kinds.contains .reorder))
      (b := (["x", "w", "reorder_0_b"], true)) (by decide +kernel)
    obtain ⟨hfirst, hreg⟩ := by simpa only [Prod.mk.injEq] using hresult
    obtain ⟨-, -, -, -, hagain⟩ := requests_settle (Or.inr rfl) hw ho ha hc rfl hrun
    obtain ⟨-, stats', c'', hrun', hstill, hsame, -⟩ :=
      hagain fun _ _ => ⟨.reorder, if_pos hreg⟩
    exact ⟨stats, c', hrun, hfirst, stats', c'', hrun', hstill, hsame⟩

/-- **Reorders that cannot be laid out.**  The pass puts them in front of a convolution all the
same; what that reads has no layout then, and once more the pass stops at it. -/
theorem Pass.requests_unregistered : ∃ p,
    Program.ofTopology .transposed (.ofList [.inputLayout, .convolution]) = .ok p ∧
    p.WellFormed ∧ p.isOrdered = true ∧ p.Aligned ∧ p.Coherent ∧ ∃ stats c',
      (Pass.inputReorders.run ⟨.builtin .default, none, false⟩).run.run ⟨p, .initial, ⟨.unset, []⟩⟩
        = (.ok stats, c') ∧
      c'.program.freshLayout "reorder_0_x" = .error (.invalidGraph (.unregistered .reorder)) ∧
      ((Pass.inputReorders.run ⟨.builtin .default, none, false⟩).run.run c').1
        = .error (.invalidGraph (.unregistered .reorder)) := by
  have hdistinct : Topology.transposed.Distinct := by unfold Topology.Distinct; decide
  have hruns : (Program.ofTopology .transposed (.ofList [.inputLayout, .convolution])).map
      (fun p => (p.isOrdered, ((Pass.inputReorders.run ⟨.builtin .default, none, false⟩).run.run
        ⟨p, .initial, ⟨.unset, []⟩⟩).1.toBool,
        ((Pass.inputReorders.run ⟨.builtin .default, none, false⟩).run.run
          ⟨p, .initial, ⟨.unset, []⟩⟩).2.program.freshLayout "reorder_0_x",
        ((Pass.inputReorders.run ⟨.builtin .default, none, false⟩).run.run
          ((Pass.inputReorders.run ⟨.builtin .default, none, false⟩).run.run
            ⟨p, .initial, ⟨.unset, []⟩⟩).2).1))
      = .ok (true, true, .error (.invalidGraph (.unregistered .reorder)),
        .error (.invalidGraph (.unregistered .reorder))) := by decide +kernel
  cases hp : Program.ofTopology .transposed (.ofList [.inputLayout, .convolution]) with
  | error e =>
    rw [hp] at hruns
    cases hruns
  | ok p =>
    rw [hp] at hruns
    obtain ⟨hordered, hfirst, hlaid, hsecond⟩ := by
      simpa only [Prod.mk.injEq] using Except.ok.inj hruns
    have hbuilt := Program.built_of_ofTopology hdistinct hp
    obtain ⟨stats, hrun⟩ := exists_run_eq_ok hfirst
    exact ⟨p, rfl, hbuilt.wellFormed, hordered,
      fun j => (congrFun hbuilt.aligned j).symm, hbuilt.coherent, stats, _, hrun, hlaid,
      hsecond⟩

end NetPlan

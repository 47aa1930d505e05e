import NetPlan.Proofs.Pass.Counts
import NetPlan.Proofs.Pass.Flags
import NetPlan.Proofs.Pass.Rewrite

/-!
# Proofs/Pass/Honest — a pass that reports no change made none

With a report of no change the program is `Idle`: nodes, descriptors, edges, order, lists and plans are
as they were (`Proofs/Pass/Quiet`).  The one exception is the pass that gives the kernels the weights
they ask for.  It counts the reorders it puts in, and drops from a plan a request for weights also when
every slot of the node holds such weights already.

* `Eased` — so that is all it does when it counts none, node by node;
* `run_honest` — no change and the number of removed nodes, for every pass that reports them.
-/

namespace NetPlan

open Program Edit Transform Pass

/-! ## Plans whose requests are met -/

/-- The node with its request for weights met, if it has slots for weights. -/
def Node.eased (n : Node) : Node :=
  if n.operation.weightSlots.isEmpty then n
  else { n with plan := n.plan.map fun plan => { plan with weightsChange := none } }

namespace Node

variable (n : Node)

@[simp] theorem id_eased : n.eased.id = n.id := by
  unfold eased
  split <;> rfl

@[simp] theorem layout_eased : n.eased.layout = n.layout := by
  unfold eased
  split <;> rfl

theorem bare_eased : n.eased.bare = n.bare.eased := by
  have hop : n.bare.operation = n.operation := rfl
  unfold eased
  rw [hop]
  split <;> rfl

@[simp] theorem eased_eased : n.eased.eased = n.eased := by
  by_cases h : n.operation.weightSlots.isEmpty = true
  · have hn : n.eased = n := if_pos h
    rw [hn, hn]
  · have hn : n.eased
        = { n with plan := n.plan.map fun plan => { plan with weightsChange := none } } := if_neg h
    have hop : n.eased.operation = n.operation := by
      rw [hn]
      rfl
    rw [eased, hop, if_neg h, hn]
    dsimp only
    rw [Option.map_map]
    rfl

/-- A plan that asks for nothing. -/
theorem eased_of_none (h : n.plan.bind (·.weightsChange) = none) : n.eased = n := by
  unfold eased
  split
  · rfl
  · have hplan : (n.plan.map fun plan => { plan with weightsChange := none }) = n.plan := by
      cases hp : n.plan with
      | none => rfl
      | some plan =>
        rw [hp, Option.bind_some] at h
        rw [Option.map_some, ← h]
    rw [hplan]

end Node

namespace Program

variable {p q r : Program} {ids : List String} {id j : String}

/-- Every slot for weights holds what the plan of the node asks for: so they lie in `q`. -/
def Met (p q : Program) (id : String) : Prop :=
  ∀ plan change, p.planOf id = some plan → plan.weightsChange = some change →
    ∀ i ∈ p.weightSlotsOf id, ∀ source, (p.depsOf id)[i]? = some source →
      ∃ l, q.layoutOf source = some l ∧ l = wantedWeights change.target l.size

/-- The node eased, if it is one of the list. -/
def easedIn (ids : List String) (n : Node) : Node := if n.id ∈ ids then n.eased else n

@[simp] theorem id_easedIn (ids : List String) (n : Node) : (easedIn ids n).id = n.id := by
  unfold easedIn
  split
  · exact n.id_eased
  · rfl

theorem bare_easedIn (ids : List String) (n : Node) :
    (easedIn ids n).bare = easedIn ids n.bare := by
  have hid : n.bare.id = n.id := rfl
  unfold easedIn
  rw [hid]
  split
  · exact n.bare_eased
  · rfl

theorem easedIn_cons (id : String) (ids : List String) (n : Node) :
    easedIn ids (easedIn [id] n) = easedIn (id :: ids) n := by
  by_cases hid : n.id = id
  · have hn : easedIn [id] n = n.eased := if_pos (List.mem_singleton.mpr hid)
    rw [hn, easedIn, easedIn, if_pos (List.mem_cons.mpr (Or.inl hid)), n.eased_eased, ite_self]
  · have hn : easedIn [id] n = n := if_neg fun h => hid (List.mem_singleton.mp h)
    have hmem : n.id ∈ id :: ids ↔ n.id ∈ ids := by
      rw [List.mem_cons, or_iff_right hid]
    rw [hn, easedIn, easedIn, if_congr hmem rfl rfl]

/-- `q` is `p` with the requests of some nodes dropped, which are met; flags and empty caches apart. -/
structure Eased (p q : Program) (ids : List String) : Prop where
  same : q.bare = (p.updateAll (easedIn ids)).bare
  cached : ∀ j l, p.layoutOf j = some l → q.layoutOf j = some l
  met : ∀ j ∈ ids, Met p q j

theorem bare_updateAll_easedIn (p : Program) (ids : List String) :
    (p.updateAll (easedIn ids)).bare = p.bare.updateAll (easedIn ids) := by
  rw [bare, bare, updateAll, updateAll, updateAll, updateAll, List.map_map, List.map_map]
  exact congrArg (fun ns => ({ p with nodes := ns } : Program))
    (List.map_congr_left fun n _ => bare_easedIn ids n)

theorem updateAll_easedIn_nil (p : Program) : p.updateAll (easedIn []) = p := by
  have hid : easedIn [] = id := funext fun n => if_neg List.not_mem_nil
  rw [updateAll, hid, List.map_id]

/-- One node. -/
theorem updateAll_easedIn_singleton {f : Node → Node} {n : Node} (h : p.ids.Nodup)
    (hn : p.node? id = some n) (hf : f n = n.eased) :
    p.updateAll (easedIn [id]) = p.update id f := by
  refine congrArg (fun ns => ({ p with nodes := ns } : Program))
    (List.map_congr_left fun m hm => ?_)
  by_cases hid : m.id = id
  · obtain rfl : m = n := Option.some.inj ((node?_of_mem h hm).symm.trans (hid ▸ hn))
    rw [easedIn, if_pos (List.mem_singleton.mpr hid), if_pos hid, hf]
  · rw [easedIn, if_neg fun hmem => hid (List.mem_singleton.mp hmem), if_neg hid]

theorem Eased.refl (p : Program) : Eased p p [] where
  same := by rw [updateAll_easedIn_nil]
  cached _ _ h := h
  met _ h := nomatch h

/-- What is not a matter of caches and flags is the same at the other nodes. -/
theorem Eased.view {β : Type} (v : Option Node → β) (hv : ∀ n : Node, v (some n.bare) = v (some n))
    (h : Eased p q ids) (hj : j ∉ ids) : v (q.node? j) = v (p.node? j) := by
  have hview : ∀ p : Program, v (p.bare.node? j) = v (p.node? j) := fun p =>
    view_updateAll v (f := Node.bare) (fun _ => rfl) hv j
  rw [← hview q, h.same, hview, node?_updateAll (id_easedIn ids)]
  cases hn : p.node? j with
  | none => rfl
  | some n =>
    have hid : n.id ∉ ids := fun hmem => hj (by rwa [id_of_node? hn] at hmem)
    rw [Option.map_some, easedIn, if_neg hid]

/-- **One node after another.** -/
theorem Eased.cons (h : Eased p q [id]) (h' : Eased q r ids) : Eased p r (id :: ids) where
  same := by
    have hcomp : easedIn ids ∘ easedIn [id] = easedIn (id :: ids) :=
      funext fun n => easedIn_cons id ids n
    rw [h'.same, bare_updateAll_easedIn, h.same, bare_updateAll_easedIn, bare_updateAll_easedIn,
      updateAll, updateAll, updateAll, List.map_map, hcomp]
  cached j l hl := h'.cached j l (h.cached j l hl)
  met j hj := by
    by_cases hid : j = id
    · intro plan change hplan hchange i hi source hsource
      obtain ⟨l, hl, hfits⟩ :=
        h.met j (by rw [hid]; exact List.mem_singleton_self id) plan change hplan hchange i hi
          source hsource
      exact ⟨l, h'.cached source l hl, hfits⟩
    · have hne : j ∉ [id] := fun hmem => hid (List.mem_singleton.mp hmem)
      have hplan : q.planOf j = p.planOf j := h.view (fun o => o.bind Node.plan) (fun _ => rfl) hne
      have hdeps : q.depsOf j = p.depsOf j := h.view Node.depsIn (fun _ => rfl) hne
      have hshape : q.shapeOf j = p.shapeOf j :=
        h.view (Option.map fun n : Node => n.operation.shape) (fun _ => rfl) hne
      have hmet := h'.met j ((List.mem_cons.mp hj).resolve_left hid)
      unfold Met at hmet ⊢
      rwa [hplan, hdeps, weightSlotsOf_congr hshape] at hmet

theorem Eased.ids_eq (h : Eased p q ids) : q.ids = p.ids := by
  have hids : ∀ p : Program, p.bare.ids = p.ids := fun p =>
    ids_updateAll (f := Node.bare) fun _ => rfl
  rw [← hids q, h.same, hids, ids_updateAll (id_easedIn ids)]

/-- A node that asks for nothing. -/
theorem Eased.of_eased {n : Node} (h : p.ids.Nodup) (hn : p.node? id = some n) (heased : n.eased = n)
    (hmet : Met p p id) : Eased p p [id] where
  same := by
    have hsame : p.update id (fun m => m) = p := by
      rw [update]
      simp only [ite_self, List.map_id']
    rw [updateAll_easedIn_singleton (f := fun m => m) h hn heased.symm, hsame]
  cached _ _ hl := hl
  met j hj := by rwa [List.mem_singleton.mp hj]

/-- A node whose requests are met, and dropped. -/
theorem Eased.of_idle {n : Node} (h : p.ids.Nodup) (hn : p.node? id = some n) (hidle : p.Idle q)
    (hslots : n.operation.weightSlots.isEmpty = false) (hmet : Met p q id) :
    Eased p (q.update id fun m =>
      { m with plan := m.plan.map fun plan => { plan with weightsChange := none } }) [id] := by
  obtain ⟨m, hm, hbare⟩ : ∃ m, q.node? id = some m ∧ m.bare = n.bare := by
    have hview : (q.node? id).map Node.bare = (p.node? id).map Node.bare :=
      hidle.view (Option.map Node.bare) (fun _ => rfl) id
    rw [hn, Option.map_some, Option.map_eq_some_iff] at hview
    exact hview
  have hop : m.bare.operation = n.bare.operation := congrArg Node.operation hbare
  change m.operation = n.operation at hop
  have heased : m.eased
      = { m with plan := m.plan.map fun plan => { plan with weightsChange := none } } := by
    rw [Node.eased, hop, hslots]
    rfl
  have hlayout : (q.update id fun m =>
      { m with plan := m.plan.map fun plan => { plan with weightsChange := none } }).layoutOf
        = q.layoutOf := layoutOf_update_same (fun _ => rfl) fun _ => rfl
  refine ⟨?_, fun j l hl => ?_, fun j hj => ?_⟩
  · rw [← updateAll_easedIn_singleton (hidle.ids ▸ h) hm heased.symm, bare_updateAll_easedIn,
      hidle.same, ← bare_updateAll_easedIn]
  · rw [hlayout]
    exact hidle.cached j l hl
  · rw [List.mem_singleton.mp hj]
    unfold Met at hmet ⊢
    rwa [hlayout]

/-- **All nodes.** -/
theorem Eased.all (h : Eased p q ids) (hids : ∀ n ∈ p.nodes, n.id ∈ ids) :
    q.bare = (p.updateAll Node.eased).bare := by
  rw [h.same, updateAll, updateAll]
  exact congrArg (fun ns => bare ({ p with nodes := ns } : Program))
    (List.map_congr_left fun n hn => if_pos (hids n hn))

end Program

namespace Pass

variable {c : Compilation} {id : String}

/-- A reorder is not needed for one reason only. -/
theorem eq_of_reorder {preferences : Preferences} {source : String} {current target : Layout}
    (h : (preferences.reorder source current target).1 = .notNeeded) : current = target := by
  by_contra hne
  rw [Preferences.reorder, if_neg hne] at h
  split at h <;> cases h

/-- A slot that is left alone holds the weights that are asked for. -/
theorem changeWeights_idle (s : Selector) (id : String) (target : WeightTensor) (index : Nat)
    (c : Compilation) :
    Ends (changeWeights s id target index)
      (fun changed c' => changed = false → Idle c.program c'.program ∧
        ∀ source, (c.program.depsOf id)[index]? = some source →
          ∃ l, c'.program.layoutOf source = some l ∧ l = wantedWeights target l.size)
      (fun _ _ => True) c := by
  rw [changeWeights, ends_bind, ends_liftM, ends_node]
  refine ⟨fun n hn => ?_, fun _ => trivial⟩
  split
  case h_2 hnone =>
    refine fun _ => ⟨refl_of Idle c.program, fun source hsource => ?_⟩
    rw [depsOf_of_node? hn] at hsource
    exact absurd hsource (hnone source)
  case h_1 source hsource =>
  rw [ends_bind, ends_liftM]
  refine (((leaves_layout source).ends c.program).and (layout_cached source)).imp
    (fun current p hp => ?_) fun _ _ _ => trivial
  obtain ⟨hidle, hcurrent⟩ := hp
  rw [ends_bind, ends_preferences]
  dsimp only
  generalize hchoice : c.preferences.reorder source current _ = answer
  obtain ⟨choice, preferences⟩ := answer
  rw [ends_bind, ends_setPreferences, ends_bind]
  by_cases hneeded : choice = .notNeeded
  · rw [hneeded, insertReorder, ends_pure]
    refine fun _ => ⟨hidle, fun source' hsource' => ⟨current, ?_, ?_⟩⟩
    · rw [depsOf_of_node? hn] at hsource'
      obtain rfl : source = source' := Option.some.inj (hsource.symm.trans hsource')
      exact hcurrent
    · exact eq_of_reorder ((congrArg Prod.fst hchoice).trans hneeded)
  · refine (never_insertReorder hneeded id index _).imp_good fun made d hmade => ?_
    cases made with
    | none => exact absurd rfl hmade
    | some reorder =>
      have hbound : Never (· = false) (do
          let r ← Edit.node reorder
          if r.plan.isNone then
            let _ ← bindNode s reorder
          return true : Transform Bool) :=
        never_bind fun r => never_ite (never_bind fun _ => never_pure (by simp))
          (never_pure (by simp))
      exact (hbound d).imp_good fun _ _ hr h => absurd h hr

/-- All slots of a node, left alone. -/
theorem changeAllWeights_idle (s : Selector) (id : String) (target : WeightTensor) :
    ∀ (slots : List Nat) (c : Compilation),
    Ends (changeAllWeights s id target slots)
      (fun count c' => count = 0 → Idle c.program c'.program ∧
        ∀ i ∈ slots, ∀ source, (c.program.depsOf id)[i]? = some source →
          ∃ l, c'.program.layoutOf source = some l ∧ l = wantedWeights target l.size)
      (fun _ _ => True) c
  | [], c => fun _ => ⟨refl_of Idle c.program, fun _ hi => nomatch hi⟩
  | index :: slots, c => by
      rw [changeAllWeights, ends_bind]
      refine (changeWeights_idle s id target index c).imp_good fun here d hd => ?_
      rw [ends_bind]
      refine (changeAllWeights_idle s id target slots d).imp_good fun further e he hcount => ?_
      have hhere : here = false := by
        by_contra hb
        rw [if_pos (by simpa using hb)] at hcount
        omega
      obtain ⟨hidle, hfirst⟩ := hd hhere
      obtain ⟨hidle', hrest⟩ := he (by omega)
      have hdeps : d.program.depsOf id = c.program.depsOf id :=
        hidle.view Node.depsIn (fun _ => rfl) id
      refine ⟨trans_of Idle hidle hidle', fun i hi source hsource => ?_⟩
      rcases List.mem_cons.mp hi with rfl | hi
      · obtain ⟨l, hl, hfits⟩ := hfirst source hsource
        exact ⟨l, hidle'.cached source l hl, hfits⟩
      · exact hrest i hi source (by rwa [hdeps])

/-- **A count of nothing**: the requests that were dropped were met. -/
theorem satisfyWeights_eased (s : Selector) : ∀ (ids : List String) {c : Compilation},
    c.program.ids.Nodup →
    Ends (satisfyWeights s ids) (fun count c' => count = 0 → Eased c.program c'.program ids)
      (fun _ _ => True) c
  | [], c, _ => fun _ => .refl c.program
  | id :: ids, c, hnodup => by
      have hrest : ∀ (here : Nat) (d : Compilation),
          (here = 0 → Eased c.program d.program [id]) → Ends (do
            let further ← satisfyWeights s ids
            return here + further : Transform Nat)
            (fun count c' => count = 0 → Eased c.program c'.program (id :: ids))
            (fun _ _ => True) d := by
        intro here d hd
        rw [ends_bind]
        rcases Nat.eq_zero_or_pos here with hzero | hpos
        · refine (satisfyWeights_eased s ids ((hd hzero).ids_eq ▸ hnodup)).imp_good
            fun further e he hcount => (hd hzero).cons (he ?_)
          omega
        · exact (ends_trivial _ d).imp_good fun further e _ hcount => by omega
      rw [satisfyWeights, ends_bind, ends_liftM, ends_node]
      refine ⟨fun n hn => ?_, fun _ => trivial⟩
      have hplan : c.program.planOf id = n.plan := by rw [planOf, hn, Option.bind_some]
      dsimp only
      split
      case h_1 hnone =>
        refine hrest 0 c fun _ => .of_eased hnodup hn (n.eased_of_none hnone) ?_
        intro plan change hp hchange
        rw [← hplan, hp, Option.bind_some, hchange] at hnone
        cases hnone
      case h_2 change hchange =>
        split
        case isTrue hslots =>
          refine hrest 0 c fun _ => .of_eased hnodup hn (if_pos hslots) ?_
          intro plan _ _ _ i hi
          rw [weightSlotsOf_of_node? hn, List.isEmpty_iff.mp hslots] at hi
          cases hi
        case isFalse hslots =>
          rw [ends_bind]
          refine (changeAllWeights_idle s id change.target _ c).imp_good fun inserted d hd => ?_
          rw [ends_bind, ends_liftM, ends_change]
          refine ⟨fun _ _ => hrest inserted _ fun hzero => ?_, fun _ => trivial⟩
          obtain ⟨hidle, hmet⟩ := hd hzero
          refine .of_idle hnodup hn hidle (Bool.eq_false_iff.mpr hslots) ?_
          intro plan change' hp hchange' i hi source hsource
          rw [← hplan, hp, Option.bind_some, hchange'] at hchange
          rw [Option.some.inj hchange]
          rw [weightSlotsOf_of_node? hn] at hi
          exact hmet i hi source hsource

/-! ## Reports -/

/-- What a report of no change says of the program: but for flags and caches it is the same, and where
weights were asked for, so it is but for requests that were met. -/
def Unchanged (pass : Pass) (p q : Program) : Prop :=
  match pass with
  | .weightReorders => q.bare = (p.updateAll Node.eased).bare ∧ ∀ id, p.Met q id
  | _ => q.bare = p.bare

/-- The passes that report what they change: neither the first layouts nor the binding of kernels. -/
def reports : Pass → Bool
  | .layouts | .binding => false
  | _ => true

theorem leaves_reorderWeights (env : Environment) (hl : c.program.Linked) (ho : c.program.Ordered) :
    Ends (reorderWeights env)
      (fun stats c' => stats.changed = false → Unchanged .weightReorders c.program c'.program)
      (fun _ _ => True) c := by
  rw [reorderWeights, ends_bind, ends_program, ends_bind]
  refine (satisfyWeights_eased env.selector _ hl.ids_nodup).imp_good fun count c' hc' hchanged => ?_
  have heased := hc' (changed_ofCounts.mp hchanged).1
  refine ⟨heased.all fun n hn => (ho.mem n.id).mpr
    (contains_iff_mem_ids.mpr (List.mem_map_of_mem hn)), fun id => ?_⟩
  by_cases hid : c.program.contains id = true
  · exact heased.met id ((ho.mem id).mpr hid)
  · intro plan _ hplan
    obtain ⟨n, hn, -⟩ := Option.bind_eq_some_iff.mp hplan
    exact absurd (contains_of_node? hn) hid

theorem run_unchanged (env : Environment) {pass : Pass} (hpass : pass.reports = true)
    (hl : c.program.Linked) (ho : c.program.Ordered) :
    Ends (pass.run env) (fun stats c' => stats.changed = false → Unchanged pass c.program c'.program)
      (fun _ _ => True) c := by
  have hidle : ∀ {x : Transform PassStats}, Leaves Compilation.Idle (·.changed = false) x →
      Ends x (fun stats c' => stats.changed = false → c'.program.bare = c.program.bare)
        (fun _ _ => True) c := fun hx =>
    (hx c).imp_good fun _ _ hc' hchanged => (hc' hchanged).same
  cases pass with
  | trim => exact hidle (leaves_trimToOutputs env)
  | fusion => exact hidle (leaves_fuse env)
  | inputReorders => exact hidle leaves_reorderInputs
  | biasReorders => exact hidle leaves_reorderBias
  | redundantReorders => exact hidle (leaves_removeRedundantReorders env)
  | padding => exact hidle leaves_padInputs
  | constants => exact hidle (leaves_propagateConstants env)
  | weightReorders => exact leaves_reorderWeights env hl ho
  | layouts => cases hpass
  | binding => cases hpass

/-- A pass that compares the sizes before and after. -/
theorem removed_ofSizes {x : Transform Nat} (count : Nat → Nat) (before : Nat) :
    Ends (do
        let applied ← x
        return PassStats.ofCounts (count applied) (before - (← Transform.program).size) :
          Transform PassStats)
      (fun stats c' => stats.removed = before - c'.program.size) (fun _ _ => True) c := by
  rw [ends_bind]
  refine (ends_trivial x c).imp_good fun applied d _ => ?_
  rw [ends_bind, ends_program]
  rfl

theorem run_removed (env : Environment) {pass : Pass} (hpass : pass.reports = true)
    (hl : c.program.Linked) :
    Ends (pass.run env) (fun stats c' => stats.removed = c.program.size - c'.program.size)
      (fun _ _ => True) c := by
  cases pass with
  | trim =>
    rw [run, trimToOutputs]
    split
    · exact (Nat.sub_self _).symm
    · rw [ends_bind, ends_liftM]
      refine (trim_size hl).imp_good fun removed q hq => ?_
      change removed = c.program.size - q.size
      omega
  | fusion =>
    rw [run, fuse, ends_bind, ends_program, ends_bind]
    refine (ends_trivial _ c).imp_good fun convolutions d _ => ?_
    rw [ends_bind]
    exact (ends_trivial _ d).imp_good fun activations d _ =>
      removed_ofSizes (convolutions + activations + ·) c.program.size
  | inputReorders =>
    rw [run, reorderInputs, ends_bind, ends_program, ends_bind, ends_preferences, ends_bind,
      ends_setPreferences]
    exact removed_ofGrows (c := { c with preferences := _ }) hl (grows_reorderSlots _ _)
  | biasReorders =>
    rw [run, reorderBias, ends_bind, ends_program]
    exact removed_ofGrows hl (grows_reorderSlots _ _)
  | redundantReorders =>
    rw [run, removeRedundantReorders, ends_bind, ends_program]
    exact removed_ofSizes (fun applied => applied) c.program.size
  | padding =>
    rw [run, padInputs, ends_bind, ends_program, ends_bind]
    refine (ends_trivial _ c).imp_good fun asks d _ => ?_
    dsimp only
    split
    · rw [ends_bind]
      exact (ends_trivial _ d).imp_good fun sized d _ =>
        removed_ofSizes (sized + ·) c.program.size
    · rw [pure_bind]
      exact removed_ofSizes (0 + ·) c.program.size
  | constants =>
    rw [run, propagateConstants]
    split
    · exact (Nat.sub_self _).symm
    · rw [ends_liftM]
      exact foldConstants_size _ hl
  | weightReorders =>
    rw [run, reorderWeights, ends_bind, ends_program]
    exact removed_ofGrows hl (grows_satisfyWeights _ _)
  | layouts => cases hpass
  | binding => cases hpass

/-- **What a pass reports is what it did.**  With a report of no change, nodes, descriptors, edges,
order, lists and plans are as before; where kernels get the weights they ask for, plans are so but for
requests that every slot of their node meets.  And as many nodes are reported as removed as the program
has fewer than before, none if it has not. -/
theorem run_honest (env : Environment) {pass : Pass} (hpass : pass.reports = true)
    {c c' : Compilation} {stats : PassStats} (hw : c.program.WellFormed)
    (ho : c.program.isOrdered = true) (hrun : (pass.run env).run.run c = (.ok stats, c')) :
    (stats.changed = false → Unchanged pass c.program c'.program) ∧
      stats.removed = c.program.size - c'.program.size := by
  have hl := hw.toLinked
  have hends := (run_unchanged env hpass hl ((isOrdered_iff hl).mp ho)).and (run_removed env hpass hl)
  rw [Ends, hrun] at hends
  exact hends

end Pass

/-! ## Requests that are met -/

/-- Binds the kernels, and then asks for the preferred layouts. -/
def bindAndReorder (env : Environment) : Transform PassStats := do
  Edit.prepare []
  let _ ← Pass.run env .binding
  Pass.run env .inputReorders

/-- What that leaves of a graph that was built is sound. -/
theorem ends_bindAndReorder {t : Topology} {b : Behaviours} {p : Program} (env : Environment)
    (session : Session) (h : Built t b p) :
    Ends (bindAndReorder env) (fun _ c => c.program.WellFormed) (fun _ _ => True)
      ⟨p, .initial, session⟩ := by
  rw [bindAndReorder, ends_bind, ends_liftM]
  refine (prepare_flagged h.wellFormed.toLinked h.topological h.slots []).imp (fun _ q hq => ?_)
    fun _ _ _ => trivial
  have hbased := h.based hq.1
  rw [ends_bind]
  refine (bindAll_ends env hbased.linked hbased.coherent).imp (fun _ c hc => ?_)
    fun _ _ _ => trivial
  obtain ⟨hbound, hpref⟩ := hc
  have hc : Based c.program c.preferences.made :=
    hpref ▸ ⟨hbased.toSound.kept hbound.kept, hbound.ranked hbased.ranked, hbased.numbered⟩
  have hw : c.program.WellFormed :=
    hbound.kept.wellFormed (hq.1.kept.wellFormed h.wellFormed)
  refine (rewrites_run env .inputReorders rfl hc).imp (fun _ d hd => ?_) fun _ _ _ => trivial
  exact (hd.1.rewrites.invariant (I := fun p m => p.WellFormed ∧ Based p m)
    (fun hp hr => ⟨(hr.kept hp.2.linked).wellFormed hp.1, hr.based hp.2⟩) ⟨hw, hc⟩).1

/-- An input and weights, bound and then put into the preferred layouts. -/
def Compilation.asking : Compilation :=
  ((bindAndReorder ⟨.builtin .default, none, false⟩).run.run
    ⟨(Program.ofTopology .layered .builtin).toOption.getD (.empty .builtin), .initial,
      ⟨.unset, []⟩⟩).2

theorem asking_sound : Compilation.asking.program.WellFormed ∧
    Compilation.asking.program.isOrdered = true ∧ Compilation.asking.program.Aligned := by
  refine ⟨?_, by decide +kernel, fun id => ?_⟩
  · obtain ⟨p, hp⟩ : ∃ p, Program.ofTopology .layered .builtin = .ok p := ⟨_, rfl⟩
    have hends := ends_bindAndReorder ⟨.builtin .default, none, false⟩ ⟨.unset, []⟩
      (built_of_ofTopology (by unfold Topology.Distinct; decide) hp)
    have hok : ((bindAndReorder ⟨.builtin .default, none, false⟩).run.run
        ⟨(Program.ofTopology .layered .builtin).toOption.getD (.empty .builtin), .initial,
          ⟨.unset, []⟩⟩).1.toBool = true := by decide +kernel
    obtain ⟨stats, hrun⟩ := exists_run_eq_ok hok
    rw [hp] at hrun
    change (bindAndReorder _).run.run ⟨p, .initial, ⟨.unset, []⟩⟩ = _ at hrun
    rw [Ends, hrun] at hends
    rw [Compilation.asking, hp]
    exact hends
  · by_cases hid : Compilation.asking.program.contains id = true
    · have hslots : ∀ id ∈ Compilation.asking.program.ids,
          Compilation.asking.program.argsOf id = Compilation.asking.program.depsOf id := by
        decide +kernel
      exact hslots id (contains_iff_mem_ids.mp hid)
    · rw [argsOf_of_not_contains hid, depsOf_of_not_contains hid]

/-- The weights are all that the kernel asks for. -/
theorem run_honest_asking : ∃ (c' : Compilation) (stats : PassStats),
    (Pass.run ⟨.builtin .default, none, false⟩ .weightReorders).run.run .asking = (.ok stats, c') ∧
    stats.changed = false ∧ stats.removed = 0 ∧
    c'.program.bare = (Compilation.asking.program.updateAll Node.eased).bare ∧
    Compilation.asking.program.Met c'.program "c" := by
  obtain ⟨stats, hrun⟩ := exists_run_eq_ok
    (x := Pass.run ⟨.builtin .default, none, false⟩ .weightReorders) (s := .asking)
    (by decide +kernel)
  have hchanged : ((Pass.run ⟨.builtin .default, none, false⟩ .weightReorders).run.run
      Compilation.asking).1.toOption.map (fun s => (s.changed, s.removed)) = some (false, 0) := by
    decide +kernel
  rw [hrun] at hchanged
  obtain ⟨hchanged, hremoved⟩ := Prod.mk.inj (Option.some.inj hchanged)
  obtain ⟨hsame, -⟩ := Pass.run_honest _ rfl asking_sound.1 asking_sound.2.1 hrun
  exact ⟨_, stats, hrun, hchanged, hremoved, (hsame hchanged).1, (hsame hchanged).2 "c"⟩

/-- **A request that is met is dropped without a report**: the weights lie as the bound kernel asks for,
so no reorder is put in, and the plan asks no more. -/
theorem run_drops_request : ∃ (c c' : Compilation) (stats : PassStats),
    c.program.WellFormed ∧ c.program.isOrdered = true ∧ c.program.Aligned ∧
    (Pass.run ⟨.builtin .default, none, false⟩ .weightReorders).run.run c = (.ok stats, c') ∧
    stats.changed = false ∧ c'.program.planOf "c" ≠ c.program.planOf "c" := by
  obtain ⟨stats, hrun⟩ := exists_run_eq_ok
    (x := Pass.run ⟨.builtin .default, none, false⟩ .weightReorders) (s := .asking)
    (by decide +kernel)
  have hchanged : ((Pass.run ⟨.builtin .default, none, false⟩ .weightReorders).run.run
      Compilation.asking).1.toOption.map (·.changed) = some false := by decide +kernel
  rw [hrun] at hchanged
  refine ⟨.asking, _, stats, asking_sound.1, asking_sound.2.1, asking_sound.2.2, hrun,
    Option.some.inj hchanged, fun hplan => ?_⟩
  have hplans : (((Pass.run ⟨.builtin .default, none, false⟩ .weightReorders).run.run
        Compilation.asking).2.program.planOf "c").map (·.weightsChange.isSome)
      ≠ (Compilation.asking.program.planOf "c").map (·.weightsChange.isSome) := by decide +kernel
  exact hplans (by rw [hplan])

end NetPlan

import NetPlan.Proofs.Graph.Rework

/-!
# Proofs/Layout/Cache — the cache answers what a fresh computation would

`Edit.layout` reads a layout from the cache or computes it, and caches what it computes on the way.

* `layout_ends` — in a coherent program it returns the fresh layout, or the error that a fresh
  computation stops with, and what it leaves is the same program but for its caches, and coherent.

The two computations go to different depths: where one finds a cached layout the other goes on.
They agree because neither notices the bound before the other: an answer that is settled is the
fresh one, and what settles without a cache at some depth settles with one.
-/

namespace NetPlan

/-! ## What rules stop with -/

section Plain

variable {α β : Type} {x : Except CompileError α} {f : α → Except CompileError β}

/-- Whether an error, if any, is about a node: no bound was met, and nothing closes. -/
def plain : Except CompileError α → Bool
  | .error e => !e.isEndless && !e.closes
  | .ok _ => true

theorem plain_bind (hx : plain x = true) (hf : ∀ a, plain (f a) = true) :
    plain (x >>= f) = true := by
  cases x with
  | error e => exact hx
  | ok a => exact hf a

theorem plain_ite {c : Prop} [Decidable c] {y : Except CompileError α} (hx : plain x = true)
    (hy : plain y = true) : plain (if c then x else y) = true := by
  split
  · exact hx
  · exact hy

/-- A check that may stop, and what comes behind it. -/
theorem plain_guard {c : Prop} [Decidable c] {y : Except CompileError Unit}
    {k : Unit → Except CompileError α} (hy : plain y = true) (hk : ∀ u, plain (k u) = true) :
    plain (if c then y >>= k else k ()) = true :=
  plain_ite (plain_bind hy hk) (hk ())

/-- Plain results are settled. -/
theorem settled_of_plain (h : plain x = true) : settled x = true := by
  cases x with
  | error e => exact (Bool.and_eq_true_iff.mp h).1
  | ok a => rfl

/-- Plain failures are none of the closing checks. -/
theorem closes_of_plain {e : CompileError} (h : plain x = true) (he : x = .error e) :
    e.closes = false := by
  rw [he] at h
  exact Bool.not_eq_true' _ |>.mp (Bool.and_eq_true_iff.mp h).2

end Plain

namespace Node

variable (n : Node) (inputs : List Layout)

theorem plain_expectInputs (k : Nat) : plain (n.expectInputs inputs k) = true :=
  plain_ite rfl rfl

theorem plain_inputAt (k : Nat) : plain (inputAt inputs k) = true := by
  unfold inputAt
  split <;> rfl

theorem plain_sameAsInput : plain (n.sameAsInput inputs) = true :=
  plain_bind (n.plain_expectInputs inputs 1) fun _ =>
    plain_bind (plain_inputAt inputs 0) fun _ => rfl

theorem plain_windowPositions (input window stride dilation padding : Nat)
    (rounding : WindowRounding) :
    plain (n.windowPositions input window stride dilation padding rounding) = true := by
  unfold windowPositions
  split <;> rfl

theorem plain_convolutionLayout (c : Convolution) :
    plain (n.convolutionLayout c inputs) = true := by
  refine plain_bind (n.plain_expectInputs inputs _) fun _ =>
    plain_bind (plain_inputAt inputs 0) fun _ =>
    plain_bind (plain_inputAt inputs 1) fun _ => ?_
  dsimp only
  split
  · rfl
  · exact plain_bind (n.plain_windowPositions ..) fun _ =>
      plain_bind (n.plain_windowPositions ..) fun _ => rfl

theorem plain_poolingLayout (p : Pooling) : plain (n.poolingLayout p inputs) = true := by
  refine plain_bind (n.plain_expectInputs inputs _) fun _ =>
    plain_bind (plain_inputAt inputs 0) fun _ => ?_
  dsimp only
  split
  · rfl
  · exact plain_bind (n.plain_windowPositions ..) fun _ =>
      plain_bind (n.plain_windowPositions ..) fun _ => rfl

/-- **Layouts fail for plain reasons.** -/
theorem plain_outputLayout : plain (n.outputLayout inputs) = true := by
  unfold outputLayout
  cases n.operation with
  | inputLayout l => rfl
  | data l v => exact plain_ite rfl rfl
  | convolution c => exact n.plain_convolutionLayout inputs c
  | fullyConnected c =>
    exact plain_bind (n.plain_expectInputs inputs 2) fun _ =>
      plain_bind (plain_inputAt inputs 0) fun _ =>
      plain_bind (plain_inputAt inputs 1) fun _ => rfl
  | pooling p => exact n.plain_poolingLayout inputs p
  | activation a => exact n.plain_sameAsInput inputs
  | eltwise e =>
    refine plain_bind (n.plain_expectInputs inputs 1) fun _ =>
      plain_bind (plain_inputAt inputs 0) fun _ => ?_
    split
    · rfl
    · exact n.plain_sameAsInput inputs
  | reorder r =>
    exact plain_bind (n.plain_expectInputs inputs 1) fun _ =>
      plain_bind (plain_inputAt inputs 0) fun _ => rfl
  | softmax s => exact n.plain_sameAsInput inputs
  | concatenation c =>
    exact plain_bind (n.plain_expectInputs inputs 1) fun _ =>
      plain_bind (plain_inputAt inputs 0) fun _ => plain_ite rfl rfl
  | batchNorm b =>
    exact plain_bind (n.plain_expectInputs inputs 3) fun _ => n.plain_sameAsInput inputs
  | scale s =>
    exact plain_bind (n.plain_expectInputs inputs 2) fun _ => n.plain_sameAsInput inputs
  | fusedConvBnScale f => exact n.plain_convolutionLayout inputs f.conv

/-- **A rule stops with an error about its node, if at all.** -/
theorem plain_rule (b : Behaviours) : plain (n.rule b inputs) = true := by
  rw [rule_eq]
  exact plain_bind (plain_ite rfl rfl) fun _ => n.plain_outputLayout inputs

end Node

/-! ## A program but for its caches -/

/-- The node without its cache. -/
def Node.uncached (n : Node) : Node := { n with layout := none }

namespace Program

/-- The program without caches. -/
def uncached (p : Program) : Program := p.updateAll Node.uncached

variable {p q : Program} {id : String} {n : Node} {l : Layout}

/-- What is not read off the cache is the same in programs that differ in caches only. -/
theorem view_of_uncached {α : Type} (v : Option Node → α)
    (hv : ∀ n : Node, v (some n.uncached) = v (some n)) (h : q.uncached = p.uncached) (j : String) :
    v (q.node? j) = v (p.node? j) := by
  have hview : ∀ p : Program, v (p.uncached.node? j) = v (p.node? j) := fun p =>
    view_updateAll v (f := Node.uncached) (fun _ => rfl) hv j
  rw [← hview q, ← hview p, h]

/-- Caches apart the same: the same node with another layout. -/
theorem node?_of_uncached (h : q.uncached = p.uncached) (hn : p.node? id = some n) :
    q.node? id = some { n with layout := q.layoutOf id } := by
  have hview := view_of_uncached (Option.map Node.uncached) (fun _ => rfl) h id
  rw [hn, Option.map_some] at hview
  obtain ⟨m, hm, hmn⟩ := Option.map_eq_some_iff.mp hview
  have hfill : m = { m.uncached with layout := m.layout } := rfl
  rw [layoutOf, hm, Option.bind_some]
  exact congrArg some (hfill.trans (hmn ▸ rfl))

theorem ids_of_uncached (h : q.uncached = p.uncached) : q.ids = p.ids := by
  have hids : ∀ p : Program, p.uncached.ids = p.ids := fun p =>
    ids_updateAll (f := Node.uncached) fun _ => rfl
  rw [← hids q, ← hids p, h]

theorem behaviours_of_uncached (h : q.uncached = p.uncached) : q.behaviours = p.behaviours :=
  (congrArg Program.behaviours h :)

theorem depsOf_of_uncached (h : q.uncached = p.uncached) : q.depsOf = p.depsOf :=
  funext fun j => view_of_uncached
    Node.depsIn (fun _ => rfl) h j

theorem usersOf_of_uncached (h : q.uncached = p.uncached) : q.usersOf = p.usersOf :=
  funext fun j => view_of_uncached
    Node.usersIn (fun _ => rfl) h j

theorem isMarked_of_uncached (h : q.uncached = p.uncached) : q.isMarked = p.isMarked :=
  funext fun j => view_of_uncached
    Node.markIn (fun _ => rfl) h j

/-- **Fresh layouts do not depend on caches.** -/
theorem freshWithin_of_uncached (h : q.uncached = p.uncached) (depth : Nat) :
    q.freshWithin depth = p.freshWithin depth := funext fun id =>
  freshWithin_frame (fun _ => True) (behaviours_of_uncached h) (fun _ _ _ _ => trivial)
    (fun i _ => view_of_uncached (Option.map Node.outline) (fun _ => rfl) h i)
    (fun i _ => congrFun (depsOf_of_uncached h) i) depth id trivial

theorem freshLayout_of_uncached (h : q.uncached = p.uncached) : q.freshLayout = p.freshLayout := by
  have hsize : q.size = p.size := by
    have hlen := congrArg List.length (ids_of_uncached h)
    rwa [ids, ids, List.length_map, List.length_map] at hlen
  funext id
  rw [freshLayout, freshLayout, hsize, freshWithin_of_uncached h]

theorem linked_of_uncached (h : p.Linked) (hu : q.uncached = p.uncached) : q.Linked := by
  have horder : q.order = p.order := (congrArg Program.order hu :)
  exact h.of_views (ids_of_uncached hu) (depsOf_of_uncached hu) (usersOf_of_uncached hu)
    (congrArg Program.inputs hu :) (horder ▸ h.order_nodup) fun id hid =>
      h.order_contains id (horder ▸ hid)

/-- A graph is well formed whatever its caches say. -/
theorem wellFormed_of_uncached (h : p.WellFormed) (hu : q.uncached = p.uncached) : q.WellFormed :=
  (linked_of_uncached h.toLinked hu).wellFormed h (congrArg Program.outputs hu :) fun j =>
    congrFun (isMarked_of_uncached hu) j

/-- A program that differs in caches only is the same graph. -/
theorem touched_of_uncached (h : p.Linked) (hu : q.uncached = p.uncached)
    (hc : p.Coherent → q.Coherent) : Touched p q := by
  have hids := ids_of_uncached hu
  have hdeps := depsOf_of_uncached hu
  have husers := usersOf_of_uncached hu
  have horder : q.order = p.order := (congrArg Program.order hu :)
  have hl : q.Linked := linked_of_uncached h hu
  refine ⟨⟨⟨⟨⟨hl, hc, fun hw => hl.wellFormed hw (congrArg Program.outputs hu :) fun j => ?_,
    behaviours_of_uncached hu⟩, hids, hdeps, husers, funext fun j => ?_, funext fun j => ?_⟩,
    funext fun j => ?_, horder⟩, isMarked_of_uncached hu⟩, funext fun j => ?_⟩
  · exact congrFun (isMarked_of_uncached hu) j
  · exact view_of_uncached Node.argsIn
      (fun _ => rfl) hu j
  · exact view_of_uncached (Option.map Node.task) (fun _ => rfl) hu j
  · exact view_of_uncached (fun o => o.bind Node.plan) (fun _ => rfl) hu j
  · exact view_of_uncached (Option.map Node.flags) (fun _ => rfl) hu j

theorem uncached_update_layout (p : Program) (id : String) (l : Layout) :
    (p.update id fun m => { m with layout := some l }).uncached = p.uncached := by
  unfold uncached updateAll update
  rw [List.map_map]
  refine congrArg (fun ns => ({ p with nodes := ns } : Program))
    (List.map_congr_left fun m _ => ?_)
  simp only [Function.comp_apply]
  split <;> rfl

/-- The program with a layout in the cache of a node, right or wrong. -/
def claiming (p : Program) (id : String) (l : Layout) : Program :=
  p.update id fun m => { m with layout := some l }

/-- **Wrong caches are no fault of the graph.** -/
theorem wellFormed_claiming (h : p.WellFormed) (id : String) (l : Layout) :
    (p.claiming id l).WellFormed :=
  wellFormed_of_uncached h (uncached_update_layout p id l)

/-- Caching a fresh layout keeps a program coherent. -/
theorem Coherent.cache (h : p.Coherent) (hl : p.freshLayout id = .ok l) :
    (p.update id fun m => { m with layout := some l }).uncached = p.uncached ∧
      (p.update id fun m => { m with layout := some l }).Coherent := by
  have hu := uncached_update_layout p id l
  refine ⟨hu, fun j k hk => ?_⟩
  rw [freshLayout_of_uncached hu]
  rw [layoutOf, node?_update (f := fun m : Node => { m with layout := some l }) fun _ => rfl] at hk
  split at hk
  case isTrue hj =>
    obtain ⟨m, hm, hmk⟩ := Option.bind_eq_some_iff.mp hk
    obtain ⟨m', -, rfl⟩ := Option.map_eq_some_iff.mp hm
    rw [hj, hl]
    exact congrArg Except.ok (Option.some.inj hmk)
  case isFalse => exact h j k hk

/-- `q` is `p` but for its caches, which are right. -/
structure Filled (p q : Program) : Prop where
  same : q.uncached = p.uncached
  coherent : q.Coherent

theorem Filled.trans {r : Program} (h : Filled p q) (h' : Filled q r) : Filled p r :=
  ⟨h'.same.trans h.same, h'.coherent⟩

theorem Filled.touched (h : Filled p q) (hl : p.Linked) : Touched p q :=
  touched_of_uncached hl h.same fun _ => h.coherent

/-- `q` is `p` with more in its caches; what was there is still there, right or not. -/
structure Computed (p q : Program) : Prop where
  same : q.uncached = p.uncached
  caches : ∀ j l, p.layoutOf j = some l → q.layoutOf j = some l
  coherent : p.Coherent → q.Coherent

theorem Computed.refl (p : Program) : Computed p p := ⟨rfl, fun _ _ hl => hl, fun hc => hc⟩

theorem Computed.trans {r : Program} (h : Computed p q) (h' : Computed q r) : Computed p r :=
  ⟨h'.same.trans h.same, fun j l hl => h'.caches j l (h.caches j l hl),
    fun hc => h'.coherent (h.coherent hc)⟩

theorem Computed.touched (h : Computed p q) (hl : p.Linked) : Touched p q :=
  touched_of_uncached hl h.same h.coherent

end Program

/-! ## Computing with a cache -/

namespace Edit

open Program

variable {α : Type} {p : Program} {id : String}

/-- What an error says: the bound was met without a cache too, or it is the error of a fresh
computation. -/
def Agrees (e : CompileError) (within fresh : Except CompileError α) : Prop :=
  if e.isEndless = true then within = .error (.fault .endless) else fresh = .error e

variable {depth : Nat}

/-- The layouts of a list of nodes, if those of each agree. -/
theorem mapM_layoutWithin_ends
    (step : ∀ (id : String) {p : Program}, p.Coherent →
      Ends (layoutWithin depth id) (fun l q => Filled p q ∧ p.freshLayout id = .ok l)
        (fun e q => Filled p q ∧ Agrees e (p.freshWithin depth id) (p.freshLayout id)) p) :
    ∀ (ids : List String) {p : Program}, p.Coherent →
      Ends (ids.mapM (layoutWithin depth))
        (fun ls q => Filled p q ∧ ids.mapM p.freshLayout = .ok ls)
        (fun e q => Filled p q ∧
          Agrees e (ids.mapM (p.freshWithin depth)) (ids.mapM p.freshLayout)) p
  | [], p, hc => by
      rw [List.mapM_nil, ends_pure]
      exact ⟨⟨rfl, hc⟩, List.mapM_nil⟩
  | id :: ids, p, hc => by
      rw [List.mapM_cons, ends_bind]
      refine (step id hc).imp (fun l q hq => ?_) fun e q hq => ⟨hq.1, ?_⟩
      · obtain ⟨hfill, hl⟩ := hq
        rw [ends_bind]
        refine (mapM_layoutWithin_ends step ids hfill.coherent).imp (fun ls r hr => ?_)
          fun e r hr => ⟨hfill.trans hr.1, ?_⟩
        · rw [freshLayout_of_uncached hfill.same] at hr
          rw [ends_pure, List.mapM_cons, hl]
          exact ⟨hfill.trans hr.1, congrArg (fun x => x >>= fun ls => pure (l :: ls)) hr.2⟩
        · have he := hr.2
          rw [freshLayout_of_uncached hfill.same, freshWithin_of_uncached hfill.same] at he
          unfold Agrees at he ⊢
          rw [List.mapM_cons, List.mapM_cons, hl]
          split
          case isTrue hend =>
            rw [if_pos hend] at he
            by_cases hs : settled (p.freshWithin depth id) = true
            · rw [← freshLayout_of_settled hs, hl]
              exact congrArg (fun x => x >>= fun ls => pure (l :: ls)) he
            · rw [eq_endless_of_not_settled hs]
              rfl
          case isFalse hend =>
            rw [if_neg hend] at he
            exact congrArg (fun x => x >>= fun ls => pure (l :: ls)) he
      · have he := hq.2
        unfold Agrees at he ⊢
        rw [List.mapM_cons, List.mapM_cons]
        split
        case isTrue hend =>
          rw [if_pos hend] at he
          rw [he]
          rfl
        case isFalse hend =>
          rw [if_neg hend] at he
          rw [he]
          rfl

/-- **With a cache or without**: the layout is the fresh one, and so is an error, unless the bound
is met both ways. -/
theorem layoutWithin_ends : ∀ (depth : Nat) (id : String) {p : Program}, p.Coherent →
    Ends (layoutWithin depth id) (fun l q => Filled p q ∧ p.freshLayout id = .ok l)
      (fun e q => Filled p q ∧ Agrees e (p.freshWithin depth id) (p.freshLayout id)) p
  | 0, id, p, hc => ⟨⟨rfl, hc⟩, rfl⟩
  | depth + 1, id, p, hc => by
      rw [layoutWithin, ends_bind, ends_node]
      refine ⟨fun n hn => ?_, fun hn => ⟨⟨rfl, hc⟩, freshLayout_none hn⟩⟩
      split
      case h_1 l hl =>
        refine ⟨⟨rfl, hc⟩, hc id l ?_⟩
        rw [layoutOf, hn, Option.bind_some, hl]
      case h_2 =>
        rw [ends_bind]
        refine (mapM_layoutWithin_ends (layoutWithin_ends depth) n.dependencies hc).imp
          (fun inputs q hq => ?_) fun e q hq => ⟨hq.1, ?_⟩
        · obtain ⟨hfill, hinputs⟩ := hq
          have hfresh : p.freshLayout id = n.rule p.behaviours inputs := by
            rw [freshLayout_eq hn, hinputs]
            rfl
          have hsettled := settled_of_plain (n.plain_rule inputs p.behaviours)
          have hstop : ∀ e, n.rule p.behaviours inputs = .error e →
              Filled p q ∧ Agrees e (p.freshWithin (depth + 1) id) (p.freshLayout id) := by
            intro e he
            rw [he] at hsettled hfresh
            refine ⟨hfill, ?_⟩
            rw [Agrees, if_neg (by simpa [settled] using hsettled), hfresh]
          simp only [ends_bind, ends_get, ends_ofExcept, behaviours_of_uncached hfill.same]
          rw [Node.rule] at hfresh hstop
          refine ⟨fun kind hkind => ⟨fun l hl => ?_, fun e he => hstop e ?_⟩,
            fun e he => hstop e ?_⟩
          · rw [hkind] at hfresh
            have hl' : q.freshLayout id = .ok l := by
              rw [freshLayout_of_uncached hfill.same, hfresh]
              exact hl
            obtain ⟨hu, hc'⟩ := hfill.coherent.cache hl'
            rw [ends_change]
            refine ⟨fun _ _ => ⟨hfill.trans ⟨hu, hc'⟩, ?_⟩, fun hnone => ?_⟩
            · rw [← freshLayout_of_uncached hfill.same, hl']
            · rw [freshLayout_none hnone] at hl'
              cases hl'
          · rw [hkind]
            exact he
          · rw [he]
            rfl
        · have he := hq.2
          unfold Agrees at he ⊢
          rw [freshWithin_succ hn, freshLayout_eq hn]
          split
          case isTrue hend =>
            rw [if_pos hend] at he
            rw [he]
            rfl
          case isFalse hend =>
            rw [if_neg hend] at he
            rw [he]
            rfl

/-- A list of steps fails where one does. -/
theorem exists_error_of_mapM {α β : Type} {f : α → Except CompileError β} {e : CompileError} :
    ∀ {xs : List α}, xs.mapM f = .error e → ∃ x ∈ xs, f x = .error e
  | [], h => by
      rw [List.mapM_nil] at h
      cases h
  | x :: xs, h => by
      rw [List.mapM_cons] at h
      cases hx : f x with
      | error e' =>
        rw [hx] at h
        cases h
        exact ⟨x, List.mem_cons_self, hx⟩
      | ok b =>
        rw [hx] at h
        cases hxs : xs.mapM f with
        | error e' =>
          cases hxs ▸ h
          obtain ⟨y, hy, hfy⟩ := exists_error_of_mapM hxs
          exact ⟨y, List.mem_cons_of_mem _ hy, hfy⟩
        | ok bs => exact nomatch hxs ▸ h

/-- A layout that cannot be computed closes nothing. -/
theorem closes_of_freshWithin {e : CompileError} : ∀ {depth : Nat} {id : String},
    p.freshWithin depth id = .error e → e.closes = false
  | 0, _, h => by
      cases h
      rfl
  | depth + 1, id, h => by
      cases hn : p.node? id with
      | none =>
        rw [freshWithin_succ_none hn] at h
        cases h
        rfl
      | some n =>
        rw [freshWithin_succ hn] at h
        cases hm : n.dependencies.mapM (p.freshWithin depth) with
        | error e' =>
          obtain ⟨d, -, hd⟩ := exists_error_of_mapM hm
          cases hm ▸ h
          exact closes_of_freshWithin hd
        | ok inputs =>
          rw [hm] at h
          exact closes_of_plain (n.plain_rule inputs p.behaviours) h

/-- **The layout of a node is its fresh layout**, and asking for it leaves the program as it was but
for its caches, which stay right. -/
theorem layout_ends (id : String) (hc : p.Coherent) :
    Ends (layout id) (fun l q => Filled p q ∧ p.freshLayout id = .ok l)
      (fun e q => Filled p q ∧ p.freshLayout id = .error e) p := by
  rw [layout, ends_bind, ends_get]
  refine (layoutWithin_ends (p.size + 1) id hc).imp (fun _ _ hq => hq) fun e q hq => ⟨hq.1, ?_⟩
  have he := hq.2
  unfold Agrees at he
  split at he
  case isTrue hend =>
    unfold CompileError.isEndless at hend
    split at hend
    · exact he
    · cases hend
  case isFalse => exact he

/-- **The layout that was asked for is cached.** -/
theorem layout_cached (id : String) :
    Ends (layout id) (fun l q => q.layoutOf id = some l) (fun _ _ => True) p := by
  rw [layout, ends_bind, ends_get, layoutWithin, ends_bind, ends_node]
  refine ⟨fun n hn => ?_, fun _ => trivial⟩
  split
  case h_1 l hl => rw [ends_pure, layoutOf, hn, Option.bind_some, hl]
  case h_2 =>
    simp only [ends_bind, ends_get, ends_ofExcept, ends_change, ends_pure]
    refine (ends_trivial _ _).imp (fun _ q _ => ?_) fun _ _ _ => trivial
    refine ⟨fun _ _ => ⟨fun l _ => ⟨fun m hm => ?_, fun _ => trivial⟩, fun _ _ => trivial⟩,
      fun _ _ => trivial⟩
    rw [layoutOf, node?_update (f := fun m : Node => { m with layout := some l }) fun _ => rfl,
      if_pos rfl, hm]
    rfl

/-- Asking for a layout, where only the program is of interest. -/
theorem layout_effect (id : String) (hc : p.Coherent) :
    Ends (layout id) (fun l q => Filled p q ∧ p.freshLayout id = .ok l)
      (fun e _ => e.closes = false) p :=
  (layout_ends id hc).imp (fun _ _ hq => hq) fun _ _ hq => closes_of_freshWithin hq.2

/-- **So are the layouts of several nodes.** -/
theorem mapM_layout_ends : ∀ (ids : List String) {p : Program}, p.Coherent →
    Ends (ids.mapM layout) (fun ls q => Filled p q ∧ ids.mapM p.freshLayout = .ok ls)
      (fun e q => Filled p q ∧ ids.mapM p.freshLayout = .error e) p
  | [], _, hc => by
      rw [List.mapM_nil, ends_pure]
      exact ⟨⟨rfl, hc⟩, rfl⟩
  | id :: ids, p, hc => by
      rw [List.mapM_cons, ends_bind]
      refine (layout_ends id hc).imp (fun l q hq => ?_) fun e q hq => ?_
      · rw [ends_bind]
        refine (mapM_layout_ends ids hq.1.coherent).imp (fun ls r hr => ?_) fun e r hr => ?_
        · have hrest := hr.2
          rw [freshLayout_of_uncached hq.1.same] at hrest
          refine ⟨hq.1.trans hr.1, ?_⟩
          rw [List.mapM_cons, hq.2, hrest]
          rfl
        · have hrest := hr.2
          rw [freshLayout_of_uncached hq.1.same] at hrest
          refine ⟨hq.1.trans hr.1, ?_⟩
          rw [List.mapM_cons, hq.2, hrest]
          rfl
      · refine ⟨hq.1, ?_⟩
        rw [List.mapM_cons, hq.2]
        rfl

/-- The layouts of what a node reads, slot by slot. -/
theorem inputLayouts_ends (id : String) (hc : p.Coherent) :
    Ends (inputLayouts id) (fun ls q => Filled p q ∧ (p.depsOf id).mapM p.freshLayout = .ok ls)
      (fun e q => Filled p q ∧ e.closes = false ∧
        (p.contains id = true → (p.depsOf id).mapM p.freshLayout = .error e)) p := by
  rw [inputLayouts, ends_bind, ends_node]
  refine ⟨fun n hn => ?_, fun hnone => ⟨⟨rfl, hc⟩, rfl, fun h => absurd h (node?_eq_none.mp hnone)⟩⟩
  rw [depsOf_of_node? hn]
  refine (mapM_layout_ends n.dependencies hc).imp (fun _ _ hq => hq)
    fun _ _ hq => ⟨hq.1, ?_, fun _ => hq.2⟩
  obtain ⟨_, -, he⟩ := exists_error_of_mapM hq.2
  exact closes_of_freshWithin he

/-- What a node reads is laid out as it should be. -/
theorem inputLayouts_effect (id : String) (hc : p.Coherent) :
    Ends (inputLayouts id)
      (fun ls q => Filled p q ∧
        ∀ n, p.node? id = some n → n.dependencies.mapM p.freshLayout = .ok ls)
      (fun e _ => e.closes = false) p :=
  (inputLayouts_ends id hc).imp
    (fun _ _ hq => ⟨hq.1, fun _ hn => depsOf_of_node? hn ▸ hq.2⟩) fun _ _ hq => hq.2.1

/-! ## Whatever the caches hold -/

/-- Looking for a layout fills caches, and no more. -/
theorem layoutWithin_uncached : ∀ (depth : Nat) (id : String) {p : Program},
    Ends (layoutWithin depth id)
      (fun _ q => q.uncached = p.uncached ∧ ∀ j l, p.layoutOf j = some l → q.layoutOf j = some l)
      (fun e _ => e.closes = false) p
  | 0, _, _ => rfl
  | depth + 1, id, p => by
      rw [layoutWithin, ends_bind, ends_node]
      refine ⟨fun n hn => ?_, fun _ => rfl⟩
      split
      case h_1 => exact ⟨rfl, fun _ _ hl => hl⟩
      case h_2 hnone =>
        rw [ends_bind]
        have hinputs : ∀ (ids : List String) {p : Program}, Ends (ids.mapM (layoutWithin depth))
            (fun _ q => q.uncached = p.uncached ∧
              ∀ j l, p.layoutOf j = some l → q.layoutOf j = some l)
            (fun e _ => e.closes = false) p := by
          intro ids
          induction ids with
          | nil =>
            intro p
            rw [List.mapM_nil]
            exact ⟨rfl, fun _ _ hl => hl⟩
          | cons id ids ih =>
            intro p
            rw [List.mapM_cons, ends_bind]
            refine (layoutWithin_uncached depth id).imp_good fun _ q hq => ?_
            rw [ends_bind]
            exact ih.imp_good fun _ r hr =>
              ⟨hr.1.trans hq.1, fun j l hl => hr.2 j l (hq.2 j l hl)⟩
        refine (hinputs n.dependencies).imp_good fun inputs q hq => ?_
        have hplain := n.plain_rule inputs q.behaviours
        rw [Node.rule] at hplain
        simp only [ends_bind, ends_get, ends_ofExcept]
        refine ⟨fun kind hkind => ⟨fun l _ => ?_, fun e he => ?_⟩, fun e he => ?_⟩
        · rw [ends_change]
          refine ⟨fun _ _ => ⟨(uncached_update_layout q id l).trans hq.1, fun j l' hl' => ?_⟩,
            fun _ => rfl⟩
          -- the node itself had no cache when it was asked
          have hne : j ≠ id := fun he => by
            rw [he, layoutOf, hn, Option.bind_some, hnone] at hl'
            cases hl'
          rw [layoutOf, node?_update (f := fun m : Node => { m with layout := some l }) fun _ => rfl,
            if_neg hne]
          exact hq.2 j l' hl'
        · rw [hkind] at hplain
          exact closes_of_plain hplain he
        · rw [he] at hplain
          exact closes_of_plain hplain rfl

/-- A cached layout is the answer. -/
theorem layout_of_cached {l : Layout} (h : p.layoutOf id = some l) :
    Ends (layout id) (fun l' q => l' = l ∧ q = p) (fun _ _ => False) p := by
  obtain ⟨n, hn, hl⟩ := Option.bind_eq_some_iff.mp h
  rw [layout, ends_bind, ends_get, layoutWithin, ends_bind, ends_node]
  refine ⟨fun m hm => ?_, fun hnone => ?_⟩
  · obtain rfl := Option.some.inj (hn.symm.trans hm)
    rw [hl]
    exact ⟨rfl, rfl⟩
  · rw [hn] at hnone
    cases hnone

/-- **Asking for a layout** caches it and what was computed on the way, be the caches right or not, and
fails only where there is none. -/
theorem layout_computed (id : String) :
    Ends (layout id) (fun l q => Computed p q ∧ q.layoutOf id = some l)
      (fun e _ => e.closes = false ∧ p.layoutOf id = none ∧
        (p.Coherent → p.freshLayout id = .error e)) p := by
  have huncached : Ends (layout id)
      (fun _ q => q.uncached = p.uncached ∧ ∀ j l, p.layoutOf j = some l → q.layoutOf j = some l)
      (fun e _ => e.closes = false) p := by
    rw [layout, ends_bind, ends_get]
    exact layoutWithin_uncached (p.size + 1) id
  have hasked : Ends (layout id) (fun _ _ => True) (fun _ _ => p.layoutOf id = none) p := by
    cases hl : p.layoutOf id with
    | none => exact (ends_trivial _ p).imp (fun _ _ _ => trivial) fun _ _ _ => rfl
    | some l => exact (layout_of_cached hl).imp (fun _ _ _ => trivial) fun _ _ hno => hno.elim
  exact ((huncached.and (layout_cached id)).and
    (hasked.and (.of_imp fun hc => layout_ends id hc))).imp
    (fun l q hq => ⟨⟨hq.1.1.1, hq.1.1.2, fun hc => (hq.2.2 hc).1.coherent⟩, hq.1.2⟩)
    fun e _ hb => ⟨hb.1.1, hb.2.1, fun hc => (hb.2.2 hc).2⟩

/-- **Asking for a layout touches the program**, be its caches right or not. -/
theorem layout_touched (h : p.Linked) (id : String) :
    Ends (layout id) (fun _ q => Touched p q) (fun e _ => e.closes = false) p :=
  (layout_computed id).imp (fun _ _ hq => hq.1.touched h) fun _ _ hb => hb.1

/-- So does asking for those of several nodes. -/
theorem mapM_layout_touched : ∀ (ids : List String) {p : Program}, p.Linked →
    Ends (ids.mapM layout) (fun _ q => Touched p q) (fun e _ => e.closes = false) p
  | [], p, h => by
      rw [List.mapM_nil]
      exact .refl h
  | id :: ids, p, h => by
      rw [List.mapM_cons, ends_bind]
      refine (layout_touched h id).imp_good fun _ q hq => ?_
      rw [ends_bind]
      exact (mapM_layout_touched ids hq.kept.linked).imp_good fun _ _ hr => hq.trans hr

/-- So does looking for those that a node reads. -/
theorem inputLayouts_touched (h : p.Linked) (id : String) :
    Ends (inputLayouts id) (fun _ q => Touched p q) (fun e _ => e.closes = false) p := by
  rw [inputLayouts, ends_bind, ends_node]
  exact ⟨fun n _ => mapM_layout_touched n.dependencies h, fun _ => rfl⟩

/-- Laying out all nodes fills caches, and no more. -/
theorem layoutAll_effect (hc : p.Coherent) :
    Ends layoutAll (fun _ q => Filled p q) (fun e _ => e.closes = false) p := by
  rw [layoutAll, ends_bind, ends_get, ends_bind]
  refine ends_forIn (fun _ q => Filled p q) (fun id _ q hq => ?_) (fun _ hq => hq) _ p ⟨rfl, hc⟩
  rw [ends_bind]
  exact (layout_effect id hq.coherent).imp_good fun _ _ hr => ⟨rfl, hq.trans hr.1⟩

end Edit

end NetPlan

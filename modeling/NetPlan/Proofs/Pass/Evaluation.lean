import NetPlan.Proofs.Pass.Constants

/-!
# Proofs/Pass/Evaluation — evaluating while folding

The pass evaluates while it rewrites: a value that was found is remembered, and a node that became a
literal reads nothing any more.  `Folding` says what is left of the program it started from: nodes
that are not folded are what they were, folded ones are literals with the value of the node, and
what is remembered is right.  The one thing that changes for a node that is still to be evaluated
would be its users; but a user is lost only by being folded, and then all it read is remembered.
-/

namespace NetPlan

namespace Pass

open Program Edit

variable {ev : Evaluator} {p m q r : Program} {folded : List String} {known : Known}
  {id j : String} {v : ConstantValue}

/-- A program in order, and the same with its constants marked. -/
structure Ready (ev : Evaluator) (p m : Program) : Prop where
  linked : p.Linked
  ordered : p.Ordered
  coherent : p.Coherent
  legible : p.Aligned ∨ ev.SlotFree
  touched : Reflagged p m
  marked : Marked p m

/-- `q` is `p` with some of its constants folded; `known` are the values found so far. -/
structure Folding (ev : Evaluator) (p m q : Program) (folded : List String) (known : Known) :
    Prop where
  kept : Kept m q
  core : ∀ j, j ∉ folded → q.coreOf j = m.coreOf j
  deps : ∀ j, q.depsOf j = if j ∈ folded then [] else p.depsOf j
  aligned : p.Aligned → q.Aligned
  thinned : Thinned p q []
  order : q.order.ids = p.order.ids
  literal : ∀ j ∈ folded, p.Exposed j ∧ ∃ v n, known.lookup j = some v ∧
    m.coreOf j = some n ∧ q.coreOf j = some (standIn (Primitive.literal j v.layout v.values) n)
  /-- What is known is right, and so is all it was computed from. -/
  known : ∀ j v, known.lookup j = some v → p.HasValue ev j v ∧
    ∀ n, p.node? j = some n → n.kind ≠ .data → ∀ d ∈ n.dependencies, ∃ w, known.lookup d = some w

theorem Ready.folding (h : Ready ev p m) : Folding ev p m m [] [] where
  kept := .refl h.touched.kept.linked
  core _ _ := rfl
  deps j := by rw [if_neg List.not_mem_nil, h.touched.deps]
  aligned ha := h.touched.toSameGraph.aligned ha
  thinned j _ := by rw [h.touched.users]
  order := by rw [h.touched.order]
  literal _ hj := absurd hj List.not_mem_nil
  known _ _ hv := nomatch hv

namespace Folding

theorem linked (h : Folding ev p m q folded known) : q.Linked := h.kept.linked

theorem coherent (h : Folding ev p m q folded known) (hr : Ready ev p m) : q.Coherent :=
  h.kept.coherent (hr.touched.kept.coherent hr.coherent)

/-- Filling caches is no step. -/
theorem filled (h : Folding ev p m q folded known) (hs : Filled q r) :
    Folding ev p m r folded known := by
  have ht := hs.touched h.linked
  have hcore : r.coreOf = q.coreOf := funext fun j =>
    view_of_uncached (Option.map Node.core) (fun _ => rfl) hs.same j
  exact
    { kept := h.kept.trans ht.kept
      core := fun j hj => by rw [hcore, h.core j hj]
      deps := fun j => by rw [ht.deps, h.deps]
      aligned := fun ha => ht.toSameGraph.aligned (h.aligned ha)
      thinned := fun j hj => by
        rw [ht.users]
        exact h.thinned j hj
      order := by rw [ht.order, h.order]
      literal := fun j hj => by
        rw [hcore]
        exact h.literal j hj
      known := h.known }

/-- What is known stays known, for there is one value at most. -/
theorem lookup_learn (h : Folding ev p m q folded known) (hv : p.HasValue ev id v)
    {w : ConstantValue} (hw : known.lookup j = some w) :
    List.lookup j ((id, v) :: known) = some w := by
  rw [lookup_cons]
  split
  case isTrue he => rw [hv.unique (he ▸ (h.known j w hw).1)]
  case isFalse => exact hw

/-- A value is found from values that were. -/
theorem learn (h : Folding ev p m q folded known) (hv : p.HasValue ev id v)
    (hdeps : ∀ n, p.node? id = some n → n.kind ≠ .data →
      ∀ d ∈ n.dependencies, ∃ w, known.lookup d = some w) :
    Folding ev p m q folded ((id, v) :: known) := by
  refine { h with literal := fun j hj => ?_, known := fun j w hw => ?_ }
  · obtain ⟨hexp, w, n, hw, hm, hq⟩ := h.literal j hj
    exact ⟨hexp, w, n, h.lookup_learn hv hw, hm, hq⟩
  · have hmore : (∀ n, p.node? j = some n → n.kind ≠ .data →
        ∀ d ∈ n.dependencies, ∃ w, known.lookup d = some w) →
        ∀ n, p.node? j = some n → n.kind ≠ .data →
          ∀ d ∈ n.dependencies, ∃ w, List.lookup d ((id, v) :: known) = some w := by
      intro hdeps n hn hk d hd
      obtain ⟨w, hw⟩ := hdeps n hn hk d hd
      exact ⟨w, h.lookup_learn hv hw⟩
    rw [lookup_cons] at hw
    split at hw
    case isTrue he =>
      cases hw
      subst he
      exact ⟨hv, hmore hdeps⟩
    case isFalse => exact ⟨(h.known j w hw).1, hmore (h.known j w hw).2⟩

theorem contains (h : Folding ev p m q folded known) (hr : Ready ev p m) :
    q.contains = p.contains := funext fun j => by
  rw [← hr.touched.contains, contains_eq_isSome_coreOf, contains_eq_isSome_coreOf]
  by_cases hj : j ∈ folded
  · obtain ⟨-, v, n, -, hm, hq⟩ := h.literal j hj
    rw [hm, hq]
    rfl
  · rw [h.core j hj]

theorem tasks (h : Folding ev p m q folded known) (hr : Ready ev p m) (hj : j ∉ folded) :
    q.taskOf j = p.taskOf j := by
  rw [taskOf_eq_coreOf, h.core j hj, ← taskOf_eq_coreOf, hr.touched.tasks]

/-- What is not known was not read by anything that is folded. -/
theorem users (h : Folding ev p m q folded known) (hr : Ready ev p m)
    (hj : known.lookup j = none) : q.usersOf j = p.usersOf j := by
  rw [h.thinned.users hr.linked h.linked List.not_mem_nil]
  refine List.filter_eq_self.mpr fun u hu => decide_eq_true ?_
  have hread := (hr.linked.edges j u).mpr hu
  rw [h.deps]
  split
  case isTrue hf =>
    -- a folded user is known, so all it read would be
    obtain ⟨⟨-, n, hn, hk, -⟩, v, -, hv, -⟩ := h.literal u hf
    obtain ⟨w, hw⟩ := (h.known u v hv).2 n hn hk j (depsOf_of_node? hn ▸ hread)
    rw [hj] at hw
    cases hw
  case isFalse => exact hread

end Folding

/-! ## Layouts -/

/-- The layout of a constant rests on a literal's. -/
theorem registered_of_hasValue {l : Layout} (h : p.HasValue ev id v)
    (hl : p.freshLayout id = .ok l) : p.behaviours.find .data = .ok .data := by
  induction h generalizing l with
  | @literal id n layout values there operation =>
    rw [freshLayout_eq there] at hl
    obtain ⟨inputs, -, hrule⟩ := bind_eq_ok_iff.mp hl
    rw [Node.rule_eq] at hrule
    obtain ⟨k, hk, -⟩ := bind_eq_ok_iff.mp hrule
    have hkind : n.kind = .data := congrArg Operation.kind operation
    rw [hkind] at hk
    rw [Behaviours.find] at hk ⊢
    split at hk
    case isTrue hreg => rw [if_pos hreg]
    case isFalse => cases hk
  | @computed id n inputs output values frontier there constant kind length read laid _ _ _ _ _ ih =>
    rw [freshLayout_eq there] at hl
    obtain ⟨layouts, hlayouts, -⟩ := bind_eq_ok_iff.mp hl
    rw [mapM_eq_ok_iff] at hlayouts
    obtain ⟨-, hreads, -⟩ := ((constant_iff there).mp constant).resolve_left kind
    cases hd : n.dependencies with
    | nil => exact absurd hd hreads
    | cons d rest =>
      cases inputs with
      | nil => rw [hd] at length; cases length
      | cons v vs =>
        rw [hd] at hlayouts ih
        cases hlayouts with
        | cons hfirst _ => exact ih d v List.mem_cons_self hfirst

theorem rule_standIn {n : Node} {b : Behaviours} (hreg : b.find .data = .ok .data)
    (hsize : v.values.size = v.layout.bufferSize) :
    (standIn (Primitive.literal id v.layout v.values) n).rule b [] = .ok v.layout := by
  rw [Node.rule_eq]
  change (b.find .data >>= fun _ => Node.dataLayout _ v.layout v.values) = _
  rw [hreg, Node.dataLayout, if_neg (not_not_intro hsize)]
  rfl

theorem Folding.freshLayout (h : Folding ev p m q folded known) (hr : Ready ev p m) (j : String) :
    q.freshLayout j = p.freshLayout j := by
  induction j using hr.ordered.induction with
  | step j ih =>
    cases hn : p.node? j with
    | none =>
      have hnone : q.node? j = none := by
        rw [node?_eq_none, h.contains hr]
        exact node?_eq_none.mp hn
      rw [freshLayout_none hn, freshLayout_none hnone]
    | some n =>
      obtain ⟨s, hs⟩ := contains_iff.mp ((h.contains hr).symm ▸ contains_of_node? hn)
      have hdeps := h.deps j
      rw [depsOf_of_node? hs] at hdeps
      rw [freshLayout_eq hs]
      by_cases hj : j ∈ folded
      · obtain ⟨⟨-, n', hn', hk, -⟩, v, c, hv, -, hq⟩ := h.literal j hj
        rw [hn] at hn'
        cases hn'
        have hvalue := (h.known j v hv).1
        obtain ⟨hlaid, hsize⟩ := hvalue.laid hn hk
        have hout : s.outline = (standIn (Primitive.literal j v.layout v.values) c).outline := by
          rw [coreOf_of_node? hs] at hq
          rw [← s.core_outline, Option.some.inj hq]
        rw [if_pos hj] at hdeps
        rw [hdeps, hlaid, h.kept.behaviours, hr.touched.kept.behaviours]
        change s.rule p.behaviours [] = _
        rw [Node.rule_congr hout]
        exact rule_standIn (registered_of_hasValue hvalue hlaid) hsize
      · rw [if_neg hj, depsOf_of_node? hn] at hdeps
        have hout : q.outlineOf j = p.outlineOf j := by
          rw [outlineOf_eq_taskOf, h.tasks hr hj, ← outlineOf_eq_taskOf]
        rw [outlineOf, hs, outlineOf, hn] at hout
        rw [freshLayout_eq hn, hdeps, mapM_congr fun d hd => ih d (depsOf_of_node? hn ▸ hd),
          h.kept.behaviours, hr.touched.kept.behaviours]
        exact congrArg (fun f => n.dependencies.mapM p.freshLayout >>= f)
          (funext fun inputs => Node.rule_congr (Option.some.inj hout) p.behaviours inputs)

/-! ## Evaluation -/

/-- **What an evaluator gets to see of a node that is not known** is the node of the program before
the pass, with its marks. -/
theorem Folding.seen (h : Folding ev p m q folded known) (hr : Ready ev p m)
    (hc : p.Constant id) (hknown : known.lookup id = none) {n s : Node}
    (hn : p.node? id = some n) (hs : q.node? id = some s) :
    ∃ frontier, (frontier = true ↔ p.Frontier id) ∧ ∀ output,
      ev.Alike { s with layout := some output } (n.presented frontier output) := by
  obtain ⟨constant, frontier, hm, hconstant, hfrontier⟩ := hr.marked id n hn
  have hnew : id ∉ folded := fun hf => by
    obtain ⟨-, v, -, hv, -⟩ := h.literal id hf
    rw [hknown] at hv
    cases hv
  refine ⟨frontier, hfrontier, fun output => ?_⟩
  have hcore : s.core = ({ n with isConstant := true, isFrontier := frontier } : Node).core := by
    have hq := h.core id hnew
    rw [coreOf_of_node? hs, coreOf_of_node? hm, hconstant.mpr hc] at hq
    exact Option.some.inj hq
  have hdeps : s.dependencies = n.dependencies := by
    rw [← depsOf_of_node? hs, h.deps, if_neg hnew, depsOf_of_node? hn]
  have husers : s.users = n.users := by
    rw [← usersOf_of_node? hs, h.users hr hknown, usersOf_of_node? hn]
  rcases hr.legible with ha | hslots
  · have hargs : s.operation.arguments = n.operation.arguments := by
      rw [← argsOf_of_node? hs, ← argsOf_of_node? hn, h.aligned ha, ha, h.deps, if_neg hnew]
    have hsame : ({ s with layout := some output } : Node) = n.presented frontier output :=
      Node.eq_of_core hcore hdeps husers rfl hargs
    rw [hsame]
    exact .refl ev _
  · exact hslots _ _ (Node.shaped_eq hcore hdeps husers rfl)

/-- The program and the values that are known after a part of an evaluation. -/
structure Learned (ev : Evaluator) (p m : Program) (folded : List String) (q : Program)
    (known : Known) (q' : Program) (known' : Known) : Prop where
  folding : Folding ev p m q' folded known'
  filled : Filled q q'
  grown : ∀ j v, known.lookup j = some v → known'.lookup j = some v

theorem Learned.trans {q' q'' : Program} {known' known'' : Known}
    (h : Learned ev p m folded q known q' known')
    (h' : Learned ev p m folded q' known' q'' known'') :
    Learned ev p m folded q known q'' known'' :=
  ⟨h'.folding, h.filled.trans h'.filled, fun j v hv => h'.grown j v (h.grown j v hv)⟩

/-- What is known of a node that was evaluated. -/
def Outcome (ev : Evaluator) (p : Program) (known : Known) (id : String) :
    Option ConstantValue → Prop
  | some v => known.lookup id = some v
  | none => (∀ v, ¬ p.HasValue ev id v) ∧ ¬ ev.AcceptsAll

/-- Evaluating the nodes of a list, one by one until one has no value. -/
theorem allValues_values {depth : Nat} {f : String → StateT Known Edit (Option ConstantValue)}
    (step : ∀ (id : String) (known : Known) {q : Program}, Folding ev p m q folded known →
      p.Constant id → p.order.ids.idxOf id < depth →
      Ends ((f id).run known)
        (fun r q' => Learned ev p m folded q known q' r.2 ∧ Outcome ev p r.2 id r.1)
        (fun _ _ => ∀ v, ¬ p.HasValue ev id v) q) (hr : Ready ev p m) :
    ∀ (ids : List String) (known : Known) {q : Program}, Folding ev p m q folded known →
      (∀ d ∈ ids, p.Constant d ∧ p.order.ids.idxOf d < depth) →
      Ends ((allValues f ids).run known)
        (fun r q' => Learned ev p m folded q known q' r.2 ∧ match r.1 with
          | some vs => List.Forall₂ (fun d v => r.2.lookup d = some v) ids vs
          | none => (∃ d ∈ ids, ∀ v, ¬ p.HasValue ev d v) ∧ ¬ ev.AcceptsAll)
        (fun _ _ => ∃ d ∈ ids, ∀ v, ¬ p.HasValue ev d v) q
  | [], known, q, h, _ =>
      ⟨⟨h, ⟨rfl, h.coherent hr⟩, fun _ _ hv => hv⟩, List.Forall₂.nil⟩
  | id :: ids, known, q, h, hids => by
      obtain ⟨hc, hdepth⟩ := hids id List.mem_cons_self
      rw [allValues, StateT.run_bind, ends_bind]
      refine (step id known h hc hdepth).imp (fun r q' hq => ?_)
        fun _ _ hb => ⟨id, List.mem_cons_self, hb⟩
      obtain ⟨hlearned, hout⟩ := hq
      rcases r with ⟨_ | v, known'⟩
      · exact ⟨hlearned, ⟨id, List.mem_cons_self, hout.1⟩, hout.2⟩
      · dsimp only
        rw [StateT.run_bind, ends_bind]
        refine (allValues_values step hr ids known' hlearned.folding fun d hd =>
          hids d (List.mem_cons_of_mem _ hd)).imp (fun r q'' hq => ?_) fun _ _ hb => ?_
        · obtain ⟨hlearned', hall⟩ := hq
          refine ⟨hlearned.trans hlearned', ?_⟩
          rcases r with ⟨_ | vs, known''⟩
          · obtain ⟨⟨d, hd, hnone⟩, hdeclined⟩ := hall
            exact ⟨⟨d, List.mem_cons_of_mem _ hd, hnone⟩, hdeclined⟩
          · exact List.Forall₂.cons (hlearned'.grown id v hout) hall
        · obtain ⟨d, hd, hnone⟩ := hb
          exact ⟨d, List.mem_cons_of_mem _ hd, hnone⟩

/-- **Evaluation finds the value of a node in the program before the pass**, or there is none. -/
theorem valueWithin_values (hr : Ready ev p m) : ∀ (depth : Nat) (id : String) (known : Known)
    {q : Program}, Folding ev p m q folded known → p.Constant id → p.order.ids.idxOf id < depth →
    Ends ((valueWithin ev depth id).run known)
      (fun r q' => Learned ev p m folded q known q' r.2 ∧ Outcome ev p r.2 id r.1)
      (fun _ _ => ∀ v, ¬ p.HasValue ev id v) q
  | 0, _, _, _, _, _, hdepth => absurd hdepth (Nat.not_lt_zero _)
  | depth + 1, id, known, q, h, hc, hdepth => by
      have hcoherent := h.coherent hr
      have hthere : q.contains id = true := h.contains hr ▸ hc.contains
      obtain ⟨n, hn⟩ := contains_iff.mp hc.contains
      rw [valueWithin, StateT.run_bind, ends_bind]
      change Ends (pure (known, known)) _ _ q
      rw [ends_pure]
      dsimp only
      split
      case h_1 v hv => exact ⟨⟨h, ⟨rfl, hcoherent⟩, fun _ _ hv => hv⟩, hv⟩
      case h_2 hknown =>
      have hknown : known.lookup id = none := Option.eq_none_iff_forall_ne_some.mpr hknown
      have hnew : id ∉ folded := fun hf => by
        obtain ⟨-, v, -, hv, -⟩ := h.literal id hf
        rw [hknown] at hv
        cases hv
      rw [StateT.run_bind, ends_bind, ends_run_liftM, ends_node]
      refine ⟨fun s hs => ?_, fun hnone => absurd hthere (node?_eq_none.mp hnone)⟩
      have hshape : s.operation.shape = n.operation.shape := by
        have htasks := h.tasks hr hnew
        rw [taskOf_of_node? hs, taskOf_of_node? hn] at htasks
        exact congrArg Task.operation (Option.some.inj htasks)
      have hdeps : s.dependencies = n.dependencies := by
        rw [← depsOf_of_node? hs, h.deps, if_neg hnew, depsOf_of_node? hn]
      dsimp only
      split
      case h_1 layout values hop =>
        have hop' : n.operation = .data layout values := by
          rw [hop] at hshape
          cases hn : n.operation with
          | data l v =>
            rw [hn] at hshape
            exact hshape.symm
          | _ =>
            rw [hn] at hshape
            cases hshape
        have hvalue : p.HasValue ev id ⟨layout, values⟩ := .literal hn hop'
        refine ⟨⟨h.learn hvalue fun n' hn' hk => ?_, ⟨rfl, hcoherent⟩,
          fun _ _ hw => h.lookup_learn hvalue hw⟩, List.lookup_cons_self⟩
        rw [hn] at hn'
        cases hn'
        exact absurd (congrArg Operation.kind hop') hk
      case h_2 hop =>
        have hk : n.kind ≠ .data := fun hk => by
          rw [Node.kind, ← Operation.kind_shape, ← hshape, Operation.kind_shape] at hk
          cases hs' : s.operation with
          | data l v => exact hop l v hs'
          | _ =>
            rw [hs'] at hk
            cases hk
        obtain ⟨frontier, hfrontier, halike⟩ := h.seen hr hc hknown hn hs
        have hiff : ∀ v, p.HasValue ev id v ↔ _ := fun v => hasValue_iff hn hc hk hfrontier
        obtain ⟨-, -, hall⟩ := ((constant_iff hn).mp hc).resolve_left hk
        -- without the value of a dependency there is none
        have hmissing : (∃ d ∈ n.dependencies, ∀ v, ¬ p.HasValue ev d v) →
            ∀ v, ¬ p.HasValue ev id v := by
          rintro ⟨d, hd, hnone⟩ v hv
          obtain ⟨inputs, -, hread, -⟩ := (hiff v).mp hv
          obtain ⟨w, -, hw⟩ := exists_mem_of_forall₂ hread d hd
          exact hnone w hw
        rw [StateT.run_bind, ends_bind, hdeps]
        refine (allValues_values (valueWithin_values hr depth) hr n.dependencies known h
          fun d hd => ⟨hall d hd, ?_⟩).imp (fun r q' hq => ?_) fun _ _ hb => hmissing hb
        · have hlt := (hr.ordered.before id d (depsOf_of_node? hn ▸ hd)).idxOf_lt hr.ordered.nodup
          omega
        obtain ⟨hlearned, hvalues⟩ := hq
        rcases r with ⟨_ | inputs, known'⟩
        · exact ⟨hlearned, hmissing hvalues.1, hvalues.2⟩
        dsimp only at hlearned hvalues ⊢
        have hread : List.Forall₂ (p.HasValue ev) n.dependencies inputs :=
          hvalues.imp fun d v hv => (hlearned.folding.known d v hv).1
        rw [StateT.run_bind, ends_bind, ends_run_liftM]
        refine ((layout_ends id hlearned.filled.coherent).and (layout_cached id)).imp
          (fun output q'' hq => ?_) fun e q'' hq v hv => ?_
        · obtain ⟨⟨hfill, hlaid⟩, hcached⟩ := hq
          rw [hlearned.folding.freshLayout hr] at hlaid
          have hs' := node?_of_uncached (hlearned.filled.trans hfill).same hs
          rw [hcached] at hs'
          have hvalue : ∀ v, p.HasValue ev id v ↔
              ev.canEvaluate { s with layout := some output } (inputs.map (·.layout)) output
                  = true ∧
                evaluateNode ev { s with layout := some output } inputs output = .ok v := by
            intro v
            rw [hiff, (halike output).canEvaluate, evaluateNode_alike (halike output)]
            constructor
            · rintro ⟨inputs', output', hread', hlaid', haccepted, hev⟩
              rw [hlaid] at hlaid'
              cases hlaid'
              cases Relator.RightUnique.forall₂ (fun _ _ _ h h' => h.unique h') hread hread'
              exact ⟨haccepted, hev⟩
            · rintro ⟨haccepted, hev⟩
              exact ⟨inputs, output, hread, hlaid, haccepted, hev⟩
          have hlearned' : Learned ev p m folded q known q'' known' :=
            ⟨hlearned.folding.filled hfill, hlearned.filled.trans hfill, hlearned.grown⟩
          rw [StateT.run_bind, ends_bind, ends_run_liftM, ends_node]
          refine ⟨fun s' hs'' => ?_, fun hnone => ?_⟩
          · rw [hs'] at hs''
            cases hs''
            split
            case isTrue hdeclined =>
              rw [Bool.not_eq_true'] at hdeclined
              refine ⟨hlearned', fun v hv => ?_, fun hall => ?_⟩
              · rw [((hvalue v).mp hv).1] at hdeclined
                cases hdeclined
              · rw [hall] at hdeclined
                cases hdeclined
            case isFalse haccepted =>
              rw [Bool.not_eq_true', Bool.not_eq_false] at haccepted
              rw [StateT.run_bind, ends_bind, ends_run_liftM, ends_ofExcept]
              refine ⟨fun v hev => ?_, fun e he v hv => ?_⟩
              · have hv : p.HasValue ev id v := (hvalue v).mpr ⟨haccepted, hev⟩
                refine ⟨⟨hlearned'.folding.learn hv fun n' hn' _ d hd => ?_, hlearned'.filled,
                  fun _ _ hw => hlearned'.folding.lookup_learn hv (hlearned'.grown _ _ hw)⟩,
                  List.lookup_cons_self⟩
                rw [hn] at hn'
                cases hn'
                obtain ⟨w, -, hw⟩ := exists_mem_of_forall₂ hvalues d hd
                exact ⟨w, hw⟩
              · rw [((hvalue v).mp hv).2] at he
                cases he
          · rw [hs'] at hnone
            cases hnone
        · have hlaid := hq.1.2
          rw [hlearned.folding.freshLayout hr] at hlaid
          obtain ⟨-, output, -, hlaid', -⟩ := (hiff v).mp hv
          rw [hlaid] at hlaid'
          cases hlaid'

end Pass

end NetPlan

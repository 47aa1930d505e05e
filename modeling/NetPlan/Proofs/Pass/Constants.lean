import NetPlan.Pass.Constants
import NetPlan.Proofs.Graph.Constant
import NetPlan.Proofs.Graph.Replace
import NetPlan.Proofs.Graph.Resort
import NetPlan.Proofs.Layout.Cache

/-!
# Proofs/Pass/Constants — constant nodes as literals

Whatever an evaluator does, it changes no program: a constant is replaced by a literal, which reads
nothing, or left as it is.  What nothing reads is removed.

`propagateConstants_ends` — an invariant of these rewrites is an invariant of the pass.

The value of a constant is defined along the graph as it stands: a literal has its own layout and
buffer, and any other constant what an evaluator makes of the values of its dependencies, in the
layout of the node (`HasValue`).  There is no order of evaluation in it, no cache and no rewrite; the
pass is measured against it.

* `HasValue.unique` — a node has one value at most;
* `hasValue_iff` — which follows from those of its dependencies;
* `Exposed` — the constants whose values are asked for.
-/

namespace NetPlan

theorem Program.operation_of_shape {op : Operation} {l : Layout} {b : Buffer}
    (h : op.shape = .data l b) : op = .data l b := by
  have hk := congrArg Operation.kind h
  rw [Operation.kind_shape] at hk
  cases op with
  | data => exact h
  | _ => cases hk

namespace Pass

open Program Edit

variable {p q : Program} {c : Compilation} {id : String}

/-! ## Literals -/

/-- What may be said of the value of a node, where literals have a layout: it is that of its literal,
or it has the layout of the node. -/
def Right (p : Program) (id : String) (v : ConstantValue) : Prop :=
  p.behaviours.find .data = .ok .data → p.shapeOf id = some (.data v.layout v.values) ∨
    p.freshLayout id = .ok v.layout ∧ v.values.size = v.layout.bufferSize

theorem rule_literal {n : Node} {b : Behaviours} {l l' : Layout} {v : Buffer}
    (hn : n.operation = .data l v) (hb : b.find .data = .ok .data) (inputs : List Layout) :
    n.rule b inputs = .ok l' ↔ v.size = l.bufferSize ∧ l' = l := by
  rw [Node.rule_eq, Node.kind, hn]
  change (b.find .data >>= fun _ => n.outputLayout inputs) = _ ↔ _
  rw [hb, Node.outputLayout, hn]
  change n.dataLayout l v = _ ↔ _
  rw [Node.dataLayout]
  split
  case isTrue hsize => exact ⟨fun h => (by cases h), fun h => absurd h.1 hsize⟩
  case isFalse hsize =>
    rw [not_not] at hsize
    exact ⟨fun h => ⟨hsize, (Except.ok.inj h).symm⟩, fun h => by rw [h.2]⟩

/-- **A literal of a right value keeps all layouts.** -/
theorem freshLayout_replaced {v : ConstantValue} {l : Layout} {j : String}
    (h : Replaced p q id (Primitive.literal id v.layout v.values) []) (hv : Right p id v)
    (hb : p.behaviours.find .data = .ok .data) (hl : p.freshLayout j = .ok l) :
    q.freshLayout j = .ok l := by
  refine freshLayout_induction (motive := fun j l => q.freshLayout j = .ok l)
    (fun j n inputs l hn hdeps hrule => ?_) hl
  obtain ⟨m, hm⟩ := contains_iff.mp (h.contains.symm ▸ contains_of_node? hn)
  rw [freshLayout_eq hm, bind_eq_ok_iff, h.kept.behaviours]
  have hreads := h.deps j
  have htask := h.tasks j
  rw [depsOf_of_node? hm] at hreads
  rw [taskOf_of_node? hm] at htask
  split at hreads
  case isTrue hj =>
    subst hj
    rw [if_pos rfl] at htask
    have hop : m.operation = .data v.layout v.values :=
      operation_of_shape (congrArg Task.operation (Option.some.inj htask))
    refine ⟨[], by rw [hreads]; rfl, (rule_literal hop hb []).mpr ?_⟩
    rcases hv hb with hliteral | ⟨hlaid, hsize⟩
    · rw [shapeOf, hn, Option.map_some, Option.some.injEq] at hliteral
      exact (rule_literal (operation_of_shape hliteral) hb inputs).mp hrule
    · have hfresh : p.freshLayout j = .ok l := by
        rw [freshLayout_eq hn, bind_eq_ok_iff]
        exact ⟨inputs, mapM_eq_ok_iff.mpr (hdeps.imp fun _ _ hd => hd.1), hrule⟩
      rw [hlaid] at hfresh
      exact ⟨hsize, (Except.ok.inj hfresh).symm⟩
  case isFalse hj =>
    rw [depsOf_of_node? hn] at hreads
    rw [if_neg hj, taskOf_of_node? hn] at htask
    refine ⟨inputs, by rw [hreads]; exact mapM_eq_ok_iff.mpr (hdeps.imp fun _ _ hd => hd.2), ?_⟩
    rw [← hrule]
    refine Node.rule_congr ?_ _ _
    have houtline := outlineOf_eq_taskOf q j
    rw [outlineOf, hm, h.tasks, if_neg hj, ← outlineOf_eq_taskOf, outlineOf, hn] at houtline
    exact Option.some.inj houtline

/-- `q` is `p` with a literal in the place of a constant; where literals have a layout, all layouts
are as they were. -/
structure Folded (p q : Program) (id : String) : Prop where
  constant : p.isConstant id = true
  steps : ∃ prim, (∃ l v, prim.operation = .data l v) ∧ Replaced p q id prim []
  layouts : p.behaviours.find .data = .ok .data → ∀ j l, p.freshLayout j = .ok l →
    q.freshLayout j = .ok l

/-! ## Values -/

/-- All that is known is right. -/
def AllRight (p : Program) (known : Known) : Prop :=
  ∀ id v, known.lookup id = some v → Right p id v

theorem lookup_cons {known : Known} {j : String} {v : ConstantValue} :
    List.lookup j ((id, v) :: known) = if j = id then some v else known.lookup j := by
  by_cases h : j = id
  · simp [h]
  · rw [if_neg h, List.lookup_cons, beq_false_of_ne h]

theorem AllRight.cons {known : Known} {v : ConstantValue} (h : AllRight p known)
    (hv : Right p id v) : AllRight p ((id, v) :: known) := fun j w hw => by
  rw [lookup_cons] at hw
  split at hw
  case isTrue hj =>
    cases hw
    exact hj ▸ hv
  case isFalse => exact h j w hw

theorem Right.filled {v : ConstantValue} (h : Right p id v) (hq : Filled p q) : Right q id v := by
  have hshape : q.shapeOf id = p.shapeOf id :=
    view_of_uncached (Option.map fun n => n.operation.shape) (fun _ => rfl) hq.same id
  rw [Right, hshape, freshLayout_of_uncached hq.same, behaviours_of_uncached hq.same]
  exact h

theorem AllRight.filled {known : Known} (h : AllRight p known) (hq : Filled p q) :
    AllRight q known := fun id v hv => (h id v hv).filled hq

/-- What is known stays right when a node becomes the literal of a right value. -/
theorem AllRight.replaced {known : Known} {v : ConstantValue} (h : AllRight p known)
    (hv : known.lookup id = some v)
    (hq : Replaced p q id (Primitive.literal id v.layout v.values) []) : AllRight q known :=
  fun j w hw hb => by
    rw [hq.kept.behaviours] at hb
    by_cases hj : j = id
    · subst hj
      rw [hv] at hw
      cases hw
      exact Or.inl ((hq.shapes j).trans (if_pos rfl))
    · refine (h j w hw hb).imp (fun hs => ?_) fun hl => ⟨?_, hl.2⟩
      · rw [hq.shapes, if_neg hj, hs]
      · exact freshLayout_replaced hq (h id v hv) hb hl.1

theorem allValues_effect {α : Type} {f : String → StateT Known Edit (Option α)}
    (step : ∀ (id : String) (known : Known) {p : Program}, p.Coherent → AllRight p known →
      Ends ((f id).run known) (fun r q => Filled p q ∧ AllRight q r.2)
        (fun e _ => e.closes = false) p) :
    ∀ (ids : List String) (known : Known) {p : Program}, p.Coherent → AllRight p known →
      Ends ((allValues f ids).run known) (fun r q => Filled p q ∧ AllRight q r.2)
        (fun e _ => e.closes = false) p
  | [], _, _, hc, hk => ⟨⟨rfl, hc⟩, hk⟩
  | id :: ids, known, p, hc, hk => by
      rw [allValues, StateT.run_bind, ends_bind]
      refine (step id known hc hk).imp_good fun r q hq => ?_
      rcases r with ⟨v | v, t'⟩
      · exact hq
      · dsimp only
        rw [StateT.run_bind, ends_bind]
        exact (allValues_effect step ids t' hq.1.coherent hq.2).imp_good
          fun _ _ hr => ⟨hq.1.trans hr.1, hr.2⟩

theorem closes_of_evaluateNode {ev : Evaluator} {n : Node} {inputs : List ConstantValue}
    {output : Layout} {e : CompileError} (h : evaluateNode ev n inputs output = .error e) :
    e.closes = false := by
  unfold evaluateNode at h
  split at h
  · cases h
    rfl
  · cases h
    rfl
  · split at h
    · cases h
      rfl
    · cases h

theorem evaluateNode_eq_ok_iff {ev : Evaluator} {n : Node} {inputs : List ConstantValue}
    {output : Layout} {v : ConstantValue} :
    evaluateNode ev n inputs output = .ok v ↔
    ∃ values, ev.evaluate n inputs output = .ok values ∧ values.size = output.bufferSize ∧
      values.element = output.element ∧ v = ⟨output, values⟩ := by
  unfold evaluateNode mismatch?
  cases ev.evaluate n inputs output with
  | error e => cases e <;> simp
  | ok values =>
    by_cases hfit : values.size = output.bufferSize ∧ values.element = output.element
    · simp [hfit, eq_comm]
    · have hbad : (decide (values.size ≠ output.bufferSize)
          || decide (values.element ≠ output.element)) = true := by
        simpa [Classical.or_iff_not_imp_left] using hfit
      simp only [hbad, if_true]
      constructor
      · exact fun h => nomatch h
      · rintro ⟨_, hok, hsize, helement, -⟩
        cases hok
        exact absurd ⟨hsize, helement⟩ hfit

/-- **Computing a value** fills caches, and the value is right. -/
theorem valueWithin_effect (ev : Evaluator) : ∀ (depth : Nat) (id : String) (known : Known)
    {p : Program}, p.Coherent → AllRight p known →
    Ends ((valueWithin ev depth id).run known)
      (fun r q => Filled p q ∧ AllRight q r.2 ∧ ∀ v, r.1 = some v → r.2.lookup id = some v)
      (fun e _ => e.closes = false) p
  | 0, _, _, _, _, _ => rfl
  | depth + 1, id, known, p, hc, hk => by
      rw [valueWithin, StateT.run_bind, ends_bind]
      change Ends (pure (known, known)) _ _ p
      rw [ends_pure]
      dsimp only
      split
      case h_1 v hv => exact ⟨⟨rfl, hc⟩, hk, fun w hw => Option.some.inj hw ▸ hv⟩
      · rw [StateT.run_bind, ends_bind, ends_run_liftM, ends_node]
        refine ⟨fun n hn => ?_, fun _ => rfl⟩
        dsimp only
        split
        case h_1 layout values hop =>
          refine ⟨⟨rfl, hc⟩, hk.cons fun _ => Or.inl ?_, fun w hw => ?_⟩
          · rw [shapeOf, hn, Option.map_some, hop]
            rfl
          · exact lookup_cons.trans ((if_pos rfl).trans hw)
        · rw [StateT.run_bind, ends_bind]
          refine (allValues_effect (fun id known _ hc hk =>
            (valueWithin_effect ev depth id known hc hk).imp_good fun _ _ h => ⟨h.1, h.2.1⟩)
            n.dependencies known hc hk).imp_good fun r q hq => ?_
          split
          · rw [StateT.run_bind, ends_bind, ends_run_liftM]
            refine (layout_effect id hq.1.coherent).imp_good fun output s hs => ?_
            have hfill := hq.1.trans hs.1
            have hknown := hq.2.filled hs.1
            rw [StateT.run_bind, ends_bind, ends_run_liftM, ends_node]
            refine ⟨fun m _ => ?_, fun _ => rfl⟩
            split
            · exact ⟨hfill, hknown, fun _ hw => by cases hw⟩
            · rw [StateT.run_bind, ends_bind, ends_run_liftM, ends_ofExcept]
              refine ⟨fun v hv => ?_, fun _ he => closes_of_evaluateNode he⟩
              obtain ⟨values, -, hsize, -, rfl⟩ := evaluateNode_eq_ok_iff.mp hv
              refine ⟨hfill, hknown.cons fun _ => Or.inr ⟨?_, hsize⟩, fun w hw => ?_⟩
              · rw [freshLayout_of_uncached hs.1.same, hs.2]
              · exact lookup_cons.trans ((if_pos rfl).trans hw)
          · exact ⟨hq.1, hq.2, fun _ hw => by cases hw⟩

/-! ## Rewrites -/

/-- **Folding a constant** makes it the literal of its value, if it has one. -/
theorem fold_effect (ev : Evaluator) (known : Known) (hl : p.Linked) (hc : p.Coherent)
    (hconst : p.isConstant id = true) (hk : AllRight p known) :
    Ends ((fold ev id).run known)
      (fun r q => (∃ p', Filled p p' ∧ (q = p' ∨ Folded p' q id)) ∧ AllRight q r.2)
      (fun e _ => e.closes = false) p := by
  rw [fold, StateT.run_bind, ends_bind, ends_run_liftM, ends_get, StateT.run_bind, ends_bind]
  refine (valueWithin_effect ev _ id known hc hk).imp_good fun r q hq => ?_
  obtain ⟨hfill, hknown, hvalue⟩ := hq
  split
  · exact ⟨⟨q, hfill, Or.inl rfl⟩, hknown⟩
  case h_2 v hv =>
    rw [StateT.run_bind, ends_bind, ends_run_liftM]
    refine (replace_effect (hfill.touched hl).kept.linked false).imp (fun _ s hs => ?_)
      fun _ _ hb => hb.1
    have hlookup := hvalue v hv
    have hconst' : q.isConstant id = true := by
      rw [isConstant_eq_flagsOf, (hfill.touched hl).flags, ← isConstant_eq_flagsOf, hconst]
    refine ⟨⟨q, hfill, Or.inr ⟨hconst', ⟨_, ⟨_, _, rfl⟩, hs⟩, fun hb j l hl => ?_⟩⟩,
      hknown.replaced hlookup hs⟩
    exact freshLayout_replaced hs (hknown id v hlookup) hb hl

/-- A literal has the flags of the node it stands for. -/
theorem Folded.flags (h : Folded p q id) : q.flagsOf = p.flagsOf := by
  obtain ⟨prim, -, hreplaced⟩ := h.steps
  exact hreplaced.flags

theorem foldAll_ends (ev : Evaluator) (inv : Program → Prop)
    (base : ∀ {p}, inv p → p.Linked ∧ p.Coherent)
    (touched : ∀ {p q}, inv p → Touched p q → inv q)
    (folded : ∀ {p q id}, inv p → Folded p q id → inv q) :
    ∀ (ids : List String) (known : Known) (p : Program), inv p →
      (∀ id ∈ ids, p.isConstant id = true) → AllRight p known →
      Ends ((foldAll ev ids).run known) (fun _ q => inv q) (fun e _ => e.closes = false) p
  | [], _, _, h, _, _ => h
  | id :: ids, known, p, h, hconst, hk => by
      obtain ⟨hl, hc⟩ := base h
      rw [foldAll, StateT.run_bind, ends_bind]
      refine (fold_effect ev known hl hc (hconst id List.mem_cons_self) hk).imp_good fun r q hq => ?_
      have hq' : inv q ∧ q.flagsOf = p.flagsOf := by
        obtain ⟨⟨p', hfill, rfl | hf⟩, -⟩ := hq
        · exact ⟨touched h (hfill.touched hl), (hfill.touched hl).flags⟩
        · exact ⟨folded (touched h (hfill.touched hl)) hf, hf.flags.trans (hfill.touched hl).flags⟩
      have hconst' : ∀ i ∈ ids, q.isConstant i = true := fun i hi => by
        rw [isConstant_eq_flagsOf, hq'.2, ← isConstant_eq_flagsOf]
        exact hconst i (List.mem_cons_of_mem _ hi)
      rw [StateT.run_bind, ends_bind]
      exact (foldAll_ends ev inv base touched folded ids r.2 q hq'.1 hconst' hq.2).imp_good
        fun _ _ hr => hr

theorem sweep_ends (inv : Program → Prop) (base : ∀ {p}, inv p → p.Linked)
    (swept : ∀ {p q id}, inv p → p.usersOf id = [] → p.isMarked id = false → Removed p q id →
      inv q) :
    ∀ (ids : List String) (p : Program), inv p →
      Ends (sweep ids) (fun _ q => inv q) (fun e _ => e.closes = false) p
  | [], _, h => h
  | id :: ids, p, h => by
      have hrest : ∀ (here : Nat) (q : Program), inv q → Ends (do
          let further ← sweep ids
          return here + further) (fun _ q => inv q) (fun e _ => e.closes = false) q := by
        intro here q hq
        rw [ends_bind]
        exact (sweep_ends inv base swept ids q hq).imp_good fun _ _ hr => hr
      rw [sweep, ends_bind, ends_get]
      dsimp only
      split
      case h_1 n hn =>
        split
        case isTrue hdead =>
          rw [ends_bind]
          refine (remove_effect (base h)).imp (fun _ q hq => ?_) fun _ _ hb => hb.1 ▸ rfl
          rw [Bool.and_eq_true, Bool.and_eq_true] at hdead
          refine hrest 1 q (swept h ?_ ?_ hq)
          · rw [usersOf_of_node? hn]
            exact List.isEmpty_iff.mp hdead.1.2
          · rw [isMarked_of_node? hn]
            simpa using hdead.2
        case isFalse => exact hrest 0 p h
      case h_2 => exact hrest 0 p h

/-- **What holds once the constants are marked and is kept by folding and sweeping, holds in the
end.** -/
theorem foldConstants_ends (ev : Evaluator) (inv : Program → Prop)
    (base : ∀ {p}, inv p → p.Linked ∧ p.Coherent)
    (touched : ∀ {p q}, inv p → Touched p q → inv q)
    (folded : ∀ {p q id}, inv p → Folded p q id → inv q)
    (swept : ∀ {p q id}, inv p → p.usersOf id = [] → p.isMarked id = false → Removed p q id →
      inv q)
    (marked : Ends markConstants (fun _ q => inv q) (fun e _ => e.closes = false) p) :
    Ends (foldConstants ev) (fun _ q => inv q) (fun e _ => e.closes = false) p := by
  rw [foldConstants, ends_bind]
  refine marked.imp_good fun _ p hp => ?_
  rw [ends_bind, ends_get]
  dsimp only
  rw [ends_bind]
  refine (foldAll_ends ev inv base touched folded _ [] p hp (fun id hid => ?_)
    fun _ _ hv => by cases hv).imp_good fun _ q hq => ?_
  · have hfold := (List.mem_filter.mp hid).2
    split at hfold
    case h_1 n hn =>
      rw [isFoldable, Bool.and_eq_true, Bool.and_eq_true] at hfold
      rw [isConstant, hn]
      exact hfold.1.1
    case h_2 => cases hfold
  · rw [ends_bind, ends_get, ends_bind]
    exact (sweep_ends inv (fun hp => (base hp).1) swept _ q hq).imp_good fun _ _ hr => hr

/-- **What other flags, folding and sweeping keep, the pass keeps.** -/
theorem propagateConstants_ends (env : Environment) (inv : Program → Prop)
    (base : ∀ {p}, inv p → p.Linked ∧ p.Coherent)
    (touched : ∀ {p q}, inv p → Reflagged p q → inv q)
    (folded : ∀ {p q id}, inv p → Folded p q id → inv q)
    (swept : ∀ {p q id}, inv p → p.usersOf id = [] → p.isMarked id = false → Removed p q id →
      inv q)
    (h : inv c.program) :
    Ends (propagateConstants env) (fun _ c' => inv c'.program ∧ c'.preferences = c.preferences)
      (fun e _ => e.closes = false) c := by
  rw [propagateConstants]
  split
  · exact ⟨h, rfl⟩
  case h_2 ev _ =>
    rw [Transform.ends_liftM]
    exact (foldConstants_ends ev inv base (fun hp hq => touched hp hq.toReflagged) folded swept
      ((markConstants_effect (base h).1).imp_good fun _ _ hp => touched h hp)).imp_good
      fun _ _ hr => ⟨hr, rfl⟩

end Pass

/-! ## The values of constants -/

/-- The node as an evaluator gets to see it: marked as a constant, its layout at hand. -/
def Node.presented (n : Node) (frontier : Bool) (output : Layout) : Node :=
  { n with isConstant := true, isFrontier := frontier, layout := some output }

/-- An evaluator that makes no difference between two nodes. -/
structure Evaluator.Alike (ev : Evaluator) (m n : Node) : Prop where
  canEvaluate : ev.canEvaluate m = ev.canEvaluate n
  evaluate : ev.evaluate m = ev.evaluate n

theorem Evaluator.Alike.refl (ev : Evaluator) (n : Node) : ev.Alike n n := ⟨rfl, rfl⟩

/-- The evaluator does not look at the ids in argument slots. -/
def Evaluator.SlotFree (ev : Evaluator) : Prop :=
  ∀ m n : Node, m.withOperation m.operation.shape = n.withOperation n.operation.shape →
    ev.Alike m n

/-- The evaluator declines nothing. -/
def Evaluator.AcceptsAll (ev : Evaluator) : Prop :=
  ∀ n inputs output, ev.canEvaluate n inputs output = true

namespace Program

/-- The value of a constant by an evaluator. -/
inductive HasValue (ev : Evaluator) (p : Program) : String → ConstantValue → Prop
  | literal {id : String} {n : Node} {layout : Layout} {values : Buffer}
      (there : p.node? id = some n) (operation : n.operation = .data layout values) :
      HasValue ev p id ⟨layout, values⟩
  | computed {id : String} {n : Node} {inputs : List ConstantValue} {output : Layout}
      {values : Buffer} {frontier : Bool} (there : p.node? id = some n)
      (constant : p.Constant id) (kind : n.kind ≠ .data)
      (length : n.dependencies.length = inputs.length)
      (read : ∀ d v, (d, v) ∈ n.dependencies.zip inputs → HasValue ev p d v)
      (laid : p.freshLayout id = .ok output) (marked : frontier = true ↔ p.Frontier id)
      (accepted :
        ev.canEvaluate (n.presented frontier output) (inputs.map (·.layout)) output = true)
      (evaluated : ev.evaluate (n.presented frontier output) inputs output = .ok values)
      (size : values.size = output.bufferSize) (element : values.element = output.element) :
      HasValue ev p id ⟨output, values⟩

/-- Constants that are no literals, and outputs or read by something not constant. -/
def Exposed (p : Program) (id : String) : Prop :=
  p.Constant id ∧ ∃ n, p.node? id = some n ∧ n.kind ≠ .data ∧
    (n.isOutput = true ∨ ∃ u ∈ n.users, ¬ p.Constant u)

variable {p : Program} {ev : Evaluator} {id : String} {n : Node} {v v' : ConstantValue}

theorem HasValue.constant (h : p.HasValue ev id v) : p.Constant id := by
  cases h with
  | literal there operation => exact .literal there (congrArg Operation.kind operation)
  | computed _ constant => exact constant

/-- A value that was computed fills the layout of the node. -/
theorem HasValue.laid (h : p.HasValue ev id v) (hn : p.node? id = some n) (hk : n.kind ≠ .data) :
    p.freshLayout id = .ok v.layout ∧ v.values.size = v.layout.bufferSize := by
  cases h with
  | literal there operation =>
    rw [hn] at there
    cases there
    exact absurd (congrArg Operation.kind operation) hk
  | computed _ _ _ _ _ laid _ _ _ size => exact ⟨laid, size⟩

/-- **There is one value at most.** -/
theorem HasValue.unique (h : p.HasValue ev id v) (h' : p.HasValue ev id v') : v = v' := by
  induction h generalizing v' with
  | @literal id n layout values there operation =>
    cases h' with
    | literal there' operation' =>
      rw [there] at there'
      cases there'
      rw [operation] at operation'
      cases operation'
      rfl
    | computed there' _ kind =>
      rw [there] at there'
      cases there'
      exact absurd (congrArg Operation.kind operation) kind
  | @computed id n inputs output values frontier there _ kind length _ laid marked _ evaluated _ _
      ih =>
    cases h' with
    | literal there' operation' =>
      rw [there] at there'
      cases there'
      exact absurd (congrArg Operation.kind operation') kind
    | @computed _ n' inputs' output' values' frontier' there' _ _ length' read' laid' marked' _
        evaluated' =>
      rw [there] at there'
      cases there'
      rw [laid] at laid'
      cases laid'
      have hflag : frontier = frontier' := Bool.eq_iff_iff.mpr (marked.trans marked'.symm)
      have hinputs : inputs = inputs' := by
        refine List.ext_getElem (length.symm.trans length') fun i hi hi' => ?_
        have hd : i < n.dependencies.length := length ▸ hi
        have hmem : (n.dependencies[i], inputs[i]) ∈ n.dependencies.zip inputs :=
          List.mem_iff_getElem.mpr ⟨i, by simp [hd, hi], by simp⟩
        have hmem' : (n.dependencies[i], inputs'[i]) ∈ n.dependencies.zip inputs' :=
          List.mem_iff_getElem.mpr ⟨i, by simp [hd, hi'], by simp⟩
        exact ih _ _ hmem (read' _ _ hmem')
      rw [← hflag, ← hinputs, evaluated] at evaluated'
      cases evaluated'
      rfl

end Program

namespace Pass

open Program

variable {p : Program} {ev : Evaluator} {id : String} {n : Node} {v : ConstantValue}
  {inputs : List ConstantValue} {output : Layout}

theorem evaluateNode_alike {m : Node} (h : ev.Alike m n) :
    evaluateNode ev m inputs output = .ok v ↔ evaluateNode ev n inputs output = .ok v := by
  rw [evaluateNode_eq_ok_iff, evaluateNode_eq_ok_iff, h.evaluate]

/-- **The value of a node follows from those of its dependencies.** -/
theorem hasValue_iff {frontier : Bool} (hn : p.node? id = some n) (hc : p.Constant id)
    (hk : n.kind ≠ .data) (hf : frontier = true ↔ p.Frontier id) :
    p.HasValue ev id v ↔ ∃ inputs output,
      List.Forall₂ (p.HasValue ev) n.dependencies inputs ∧ p.freshLayout id = .ok output ∧
      ev.canEvaluate (n.presented frontier output) (inputs.map (·.layout)) output = true ∧
      evaluateNode ev (n.presented frontier output) inputs output = .ok v := by
  constructor
  · intro h
    cases h with
    | literal there operation =>
      rw [hn] at there
      cases there
      exact absurd (congrArg Operation.kind operation) hk
    | @computed _ _ inputs output values frontier' there _ _ length read laid marked accepted
        evaluated size element =>
      rw [hn] at there
      cases there
      have hflag : frontier' = frontier := Bool.eq_iff_iff.mpr (marked.trans hf.symm)
      rw [hflag] at accepted evaluated
      exact ⟨inputs, output, List.forall₂_iff_zip.mpr ⟨length, fun h => read _ _ h⟩, laid, accepted,
        evaluateNode_eq_ok_iff.mpr ⟨values, evaluated, size, element, rfl⟩⟩
  · rintro ⟨inputs, output, hread, laid, accepted, hev⟩
    obtain ⟨values, evaluated, size, element, rfl⟩ := evaluateNode_eq_ok_iff.mp hev
    obtain ⟨length, read⟩ := List.forall₂_iff_zip.mp hread
    exact .computed hn hc hk length (fun _ _ h => read h) laid hf accepted evaluated size element

end Pass

end NetPlan

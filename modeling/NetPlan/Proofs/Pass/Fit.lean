import NetPlan.Proofs.Host.Reference
import NetPlan.Proofs.Pass.Foldable
import NetPlan.Proofs.Pass.Inherited
import NetPlan.Proofs.Pass.Tidy

/-!
# Proofs/Pass/Fit — which constants the host computes

The host computes a node from values that lie in known places, of a kind without weights, into known
places.  So a node is either `Fit`, and has such a value, or it is `Unfit`, since something it depends
on has none.  Neither has to do with an order or with values, so both are easy to follow through the
rewrites of a program.

* `valueWithin_fit` — the host has a value for what is fit, and declines what is unfit;
* `Evaluated` — a fit node becomes a literal, and nothing else becomes fit or unfit by that.
-/

namespace NetPlan

namespace Program

variable {p q : Program} {id j : String} {l : Layout}

/-- The host has a value for the node, and can compute others from it. -/
inductive Fit (p : Program) : String → Prop
  | literal {id : String} {l : Layout} {v : Buffer} (shape : p.shapeOf id = some (.data l v))
      (placed : l.isAddressable = true) : Fit p id
  | computed {id : String} {op : Operation} {l : Layout} (shape : p.shapeOf id = some op)
      (evaluated : Host.isEvaluated op.kind = true) (laid : p.freshLayout id = .ok l)
      (placed : l.isAddressable = true) (reads : ∀ d ∈ p.depsOf id, Fit p d) : Fit p id

/-- The host cannot compute anything from the node. -/
inductive Unfit (p : Program) : String → Prop
  | literal {id : String} {l : Layout} {v : Buffer} (shape : p.shapeOf id = some (.data l v))
      (scattered : l.isAddressable = false) : Unfit p id
  | kind {id : String} {op : Operation} (shape : p.shapeOf id = some op) (computed : op.kind ≠ .data)
      (declined : Host.isEvaluated op.kind = false) : Unfit p id
  | layout {id : String} {op : Operation} {l : Layout} (shape : p.shapeOf id = some op)
      (computed : op.kind ≠ .data) (laid : p.freshLayout id = .ok l)
      (scattered : l.isAddressable = false) : Unfit p id
  | reads {id : String} {op : Operation} {d : String} (shape : p.shapeOf id = some op)
      (computed : op.kind ≠ .data) (read : d ∈ p.depsOf id) (unfit : Unfit p d) : Unfit p id

/-- **No node is both.** -/
theorem Fit.not_unfit (h : p.Fit id) : ¬ p.Unfit id := by
  induction h with
  | literal shape placed =>
    intro hun
    cases hun with
    | literal shape' scattered =>
      cases shape.symm.trans shape'
      rw [placed] at scattered
      cases scattered
    | kind shape' computed | layout shape' computed | reads shape' computed =>
      cases shape.symm.trans shape'
      exact computed rfl
  | computed shape evaluated laid placed reads ih =>
    intro hun
    cases hun with
    | literal shape' =>
      cases shape.symm.trans shape'
      cases evaluated
    | kind shape' _ declined =>
      cases shape.symm.trans shape'
      rw [evaluated] at declined
      cases declined
    | layout _ _ laid' scattered =>
      cases laid.symm.trans laid'
      rw [placed] at scattered
      cases scattered
    | reads _ _ read unfit => exact ih _ read unfit

theorem Fit.contains (h : p.Fit id) : p.contains id = true := by
  rw [contains_eq_isSome_shapeOf]
  cases h with
  | literal shape | computed shape => rw [shape, Option.isSome_some]

theorem Unfit.contains (h : p.Unfit id) : p.contains id = true := by
  rw [contains_eq_isSome_shapeOf]
  cases h with
  | literal shape | kind shape | layout shape | reads shape => rw [shape, Option.isSome_some]

/-- What a fit node reads is fit. -/
theorem Fit.dep (h : p.Fit id) (hp : p.Grounded) {d : String} (hd : d ∈ p.depsOf id) : p.Fit d := by
  cases h with
  | literal shape =>
    rw [hp id (kindOf_of_shapeOf shape)] at hd
    cases hd
  | computed _ _ _ _ reads => exact reads d hd

theorem Fit.not_isWeighted (h : p.Fit id) : ¬ p.isWeighted id := by
  rintro ⟨op, hop, hk⟩
  cases h with
  | literal shape =>
    cases hop.symm.trans shape
    cases hk
  | computed shape evaluated =>
    cases hop.symm.trans shape
    generalize op.kind = k at hk evaluated
    cases k <;> first | (cases evaluated; done) | cases hk

/-- **What is fit is marked constant.** -/
theorem Fit.isConstant (h : p.Fit id) (hp : p.Flagged) : p.isConstant id = true := by
  have hthere := h.contains
  induction h with
  | literal shape => exact (hp.constant _ hthere).mpr (due_of_literal (kindOf_of_shapeOf shape))
  | @computed id op l shape evaluated laid placed reads ih =>
    refine (hp.constant id hthere).mpr (Or.inr ⟨fun hk => ?_, fun hnil => ?_, fun d hd => ?_⟩)
    · rw [kindOf_of_shapeOf shape, Option.some.injEq] at hk
      rw [hk] at evaluated
      cases evaluated
    · -- without an input there would be no layout
      obtain ⟨t, inputs, ht, hin, hlays⟩ := freshLayout_iff.mp laid
      rw [hnil, List.forall₂_nil_left_iff] at hin
      rw [shapeOf_eq_taskOf, ht, Option.map_some, Option.some.injEq] at shape
      subst hin
      exact not_lays_nil (shape ▸ evaluated) hlays
    · exact ih d hd (reads d hd).contains

/-! ## Parts of a graph that stay the same -/

section Frame

variable (same : String → Prop) (closed : ∀ i, same i → ∀ d ∈ p.depsOf i, same d)
  (shapes : ∀ i, same i → q.shapeOf i = p.shapeOf i) (deps : ∀ i, same i → q.depsOf i = p.depsOf i)
  (layouts : ∀ i, same i → q.freshLayout i = p.freshLayout i)
include closed shapes deps layouts

theorem Fit.frame (h : p.Fit id) (hid : same id) : q.Fit id := by
  induction h with
  | literal shape placed => exact .literal ((shapes _ hid).trans shape) placed
  | @computed id op l shape evaluated laid placed reads ih =>
    refine .computed ((shapes id hid).trans shape) evaluated ((layouts id hid).trans laid) placed
      fun d hd => ?_
    rw [deps id hid] at hd
    exact ih d hd (closed id hid d hd)

theorem Unfit.frame (h : p.Unfit id) (hid : same id) : q.Unfit id := by
  induction h with
  | literal shape scattered => exact .literal ((shapes _ hid).trans shape) scattered
  | kind shape computed declined => exact .kind ((shapes _ hid).trans shape) computed declined
  | layout shape computed laid scattered =>
    exact .layout ((shapes _ hid).trans shape) computed ((layouts _ hid).trans laid) scattered
  | @reads id op d shape computed read unfit ih =>
    refine .reads ((shapes id hid).trans shape) computed ?_ (ih (closed id hid d read))
    rw [deps id hid]
    exact read

end Frame

section SameGraph

variable (h : SameGraph p q)
include h

theorem SameGraph.fit_iff : q.Fit id ↔ p.Fit id :=
  ⟨fun hid => hid.frame (fun _ => True) (fun _ _ _ _ => trivial)
    (fun i _ => (congrFun h.shapes i).symm) (fun i _ => (congrFun h.deps i).symm)
    (fun i _ => (congrFun h.freshLayout i).symm) trivial,
  fun hid => hid.frame (fun _ => True) (fun _ _ _ _ => trivial) (fun i _ => congrFun h.shapes i)
    (fun i _ => congrFun h.deps i) (fun i _ => congrFun h.freshLayout i) trivial⟩

theorem SameGraph.unfit_iff : q.Unfit id ↔ p.Unfit id :=
  ⟨fun hid => hid.frame (fun _ => True) (fun _ _ _ _ => trivial)
    (fun i _ => (congrFun h.shapes i).symm) (fun i _ => (congrFun h.deps i).symm)
    (fun i _ => (congrFun h.freshLayout i).symm) trivial,
  fun hid => hid.frame (fun _ => True) (fun _ _ _ _ => trivial) (fun i _ => congrFun h.shapes i)
    (fun i _ => congrFun h.deps i) (fun i _ => congrFun h.freshLayout i) trivial⟩

end SameGraph

end Program

namespace Edit

open Program

variable {p q : Program} {id j : String}

section Removed

variable (h : Removed p q id) (hl : p.Linked) (unread : p.usersOf id = [])
include h hl unread

theorem Removed.fit (hj : p.Fit j) (hne : j ≠ id) : q.Fit j := by
  obtain ⟨hclosed, -, hdeps, hlayouts⟩ := h.frame hl unread
  exact hj.frame (· ≠ id) (fun i _ => hclosed i) (fun i hi => by rw [h.shapes, if_neg hi]) hdeps
    hlayouts hne

theorem Removed.unfit (hj : p.Unfit j) (hne : j ≠ id) : q.Unfit j := by
  obtain ⟨hclosed, -, hdeps, hlayouts⟩ := h.frame hl unread
  exact hj.frame (· ≠ id) (fun i _ => hclosed i) (fun i hi => by rw [h.shapes, if_neg hi]) hdeps
    hlayouts hne

theorem Removed.fit_of (hj : q.Fit j) (hne : j ≠ id) : p.Fit j := by
  obtain ⟨hclosed, -, hdeps, hlayouts⟩ := h.frame hl unread
  exact hj.frame (· ≠ id) (fun i hi d hd => hclosed i d (hdeps i hi ▸ hd))
    (fun i hi => by rw [h.shapes, if_neg hi]) (fun i hi => (hdeps i hi).symm)
    (fun i hi => (hlayouts i hi).symm) hne

end Removed

end Edit

namespace Pass

open Program Edit

variable {p q : Program} {known : Known} {id j : String} {l : Layout}

/-! ## Values -/

/-- A value in this layout is that of a fit node, or of a literal nothing is computed from. -/
structure Valued (p : Program) (id : String) (l : Layout) : Prop where
  placed : l.isAddressable = true → p.Fit id
  scattered : l.isAddressable = false → p.kindOf id = some .data ∧ p.Unfit id

/-- Every node with known values has a value of the layout of its own. -/
def AllValued (p : Program) (known : Known) : Prop :=
  ∀ id v, known.lookup id = some v → Valued p id v.layout

theorem valued_iff (h : SameGraph p q) : Valued q id l ↔ Valued p id l := by
  have hiff : ∀ p : Program, Valued p id l ↔ (l.isAddressable = true → p.Fit id) ∧
      (l.isAddressable = false → p.kindOf id = some .data ∧ p.Unfit id) := fun p =>
    ⟨fun hv => ⟨hv.placed, hv.scattered⟩, fun hv => ⟨hv.1, hv.2⟩⟩
  rw [hiff, hiff, h.fit_iff, h.unfit_iff, h.kinds]

theorem AllValued.sameGraph (h : AllValued p known) (hq : SameGraph p q) : AllValued q known :=
  fun id v hv => (valued_iff hq).mpr (h id v hv)

theorem AllValued.cons {v : ConstantValue} (h : AllValued p known) (hv : Valued p id v.layout) :
    AllValued p ((id, v) :: known) := fun j w hw => by
  rw [lookup_cons] at hw
  split at hw
  case isTrue hj =>
    cases hw
    exact hj ▸ hv
  case isFalse => exact h j w hw

theorem valued_literal {v : Buffer} (h : p.shapeOf id = some (.data l v)) : Valued p id l :=
  ⟨fun hl => .literal h hl, fun hl => ⟨kindOf_of_shapeOf h, .literal h hl⟩⟩

theorem allValues_fit {f : String → StateT Known Edit (Option ConstantValue)}
    (step : ∀ (id : String) (known : Known) {p : Program}, p.Linked → p.Coherent →
      AllValued p known → Ends ((f id).run known)
        (fun r q => Filled p q ∧ AllValued q r.2 ∧ (∀ v, r.1 = some v → Valued p id v.layout) ∧
          (r.1 = none → p.Unfit id)) (fun _ _ => True) p) :
    ∀ (ids : List String) (known : Known) {p : Program}, p.Linked → p.Coherent →
      AllValued p known → Ends ((allValues f ids).run known)
        (fun r q => Filled p q ∧ AllValued q r.2 ∧
          (∀ vs, r.1 = some vs → List.Forall₂ (fun d v => Valued p d v.layout) ids vs) ∧
          (r.1 = none → ∃ d ∈ ids, p.Unfit d)) (fun _ _ => True) p
  | [], _, p, _, hc, hk => ⟨⟨rfl, hc⟩, hk, fun vs hvs => by cases hvs; exact .nil, fun h => by cases h⟩
  | id :: ids, known, p, hl, hc, hk => by
      rw [allValues, StateT.run_bind, ends_bind]
      refine (step id known hl hc hk).imp_good fun r q hq => ?_
      obtain ⟨hfill, hknown, hsome, hnone⟩ := hq
      rcases r with ⟨_ | v, known'⟩
      · exact ⟨hfill, hknown, fun _ h => (by cases h), fun _ => ⟨id, List.mem_cons_self, hnone rfl⟩⟩
      · dsimp only
        have hsame := (hfill.touched hl).toSameGraph
        rw [StateT.run_bind, ends_bind]
        refine (allValues_fit step ids known' hsame.kept.linked hfill.coherent hknown).imp_good
          fun r' q' hq' => ?_
        obtain ⟨hfill', hknown', hsome', hnone'⟩ := hq'
        have hback : ∀ (ds : List String) (vs : List ConstantValue),
            List.Forall₂ (fun d v => Valued q d v.layout) ds vs →
              List.Forall₂ (fun d v => Valued p d v.layout) ds vs := fun _ _ hvs =>
          hvs.imp fun _ _ hd => (valued_iff hsame).mp hd
        refine ⟨hfill.trans hfill', hknown', fun vs hvs => ?_, fun h => ?_⟩
        · obtain ⟨ws, hws, rfl⟩ := Option.map_eq_some_iff.mp hvs
          exact .cons (hsome v rfl) (hback ids ws (hsome' ws hws))
        · obtain ⟨d, hd, hun⟩ := hnone' (Option.map_eq_none_iff.mp h)
          exact ⟨d, List.mem_cons_of_mem _ hd, hsame.unfit_iff.mp hun⟩

/-- What the host takes on is fit, if its dependencies have values, and what it declines is unfit. -/
theorem canEvaluate_fit {op : Operation} {m : Node} {inputs : List ConstantValue} {output : Layout}
    (hshape : p.shapeOf id = some op) (hkind : op.kind ≠ .data) (hm : m.kind = op.kind)
    (hlaid : p.freshLayout id = .ok output)
    (hinputs : List.Forall₂ (fun d v => Valued p d v.layout) (p.depsOf id) inputs) :
    if Evaluator.reference.canEvaluate m (inputs.map (·.layout)) output = true
      then Valued p id output else p.Unfit id := by
  split
  case isTrue hyes =>
    rw [Evaluator.canEvaluate_reference, hm] at hyes
    obtain ⟨hevaluated, hplaced, hreads⟩ := hyes
    refine ⟨fun _ => .computed hshape hevaluated hlaid hplaced fun d hd => ?_, fun hno => ?_⟩
    · obtain ⟨v, hv, hvalued⟩ := exists_mem_of_forall₂ hinputs d hd
      exact hvalued.placed (hreads _ (List.mem_map_of_mem hv))
    · rw [hplaced] at hno
      cases hno
  case isFalse hno =>
    rw [Evaluator.canEvaluate_reference, hm] at hno
    by_cases hevaluated : Host.isEvaluated op.kind = true
    · by_cases hplaced : output.isAddressable = true
      · -- so one of the inputs lies where the host does not look
        obtain ⟨l, hl, hscattered⟩ : ∃ l ∈ inputs.map (·.layout), ¬ l.isAddressable = true := by
          by_contra hall
          exact hno ⟨hevaluated, hplaced, fun l hl => by_contra fun hl' => hall ⟨l, hl, hl'⟩⟩
        obtain ⟨v, hv, rfl⟩ := List.mem_map.mp hl
        obtain ⟨d, hd, hvalued⟩ := exists_mem_of_forall₂ hinputs.flip v hv
        exact .reads hshape hkind hd (hvalued.scattered (Bool.eq_false_iff.mpr hscattered)).2
      · exact .layout hshape hkind hlaid (Bool.eq_false_iff.mpr hplaced)
    · exact .kind hshape hkind (Bool.eq_false_iff.mpr hevaluated)

/-- **The host has a value for what is fit**, and declines what is unfit. -/
theorem valueWithin_fit : ∀ (depth : Nat) (id : String) (known : Known) {p : Program}, p.Linked →
    p.Coherent → AllValued p known →
    Ends ((valueWithin .reference depth id).run known)
      (fun r q => Filled p q ∧ AllValued q r.2 ∧ (∀ v, r.1 = some v → Valued p id v.layout) ∧
        (r.1 = none → p.Unfit id)) (fun _ _ => True) p
  | 0, _, _, _, _, _, _ => trivial
  | depth + 1, id, known, p, hl, hc, hk => by
      rw [valueWithin, StateT.run_bind, ends_bind]
      change Ends (pure (known, known)) _ _ p
      rw [ends_pure]
      dsimp only
      split
      case h_1 v hv =>
        exact ⟨⟨rfl, hc⟩, hk, fun w hw => Option.some.inj hw ▸ hk id v hv, fun h => by cases h⟩
      rw [StateT.run_bind, ends_bind, ends_run_liftM, ends_node]
      refine ⟨fun n hn => ?_, fun _ => trivial⟩
      have hshape : p.shapeOf id = some n.operation.shape := by rw [shapeOf, hn, Option.map_some]
      dsimp only
      split
      case h_1 layout values hop =>
        have hv : Valued p id layout := valued_literal (by rw [hshape, hop]; rfl)
        exact ⟨⟨rfl, hc⟩, hk.cons (v := ⟨layout, values⟩) hv, fun w hw => by cases hw; exact hv,
          fun h => by cases h⟩
      case h_2 hliteral =>
      have hkind : n.operation.shape.kind ≠ .data := fun he => by
        rw [Operation.kind_shape] at he
        cases hop : n.operation with
        | data layout values => exact hliteral layout values hop
        | _ =>
          rw [hop] at he
          cases he
      rw [StateT.run_bind, ends_bind]
      refine (allValues_fit (valueWithin_fit depth) n.dependencies known hl hc hk).imp_good
        fun r q hq => ?_
      obtain ⟨hfill, hknown, hsome, hnone⟩ := hq
      rcases r with ⟨_ | inputs, known'⟩
      · obtain ⟨d, hd, hun⟩ := hnone rfl
        exact ⟨hfill, hknown, fun _ h => (by cases h), fun _ =>
          .reads hshape hkind (depsOf_of_node? hn ▸ hd) hun⟩
      dsimp only
      rw [StateT.run_bind, ends_bind, ends_run_liftM]
      refine (layout_effect id hfill.coherent).imp (fun output s hs => ?_) fun _ _ _ => trivial
      obtain ⟨hfill', hlaid⟩ := hs
      rw [freshLayout_of_uncached hfill.same] at hlaid
      have hall := hfill.trans hfill'
      have hsame := (hall.touched hl).toSameGraph
      have hvalues := hknown.sameGraph (hfill'.touched (hfill.touched hl).kept.linked).toSameGraph
      rw [StateT.run_bind, ends_bind, ends_run_liftM, ends_node]
      refine ⟨fun m hm => ?_, fun _ => trivial⟩
      have hkind' : m.kind = n.operation.shape.kind := by
        have hm' := congrFun hsame.shapes id
        rw [shapeOf, hm, Option.map_some, hshape, Option.some.injEq] at hm'
        rw [← hm', Operation.kind_shape, Node.kind]
      have hfit := canEvaluate_fit hshape hkind hkind' hlaid (depsOf_of_node? hn ▸ hsome inputs rfl)
      split
      case isTrue hno =>
        rw [if_neg (by simpa using hno)] at hfit
        exact ⟨hall, hvalues, fun _ h => (by cases h), fun _ => hfit⟩
      case isFalse hyes =>
        rw [if_pos (by simpa using hyes)] at hfit
        rw [StateT.run_bind, ends_bind, ends_run_liftM, ends_ofExcept]
        refine ⟨fun v hval => ?_, fun _ _ => trivial⟩
        obtain ⟨values, -, -, -, rfl⟩ := evaluateNode_eq_ok_iff.mp hval
        exact ⟨hall, hvalues.cons ((valued_iff hsame).mpr hfit), fun w hw => by cases hw; exact hfit,
          fun h => by cases h⟩

/-! ## Folding -/

/-- `q` is `p` with the literal of its value in the place of a fit constant. -/
structure Evaluated (p q : Program) (id : String) : Prop extends Folded p q id where
  fit : p.Fit id
  literal : ∃ l v, q.shapeOf id = some (.data l v) ∧ l.isAddressable = true

namespace Evaluated

variable (h : Evaluated p q id)
include h

theorem fit_here : q.Fit id := by
  obtain ⟨l, v, hshape, hplaced⟩ := h.literal
  exact .literal hshape hplaced

theorem shapes (hj : j ≠ id) : q.shapeOf j = p.shapeOf j := by
  obtain ⟨prim, -, hq⟩ := h.steps
  rw [hq.shapes, if_neg hj]

variable (hb : p.behaviours.find .data = .ok .data)
include hb

/-- What was fit is fit. -/
theorem fit_of (hj : p.Fit j) : q.Fit j := by
  induction hj with
  | @literal j l v shape placed =>
    by_cases hji : j = id
    · exact hji ▸ h.fit_here
    · exact .literal ((h.shapes hji).trans shape) placed
  | @computed j op l shape evaluated laid placed reads ih =>
    by_cases hji : j = id
    · exact hji ▸ h.fit_here
    · refine .computed ((h.shapes hji).trans shape) evaluated (h.layouts hb j l laid) placed
        fun d hd => ih d ?_
      rwa [h.deps, if_neg hji] at hd

/-- What was unfit is unfit: it is another node. -/
theorem unfit_of (hj : p.Unfit j) : q.Unfit j := by
  have hne : ∀ {j}, p.Unfit j → j ≠ id := fun hj he => (he ▸ h.fit).not_unfit (he ▸ hj)
  have hji := hne hj
  induction hj with
  | literal shape scattered => exact .literal ((h.shapes hji).trans shape) scattered
  | kind shape computed declined => exact .kind ((h.shapes hji).trans shape) computed declined
  | layout shape computed laid scattered =>
    exact .layout ((h.shapes hji).trans shape) computed (h.layouts hb _ _ laid) scattered
  | @reads j op d shape computed read unfit ih =>
    refine .reads ((h.shapes hji).trans shape) computed ?_ (ih (hne unfit))
    rwa [h.deps, if_neg hji]

end Evaluated

end Pass

end NetPlan

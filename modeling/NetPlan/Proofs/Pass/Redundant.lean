import NetPlan.Pass.Redundant
import NetPlan.Proofs.Graph.Flags
import NetPlan.Proofs.Layout.Upstream
import NetPlan.Proofs.Pass.Binding

/-!
# Proofs/Pass/Redundant — reorders that go

A reorder goes by being extracted: its users read its input instead.  Merged reorders leave the input
with the work of the reorder that is gone (`Merged`).  Nothing may be extracted from a circle of two;
two reorders in a circle have no ranks (`Ranked`), and two nodes in a circle have no layout.

* `mergeReorders_effect`, `removeIdentity_effect` — a reorder is merged if it can be (`Mergeable`), and
  removed unless it has to stay (`Fixed`);
* `visit_effect`, `removeRedundantReorders_visits` — one visit, and one of each node;
* `removeRedundantReorders_ends` — an invariant of the two rewrites is an invariant of the pass.
-/

namespace NetPlan

namespace Program

variable {p q : Program} {a b id input : String} {l : Layout} {depth : Nat}

/-- A reorder that subtracts nothing can be merged into the reorder that it reads: nothing else reads
that one, and it is no output. -/
structure Mergeable (p : Program) (a b : String) : Prop where
  copy : p.isCopy a
  only : p.depsOf a = [b]
  reorder : p.isReorder b
  sole : ∀ u, b ∈ p.depsOf u → u = a
  unmarked : p.isMarked b = false

theorem Mergeable.usersOf (h : p.Mergeable a b) (hl : p.Linked) : p.usersOf b = [a] := by
  have hmem : a ∈ p.usersOf b := (hl.edges b a).mp (h.only ▸ List.mem_singleton_self b)
  have hall : ∀ u ∈ p.usersOf b, u = a := fun u hu => h.sole u ((hl.edges b u).mpr hu)
  have hnodup := hl.users_nodup b
  generalize p.usersOf b = us at hmem hall hnodup
  match us with
  | [] => cases hmem
  | [u] => rw [hall u (List.mem_singleton_self u)]
  | u :: v :: us =>
    have he : u = v := (hall u (by simp)).trans (hall v (by simp)).symm
    exact absurd (by rw [he]; exact List.mem_cons_self) (List.nodup_cons.mp hnodup).1

/-- A reorder that subtracts nothing has to stay: it has another layout than its input, or hands its id
on to none, as its input is an input of the network or an output too. -/
def Fixed (p : Program) (id : String) : Prop :=
  p.isCopy id → ∀ input, p.depsOf id = [input] →
    (p.isMarked id = true ∧ p.kindOf input = some .inputLayout) ∨
      ∃ l l', p.freshLayout id = .ok l ∧ p.freshLayout input = .ok l' ∧
        (l = l' → p.isMarked id = true ∧ p.isMarked input = true)

/-- So it seems from the caches, be they right or not: the layouts of the reorder and of its input are
cached, and they are others or there is nowhere to hand the id on to. -/
def Lasting (p : Program) (id : String) : Prop :=
  p.isCopy id → ∀ input, p.depsOf id = [input] →
    (p.isMarked id = true ∧ p.kindOf input = some .inputLayout) ∨
      ∃ l l', p.layoutOf id = some l ∧ p.layoutOf input = some l' ∧
        (l = l' → p.isMarked id = true ∧ p.isMarked input = true)

/-- **Right caches tell what has to stay.** -/
theorem Lasting.fixed (h : q.Lasting id) (hq : Computed p q) (hl : p.Linked) (hc : p.Coherent) :
    p.Fixed id := fun hcopy input honly => by
  have htouch := hq.touched hl
  have hcopy' : q.isCopy id := by
    rw [isCopy, htouch.shapes]
    exact hcopy
  rw [← htouch.marks, ← kindOf_congr (congrFun htouch.shapes input),
    ← freshLayout_of_uncached hq.same]
  exact (h hcopy' input (htouch.deps ▸ honly)).imp_right fun ⟨l, l', hself, hinput, hboth⟩ =>
    ⟨l, l', hq.coherent hc id l hself, hq.coherent hc input l' hinput, hboth⟩

theorem Lasting.computed (h : p.Lasting id) (hq : Computed p q) (hl : p.Linked) : q.Lasting id := by
  have htouch := hq.touched hl
  intro hcopy input honly
  rw [isCopy, htouch.shapes] at hcopy
  rw [htouch.marks, kindOf_congr (congrFun htouch.shapes input)]
  exact (h hcopy input (htouch.deps ▸ honly)).imp_right fun ⟨l, l', hself, hinput, hboth⟩ =>
    ⟨l, l', hq.caches id l hself, hq.caches input l' hinput, hboth⟩

/-- Reorders do not read each other in a circle: each ranks above those it reads. -/
def Ranked (p : Program) : Prop :=
  ∃ rank : String → Nat, ∀ u d, d ∈ p.depsOf u → p.isReorder d → p.isReorder u → rank d < rank u

/-- Two reorders that read each other have no ranks. -/
theorem Ranked.not_mem (h : p.Ranked) (hd : input ∈ p.depsOf id) (hid : p.isReorder id)
    (hinput : p.isReorder input) : id ∉ p.depsOf input := fun hc => by
  obtain ⟨rank, hrank⟩ := h
  exact Nat.lt_asymm (hrank id input hd hinput hid) (hrank input id hc hid hinput)

/-- **Two nodes that read each other have no layout.** -/
theorem not_mem_of_freshWithin : ∀ {depth : Nat} {id input : String} {l : Layout},
    p.freshWithin depth id = .ok l → input ∈ p.depsOf id → id ∉ p.depsOf input
  | 0, _, _, _, h, _, _ => nomatch h
  | depth + 1, id, input, l, h, hd, hc => by
      obtain ⟨n, inputs, hn, hdeps, -⟩ := freshWithin_succ_eq_ok_iff.mp h
      rw [depsOf_of_node? hn] at hd
      obtain ⟨_, -, hl⟩ := exists_mem_of_forall₂ hdeps input hd
      exact not_mem_of_freshWithin hl hc (by rwa [depsOf_of_node? hn])

end Program

namespace Pass

open Program Edit

variable {p : Program} {c : Compilation} {id : String}

theorem subtract_of_isCopy {n : Node} {r : Reorder} (hn : p.node? id = some n)
    (hop : n.operation = .reorder r) (h : p.isCopy id) : r.subtract = [] := by
  obtain ⟨r', hr', hsub⟩ := h
  rw [shapeOf, hn, Option.map_some, hop, Option.some.injEq] at hr'
  cases hr'
  exact hsub

/-- The task of a reorder that takes over the work of the one behind it. -/
def merging (format : Format) (element : Element) (padding : Padding) (t : Task) : Task :=
  { t with padding, operation := retargeted t.operation format element }

/-- `q` is `p` with a reorder merged into its input, which takes over what it does. -/
structure Merged (p q : Program) (bound : Bool) (id : String) : Prop where
  steps : ∃ input survivor format element padding r s, Extracted p r id input ∧
    p.isCopy id ∧ p.isReorder input ∧
    Reworked r s survivor (merging format element padding) ∧ Kept r s ∧ Planned s q survivor ∧
    (bound = true → (p.planOf id).isSome = true → r.runsKernelAt survivor →
      (q.planOf survivor).isSome = true) ∧
    survivor = (if p.isMarked id = true then id else input) ∧
    (∃ absorbed, p.taskOf id = some ⟨padding, .reorder ⟨"", format, element, []⟩, absorbed⟩) ∧
    p.usersOf input = [id] ∧ p.isMarked input = false

/-- The reorder that is left is bound anew, if one of the two was bound and a selector is at hand, and
has no plan otherwise. -/
structure Rebound (selector : Option Selector) (p q : Program) (id : String) : Prop
    extends Merged p q selector.isSome id where
  plans : ∃ input, p.depsOf id = [input] ∧ ∀ plan, q.planOf (survivor p id input) = some plan →
    ((p.planOf id).isSome = true ∨ (p.planOf input).isSome = true) ∧
      ∃ s, selector = some s ∧ Elected s q (survivor p id input) plan

theorem shape_retargeted (op : Operation) (format : Format) (element : Element) :
    (retargeted op format element).shape = retargeted op.shape format element := by
  cases op <;> rfl

theorem arguments_retargeted (op : Operation) (format : Format) (element : Element) :
    (retargeted op format element).arguments = op.arguments := by
  cases op <;> rfl

theorem kind_retargeted (op : Operation) (format : Format) (element : Element) :
    (retargeted op format element).kind = op.kind := by
  cases op <;> rfl

/-- **Merging reorders**, if they can be.  Which plan the one that is left gets is a matter of the
caches, if it is asked for one. -/
theorem mergeReorders_effect (selector : Option Selector) (hl : c.program.Linked)
    (hr : c.program.Ranked) :
    Ends (mergeReorders selector id)
      (fun done c' => c'.preferences = c.preferences ∧
        if done then Merged c.program c'.program false id ∧
          (selector = none ∨ c.program.Coherent → Rebound selector c.program c'.program id)
        else c'.program = c.program ∧ ∀ input, ¬ c.program.Mergeable id input)
      (fun e _ => e.closes = false ∧ (c.program.contains id = true →
        selector ≠ none ∧ ∃ input, c.program.Mergeable id input)) c := by
  rw [mergeReorders, ends_bind, Transform.ends_liftM, ends_node]
  refine ⟨fun n hn => ?_, fun hnone => ⟨rfl, fun hc => absurd hc (node?_eq_none.mp hnone)⟩⟩
  split
  case h_2 hno =>
    refine ⟨rfl, rfl, fun input hm => ?_⟩
    obtain ⟨r, hr⟩ := (isReorder_iff_of_node? hn).mp hm.copy.isReorder
    exact hno r hr
  case h_1 r hop =>
  split
  case isTrue hsub =>
    refine ⟨rfl, rfl, fun input hm => ?_⟩
    rw [subtract_of_isCopy hn hop hm.copy] at hsub
    cases hsub
  case isFalse hsub =>
  have hid := isCopy_of_node? hn hop (by simpa using hsub)
  split
  case h_2 hnone =>
    refine ⟨rfl, rfl, fun input hm => hnone input ?_⟩
    rw [onlyDependency?_eq_some, ← depsOf_of_node? hn]
    exact hm.only
  case h_1 input honly =>
  have hdeps : c.program.depsOf id = [input] := by
    rw [depsOf_of_node? hn]
    exact onlyDependency?_eq_some.mp honly
  have hmem : input ∈ c.program.depsOf id := hdeps ▸ List.mem_singleton_self input
  rw [ends_bind, Transform.ends_liftM, ends_node]
  refine ⟨fun source hsource => ?_,
    fun hnone => absurd (hl.contains_dep hmem) (node?_eq_none.mp hnone)⟩
  have honly' : ∀ input', c.program.Mergeable id input' → input' = input := fun input' hm =>
    (List.cons.inj (hm.only.symm.trans hdeps)).1
  split
  case isTrue hcond =>
    refine ⟨rfl, rfl, fun input' hm => ?_⟩
    obtain rfl := honly' input' hm
    have hkind := kindOf_of_node? hsource
    obtain ⟨r', hr'⟩ := hm.reorder
    rw [kindOf_of_shapeOf hr', Option.some.injEq] at hkind
    rw [← hkind, ← usersOf_of_node? hsource, hm.usersOf hl, ← isMarked_of_node? hsource,
      hm.unmarked] at hcond
    cases hcond
  case isFalse hcond =>
  rw [Bool.or_eq_true, Bool.or_eq_true, not_or, not_or, decide_eq_true_eq, not_not,
    decide_eq_true_eq, not_not, Bool.not_eq_true] at hcond
  obtain ⟨⟨hkind, hone⟩, hsilent⟩ := hcond
  have hinput : c.program.isReorder input := isReorder_of_node? hsource hkind
  have husers : c.program.usersOf input = [id] := by
    have hmem : id ∈ c.program.usersOf input :=
      (hl.edges input id).mp (hdeps ▸ List.mem_singleton_self input)
    rw [usersOf_of_node? hsource] at hmem ⊢
    obtain ⟨u, hu⟩ := List.length_eq_one_iff.mp hone
    rw [hu, List.mem_singleton] at hmem
    rw [hu, hmem]
  have htask : c.program.taskOf id
      = some ⟨n.padding, .reorder ⟨"", r.format, r.element, []⟩, n.absorbed⟩ := by
    rw [taskOf_of_node? hn, Node.task, hop]
    have hnone : r.subtract = [] := by simpa using hsub
    rw [← hnone]
    rfl
  have hfit : c.program.Extractable id := by
    intro input' _ hi
    rw [hdeps] at hi
    cases hi
    exact Or.inr (hr.not_mem (hdeps ▸ List.mem_singleton_self input) hid.isReorder hinput)
  rw [ends_bind, Transform.ends_liftM]
  have hmerge : c.program.Mergeable id input :=
    ⟨hid, hdeps, hinput, fun u hu => by simpa [husers] using (hl.edges input u).mp hu,
      (isMarked_of_node? hsource).trans hsilent⟩
  refine (extract_effect hl hfit).imp (fun done q hq => ?_) fun _ _ hb => ⟨hb.1, fun hc =>
    absurd hc hb.2.2⟩
  cases done with
  | false =>
    obtain ⟨-, hmarked⟩ := hq.2 input hdeps
    rw [hmerge.unmarked] at hmarked
    cases hmarked
  | true =>
  obtain ⟨input', hex⟩ := hq
  obtain rfl : input = input' := by
    obtain ⟨_, hby, -⟩ := hex
    rw [hby.only] at hdeps
    exact (List.cons.inj hdeps).1.symm
  have hlq := hex.kept.linked
  dsimp only
  generalize hleft : (if n.isOutput = true then id else input) = left
  rw [← isMarked_of_node? hn] at hleft
  have hstill : q.contains left = true := hleft ▸ (hex.contracted hl).contains_survivor hl
  rw [if_neg (by simp), ends_bind, Transform.ends_liftM, ends_change]
  refine ⟨fun m hm => ?_, fun hnone => absurd hstill (node?_eq_none.mp hnone)⟩
  let change (m : Node) : Node :=
    { m.withOperation (retargeted m.operation r.format r.element) with plan := none }
  have h₁ : Reworked q (q.update left change) left fun t =>
      { t with operation := retargeted t.operation r.format r.element } :=
    reworked_update hlq (fun m => ⟨rfl, rfl, rfl, arguments_retargeted .., rfl, rfl, fun _ => rfl⟩)
      fun m => congrArg (fun op => (⟨m.padding, op, m.absorbed⟩ : Task)) (shape_retargeted ..)
  have hunplanned : (q.update left change).planOf left = none := by
    rw [planOf, node?_update (f := change) fun _ => rfl, if_pos rfl, hm]
    rfl
  rw [ends_bind, Transform.ends_liftM]
  refine (setPadding_effect h₁.linked n.padding).imp (fun _ r₂ h₂ => ?_)
    fun _ _ hb => absurd (h₁.contains ▸ hstill) hb.2.2
  have h₂' := h₁.trans h₂.1
  rw [ends_bind, Transform.ends_liftM, ends_invalidate]
  have hwork := h₂'.trans (reworked_invalidate h₂'.linked left)
  have hkept : Kept q (r₂.invalidate left) := h₂'.kept
  have hplan : c.program.planOf id = n.plan := by rw [planOf, hn, Option.bind_some]
  have hplan' : c.program.planOf input = source.plan := by rw [planOf, hsource, Option.bind_some]
  have hmerged : ∀ (bound : Bool) (c' : Compilation), Planned (r₂.invalidate left) c'.program left →
      (bound = true → n.plan.isSome = true → q.runsKernelAt left →
        (c'.program.planOf left).isSome = true) → Merged c.program c'.program bound id :=
    fun bound c' hp hb => ⟨input, left, r.format, r.element, n.padding, q, r₂.invalidate left, hex,
      hid, hinput, hwork, hkept, hp, hplan ▸ hb, hleft.symm, ⟨n.absorbed, htask⟩, husers,
      hmerge.unmarked⟩
  have hdone : ∀ c' : Compilation, Planned (r₂.invalidate left) c'.program left →
      c'.preferences = c.preferences →
      (selector = none ∨ c.program.Coherent → (selector.isSome = true → n.plan.isSome = true →
          q.runsKernelAt left → (c'.program.planOf left).isSome = true) ∧
        ∀ plan, c'.program.planOf left = some plan →
          (n.plan.isSome = true ∨ source.plan.isSome = true) ∧
            ∃ s, selector = some s ∧ Elected s c'.program left plan) →
      c'.preferences = c.preferences ∧ Merged c.program c'.program false id ∧
        (selector = none ∨ c.program.Coherent → Rebound selector c.program c'.program id) :=
    fun c' hp hpref hplans => ⟨hpref, hmerged false c' hp (fun hb => by cases hb), fun hc =>
      ⟨hmerged _ c' hp (hplans hc).1, input, hdeps, by
        rw [survivor, hleft, hplan, hplan']
        exact (hplans hc).2⟩⟩
  have hsame : Planned (r₂.invalidate left) (r₂.invalidate left) left :=
    (Touched.refl hkept.linked).planned left
  -- the survivor lost its plan before it got other padding
  have hnone : (r₂.invalidate left).planOf left = none := by
    rw [planOf_eq_coreOf, coreOf_invalidate, ← planOf_eq_coreOf, h₂.2.2]
    exact hunplanned
  split
  case isTrue hbound =>
    cases selector with
    | none =>
      exact hdone _ hsame rfl fun _ => ⟨(fun hb => by cases hb), fun plan hp => by
        cases hnone.symm.trans hp⟩
    | some s =>
      dsimp only
      rw [ends_bind]
      refine ((bindNode_planned s hwork.linked).and (.of_imp fun hc => bindNode_effect s hwork.linked
        (hkept.coherent (hex.kept.coherent hc)))).imp (fun _ c' hc' => ?_)
        fun _ _ hb => ⟨hb.1, fun _ => ⟨Option.some_ne_none s, input, hmerge⟩⟩
      obtain ⟨⟨hp, hpref⟩, hc'⟩ := hc'
      refine hdone c' hp hpref fun hc => ?_
      obtain ⟨-, -, hruns, helected⟩ := hc' (hc.resolve_left fun he => Option.some_ne_none s he)
      refine ⟨fun _ _ hkernel => hruns ?_, fun plan hplan =>
        ⟨Bool.or_eq_true_iff.mp hbound, s, rfl, helected plan hplan⟩⟩
      obtain ⟨op, hop, hk⟩ := hkernel
      refine ⟨retargeted op r.format r.element, ?_, by rw [kind_retargeted, hk]⟩
      rw [hwork.shapes (k := (retargeted · r.format r.element)) fun _ => rfl, if_pos rfl, hop,
        Option.map_some]
  case isFalse hunbound =>
    refine hdone _ hsame rfl fun _ => ⟨fun _ hb _ => ?_, fun plan hp => by
      cases hnone.symm.trans hp⟩
    rw [hb, Bool.true_or] at hunbound
    exact absurd rfl hunbound

/-- `q` is `p` without a reorder. -/
structure Elided (p q : Program) (id input : String) : Prop where
  extracted : Extracted p q id input
  copy : p.isCopy id

/-- The reorder has the layout of its input. -/
structure Dropped (p q : Program) (id input : String) : Prop extends Elided p q id input where
  layout : ∃ l, p.freshLayout id = .ok l ∧ p.freshLayout input = .ok l

/-- So it seems from the caches.  Those of what is upstream of the reorder are left. -/
structure Skipped (p q : Program) (id input : String) : Prop extends Elided p q id input where
  unbound : p.isMarked id = true → p.kindOf input ≠ some .inputLayout
  cached : ∃ l, p.layoutOf id = some l ∧ p.layoutOf input = some l
  caches : ∀ s : String → Prop, Upstream s p → ¬ s id → s input →
    ∀ j, s j → q.layoutOf (onto p id input j) = p.layoutOf j

theorem Skipped.dropped (h : Skipped p q id input) (hc : p.Coherent) : Dropped p q id input where
  toElided := h.toElided
  layout := by
    obtain ⟨l, hid, hinput⟩ := h.cached
    exact ⟨l, hc id l hid, hc input l hinput⟩

theorem Dropped.not_fixed (h : Dropped p q id input) (hl : p.Linked)
    (hinput : p.isMarked id = true → p.kindOf input ≠ some .inputLayout) : ¬ p.Fixed id := by
  intro hfix
  have hcon := h.extracted.contracted hl
  obtain ⟨l, hid, hin⟩ := h.layout
  rcases hfix h.copy input hcon.only with ⟨hm, hk⟩ | ⟨l₁, l₂, h₁, h₂, hboth⟩
  · exact hinput hm hk
  · obtain ⟨hm, hm'⟩ := hboth (Except.ok.inj (h₁.symm.trans (hid.trans (hin.symm.trans h₂))))
    rw [hcon.silent hm] at hm'
    cases hm'

theorem Skipped.not_lasting (h : Skipped p q id input) (hl : p.Linked) : ¬ p.Lasting id := by
  intro hlasting
  have hcon := h.extracted.contracted hl
  obtain ⟨l, hid, hin⟩ := h.cached
  rcases hlasting h.copy input hcon.only with ⟨hm, hk⟩ | ⟨l₁, l₂, h₁, h₂, hboth⟩
  · exact h.unbound hm hk
  · obtain ⟨hm, hm'⟩ := hboth (Option.some.inj (h₁.symm.trans (hid.trans (hin.symm.trans h₂))))
    rw [hcon.silent hm] at hm'
    cases hm'

/-- **Removing a reorder without effect**, unless it has to stay.  Nothing may be taken out of a circle
of two; where caches are right, no layout is found in one. -/
theorem removeIdentity_effect (hl : p.Linked) (hfit : p.Coherent ∨ p.Extractable id) :
    Ends (removeIdentity id)
      (fun done q => ∃ p', Computed p p' ∧
        if done then ∃ input, Skipped p' q id input else q = p' ∧ p'.Lasting id)
      (fun e _ => e.closes = false ∧
        (p.contains id = true → ¬ p.Lasting id ∧ (p.Coherent → ¬ p.Fixed id))) p := by
  have hstay : p.Lasting id → ∃ p', Computed p p' ∧
      (if false = true then ∃ input, Skipped p' p id input else p = p' ∧ p'.Lasting id) := fun hlasting =>
    ⟨p, .refl p, rfl, hlasting⟩
  rw [removeIdentity, ends_bind, ends_node]
  refine ⟨fun n hn => ?_, fun hnone => ⟨rfl, fun hc => absurd hc (node?_eq_none.mp hnone)⟩⟩
  split
  case h_2 hno =>
    refine hstay fun hid => ?_
    obtain ⟨r, hr⟩ := (isReorder_iff_of_node? hn).mp hid.isReorder
    exact absurd hr (hno r)
  case h_1 r hop =>
  split
  case isTrue hsub =>
    refine hstay fun hid => ?_
    rw [subtract_of_isCopy hn hop hid] at hsub
    cases hsub
  case isFalse hsub =>
  have hid := isCopy_of_node? hn hop (by simpa using hsub)
  split
  case h_2 hnone =>
    refine hstay fun _ input honly => absurd ?_ (hnone input)
    rw [onlyDependency?_eq_some, ← depsOf_of_node? hn, honly]
  case h_1 input honly =>
  have hdeps : p.depsOf id = [input] := by
    rw [depsOf_of_node? hn]
    exact onlyDependency?_eq_some.mp honly
  have honly' : ∀ input', p.depsOf id = [input'] → input' = input := fun input' h =>
    (List.cons.inj (h.symm.trans hdeps)).1
  have htail : (p.isMarked id = true → p.kindOf input ≠ some .inputLayout) → Ends (do
      let output ← layout id
      let current ← layout input
      if output ≠ current then
        return false
      extract id)
      (fun done q => ∃ p', Computed p p' ∧
        if done then ∃ input, Skipped p' q id input else q = p' ∧ p'.Lasting id)
      (fun e _ => e.closes = false ∧
        (p.contains id = true → ¬ p.Lasting id ∧ (p.Coherent → ¬ p.Fixed id))) p := by
    intro hinput
    -- a reorder that has to stay has a layout, and so has its input
    have hfails : ∀ {e : CompileError} {j : String}, j = id ∨ j = input → p.layoutOf j = none →
        (p.Coherent → p.freshLayout j = .error e) →
        p.contains id = true → ¬ p.Lasting id ∧ (p.Coherent → ¬ p.Fixed id) := by
      intro e j hj hnone hfresh _
      refine ⟨fun hlasting => ?_, fun hc hfix => ?_⟩
      · rcases hlasting hid input hdeps with ⟨hm, hk⟩ | ⟨l, l', hl, hl', -⟩
        · exact hinput hm hk
        · rcases hj with rfl | rfl
          · cases hnone.symm.trans hl
          · cases hnone.symm.trans hl'
      · rcases hfix hid input hdeps with ⟨hm, hk⟩ | ⟨l, l', hl, hl', -⟩
        · exact hinput hm hk
        · rcases hj with rfl | rfl
          · cases (hfresh hc).symm.trans hl
          · cases (hfresh hc).symm.trans hl'
    rw [ends_bind]
    refine ((layout_computed id).and (.of_imp fun hc => layout_ends id hc)).imp
      (fun output q hq => ?_) fun _ _ hb => ⟨hb.1.1, hfails (Or.inl rfl) hb.1.2.1 hb.1.2.2⟩
    obtain ⟨⟨hcomp, hself⟩, hfresh⟩ := hq
    rw [ends_bind]
    refine (layout_computed input).imp (fun current q' hq' => ?_) fun e _ hb =>
      ⟨hb.1, hfails (e := e) (Or.inr rfl) ?_ fun hc => ?_⟩
    case refine_2 =>
      cases hcache : p.layoutOf input with
      | none => rfl
      | some l => cases hb.2.1.symm.trans (hcomp.caches input l hcache)
    case refine_3 => rw [← freshLayout_of_uncached hcomp.same, hb.2.2 (hcomp.coherent hc)]
    obtain ⟨hcomp', hcurrent⟩ := hq'
    have hself' := hcomp'.caches id output hself
    have hall := hcomp.trans hcomp'
    have htouch := hall.touched hl
    have hmarks : ∀ input', q'.depsOf id = [input'] → input' = input := fun input' h =>
      honly' input' (htouch.deps ▸ h)
    split
    case isTrue hne =>
      refine ⟨q', hall, rfl, fun _ input' h => Or.inr ?_⟩
      obtain rfl := hmarks input' h
      exact ⟨output, current, hself', hcurrent, fun he => absurd he hne⟩
    case isFalse heq =>
      have hmem : input ∈ p.depsOf id := hdeps ▸ List.mem_singleton_self input
      have hfit' : q'.Extractable id := by
        refine htouch.extractable (hfit.elim (fun hc input' _ hi => Or.inr ?_) fun hfit => hfit)
        obtain ⟨depth, hdepth⟩ := freshLayout_eq_ok_iff.mp (hfresh hc).2
        rw [honly' input' hi]
        exact not_mem_of_freshWithin hdepth hmem
      have hspared := ends_forall fun s : String → Prop => Ends.of_imp fun hs : Upstream s q' ∧
        ¬ s id ∧ s input => extract_spared hs.1 hs.2.1 fun input' h => hmarks input' h ▸ hs.2.2
      refine ((extract_effect htouch.kept.linked hfit').and hspared).imp
        (fun done r hr => ⟨q', hall, ?_⟩)
        fun _ _ hb => ⟨hb.1.1, fun hc => absurd (htouch.contains ▸ hc) hb.1.2.2⟩
      obtain ⟨hr, hcaches⟩ := hr
      cases done with
      | false =>
        obtain ⟨rfl, hboth⟩ := hr
        refine ⟨rfl, fun _ input' h => Or.inr ⟨output, current, hself', ?_, fun _ => hboth input' h⟩⟩
        rw [hmarks input' h, hcurrent]
      | true =>
        obtain ⟨input', hr⟩ := hr
        have hreads := (hr.contracted htouch.kept.linked).only
        obtain rfl : input' = input := hmarks input' hreads
        obtain ⟨op, hop, hsub⟩ := hid
        obtain rfl : output = current := not_not.mp heq
        refine ⟨input', ⟨hr, op, htouch.shapes ▸ hop, hsub⟩, ?_, ⟨output, hself', hcurrent⟩,
          fun s hs hsid hsin => hcaches s ⟨hs, hsid, hsin⟩ rfl input' hreads⟩
        rw [htouch.marks, kindOf_congr (congrFun htouch.shapes input')]
        exact hinput
  dsimp only
  split
  case isTrue hout =>
    rw [ends_bind, ends_node]
    refine ⟨fun source hsource => ?_, fun hnone => absurd ?_ (node?_eq_none.mp hnone)⟩
    · split
      case isTrue hk =>
        refine hstay fun _ input' h => Or.inl ⟨(isMarked_of_node? hn).trans hout, ?_⟩
        rw [honly' input' h, kindOf_of_node? hsource, hk]
      case isFalse hk =>
        refine htail fun _ hk' => hk ?_
        rw [kindOf_of_node? hsource, Option.some.injEq] at hk'
        exact hk'
    · exact hl.contains_dep (hdeps ▸ List.mem_singleton_self input)
  case isFalse hout =>
    refine htail fun hm => absurd ?_ hout
    rw [← isMarked_of_node? hn, hm]

/-- A visit of a node. -/
def visit (s : Selector) (id : String) : Transform Bool := do
  if !(← Transform.program).contains id then
    return false
  if ← mergeReorders (some s) id then
    return true
  removeIdentity id

/-- Whether a visit merges the node with its input. -/
def merges (s : Selector) (id : String) (c : Compilation) : Bool :=
  ((mergeReorders (some s) id).run.run c).1 matches .ok true

/-- **One visit** leaves the node, merges it with its input, or removes it, and fails only where it does
one of the two. -/
theorem visit_effect (s : Selector) (hl : c.program.Linked) (hr : c.program.Ranked)
    (hfit : c.program.Coherent ∨ c.program.Extractable id) :
    Ends (visit s id)
      (fun done c' => c'.preferences = c.preferences ∧
        match done with
        | false => Computed c.program c'.program ∧ (c.program.contains id = true →
            (∀ input, ¬ c.program.Mergeable id input) ∧ c'.program.Lasting id)
        | true => merges s id c = true ∧ Merged c.program c'.program false id ∧
              (c.program.Coherent → Rebound (some s) c.program c'.program id) ∨
            merges s id c = false ∧ (∀ input, ¬ c.program.Mergeable id input) ∧
              ∃ p input, Computed c.program p ∧ Skipped p c'.program id input)
      (fun e _ => e.closes = false ∧
        ¬ ((∀ input, ¬ c.program.Mergeable id input) ∧ c.program.Lasting id) ∧
        (c.program.Coherent →
          ¬ ((∀ input, ¬ c.program.Mergeable id input) ∧ c.program.Fixed id))) c := by
  rw [visit, ends_bind, Transform.ends_program]
  split
  case isTrue hgone =>
    rw [Bool.not_eq_true', ← Bool.not_eq_true] at hgone
    exact ⟨rfl, .refl _, fun hthere => absurd hthere hgone⟩
  case isFalse hthere =>
  replace hthere : c.program.contains id = true := by simpa using hthere
  rw [ends_bind]
  refine ((mergeReorders_effect (some s) hl hr).and (ends_run _ c)).imp
    (fun done d hd => ?_) fun _ _ hb => ?_
  case refine_2 =>
    obtain ⟨-, input, hm⟩ := hb.1.2 hthere
    exact ⟨hb.1.1, fun hno => hno.1 input hm, fun _ hno => hno.1 input hm⟩
  obtain ⟨⟨hpref, hdone⟩, hrun⟩ := hd
  have hmerges : merges s id c = done := by
    rw [merges, hrun]
    cases done <;> rfl
  cases done with
  | true => exact ⟨hpref, Or.inl ⟨hmerges, hdone.1, fun hc => hdone.2 (Or.inr hc)⟩⟩
  | false =>
    obtain ⟨hsame, hnot⟩ := hdone
    rw [if_neg (by simp), Transform.ends_liftM, hsame]
    refine (removeIdentity_effect hl hfit).imp (fun done q hq => ⟨hpref, ?_⟩) fun _ _ hb =>
      ⟨hb.1, fun hno => (hb.2 hthere).1 hno.2, fun hc hno => (hb.2 hthere).2 hc hno.2⟩
    obtain ⟨p, hcomp, hq⟩ := hq
    cases done with
    | false =>
      obtain ⟨rfl, hlasting⟩ := hq
      exact ⟨hcomp, fun _ => ⟨hnot, hlasting⟩⟩
    | true =>
      obtain ⟨input, hskip⟩ := hq
      exact Or.inr ⟨hmerges, hnot, p, input, hcomp, hskip⟩

/-- The pass visits each node once, and compares the sizes. -/
theorem ends_removeRedundantReorders {env : Environment} {good : PassStats → Compilation → Prop}
    {bad : CompileError → Compilation → Prop} :
    Ends (removeRedundantReorders env) good bad c ↔
      Ends (Transform.countM (visit env.selector) c.program.order.ids)
        (fun applied d => good (.ofCounts applied (c.program.size - d.program.size)) d) bad c := by
  rw [removeRedundantReorders, ends_bind, Transform.ends_program, ends_bind, Transform.countNodes,
    ends_bind, Transform.ends_program]
  rfl

/-- **Visiting each node once.**  What is said of the program, of the nodes still to visit and of
whether a reorder went by now, is kept by a visit that leaves the node, and by one that merges it with
its input or removes it.  A visit fails only where it does one of the two. -/
theorem removeRedundantReorders_steps (env : Environment) (inv : Bool → List String → Program → Prop)
    (base : ∀ {b id ids p}, inv b (id :: ids) p →
      p.Linked ∧ p.Ranked ∧ (p.Coherent ∨ p.Extractable id))
    (left : ∀ {b id ids p q}, inv b (id :: ids) p → Computed p q →
      (p.contains id = true → (∀ input, ¬ p.Mergeable id input) ∧ q.Lasting id) → inv b ids q)
    (merged : ∀ {b id ids p q}, inv b (id :: ids) p → Merged p q false id →
      (p.Coherent → Rebound (some env.selector) p q id) → inv true ids q)
    (skipped : ∀ {b id ids p p' q input}, inv b (id :: ids) p → Computed p p' →
      (∀ input, ¬ p.Mergeable id input) → Skipped p' q id input → inv true ids q)
    (h : inv false c.program.order.ids c.program) :
    Ends (removeRedundantReorders env)
      (fun stats c' => c'.preferences = c.preferences ∧
        ∃ b, inv b [] c'.program ∧
          (stats.changed = false ↔ b = false ∧ c.program.size ≤ c'.program.size))
      (fun e _ => e.closes = false ∧ ∃ b id ids p, inv b (id :: ids) p ∧
        ¬ ((∀ input, ¬ p.Mergeable id input) ∧ p.Lasting id) ∧
        (p.Coherent → ¬ ((∀ input, ¬ p.Mergeable id input) ∧ p.Fixed id))) c := by
  rw [ends_removeRedundantReorders]
  refine (Transform.ends_countM_any
    (fun b ids c' => inv b ids c'.program ∧ c'.preferences = c.preferences)
    (fun b id rest d hd => ?_) _ false c ⟨h, rfl⟩).imp_good fun applied d hd => ?_
  · obtain ⟨hinv, hpref⟩ := hd
    obtain ⟨hl, hr, hfit⟩ := base hinv
    refine (visit_effect env.selector hl hr hfit).imp (fun done e he => ⟨?_, he.1.trans hpref⟩)
      fun _ _ hb => ⟨hb.1, b, id, rest, d.program, hinv, hb.2⟩
    cases done with
    | false =>
      obtain ⟨-, hcomp, hstay⟩ := he
      rw [Bool.or_false]
      exact left hinv hcomp hstay
    | true =>
      rw [Bool.or_true]
      obtain ⟨-, ⟨-, hmerged, hrebound⟩ | ⟨-, hnot, p, input, hcomp, hskip⟩⟩ := he
      · exact merged hinv hmerged hrebound
      · exact skipped hinv hcomp hnot hskip
  · obtain ⟨b, ⟨hinv, hpref⟩, hb⟩ := hd
    refine ⟨hpref, b, hinv, ?_⟩
    rw [hb, and_iff_right rfl, PassStats.ofCounts, Bool.or_eq_false_iff, decide_eq_false_iff_not,
      decide_eq_false_iff_not]
    omega

/-- So it is where the caches are right: what is left has to stay, and what goes has the layout of its
input. -/
theorem removeRedundantReorders_visits (env : Environment) (inv : Bool → List String → Program → Prop)
    (base : ∀ {b ids p}, inv b ids p → p.Linked ∧ p.Coherent ∧ p.Ranked)
    (left : ∀ {b id ids p q}, inv b (id :: ids) p → Touched p q →
      (p.contains id = true → (∀ input, ¬ p.Mergeable id input) ∧ p.Fixed id) → inv b ids q)
    (merged : ∀ {b id ids p q}, inv b (id :: ids) p → Rebound (some env.selector) p q id →
      inv true ids q)
    (dropped : ∀ {b id ids p p' q input}, inv b (id :: ids) p → Touched p p' →
      (∀ input, ¬ p.Mergeable id input) → Dropped p' q id input →
      (p'.isMarked id = true → p'.kindOf input ≠ some .inputLayout) → inv true ids q)
    (h : inv false c.program.order.ids c.program) :
    Ends (removeRedundantReorders env)
      (fun stats c' => c'.preferences = c.preferences ∧
        ∃ b, inv b [] c'.program ∧
          (stats.changed = false ↔ b = false ∧ c.program.size ≤ c'.program.size))
      (fun e _ => e.closes = false ∧ ∃ b id ids p, inv b (id :: ids) p ∧
        ¬ ((∀ input, ¬ p.Mergeable id input) ∧ p.Fixed id)) c := by
  refine (removeRedundantReorders_steps env inv (fun hp => ?_) (fun hp hq hid => ?_)
    (fun hp _ hq => merged hp (hq (base hp).2.1)) (fun hp hq hnot hskip => ?_) h).imp
    (fun _ _ hd => hd) fun _ _ hb => ?_
  · exact ⟨(base hp).1, (base hp).2.2, Or.inl (base hp).2.1⟩
  · have hl := (base hp).1
    exact left hp (hq.touched hl) fun hthere =>
      ⟨(hid hthere).1, (hid hthere).2.fixed hq hl (base hp).2.1⟩
  · exact dropped hp (hq.touched (base hp).1) hnot (hskip.dropped (hq.coherent (base hp).2.1))
      hskip.unbound
  · obtain ⟨hcloses, b, id, ids, p, hinv, -, hno⟩ := hb
    exact ⟨hcloses, b, id, ids, p, hinv, hno (base hinv).2.1⟩

/-- **What merging and removing reorders keeps, the pass keeps.** -/
theorem removeRedundantReorders_ends (env : Environment) (inv : Program → Prop)
    (base : ∀ {p}, inv p → p.Linked ∧ p.Coherent ∧ p.Ranked)
    (touched : ∀ {p q}, inv p → Touched p q → inv q)
    (merged : ∀ {p q id}, inv p → Rebound (some env.selector) p q id → inv q)
    (dropped : ∀ {p q id input}, inv p → Dropped p q id input → inv q)
    (h : inv c.program) :
    Ends (removeRedundantReorders env)
      (fun _ c' => inv c'.program ∧ c'.preferences = c.preferences)
      (fun e _ => e.closes = false) c :=
  (removeRedundantReorders_visits env (fun _ _ => inv) base (fun hp hq _ => touched hp hq)
    (fun hp hq => merged hp hq) (fun hp hq _ hd _ => dropped (touched hp hq) hd) h).imp
    (fun _ _ hd => ⟨hd.2.elim fun _ hinv => hinv.1, hd.1⟩) fun _ _ hb => hb.1

end Pass

end NetPlan

import NetPlan.Proofs.Pass.Intact
import NetPlan.Proofs.Pass.Pipeline

/-!
# Proofs/Pass/Sequence — orders and plans through the passes

Rewrites take nodes out of the order, put new ones right behind what they read, or leave it alone; so
a topological order stays one (`Sequenced`).  Two of them need more than that:

* a fusion takes over argument slots, so the slots of the nodes that it fuses have to be right
  (`AlignedButFused`);
* a node that is pointed at a reorder made before has to stand behind it, which is the matter of
  `Proofs.Pass.Records`.

Once all nodes have plans, every rewrite leaves them so (`AllBound`).
-/

namespace NetPlan

open Program Edit

namespace Program

variable {p q : Program} {id norm scale input : String} {prim : Primitive}

/-- An order by which every node stands behind what it reads is topological, if it lists as many
nodes as one that is. -/
theorem Reordered.ordered_of_before (h : Reordered p q) (ho : p.Ordered)
    (before : ∀ u ∈ q.order.ids, ∀ d ∈ q.depsOf u, Before q.order.ids d u) : q.Ordered := by
  have hl := h.kept.linked
  have hmem : ∀ x, q.contains x = true → x ∈ q.order.ids := fun x hx =>
    h.order x ((ho.mem x).mpr (h.contains ▸ hx))
  exact ⟨hl.order_nodup, fun x => ⟨hl.order_contains x, hmem x⟩, fun u d hd =>
    before u (hmem u (contains_of_mem_depsOf hd)) d hd⟩

/-! ## Slots -/

/-- Every node reads what its argument slots name, fused ones apart. -/
def AlignedButFused (p : Program) : Prop :=
  ∀ id, (∀ f, p.shapeOf id ≠ some (.fusedConvBnScale f)) → p.argsOf id = p.depsOf id

theorem AlignedButFused.touched (h : p.AlignedButFused) (hq : Touched p q) :
    q.AlignedButFused := fun j hj => by
  rw [hq.args, hq.deps]
  exact h j (hq.shapes ▸ hj)

/-- The three nodes that are fused read what their slots name. -/
theorem AlignedButFused.slots (ha : p.AlignedButFused) (h : Pass.Fused p q id norm scale prim) :
    p.argsOf id = p.depsOf id ∧ p.argsOf norm = p.depsOf norm ∧ p.argsOf scale = p.depsOf scale := by
  have halign : ∀ {j : String}, (∃ op, p.shapeOf j = some op ∧ ∀ f, op ≠ .fusedConvBnScale f) →
      p.argsOf j = p.depsOf j := by
    rintro j ⟨op, hop, hne⟩
    refine ha j fun f hf => hne f ?_
    rw [hop] at hf
    exact Option.some.inj hf
  obtain ⟨c, hc⟩ := h.convolution
  obtain ⟨b, hb⟩ := h.batchNorm
  obtain ⟨s, hs⟩ := h.scaling
  exact ⟨halign ⟨_, hc, fun _ => by simp⟩, halign ⟨_, hb, fun _ => by simp⟩,
    halign ⟨_, hs, fun _ => by simp⟩⟩

/-- **A fusion leaves the slots of the others right**: nothing else read what is gone. -/
theorem AlignedButFused.fused (ha : p.AlignedButFused) (hl : p.Linked)
    (h : Pass.Fused p q id norm scale prim) : q.AlignedButFused := fun j hj => by
  obtain ⟨q₁, q₂, q₃, h₁, h₂, h₃, h₄⟩ := h.steps
  rw [h₄.1.args, h₄.1.deps, h₃.args, h₃.deps, h₂.args, h₂.deps]
  by_cases hjid : j = id
  · rw [if_pos hjid, if_pos hjid]
  by_cases hjnorm : j = norm
  · rw [if_neg hjid, if_neg hjid, if_pos hjnorm, if_pos hjnorm, List.filter_nil]
  have hshape : q.shapeOf j = q₁.shapeOf j := by
    rw [h₄.1.shapes, h₃.shapes, if_neg hjid, h₂.shapes, if_neg hjnorm]
  have hjscale : j ≠ scale := fun he => by
    obtain ⟨f, hf⟩ := h.fused
    rw [hshape, h₁.shapes, if_pos he, hf] at hj
    exact hj _ rfl
  rw [h₁.shapes, if_neg hjscale] at hshape
  have hsame := ha j (hshape ▸ hj)
  have hreads : ∀ {d u : String}, p.usersOf d = [u] → j ≠ u → d ∉ p.depsOf j :=
    fun hu hne hd => hne (List.mem_singleton.mp (hu ▸ (hl.edges _ j).mp hd))
  have hargs : q₁.argsOf j = q₁.depsOf j := h₁.args j (by rwa [if_neg hjscale])
  rw [if_neg hjid, if_neg hjid, if_neg hjnorm, if_neg hjnorm, hargs, h₁.deps, if_neg hjscale,
    Order.filter_ne_of_not_mem (hreads h.norm_users hjscale),
    Order.filter_ne_of_not_mem (hreads h.users hjnorm)]

/-! ## Outputs that are no reorders -/

/-- No output is a reorder. -/
def OutputsWork (p : Program) : Prop := ∀ j, p.isMarked j = true → ¬ p.isReorder j

theorem OutputsWork.of_views (h : p.OutputsWork)
    (marks : ∀ j, q.isMarked j = true → p.isMarked j = true)
    (reorders : ∀ j, q.isReorder j → p.isReorder j) : q.OutputsWork := fun j hm hr =>
  h j (marks j hm) (reorders j hr)

/-- Outputs go by the marks and the tasks. -/
theorem OutputsWork.sameGraph (h : p.OutputsWork) (hq : SameGraph p q)
    (marks : q.isMarked = p.isMarked) : q.OutputsWork :=
  h.of_views (fun j hm => marks ▸ hm) fun j hr => by
    rw [isReorder, hq.shapes] at hr
    exact hr

/-- A reorder that goes was no output, so nothing gets another id. -/
theorem OutputsWork.extracted (h : p.OutputsWork) (hid : p.isReorder id)
    (hq : Extracted p q id input) : ∃ r, Bypassed p r id input ∧ Touched r q := by
  obtain ⟨r, hby, hr⟩ := hq
  rw [if_neg fun hm => h id hm hid] at hr
  exact ⟨r, hby, hr⟩

/-- What is handed on is an output that works. -/
theorem OutputsWork.bypassed (h : p.OutputsWork) (hq : Bypassed p q id input) : q.OutputsWork := by
  refine h.of_views (fun j hm => ?_) fun j hr => (hq.isReorder_of hr).2
  rw [hq.marks] at hm
  split at hm
  · cases hm
  · exact hm

/-- A node that is reworked stays what it is. -/
theorem OutputsWork.reworked {g : Task → Task} (h : p.OutputsWork)
    (hq : Reworked p q id g) (hg : ∀ t, (g t).operation.kind = t.operation.kind) : q.OutputsWork :=
  h.of_views (fun _ hm => hq.marks ▸ hm) fun _ hr => hq.isReorder_of hg hr

/-- Merges give no output a reorder. -/
theorem OutputsWork.merged {bound : Bool} (h : p.OutputsWork) (hq : Pass.Merged p q bound id) :
    q.OutputsWork := by
  obtain ⟨input, survivor, format, element, padding, r, s, hex, hid, -, hwork, -, hplanned, -⟩ :=
    hq.steps
  obtain ⟨r', hby, htouch⟩ := h.extracted hid.isReorder hex
  have hr := (h.bypassed hby).sameGraph htouch.toSameGraph htouch.marks
  exact (hr.reworked hwork fun t => Pass.kind_retargeted t.operation format element).sameGraph
    hplanned.toSameGraph hplanned.marks

/-- Nor does absorbing an activation. -/
theorem OutputsWork.absorbed (h : p.OutputsWork) (hq : Pass.Absorbed p q id input) :
    q.OutputsWork := by
  obtain ⟨q₁, q₂, a, padding, -, hby, hwork, -, hmoved⟩ := hq.steps
  exact ((h.bypassed hby).reworked hwork fun _ => rfl).sameGraph hmoved.1.toSameGraph hmoved.1.marks

/-- Nor does removing a node. -/
theorem OutputsWork.removed (h : p.OutputsWork) (hq : Removed p q id) : q.OutputsWork := by
  refine h.of_views (fun j hm => ?_) fun j hr => (hq.isReorder_of hr).2
  rw [isMarked_eq_coreOf, hq.core] at hm
  split at hm
  · cases hm
  · rwa [← isMarked_eq_coreOf] at hm

/-- Nor does fusing a convolution. -/
theorem OutputsWork.fused (h : p.OutputsWork) (hq : Pass.Fused p q id norm scale prim) :
    q.OutputsWork := by
  obtain ⟨q₁, q₂, q₃, h₁, h₂, h₃, h₄⟩ := hq.steps
  have hreplaced : q₁.OutputsWork := h.of_views (fun _ hm => h₁.marks ▸ hm) fun _ hr =>
    (h₁.isReorder_of hq.kind_ne hr).2
  exact ((hreplaced.removed h₂).removed h₃).sameGraph h₄.1.toSameGraph h₄.1.marks

/-- A reorder that is made is no output. -/
theorem OutputsWork.served {m m' : List Preferences.Entry} {next : String} {index : Nat}
    {made : Option String} (h : p.OutputsWork) (hq : Pass.Served p q m m' next index made) :
    q.OutputsWork := by
  have hinserted : ∀ {r : Primitive} {source : String}, Inserted p q r next index source →
      q.OutputsWork := by
    intro r source hi j hm hr
    rw [hi.marks] at hm
    by_cases hj : j = r.id
    · rw [isMarked_of_not_contains fun hc => hi.free (hj ▸ hc)] at hm
      cases hm
    · rw [isReorder, hi.shapes, if_neg hj] at hr
      exact h j hm hr
  cases hq with
  | notNeeded same => exact same ▸ h
  | cached _ _ _ placed =>
    refine placed.elim hinserted fun hs => h.of_views (fun j hm => hs.marks ▸ hm) fun j hr => ?_
    rw [isReorder, hs.shapes] at hr
    exact hr
  | new _ inserted => exact hinserted inserted

/-! ## Plans -/

/-- Every node that runs a kernel has a plan. -/
def AllBound (p : Program) : Prop := ∀ u, p.runsKernelAt u → (p.planOf u).isSome = true

/-- Whether all are bound goes by the tasks and the plans. -/
theorem AllBound.of_views (h : p.AllBound) (shapes : q.shapeOf = p.shapeOf)
    (plans : q.planOf = p.planOf) : q.AllBound := fun u hu => by
  rw [runsKernelAt, shapes] at hu
  rw [plans]
  exact h u hu

theorem AllBound.remarked (h : p.AllBound) (hq : Remarked p q) : q.AllBound :=
  h.of_views hq.shapes hq.plans

/-- What is there was there before, with the same work and the same plan. -/
theorem AllBound.of_nodes (h : p.AllBound)
    (hq : ∀ u op, q.shapeOf u = some op → op.kind.runsKernel = true →
      ∃ v, q.shapeOf u = p.shapeOf v ∧ q.planOf u = p.planOf v) : q.AllBound := fun u hu => by
  obtain ⟨op, hop, hk⟩ := hu
  obtain ⟨v, hshape, hplan⟩ := hq u op hop hk
  rw [hplan]
  exact h v ⟨op, hshape ▸ hop, hk⟩

/-- Who makes way leaves the others bound. -/
theorem AllBound.bypassed (h : p.AllBound) (hq : Bypassed p q id input) : q.AllBound := by
  refine h.of_nodes fun u op hop _ => ⟨u, ?_⟩
  have hne : u ≠ id := fun he => by
    rw [hq.shapes, if_pos he] at hop
    cases hop
  exact ⟨by rw [hq.shapes, if_neg hne], by rw [hq.plans, if_neg hne]⟩

/-- A node keeps its plan under another id. -/
theorem AllBound.renamed {old new : String} (h : p.AllBound) (hl : p.Linked)
    (hq : Renamed p q old new) : q.AllBound := by
  refine h.of_nodes fun u op hop _ => ?_
  have hc : q.contains u = true := by rw [contains_eq_isSome_shapeOf, hop, Option.isSome_some]
  obtain ⟨v, -, -, -, -, hshape, hplan⟩ := hq.exists_node hl hc
  exact ⟨v, hshape, hplan⟩

/-- Who is extracted leaves the others bound. -/
theorem AllBound.extracted (h : p.AllBound) (hq : Extracted p q id input) : q.AllBound := by
  obtain ⟨r, hby, hr⟩ := hq
  split at hr
  · obtain ⟨-, s, hs, -, hq⟩ := hr
    exact ((h.bypassed hby).remarked hs.toRemarked).renamed hs.kept.linked hq
  · exact (h.bypassed hby).remarked hr.toRemarked

/-- Who is removed leaves the others bound. -/
theorem AllBound.removed (h : p.AllBound) (hq : Removed p q id) : q.AllBound := by
  refine h.of_nodes fun u op hop _ => ⟨u, ?_⟩
  have hne : u ≠ id := fun he => by
    rw [hq.shapes, if_pos he] at hop
    cases hop
  exact ⟨by rw [hq.shapes, if_neg hne],
    by rw [planOf_eq_coreOf, hq.core, if_neg hne, ← planOf_eq_coreOf]⟩

/-- A literal needs no plan. -/
theorem AllBound.folded (h : p.AllBound) (hq : Pass.Folded p q id) : q.AllBound := by
  obtain ⟨prim, ⟨l, v, hprim⟩, hreplaced⟩ := hq.steps
  refine h.of_nodes fun u op hop hk => ⟨u, ?_⟩
  have hne : u ≠ id := fun he => by
    rw [hreplaced.shapes, if_pos he, hprim] at hop
    rw [← Option.some.inj hop] at hk
    cases hk
  exact ⟨by rw [hreplaced.shapes, if_neg hne], by rw [hreplaced.plans, if_neg hne]⟩

/-- Who is bound anew has a plan. -/
theorem AllBound.planned (h : p.AllBound) (hq : Planned p q id)
    (bound : p.runsKernelAt id → (q.planOf id).isSome = true) : q.AllBound := fun u hu => by
  rw [runsKernelAt, hq.shapes] at hu
  by_cases he : u = id
  · subst he
    exact bound hu
  · rw [hq.plans u he]
    exact h u hu

/-- **A merged reorder is bound anew**, for the one that is gone was bound. -/
theorem AllBound.merged (h : p.AllBound) (hq : Pass.Merged p q true id) : q.AllBound := by
  obtain ⟨input, survivor, format, element, padding, r, s, hex, hid, -, hwork, -, hplanned, hbound,
    -⟩ := hq.steps
  have hshapes := hwork.shapes (k := (Pass.retargeted · format element)) fun _ => rfl
  have hplan : (p.planOf id).isSome = true := by
    obtain ⟨op, hop⟩ := hid.isReorder
    exact h id ⟨_, hop, rfl⟩
  intro u hu
  rw [runsKernelAt, hplanned.shapes, hshapes] at hu
  by_cases he : u = survivor
  · subst he
    refine hbound rfl hplan ?_
    obtain ⟨op, hop, hk⟩ := hu
    rw [if_pos rfl] at hop
    obtain ⟨op', hop', rfl⟩ := Option.map_eq_some_iff.mp hop
    exact ⟨op', hop', by rwa [Pass.kind_retargeted] at hk⟩
  · rw [if_neg he] at hu
    rw [hplanned.plans u he, hwork.plans u he]
    exact h.extracted hex u hu

/-- **A reorder that weights are read from is bound.** -/
theorem AllBound.weighed {m m' : List Preferences.Entry} {next : String} {index : Nat}
    (h : p.AllBound) (hq : Pass.Weighed p q m m' next index) : q.AllBound := by
  cases hq with
  | unchanged served =>
    cases served with
    | notNeeded same => exact same ▸ h
  | reordered p' r served planned bound =>
    intro u hu
    rw [runsKernelAt, planned.shapes] at hu
    by_cases he : u = r
    · subst he
      exact bound hu
    · obtain ⟨hshape, hplan⟩ := served.view_of_ne fun hr => he (Option.some.inj hr).symm
      rw [hshape] at hu
      rw [planned.plans u he, hplan]
      exact h u hu

end Program

/-! ## The order -/

namespace Pass

variable {p q : Program} {id norm scale input next source : String} {index : Nat}
  {prim : Primitive} {g : Operation → Operation}

/-- Caches that are right, in a graph whose order is topological. -/
structure Sequenced (p : Program) : Prop extends Sound p where
  ordered : p.Ordered

namespace Sequenced

variable (h : Sequenced p)
include h

/-- A topological order ranks the nodes. -/
theorem ranked : p.Ranked := h.ordered.acyclic.ranked h.linked

/-- A change that keeps the order topological. -/
theorem step (hk : Kept p q) (ho : q.Ordered) : Sequenced q := ⟨h.toSound.kept hk, ho⟩

theorem sameGraph (hq : SameGraph p q) (order : q.order = p.order) : Sequenced q :=
  h.step hq.kept (hq.ordered (congrArg Order.ids order) h.ordered)

theorem extracted (hq : Extracted p q id input) : Sequenced q :=
  h.step hq.kept (hq.ordered h.linked h.ordered)

theorem merged {bound : Bool} (hq : Merged p q bound id) : Sequenced q :=
  h.step hq.kept (hq.ordered h.linked h.ordered)

theorem absorbed (hq : Absorbed p q id input) : Sequenced q :=
  h.step hq.kept (hq.ordered h.linked h.ordered)

theorem fused (ha : p.AlignedButFused) (hq : Fused p q id norm scale prim) : Sequenced q := by
  obtain ⟨hid, hnorm, hscale⟩ := ha.slots hq
  exact h.step hq.kept (hq.ordered h.linked h.ordered hid hnorm hscale)

theorem inserted {layout : Layout} {padding : Padding} (hq : Inserted p q prim next index source)
    (hprim : prim = .reorder prim.id source layout padding) : Sequenced q := by
  have hargs : prim.arguments = [source] := by
    rw [hprim]
    rfl
  exact h.step hq.kept (hq.ordered hargs h.ordered)

theorem padded (hq : Padded p q id) : Sequenced q := by
  cases hq with
  | none same => exact same ▸ h
  | producer input padding work kept => exact h.step kept (work.ordered h.ordered)
  | reorder prim source layout padding reader shape named inserted => exact h.inserted inserted shape

theorem removed (hq : Removed p q id) : Sequenced q := h.step hq.kept (hq.ordered h.ordered)

theorem folded (hq : Folded p q id) : Sequenced q := by
  obtain ⟨prim, -, hreplaced⟩ := hq.steps
  refine h.step hq.kept (hreplaced.ordered (fun d hd => ?_) h.ordered)
  cases hd

end Sequenced

end Pass

end NetPlan

import NetPlan.Proofs.Pass.Faithful
import NetPlan.Proofs.Pass.Records

/-!
# Proofs/Pass/Closing — what a compilation is checked for at its end

At the end of a compilation every node that runs a kernel has a plan, and the order is topological;
so the checks that close it never fail.  In an optimized build that takes outputs that are no
reorders: one that is taken out hands its id on, and a reorder that is on record under this id may
be shared by a node in front of it.

* `compile_closed` — whatever the network, the options, the selector and the evaluator;
* `compile_disordered` — an output reorder of weights that two nodes read.
-/

namespace NetPlan

open Program Edit Preferences

namespace Pass

variable {p q : Program} {c : Compilation} {id input next : String} {index : Nat}
  {m m' : List Entry} {made : Option String} {env : Environment}

/-! ## Before reorders are taken out -/

/-- `p` is in sequence, all slots are right, and no output is a reorder if the build is optimized. -/
structure Arranged (optimize : Bool) (p : Program) : Prop extends Sequenced p where
  aligned : p.Aligned
  outputs : optimize = true → p.OutputsWork

theorem Arranged.sameGraph {optimize : Bool} (h : Arranged optimize p) (hq : SameGraph p q)
    (ordered : q.Ordered) (marks : q.isMarked = p.isMarked) : Arranged optimize q :=
  ⟨h.step hq.kept ordered, hq.aligned h.aligned, fun ho => (h.outputs ho).sameGraph hq marks⟩

theorem arranged_trimToOutputs {optimize : Bool} (hw : c.program.WellFormed)
    (h : Arranged optimize c.program) :
    Ends (trimToOutputs env)
      (fun _ c' => Arranged optimize c'.program ∧ c'.preferences = c.preferences)
      (fun e _ => e.closes = false) c := by
  rw [trimToOutputs]
  split
  · exact ⟨h, rfl⟩
  rw [ends_bind, Transform.ends_liftM]
  refine (trim_effect h.linked).imp_good fun _ q hq => ?_
  obtain ⟨doomed, hcleared, hdoomed⟩ := hq
  have htrim := hcleared.trimmed hdoomed hw h.ordered h.aligned
  refine ⟨⟨h.step htrim.kept htrim.ordered, htrim.aligned, fun ho => ?_⟩, rfl⟩
  refine (h.outputs ho).of_views (fun j hm => htrim.marks ▸ hm) fun j hr => ?_
  rw [isReorder, htrim.shapes j (contains_of_isReorder hr)] at hr
  exact hr

theorem arranged_calculateLayouts {optimize : Bool} (h : Arranged optimize c.program) :
    Ends calculateLayouts
      (fun _ c' => Arranged optimize c'.program ∧ c'.preferences = c.preferences)
      (fun e _ => e.closes = false) c := by
  refine (calculateLayouts_ends h.linked h.coherent).imp_good fun _ c' hc => ?_
  obtain ⟨hpref, p, hsorted, hbefore, hfill⟩ := hc
  have hp := h.sameGraph hsorted.toSameGraph (hsorted.ordered_of_before h.ordered hbefore)
    hsorted.marks
  have htouch := hfill.touched hp.linked
  exact ⟨hp.sameGraph htouch.toSameGraph
    (htouch.ordered (congrArg Order.ids htouch.order) hp.ordered) htouch.marks, hpref⟩

/-! ## Preferred layouts -/

/-- `p` is in sequence, no output is a reorder, and every reorder on record leads and reads its
source. -/
structure Filed (p : Program) (m : List Entry) : Prop extends Sequenced p where
  recorded : Recorded p m
  attached : Attached p m
  outputs : p.OutputsWork

theorem Filed.sameGraph (h : Filed p m) (hq : SameGraph p q) (order : q.order = p.order)
    (marks : q.isMarked = p.isMarked) : Filed q m :=
  ⟨h.toSequenced.sameGraph hq order, h.recorded.sameGraph h.toSequenced hq order,
    h.attached.sameGraph hq, h.outputs.sameGraph hq marks⟩

theorem Filed.served (h : Filed p m) (hnext : p.isWeighted next)
    (hq : Served p q m m' next index made) : Filed q m' := by
  obtain ⟨hs, hrecorded⟩ := h.toSequenced.served h.recorded hnext hq
  exact ⟨hs, hrecorded, h.attached.served h.recorded.numbered hnext.not_isReorder hq,
    h.outputs.served hq⟩

theorem filed_fuse (h : Arranged true c.program) (hm : c.preferences.made = []) :
    Ends (fuse env) (fun _ c' => Filed c'.program c'.preferences.made)
      (fun e _ => e.closes = false) c := by
  refine (fuse_ends env (fun p => (Sequenced p ∧ p.OutputsWork) ∧ p.AlignedButFused)
    (fun p => Sequenced p ∧ p.OutputsWork) (fun hp => hp.1.1.linked)
    (fun hp hq => ⟨⟨hp.1.1.sameGraph hq.toSameGraph hq.order,
      hp.1.2.sameGraph hq.toSameGraph hq.marks⟩, hp.2.touched hq⟩)
    (fun hp hq => ⟨⟨hp.1.1.fused hp.2 hq, hp.1.2.fused hq⟩, hp.2.fused hp.1.1.linked hq⟩)
    (fun hp => hp.1) (fun hp => ⟨hp.1.linked, Or.inl hp.1.coherent, hp.1.ranked⟩)
    (fun hp hq => ⟨hp.1.sameGraph hq.toSameGraph hq.order, hp.2.sameGraph hq.toSameGraph hq.marks⟩)
    (fun hp hq _ => ⟨hp.1.absorbed hq, hp.2.absorbed hq⟩)
    (fun hp hq => ⟨hp.1.merged hq.toMerged, hp.2.merged hq.toMerged⟩)
    ⟨⟨h.toSequenced, h.outputs rfl⟩, fun j _ => h.aligned j⟩).imp (fun _ c₁ h₁ => ?_)
    fun _ _ hb => hb.1
  obtain ⟨⟨hs, hout⟩, hpref⟩ := h₁
  rw [hpref, hm]
  exact ⟨hs, recorded_nil _, ⟨tied_nil _, fun _ he => absurd he List.not_mem_nil⟩, hout⟩

/-- **Fusion and preferred layouts.** -/
theorem filed_optimized (h : Arranged true c.program) (hm : c.preferences.made = []) :
    Ends (runSteps env [.pass .fusion, .pass .inputReorders, .pass .biasReorders])
      (fun _ c' => Filed c'.program c'.preferences.made) (fun e _ => e.closes = false) c := by
  have hbase : ∀ {p m}, Filed p m → p.Linked ∧ p.Coherent := fun hp => ⟨hp.linked, hp.coherent⟩
  have htouched : ∀ {p q m}, Filed p m → Touched p q → Filed q m := fun hp hq =>
    hp.sameGraph hq.toSameGraph hq.order hq.marks
  refine ends_runSteps_pass (filed_fuse h hm) fun _ h₁ => ?_
  refine ends_runSteps_pass (reorderInputs_ends Filed hbase htouched
    (fun hp hn hq => hp.served hn hq) h₁) fun _ h₂ => ends_runSteps_last ?_
  exact reorderBias_ends Filed hbase htouched (fun hp hn hq => hp.served hn hq) h₂

/-! ## Reorders that are taken out -/

/-- `p` is in sequence, and either nothing is on record, or taking a reorder out leaves all ids as
they are and every reorder on record leads and is tied to its source. -/
structure Cleanable (p : Program) (m : List Entry) : Prop extends Sequenced p where
  records : m = [] ∨ p.OutputsWork ∧ Recorded p m ∧ Tied p m

namespace Cleanable

theorem recorded (h : Cleanable p m) : Recorded p m := by
  rcases h.records with rfl | hrec
  · exact recorded_nil p
  · exact hrec.2.1

theorem sameGraph (h : Cleanable p m) (hq : SameGraph p q) (order : q.order = p.order)
    (marks : q.isMarked = p.isMarked) : Cleanable q m := by
  refine ⟨h.toSequenced.sameGraph hq order, h.records.imp_right fun hrec => ?_⟩
  exact ⟨hrec.1.sameGraph hq marks, hrec.2.1.sameGraph h.toSequenced hq order,
    hrec.2.2.sameGraph hq⟩

theorem extracted (h : Cleanable p m) (hid : p.isReorder id) (hq : Extracted p q id input) :
    Cleanable q m := by
  refine ⟨h.toSequenced.extracted hq, h.records.imp_right fun hrec => ?_⟩
  obtain ⟨hout, hrecorded, htied⟩ := hrec
  obtain ⟨r, hby, htouch⟩ := hout.extracted hid hq
  have hs := h.step hby.kept (hby.ordered h.ordered h.linked)
  obtain ⟨hrecorded', htied'⟩ := hrecorded.bypassed htied h.toSequenced hby
  exact ⟨(hout.bypassed hby).sameGraph htouch.toSameGraph htouch.marks,
    hrecorded'.sameGraph hs htouch.toSameGraph htouch.order, htied'.sameGraph htouch.toSameGraph⟩

theorem merged {bound : Bool} (h : Cleanable p m) (hq : Merged p q bound id) : Cleanable q m := by
  obtain ⟨input, survivor, format, element, padding, r, s, hex, hid, -, hwork, hkept, hplanned, -⟩ :=
    hq.steps
  have hr := h.extracted hid.isReorder hex
  have hkind : ∀ t, (merging format element padding t).operation.kind = t.operation.kind := fun t =>
    kind_retargeted t.operation format element
  have hs := hr.step hkept (hwork.ordered hr.ordered)
  have hreworked : Cleanable s m := ⟨hs, hr.records.imp_right fun hrec =>
    ⟨hrec.1.reworked hwork hkind, hrec.2.1.reworked hr.toSequenced hs hwork hkind,
      hrec.2.2.of_views hwork.contains (fun _ hj => hwork.isReorder_of hkind hj) hwork.deps⟩⟩
  exact hreworked.sameGraph hplanned.toSameGraph hplanned.order hplanned.marks

end Cleanable

/-! ## From there to the end -/

/-- `p` is in sequence, and every node has the plan it needs. -/
structure Settled (p : Program) : Prop extends Sequenced p where
  bound : p.AllBound

theorem Settled.remarked (h : Settled p) (hq : Remarked p q) : Settled q :=
  ⟨h.toSequenced.sameGraph hq.toSameGraph hq.order, h.bound.remarked hq⟩

theorem Settled.renumbered (h : Settled p) (hq : Renumbered p q) : Settled q :=
  ⟨h.step hq.kept (hq.toSameGraph.ordered hq.ids_order h.ordered), h.bound.of_views hq.shapes hq.plans⟩

theorem settled_reorderWeights (h : Settled c.program)
    (hrecorded : Recorded c.program c.preferences.made) :
    Ends (reorderWeights env) (fun _ c' => Settled c'.program) (fun e _ => e.closes = false) c := by
  refine (reorderWeights_ends (fun p m => Settled p ∧ Recorded p m)
    (fun hp => ⟨hp.1.linked, hp.1.coherent⟩)
    (fun hp hq => ⟨hp.1.remarked hq.toRemarked,
      hp.2.sameGraph hp.1.toSequenced hq.toSameGraph hq.order⟩)
    (fun hp hindex hq => ?_) (fun hp hq hplan => ?_) env ⟨h, hrecorded⟩).imp_good
    fun _ _ hd => hd.1
  · obtain ⟨hs, hrec⟩ := hp.1.toSequenced.weighed hp.2 (isWeighted_of_mem_weightSlotsOf hindex) hq
    exact ⟨⟨hs, hp.1.bound.weighed hq⟩, hrec⟩
  · exact ⟨⟨hp.1.toSequenced.sameGraph hq.toSameGraph hq.order,
      hp.1.bound.planned hq fun hruns => hplan (hp.1.bound _ hruns)⟩,
      hp.2.sameGraph hp.1.toSequenced hq.toSameGraph hq.order⟩

/-- **One round of the last cleanup.** -/
theorem settled_cleanup (h : Settled c.program) :
    Ends (runSteps env (cleanup.map .pass)) (fun _ c' => Settled c'.program)
      (fun e _ => e.closes = false) c := by
  refine ends_runSteps_pass (removeRedundantReorders_ends env Settled
    (fun hp => ⟨hp.linked, hp.coherent, hp.ranked⟩) (fun hp hq => hp.remarked hq.toRemarked)
    (fun hp hq => ⟨hp.toSequenced.merged hq.toMerged, hp.bound.merged hq.toMerged⟩)
    (fun hp hq => ⟨hp.toSequenced.extracted hq.extracted, hp.bound.extracted hq.extracted⟩) h)
    fun c₁ h₁ => ends_runSteps_last ?_
  exact (propagateConstants_ends env Settled (fun hp => ⟨hp.linked, hp.coherent⟩)
    (fun hp hq => hp.remarked hq.toRemarked)
    (fun hp hq => ⟨hp.toSequenced.folded hq, hp.bound.folded hq⟩)
    (fun hp _ _ hq => ⟨hp.toSequenced.removed hq, hp.bound.removed hq⟩) h₁.1).imp_good
    fun _ _ h₂ => h₂.1

/-- **The passes that every build takes** up to the binding. -/
theorem sequenced_rest (h : Cleanable c.program c.preferences.made) :
    Ends (runSteps env [.pass .redundantReorders, .pass .padding, .pass .constants])
      (fun _ c' => Sequenced c'.program ∧ Recorded c'.program c'.preferences.made)
      (fun e _ => e.closes = false) c := by
  have hbase : ∀ {p m}, Sequenced p ∧ Recorded p m → p.Linked ∧ p.Coherent := fun hp =>
    ⟨hp.1.linked, hp.1.coherent⟩
  have htouched : ∀ {p q m}, Sequenced p ∧ Recorded p m → Reflagged p q →
      Sequenced q ∧ Recorded q m := fun hp hq =>
    ⟨hp.1.sameGraph hq.toSameGraph hq.order, hp.2.sameGraph hp.1 hq.toSameGraph hq.order⟩
  refine ends_runSteps_pass (removeRedundantReorders_ends env (Cleanable · c.preferences.made)
    (fun hp => ⟨hp.linked, hp.coherent, hp.ranked⟩)
    (fun hp hq => hp.sameGraph hq.toSameGraph hq.order hq.marks)
    (fun hp hq => hp.merged hq.toMerged)
    (fun hp hq => hp.extracted hq.copy.isReorder hq.extracted) h) fun c₁ h₁ => ?_
  obtain ⟨h₁, hpref₁⟩ := h₁
  refine ends_runSteps_pass (padInputs_ends
    (fun p => Sequenced p ∧ Recorded p c.preferences.made) hbase
    (fun hp hq => htouched hp hq.toReflagged) (fun hp hq => ⟨hp.1.padded hq, hp.2.padded hp.1 hq⟩)
    ⟨h₁.toSequenced, h₁.recorded⟩) fun c₂ h₂ => ends_runSteps_last ?_
  obtain ⟨h₂, hpref₂⟩ := h₂
  refine (propagateConstants_ends env (fun p => Sequenced p ∧ Recorded p c.preferences.made) hbase
    htouched (fun hp hq => ⟨hp.1.folded hq, hp.2.folded hp.1 hq⟩)
    (fun hp husers _ hq => ⟨hp.1.removed hq, hp.2.removed hp.1 husers hq⟩) h₂).imp_good
    fun _ c₃ h₃ => ?_
  rw [h₃.2, hpref₂, hpref₁]
  exact h₃.1

/-- Nodes that were bound have the plan they need. -/
theorem Bound.settled {s : Selector} (h : Bound s p q) (hs : Sequenced p) : Settled q :=
  ⟨hs.sameGraph h.toSameGraph h.order, fun u hu => by
    rw [runsKernelAt, h.shapes] at hu
    obtain ⟨op, hop, hk⟩ := hu
    have hin : p.contains u = true := by rw [contains_eq_isSome_shapeOf, hop, Option.isSome_some]
    exact h.bound u ((hs.ordered.mem u).mpr hin) ⟨op, hop, hk⟩⟩

/-- **Binding** gives every node the plan it needs. -/
theorem settled_bindAll (hs : Sequenced c.program)
    (hrecorded : Recorded c.program c.preferences.made) :
    Ends (bindAll env)
      (fun _ c' => Settled c'.program ∧ Recorded c'.program c'.preferences.made)
      (fun e _ => e.closes = false) c := by
  refine (bindAll_ends env hs.linked hs.coherent).imp_good fun _ c' hc => ?_
  obtain ⟨hbound, hpref⟩ := hc
  rw [hpref]
  exact ⟨hbound.settled hs, hrecorded.sameGraph hs hbound.toSameGraph hbound.order⟩

/-- **The standard pipeline leaves every node in order and bound.** -/
theorem settled_standardPipeline {optimize : Bool} (hw : c.program.WellFormed)
    (h : Arranged optimize c.program) (hm : c.preferences.made = []) :
    Ends (runSteps env (standardPipeline optimize)) (fun _ c' => Settled c'.program)
      (fun e _ => e.closes = false) c := by
  refine ends_standardPipeline
    (J := fun d => Sequenced d.program ∧ Recorded d.program d.preferences.made)
    (K := fun d => Settled d.program ∧ Recorded d.program d.preferences.made)
    (ends_front (J := fun d => Arranged optimize d.program ∧ d.preferences = c.preferences)
      (K := fun d => Arranged optimize d.program ∧ d.preferences = c.preferences)
      (L := fun d => Cleanable d.program d.preferences.made) (arranged_trimToOutputs hw h)
      (fun d hd => ?_) (fun _ d hd => ?_) (fun ho d hd => ?_) fun _ hd => sequenced_rest hd)
    (fun _ hd => settled_bindAll hd.1 hd.2) (fun _ hd => settled_reorderWeights hd.1 hd.2)
    fun _ hd => settled_cleanup hd
  · exact (arranged_calculateLayouts hd.1).imp_good fun _ _ hd' => ⟨hd'.1, hd'.2.trans hd.2⟩
  · exact ⟨hd.1.toSequenced, Or.inl (by rw [hd.2, hm])⟩
  · refine (filed_optimized (ho ▸ hd.1) (by rw [hd.2, hm])).imp_good fun _ _ hf => ?_
    exact ⟨hf.toSequenced, Or.inr ⟨hf.outputs, hf.recorded, hf.attached.tied⟩⟩

end Pass

/-! ## The checks -/

theorem Program.AllBound.unbound?_eq_none {p : Program} (h : p.AllBound) : p.unbound? = none := by
  rw [unbound?, List.find?_eq_none]
  intro id _
  split
  case h_1 n hn =>
    intro hnot
    rw [Bool.and_eq_true] at hnot
    have hsome := h id ((Pass.runsKernelAt_of_node? hn).mpr hnot.1)
    rw [planOf, hn, Option.bind_some, ← Option.not_isNone, hnot.2] at hsome
    cases hsome
  case h_2 => exact Bool.false_ne_true

/-- **The checks at the end succeed.** -/
theorem Pass.Settled.finalCheck_eq_ok {p : Program} (h : Pass.Settled p) :
    p.finalCheck = .ok () := by
  rw [Program.finalCheck, h.bound.unbound?_eq_none]
  exact if_pos ((isOrdered_iff h.linked).mpr h.ordered)

/-- **What a compilation ends with.** -/
theorem settled_compile {o : BuildOptions} {env : Environment} {b : Behaviours} {t : Topology}
    {session : Session} (ht : t.Distinct) (hout : o.optimize = true →
      ∀ id r, t.IsOutput o.outputs id → t.operationOf id ≠ some (.reorder r)) :
    Ends (compile o env b t) (fun compiled _ => Pass.Settled compiled.program)
      (fun e _ => e.closes = false) session := by
  refine (ends_compile ht (fun p => p.WellFormed ∧ Pass.Arranged o.optimize p) Pass.Settled
    (fun _ he => he) (fun p hbuilt => ?_) (fun p hp => ?_) (fun hp => hp.linked)
    (fun hp hq => hp.renumbered hq) (fun _ hp hq => hp.remarked hq.toRemarked)
    fun hp he => ?_).imp_good fun _ _ hc => hc.1
  · refine (prepare_effect hbuilt.wellFormed.toLinked o.outputs).imp_good fun _ q hq => ?_
    obtain ⟨hmarked, hmarks⟩ := hq
    refine ⟨hmarked.kept.wellFormed hbuilt.wellFormed,
      ⟨⟨hmarked.kept.linked, hmarked.kept.coherent hbuilt.coherent⟩,
        hmarked.ordered (congrArg Order.ids hmarked.order) hbuilt.topological⟩,
      hmarked.aligned hbuilt.slots, fun ho j hm hr => ?_⟩
    obtain ⟨r, hr⟩ := hr
    rw [hmarked.shapes, shapeOf_eq_operationOf, hbuilt.operationOf] at hr
    obtain ⟨op, hget, hshape⟩ := Option.map_eq_some_iff.mp hr
    obtain ⟨r', rfl, -⟩ := Operation.exists_reorder_of_shape hshape
    exact hout ho j r' ((hbuilt.mem_requestedOutputs ht).mp ((hmarks j).mp hm)) hget
  · exact Pass.settled_standardPipeline (c := ⟨p, .initial, session⟩) hp.1 hp.2 rfl
  · rw [hp.finalCheck_eq_ok] at he
    cases he

/-- **No compilation is stopped by the checks that close it**, unless an optimized one has a reorder
among its outputs.  One that succeeds leaves an order that lists every node once, behind all it reads,
and a plan for every node that is neither a literal nor an input. -/
theorem compile_closed (o : BuildOptions) (env : Environment) (b : Behaviours) (t : Topology)
    (session : Session) (ht : t.Distinct) (hout : o.optimize = true →
      ∀ id r, t.IsOutput o.outputs id → t.operationOf id ≠ some (.reorder r)) :
    (∀ e session', (compile o env b t).run.run session = (.error e, session') →
      e ≠ .invalidGraph .orderInvalid ∧ ∀ id, e ≠ .invalidGraph (.unbound id)) ∧
    ∀ compiled session', (compile o env b t).run.run session = (.ok compiled, session') →
      compiled.program.Topological compiled.program.order.ids ∧
      ∀ n ∈ compiled.program.nodes, n.kind ≠ .data → n.kind ≠ .inputLayout →
        n.plan.isSome = true := by
  have hends := @settled_compile o env b t session ht hout
  rw [Ends] at hends
  constructor
  · intro e session' hrun
    rw [hrun] at hends
    have hcloses : e.closes = false := hends
    constructor
    · rintro rfl
      cases hcloses
    · rintro id rfl
      cases hcloses
  · intro compiled session' hrun
    rw [hrun] at hends
    have hsettled : Pass.Settled compiled.program := hends
    refine ⟨hsettled.ordered, fun n hn hdata hinput => ?_⟩
    have hnode := node?_of_mem hsettled.linked.ids_nodup hn
    have hruns : n.runsKernel = true := by
      rw [Node.runsKernel, decide_eq_true hdata, decide_eq_true hinput, Bool.and_true]
    have hbound := hsettled.bound n.id ((Pass.runsKernelAt_of_node? hnode).mpr hruns)
    rwa [planOf, hnode, Option.bind_some] at hbound

/-- Two nodes with the same weights. -/
def Topology.twins : Topology :=
  ⟨[⟨"x", Padding.none, .inputLayout (.dense .f32 .bfyx ⟨1, 1, 1, 1⟩)⟩,
    ⟨"w", Padding.none, .inputLayout (.dense .f32 .oiyx ⟨1, 1, 1, 1⟩)⟩,
    ⟨"a", Padding.none, .fullyConnected ⟨"x", "w", none, Activation.none⟩⟩,
    ⟨"b", Padding.none, .fullyConnected ⟨"x", "w", none, Activation.none⟩⟩]⟩

/-- They share the reorder of the weights, which stands before both. -/
theorem compile_closed_twins : ∃ compiled session',
    (compile { BuildOptions.plain ["a", "b"] with optimize := true }
      ⟨.builtin .default, none, false⟩ .builtin .twins).run.run ⟨.unset, []⟩
        = (.ok compiled, session') ∧
    Before compiled.program.order.ids "reorder_0_w" "a" ∧
    Before compiled.program.order.ids "reorder_0_w" "b" := by
  obtain ⟨compiled, hrun⟩ := exists_run_eq_ok
    (x := compile { BuildOptions.plain ["a", "b"] with optimize := true }
      ⟨.builtin .default, none, false⟩ .builtin .twins) (s := ⟨.unset, []⟩) (by decide +kernel)
  have hreads : ((compile { BuildOptions.plain ["a", "b"] with optimize := true }
      ⟨.builtin .default, none, false⟩ .builtin .twins).run.run ⟨.unset, []⟩).1.toOption.map
        (fun c => (c.program.depsOf "a", c.program.depsOf "b"))
      = some (["x", "reorder_0_w"], ["x", "reorder_0_w"]) := by decide +kernel
  rw [hrun] at hreads
  obtain ⟨ha, hb⟩ := Prod.mk.inj (Option.some.inj hreads)
  have hclosed := compile_closed { BuildOptions.plain ["a", "b"] with optimize := true }
    ⟨.builtin .default, none, false⟩ .builtin .twins ⟨.unset, []⟩
    (by unfold Topology.Distinct; decide) fun _ id r hid => by
      intro hop
      rcases List.mem_cons.mp hid with rfl | hid
      · cases hop
      · rw [List.mem_singleton.mp hid] at hop
        cases hop
  obtain ⟨horder, -⟩ := hclosed.2 compiled _ hrun
  refine ⟨compiled, _, hrun, horder.before "a" _ ?_, horder.before "b" _ ?_⟩
  · rw [ha]
    exact List.mem_cons_of_mem _ List.mem_cons_self
  · rw [hb]
    exact List.mem_cons_of_mem _ List.mem_cons_self

/-- Weights that one node reads, and another as copied into an output. -/
def Topology.handedOn : Topology :=
  ⟨[⟨"x1", Padding.none, .inputLayout (.dense .f32 .bfyx ⟨1, 4, 1, 1⟩)⟩,
    ⟨"w", Padding.none, .data (.dense .f32 .yxio ⟨3, 4, 1, 1⟩)
      (.f32 (Array.replicate 12 ⟨0x3f800000⟩))⟩,
    ⟨"x0", Padding.none, .inputLayout (.dense .f32 .bfyx ⟨0, 4, 1, 1⟩)⟩,
    ⟨"s", Padding.none, .reorder ⟨"w", .yxio, .f32, []⟩⟩,
    ⟨"c2", Padding.none, .fullyConnected ⟨"x0", "w", none, Activation.none⟩⟩,
    ⟨"c1", Padding.none, .fullyConnected ⟨"x1", "s", none, Activation.none⟩⟩]⟩

/-- **An id that is handed on misleads a request**: the weights get the id of the copy, under which
there is a reorder on record that stands behind the node that asks. -/
theorem compile_disordered :
    ((compile { BuildOptions.plain ["s", "c1", "c2"] with optimize := true }
      ⟨.builtin .default, none, false⟩ .builtin .handedOn).run.run ⟨.unset, []⟩).1.map
        (fun _ => ())
      = .error (.invalidGraph .orderInvalid) := by
  decide +kernel

end NetPlan

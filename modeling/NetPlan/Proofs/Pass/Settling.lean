import NetPlan.Proofs.Pass.Current
import NetPlan.Proofs.Pass.Outputs
import NetPlan.Proofs.Pass.Rounds
import NetPlan.Proofs.Pass.Sequence

/-!
# Proofs/Pass/Settling — cleanup reaches its end

The passes before the rounds of cleanup leave a graph in which reorders stand behind what they read and
nothing is a dead end; so four rounds are enough, and what is compiled has nothing left for a fifth.

* `neat_front`, `atRest_standardPipeline` — how the graph gets there;
* `Rested.again` — running both passes once more;
* `compile_settles` — **neither pass changes what is compiled**.
-/

namespace NetPlan

open Program Edit Preferences

theorem Program.AlignedButFused.grounded {p : Program} (ha : p.AlignedButFused) :
    p.Grounded := fun id hid => by
  rw [← ha id fun f hf => ?_, argsOf_of_literal hid]
  rw [kindOf_of_shapeOf hf] at hid
  cases hid

namespace Pass

variable {p q : Program} {m m' : List Entry} {env : Environment} {c : Compilation} {id next : String}
  {index : Nat} {made : Option String}

/-! ## Before the rounds -/

/-- In topological order and without dead ends, before nodes are bound. -/
structure Orderly (p : Program) (m : List Entry) : Prop extends Drafted p m where
  ordered : p.Ordered
  live : p.Live
  registered : p.behaviours.find .data = .ok .data

theorem Orderly.rewrite (h : Orderly p m) (hr : Rewrite p m q m) (hf : q.Flagged) (ho : q.Ordered)
    (hq : q.Live) : Orderly q m :=
  ⟨h.toDrafted.rewrite hr hf, ho, hq, (hr.kept h.linked).behaviours ▸ h.registered⟩

theorem Orderly.touched (h : Orderly p m) (hq : Touched p q) : Orderly q m :=
  h.rewrite (.touched hq.toReflagged) (h.flagged.sameGraph hq.toSameGraph hq.flags)
    (hq.ordered (congrArg Order.ids hq.order) h.ordered)
    (h.live.touched hq.toReflagged)

/-- Nodes are not bound yet, and passes may put in reorders. -/
structure Neat (p : Program) (m : List Entry) : Prop extends Tended p m where
  raw : p.Raw

theorem Neat.drafted (h : Neat p m) : Drafted p m := ⟨h.toTracked, h.raw⟩

theorem Neat.rewrite (h : Neat p m) (hr : Rewrite p m q m') (hf : q.Flagged) (hq : q.Tidy) :
    Neat q m' :=
  ⟨h.toTended.rewrite hr hf hq, (h.drafted.rewrite hr hf).raw⟩

theorem Neat.touched (h : Neat p m) (hq : Touched p q) : Neat q m :=
  h.rewrite (.touched hq.toReflagged) (h.flagged.sameGraph hq.toSameGraph hq.flags)
    (h.tidy.touched hq.toReflagged)

theorem Neat.served (h : Neat p m) (hnext : p.isWeighted next)
    (hq : Served p q m m' next index made) : Neat q m' :=
  h.rewrite (.served hnext hq) (hq.flagged h.numbered h.linked h.raw.slim h.flagged)
    (hq.tidy h.numbered h.linked hnext h.tidy)

theorem Orderly.neat (h : Orderly p m) (hg : p.Grounded) : Neat p m :=
  ⟨⟨h.toTracked, ⟨h.ordered.seated, hg, h.live⟩, h.registered⟩, h.raw⟩

theorem orderly_trim (h : Drafted c.program c.preferences.made) (hw : c.program.WellFormed)
    (ho : c.program.Ordered) (ha : c.program.Aligned)
    (hb : c.program.behaviours.find .data = .ok .data) (hlive : env.debug = true → c.program.Live) :
    Ends (trimToOutputs env)
      (fun _ c' => Orderly c'.program c'.preferences.made ∧ c'.program.Aligned) (fun _ _ => True) c := by
  have hdrafted := @drafted_trim c env h hw ho ha
  rw [trimToOutputs] at hdrafted ⊢
  split at hdrafted
  case isTrue hdebug =>
    rw [if_pos hdebug]
    exact ⟨⟨h, ho, hlive hdebug, hb⟩, ha⟩
  case isFalse hdebug =>
    rw [if_neg hdebug]
    rw [ends_bind, Transform.ends_liftM] at hdrafted ⊢
    refine (hdrafted.and (trim_effect h.linked)).imp (fun _ q hq => ?_) fun _ _ _ => trivial
    obtain ⟨⟨hdraft, hord, hal⟩, doomed, hcleared, hdoomed⟩ := hq
    have htrim := hcleared.trimmed hdoomed hw ho ha
    exact ⟨⟨hdraft, hord, htrim.live hw, htrim.kept.behaviours ▸ hb⟩, hal⟩

theorem orderly_layouts (h : Orderly c.program c.preferences.made) (ha : c.program.Aligned) :
    Ends calculateLayouts
      (fun _ c' => Orderly c'.program c'.preferences.made ∧ c'.program.Aligned) (fun _ _ => True) c := by
  refine ((drafted_layouts h.toDrafted h.ordered ha).and
    (calculateLayouts_ends h.linked h.coherent)).imp (fun _ c' hc => ?_) fun _ _ _ => trivial
  obtain ⟨⟨hdraft, hord, hal⟩, -, p, hsorted, -, hfill⟩ := hc
  have htouch := hfill.touched hsorted.kept.linked
  refine ⟨⟨hdraft, hord, ?_, ?_⟩, hal⟩
  · exact h.live.sameGraph (hsorted.toSameGraph.trans htouch.toSameGraph) fun j hj => by
      rwa [htouch.marks, hsorted.marks]
  · exact htouch.kept.behaviours.trans hsorted.kept.behaviours ▸ h.registered

theorem neat_fusion (h : Orderly c.program c.preferences.made) (ha : c.program.AlignedButFused) :
    Ends (fuse env) (fun _ c' => Neat c'.program c'.preferences.made) (fun _ _ => True) c := by
  refine (fuse_ends env (fun p => Orderly p c.preferences.made ∧ p.AlignedButFused)
    (fun p => Orderly p c.preferences.made ∧ p.Grounded) (fun hp => hp.1.linked)
    (fun hp hq => ⟨hp.1.touched hq, hp.2.touched hq⟩) (fun hp hq => ?_)
    (fun hp => ⟨hp.1, hp.2.grounded⟩)
    (fun hp => ⟨hp.1.linked, .inl hp.1.coherent, hp.1.ranked⟩)
    (fun hp hq => ⟨hp.1.touched hq, hp.2.of_views hq.toSameGraph.kinds hq.deps⟩)
    (fun hp hq _ => ?_) (fun hp hq => ?_) ⟨h, ha⟩).imp (fun _ c' hc => ?_) fun _ _ _ => trivial
  · obtain ⟨hp, ha⟩ := hp
    have hs : Sequenced _ := ⟨hp.toSound, hp.ordered⟩
    exact ⟨hp.rewrite (.fused hq) (hq.flagged hp.linked hp.ordered ha hp.flagged)
      (hs.fused ha hq).ordered (hq.live hp.linked hp.ordered ha hp.live), ha.fused hp.linked hq⟩
  · obtain ⟨hp, hg⟩ := hp
    have hs : Sequenced _ := ⟨hp.toSound, hp.ordered⟩
    exact ⟨hp.rewrite (.absorbed hq) (hq.flagged hp.linked hp.flagged) (hs.absorbed hq).ordered
      (hq.live hp.linked hp.live), hq.grounded hp.linked hg⟩
  · obtain ⟨hp, hg⟩ := hp
    have hs : Sequenced _ := ⟨hp.toSound, hp.ordered⟩
    exact ⟨hp.rewrite (.merged hq) (hq.toMerged.flagged hp.linked hp.flagged)
      (hs.merged hq.toMerged).ordered (hq.toMerged.live hp.linked hp.live),
      hq.toMerged.grounded hp.linked hg⟩
  · rw [hc.2]
    exact hc.1.1.neat hc.1.2

theorem neat_requests (h : Neat c.program c.preferences.made) :
    Ends (runSteps env [.pass .inputReorders, .pass .biasReorders])
      (fun _ c' => Neat c'.program c'.preferences.made) (fun _ _ => True) c := by
  have hbase : ∀ {p m}, Neat p m → p.Linked ∧ p.Coherent := fun hp => ⟨hp.linked, hp.coherent⟩
  refine ends_runSteps_pass ((reorderInputs_ends Neat hbase (fun hp hq => hp.touched hq)
    (fun hp hn hq => hp.served hn hq) h).imp (fun _ _ hc => hc) fun _ _ _ => trivial) fun _ h₁ =>
      ends_runSteps_last ?_
  exact (reorderBias_ends Neat hbase (fun hp hq => hp.touched hq)
    (fun hp hn hq => hp.served hn hq) h₁).imp (fun _ _ hc => hc) fun _ _ _ => trivial

theorem neat_redundantReorders (h : Neat c.program c.preferences.made) :
    Ends (removeRedundantReorders env) (fun _ c' => Neat c'.program c'.preferences.made)
      (fun _ _ => True) c := by
  refine ((removeRedundantReorders_tended env h.toTended).and (tracks_redundantReorders (I := Drafted)
    (fun hp => hp.toTracked) (fun hp => hp.rewrite) h.drafted)).imp
    (fun _ c' hc => ?_) fun _ _ _ => trivial
  obtain ⟨⟨hpref, hten, -⟩, hdraft⟩ := hc
  exact ⟨hpref ▸ hten, hdraft.raw⟩

theorem neat_padding (h : Neat c.program c.preferences.made) :
    Ends padInputs (fun _ c' => Neat c'.program c'.preferences.made) (fun _ _ => True) c := by
  refine (padInputs_ends (Neat · c.preferences.made) (fun hp => ⟨hp.linked, hp.coherent⟩)
    (fun hp hq => hp.touched hq) (fun hp hq => hp.rewrite (.padded hq)
      (hq.flagged hp.linked hp.flagged) (hq.tidy hp.linked hp.tidy)) h).imp (fun _ c' hc => ?_)
    fun _ _ _ => trivial
  rw [hc.2]
  exact hc.1

theorem neat_constants (henv : env.evaluator = none ∨ env.evaluator = some .reference)
    (h : Neat c.program c.preferences.made) :
    Ends (propagateConstants env) (fun _ c' => Neat c'.program c'.preferences.made)
      (fun _ _ => True) c :=
  ((propagateConstants_tended henv h.toTended).and (tracks_constants (I := Drafted)
    (fun hp => hp.toTracked) (fun hp => hp.rewrite) h.drafted)).imp
    (fun _ _ hc => ⟨hc.1.2.1, hc.2.raw⟩) fun _ _ _ => trivial

/-- **The passes in front of the binding** keep a graph without dead ends. -/
theorem neat_front {optimize : Bool}
    (henv : env.evaluator = none ∨ env.evaluator = some .reference)
    (h : Drafted c.program c.preferences.made) (hw : c.program.WellFormed)
    (ho : c.program.Ordered) (ha : c.program.Aligned)
    (hb : c.program.behaviours.find .data = .ok .data) (hlive : env.debug = true → c.program.Live) :
    Ends (runSteps env ((front optimize).map .pass))
      (fun _ c' => Neat c'.program c'.preferences.made) (fun _ _ => True) c := by
  refine ends_front
    (J := fun d => Orderly d.program d.preferences.made ∧ d.program.Aligned)
    (K := fun d => Orderly d.program d.preferences.made ∧ d.program.Aligned)
    (L := fun d => Neat d.program d.preferences.made) (orderly_trim h hw ho ha hb hlive)
    (fun _ hd => orderly_layouts hd.1 hd.2)
    (fun _ d hd => hd.1.neat (AlignedButFused.grounded fun j _ => hd.2 j)) (fun _ d hd => ?_)
    fun d hd => ?_
  · refine ends_runSteps_pass (neat_fusion hd.1 fun j _ => hd.2 j) fun _ h₁ => ?_
    exact neat_requests h₁
  · refine ends_runSteps_pass (neat_redundantReorders hd) fun _ h₁ => ?_
    refine ends_runSteps_pass (neat_padding h₁) fun _ h₂ => ends_runSteps_last ?_
    exact neat_constants henv h₂

/-- Kernels are bound, and the weights they ask for are put in. -/
theorem tended_reorderWeights (h : Tended c.program c.preferences.made) (hslim : c.program.Slim) :
    Ends (reorderWeights env) (fun _ c' => Tended c'.program c'.preferences.made)
      (fun _ _ => True) c := by
  refine (reorderWeights_ends (fun p m => Tended p m ∧ p.Slim)
    (fun hp => ⟨hp.1.linked, hp.1.coherent⟩)
    (fun hp hq => ⟨hp.1.touched hq, hp.2.sameGraph hq.toSameGraph⟩)
    (fun hp hindex hq => ?_)
    (fun hp hq _ => ⟨hp.1.sameGraph hq.toSameGraph (congrArg Order.ids hq.order) hq.marks hq.flags,
      hp.2.sameGraph hq.toSameGraph⟩) env ⟨h, hslim⟩).imp (fun _ _ hd => hd.1) fun _ _ _ => trivial
  obtain ⟨hp, hslim⟩ := hp
  have hnext := isWeighted_of_mem_weightSlotsOf hindex
  obtain ⟨htracked, hslim'⟩ := hp.toTracked.weighed hslim hnext hq
  exact ⟨⟨htracked, hq.tidy hp.numbered hp.linked hnext hp.tidy,
    (hq.kept hp.linked).behaviours ▸ hp.registered⟩, hslim'⟩

/-- **The standard pipeline** ends where nothing is left for cleanup. -/
theorem atRest_standardPipeline {optimize : Bool}
    (henv : env.evaluator = none ∨ env.evaluator = some .reference)
    (h : Drafted c.program c.preferences.made) (hw : c.program.WellFormed)
    (ho : c.program.Ordered) (ha : c.program.Aligned)
    (hb : c.program.behaviours.find .data = .ok .data) (hlive : env.debug = true → c.program.Live) :
    Ends (runSteps env (standardPipeline optimize))
      (fun _ c' => AtRest env c'.program c'.preferences.made) (fun _ _ => True) c := by
  rw [standardPipeline_eq, ends_runSteps_append]
  refine (neat_front henv h hw ho ha hb hlive).imp_good fun _ c₁ h₁ => ?_
  refine ends_runSteps_pass (J := fun d => Tended d.program d.preferences.made ∧ d.program.Slim)
    ((bindAll_ends env h₁.linked h₁.coherent).imp (fun _ c₂ h₂ => ?_) fun _ _ _ => trivial)
    fun c₂ h₂ => ?_
  · obtain ⟨hbound, hpref⟩ := h₂
    rw [hpref]
    exact ⟨h₁.toTended.sameGraph hbound.toSameGraph (congrArg Order.ids hbound.order) hbound.marks
      hbound.flags, h₁.raw.slim.sameGraph hbound.toSameGraph⟩
  refine ends_runSteps_pass (tended_reorderWeights h₂.1 h₂.2) fun c₃ h₃ => ?_
  rw [ends_runSteps_cons]
  exact (cleanup_atRest henv h₃).imp_good fun _ _ h₄ => ends_runSteps_nil.mpr h₄

/-! ## Once more -/

/-- Nothing is left for a pass over the constants. -/
structure Quiescent (env : Environment) (p : Program) : Prop where
  flagged : p.Flagged
  live : p.Live
  registered : p.behaviours.find .data = .ok .data
  drained : Drained env p
  repeatable : Repeatable env p

/-- Nothing is left for cleanup; where all nodes were exposed, new constants may have become
outputs. -/
structure Rested (env : Environment) (p : Program) : Prop where
  linked : p.Linked
  coherent : p.Coherent
  ranked : p.Ranked
  inert : Inert p
  folding : env.debug = false → Quiescent env p

theorem AtRest.rested (h : AtRest env p m) : Rested env p :=
  ⟨h.linked, h.coherent, h.ranked, h.inert,
    fun _ => ⟨h.flagged, h.tidy.live, h.registered, h.drained, h.repeatable⟩⟩

theorem Quiescent.reordered (h : Quiescent env p) (hq : Reordered p q)
    (order : q.order.ids = p.order.ids) : Quiescent env q where
  flagged := h.flagged.sameGraph hq.toSameGraph hq.flags
  live := h.live.sameGraph hq.toSameGraph (isMarked_of_eq hq.marks)
  registered := hq.kept.behaviours ▸ h.registered
  drained := h.drained.imp_right fun hun _ hj =>
    hq.toSameGraph.unfit_of_asked hq.flags hq.marks hun hj
  repeatable := h.repeatable.imp_right fun ⟨p₀, p₁, stats, htwin, hrest⟩ =>
    ⟨p₀, p₁, stats, htwin.of_reordered hq order, hrest⟩

theorem Rested.renumbered (h : Rested env p) (hq : Renumbered p q) : Rested env q where
  linked := hq.kept.linked
  coherent := hq.kept.coherent h.coherent
  ranked := hq.toSameGraph.ranked h.ranked
  inert := h.inert.sameGraph hq.toSameGraph (isMarked_of_eq hq.marks)
  folding hdebug := (h.folding hdebug).reordered hq.toReordered hq.ids_order

theorem Rested.exposed (h : Rested env p) (hdebug : env.debug = true) (hq : Revealed p q) :
    Rested env q where
  linked := hq.kept.linked
  coherent := hq.kept.coherent h.coherent
  ranked := hq.toSameGraph.ranked h.ranked
  inert := h.inert.sameGraph hq.toSameGraph hq.marks
  folding hno := by
    rw [hdebug] at hno
    cases hno

/-- **Both passes once more** succeed and change nothing. -/
theorem Rested.again (h : Rested env c.program) (ho : c.program.Ordered)
    (henv : env.evaluator = none ∨ env.evaluator = some .reference) :
    ∃ stats c', (Pass.redundantReorders.run env).run.run c = (.ok stats, c') ∧
      stats.changed = false ∧ (env.debug = false ∨ env.evaluator = none →
        ∃ stats' c'', (Pass.constants.run env).run.run c' = (.ok stats', c'') ∧
          stats'.changed = false) := by
  obtain ⟨stats, c', hrun, -, hstill, htouch⟩ :=
    (removeRedundantReorders_inert env h.linked h.coherent h.ranked h.inert).exists_ok
  refine ⟨stats, c', hrun, hstill, fun hdebug => ?_⟩
  have hends : Ends (propagateConstants env) (fun stats _ => stats.changed = false)
      (fun _ _ => False) c' := by
    rw [propagateConstants]
    rcases henv with hnone | hsome
    · rw [hnone]
      rfl
    · have hq := h.folding (hdebug.resolve_right fun hnone => by rw [hsome] at hnone; cases hnone)
      rcases hq.repeatable with hnone | ⟨p₀, p₁, stats₀, htwin, hflagged, hrun₀, hstill₀⟩
      · rw [hsome] at hnone
        cases hnone
      have hun := hq.drained.resolve_left fun hnone => by rw [hsome] at hnone; cases hnone
      rw [hsome, Transform.ends_liftM]
      refine (foldConstants_twin (htwin.touched (.refl htwin.linked) htouch) hrun₀ hstill₀
        (htouch.kept.behaviours ▸ hq.registered) hflagged
        (hq.flagged.sameGraph htouch.toSameGraph htouch.flags)
        (htouch.ordered (congrArg Order.ids htouch.order) ho)
        (hq.live.touched htouch.toReflagged)
        fun _ hj => htouch.toSameGraph.unfit_of_asked htouch.flags htouch.marks hun hj).imp_good
        fun _ _ hs => hs.1
  obtain ⟨stats', c'', hrun', hstill'⟩ := hends.exists_ok
  exact ⟨stats', c'', hrun', hstill'⟩

end Pass

/-! ## Compilations -/

/-- Where all that nothing reads is an output or an input of the network, there are no dead ends. -/
theorem Program.Built.live {t : Topology} {b : Behaviours} {p q : Program} {named : List String}
    (h : Built t b p) (ht : t.Distinct) (hq : Remarked p q)
    (hmarks : ∀ j, q.isMarked j = true ↔ j ∈ p.requestedOutputs named)
    (hends : ∀ id op, t.operationOf id = some op → (∀ u, ¬ t.Reads id u) →
      op.kind ≠ .inputLayout → t.IsOutput named id) : q.Live := fun id hid => by
  obtain ⟨n, hn⟩ := contains_iff.mp (hq.contains ▸ hid)
  have hop : t.operationOf id = some n.operation := by
    rw [← h.operationOf, Program.operationOf, hn, Option.map_some]
  have hkind : q.kindOf id = some n.operation.kind := by
    rw [hq.toSameGraph.kinds, kindOf_of_node? hn, Node.kind]
  by_cases hread : ∃ u, t.Reads id u
  · obtain ⟨u, hu⟩ := hread
    rw [← h.reads ht] at hu
    exact .inr (.inl ⟨u, by rw [hq.deps]; exact hu⟩)
  by_cases hinput : n.operation.kind = .inputLayout
  · exact .inr (.inr (hkind.trans (congrArg some hinput)))
  · exact .inl ((hmarks id).mpr ((h.mem_requestedOutputs ht).mpr
      (hends id _ hop (not_exists.mp hread) hinput)))

/-- What is compiled has nothing left for cleanup. -/
theorem rested_compile {o : BuildOptions} {env : Environment} {t : Topology} {session : Session}
    (ht : t.Distinct) (henv : env.evaluator = none ∨ env.evaluator = some .reference)
    (hends : env.debug = true → ∀ id op, t.operationOf id = some op → (∀ u, ¬ t.Reads id u) →
      op.kind ≠ .inputLayout → t.IsOutput o.outputs id) :
    Ends (compile o env .builtin t)
      (fun compiled _ => Pass.Rested env compiled.program ∧ compiled.program.Ordered)
      (fun _ _ => True) session := by
  refine (ends_compile ht
    (fun p => ((Pass.Drafted p [] ∧ p.WellFormed) ∧ p.Ordered ∧ p.Aligned) ∧
      p.behaviours.find .data = .ok .data ∧ (env.debug = true → p.Live))
    (Pass.Rested env) (fun _ _ => trivial) (fun p hbuilt => ?_) (fun p hp => ?_)
    (fun hp => hp.linked) (fun hp hq => hp.renumbered hq) (fun hdebug hp hq => hp.exposed hdebug hq)
    fun _ _ => trivial).imp_good fun compiled _ hc => ⟨hc.1, ?_⟩
  · have hl := hbuilt.wellFormed.toLinked
    refine ((prepare_flagged hl hbuilt.topological hbuilt.slots o.outputs).and
      (prepare_effect hl o.outputs)).imp (fun _ q hq => ?_) fun _ _ hb => hb.1
    obtain ⟨⟨hmarked, hflagged⟩, -, hmarks⟩ := hq
    refine ⟨⟨⟨⟨⟨hbuilt.based hmarked, hflagged⟩, hbuilt.raw.sameGraph hmarked.toSameGraph
      hmarked.plans⟩, hmarked.kept.wellFormed hbuilt.wellFormed⟩,
      hmarked.ordered (congrArg Order.ids hmarked.order) hbuilt.topological,
      hmarked.aligned hbuilt.slots⟩, ?_, fun hdebug => hbuilt.live ht hmarked hmarks (hends hdebug)⟩
    rw [hmarked.kept.behaviours, hbuilt.behaviours]
    rfl
  · obtain ⟨⟨⟨hdraft, hw⟩, ho, ha⟩, hb, hlive⟩ := hp
    exact ((Pass.atRest_standardPipeline (c := ⟨p, .initial, session⟩) henv hdraft hw ho ha hb
      hlive).and (Pass.tracked_standardPipeline (c := ⟨p, .initial, session⟩) hdraft hw ho ha)).imp
      (fun _ _ hc => hc.1.rested) fun _ _ hb => hb.2
  · exact (checked_of_finalCheck hc.1.linked hc.2).1

/-- **Cleanup comes to its end**: neither pass changes what is compiled, and neither fails on it.  Where
all nodes are kept, this takes that each one that nothing reads is an output or an input of the network;
and the passes over constants are at their end only before the nodes are exposed. -/
theorem compile_settles (o : BuildOptions) (env : Environment) (t : Topology)
    (session session' : Session) (compiled : Compiled) (ht : t.Distinct)
    (henv : env.evaluator = none ∨ env.evaluator = some .reference)
    (hends : env.debug = true → ∀ id op, t.operationOf id = some op → (∀ u, ¬ t.Reads id u) →
      op.kind ≠ .inputLayout → t.IsOutput o.outputs id)
    (hrun : (compile o env .builtin t).run.run session = (.ok compiled, session'))
    (preferences : Preferences) (later : Session) :
    ∃ stats c, (Pass.redundantReorders.run env).run.run ⟨compiled.program, preferences, later⟩
        = (.ok stats, c) ∧ stats.changed = false ∧
      (env.debug = false ∨ env.evaluator = none →
        ∃ stats' c', (Pass.constants.run env).run.run c = (.ok stats', c') ∧
          stats'.changed = false) := by
  have hc := @rested_compile o env t session ht henv hends
  rw [Ends, hrun] at hc
  exact Pass.Rested.again (c := ⟨compiled.program, preferences, later⟩) hc.1 hc.2 henv

theorem Topology.isOutput_of_unread {t : Topology} {id : String} {op : Operation}
    (hop : t.operationOf id = some op) (hread : ∀ u, ¬ t.Reads id u) : t.IsOutput [] id := by
  rw [IsOutput, if_pos rfl]
  obtain ⟨prim, hprim, -⟩ := Option.map_eq_some_iff.mp hop
  rw [get?] at hprim
  rw [contains, List.any_eq_true]
  exact ⟨⟨prim, List.mem_of_find?_eq_some hprim, by simpa using List.find?_some hprim⟩, hread⟩

/-- The reorder of the weights is folded in the first round of cleanup, and nothing is left after the
second; nor is there where nothing is folded and all nodes are kept. -/
theorem compile_settles_layered :
    (∃ compiled session', (compile (.plain ["c"]) ⟨.builtin .default, some .reference, false⟩
        .builtin .layered).run.run ⟨.unset, []⟩ = (.ok compiled, session') ∧
      compiled.stats.iterations = 2 ∧
      ∃ stats c, (Pass.redundantReorders.run ⟨.builtin .default, some .reference, false⟩).run.run
          ⟨compiled.program, .initial, session'⟩ = (.ok stats, c) ∧ stats.changed = false ∧
        ∃ stats' c', (Pass.constants.run ⟨.builtin .default, some .reference, false⟩).run.run c
          = (.ok stats', c') ∧ stats'.changed = false) ∧
    ∃ compiled session', (compile (.plain []) ⟨.builtin .default, none, true⟩ .builtin
        .layered).run.run ⟨.unset, []⟩ = (.ok compiled, session') ∧
      ∃ stats c, (Pass.redundantReorders.run ⟨.builtin .default, none, true⟩).run.run
        ⟨compiled.program, .initial, session'⟩ = (.ok stats, c) ∧ stats.changed = false := by
  have ht : Topology.layered.Distinct := by unfold Topology.Distinct; decide
  refine ⟨?_, ?_⟩
  · obtain ⟨compiled, session', hrun, hrounds⟩ := exists_run_of_map
      (x := compile (.plain ["c"]) ⟨.builtin .default, some .reference, false⟩ .builtin .layered)
      (s := ⟨.unset, []⟩) (f := fun compiled _ => compiled.stats.iterations) (b := 2)
      (by decide +kernel)
    obtain ⟨stats, c, hfirst, hstill, hsecond⟩ := compile_settles _ _ _ _ _ compiled ht (.inr rfl)
      (fun hdebug => by cases hdebug) hrun .initial session'
    exact ⟨compiled, session', hrun, hrounds, stats, c, hfirst, hstill, hsecond (.inl rfl)⟩
  · obtain ⟨compiled, hrun⟩ := exists_run_eq_ok
      (x := compile (.plain []) ⟨.builtin .default, none, true⟩ .builtin .layered)
      (s := ⟨.unset, []⟩) (by decide +kernel)
    obtain ⟨stats, c, hfirst, hstill, -⟩ := compile_settles _ _ _ _ _ compiled ht (.inl rfl)
      (fun _ _ _ hop hread _ => Topology.isOutput_of_unread hop hread) hrun .initial _
    exact ⟨compiled, _, hrun, stats, c, hfirst, hstill⟩

/-- A layer of constants, which the host does not compute, behind one that it does. -/
def Topology.precomputed : Topology :=
  ⟨[⟨"d", Padding.none, .data (.dense .f32 .bfyx ⟨1, 1, 1, 1⟩) (.f32 #[Single.one])⟩,
    ⟨"w", Padding.none, .data (.dense .f32 .oiyx ⟨1, 1, 1, 1⟩) (.f32 #[Single.one])⟩,
    ⟨"s", Padding.none, .softmax ⟨"d", .x⟩⟩,
    ⟨"c", Padding.none, .fullyConnected ⟨"s", "w", none, Activation.none⟩⟩]⟩

/-- Five reorders in a row, back and forth, and behind each a dead end that undoes it. -/
def Topology.ladder : Topology :=
  let forth := Layout.dense .f32 .yxfb ⟨1, 1, 1, 1⟩
  let back := Layout.dense .f32 .bfyx ⟨1, 1, 1, 1⟩
  ⟨[⟨"x", Padding.none, .inputLayout back⟩, ⟨"o", Padding.none, .softmax ⟨"x", .x⟩⟩,
    ⟨"d", Padding.none, .data back (.f32 #[Single.one])⟩,
    .reorder "a" "d" forth Padding.none, .reorder "undo_a" "a" back Padding.none,
    .reorder "b" "a" back Padding.none, .reorder "undo_b" "b" forth Padding.none,
    .reorder "c" "b" forth Padding.none, .reorder "undo_c" "c" back Padding.none,
    .reorder "e" "c" back Padding.none, .reorder "undo_e" "e" forth Padding.none,
    .reorder "f" "e" forth Padding.none, .reorder "undo_f" "f" back Padding.none]⟩

/-- Exposing all nodes makes an output of a constant that nothing but a constant reads, so that it is
folded by one more pass.  And a dead end that is kept goes in one round of cleanup and lets the one
before it go in the next, which takes a fifth round for the ladder. -/
theorem compile_unsettled :
    (∃ compiled session', (compile (.plain []) ⟨.builtin .default, some .reference, true⟩ .builtin
        .precomputed).run.run ⟨.unset, []⟩ = (.ok compiled, session') ∧
      ∃ stats c, (Pass.redundantReorders.run ⟨.builtin .default, some .reference, true⟩).run.run
          ⟨compiled.program, .initial, session'⟩ = (.ok stats, c) ∧ stats.changed = false ∧
        ∃ stats' c', (Pass.constants.run ⟨.builtin .default, some .reference, true⟩).run.run c
          = (.ok stats', c') ∧ stats'.changed = true) ∧
    ∃ compiled session', (compile (.plain ["o"]) ⟨.builtin .default, none, true⟩ .builtin
        .ladder).run.run ⟨.unset, []⟩ = (.ok compiled, session') ∧
      ∃ stats c, (Pass.redundantReorders.run ⟨.builtin .default, none, true⟩).run.run
        ⟨compiled.program, .initial, session'⟩ = (.ok stats, c) ∧ stats.changed = true := by
  constructor
  · let env : Environment := ⟨.builtin .default, some .reference, true⟩
    obtain ⟨compiled, session', hrun, hagain⟩ := exists_run_of_map
      (x := compile (.plain []) env .builtin .precomputed) (s := ⟨.unset, []⟩)
      (f := fun compiled session' =>
        let first := (Pass.redundantReorders.run env).run.run ⟨compiled.program, .initial, session'⟩
        first.1.toOption.map fun stats => (stats.changed,
          ((Pass.constants.run env).run.run first.2).1.toOption.map (·.changed)))
      (b := some (false, some true)) (by decide +kernel)
    obtain ⟨stats, c, hfirst, hstats⟩ := exists_run_of_map (x := Pass.redundantReorders.run env)
      (f := fun stats c => (stats.changed,
        ((Pass.constants.run env).run.run c).1.toOption.map (·.changed))) hagain
    obtain ⟨hstill, hsecond⟩ := Prod.mk.inj hstats
    obtain ⟨stats', c', hsecond, hchanged⟩ := exists_run_of_map (x := Pass.constants.run env)
      (f := fun stats _ => stats.changed) hsecond
    exact ⟨compiled, session', hrun, stats, c, hfirst, hstill, stats', c', hsecond, hchanged⟩
  · let env : Environment := ⟨.builtin .default, none, true⟩
    obtain ⟨compiled, session', hrun, hagain⟩ := exists_run_of_map
      (x := compile (.plain ["o"]) env .builtin .ladder) (s := ⟨.unset, []⟩)
      (f := fun compiled session' => ((Pass.redundantReorders.run env).run.run
        ⟨compiled.program, .initial, session'⟩).1.toOption.map (·.changed))
      (b := some true) (by decide +kernel)
    obtain ⟨stats, c, hfirst, hchanged⟩ := exists_run_of_map (x := Pass.redundantReorders.run env)
      (f := fun stats _ => stats.changed) hagain
    exact ⟨compiled, session', hrun, stats, c, hfirst, hchanged⟩

end NetPlan

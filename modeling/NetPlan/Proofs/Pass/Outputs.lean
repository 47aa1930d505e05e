import NetPlan.Proofs.Pass.Faithful
import NetPlan.Proofs.Pass.Rewrite

/-!
# Proofs/Pass/Outputs — outputs through a compilation

A node that goes is no output, or hands its mark and its id on together; a node that is replaced leaves
both to the one in its place, and a new node has no mark.  So no rewrite changes which ids are marked
(`Rewrite.marks`), and at the end the outputs are those that were asked for.

`compile_outputs` — whatever the network, the selector, the evaluator and the level of optimization.
-/

namespace NetPlan

open Program Edit Preferences

namespace Pass

variable {p q : Program} {m m' : List Entry} {id input norm scale : String} {c : Compilation}
  {env : Environment}

/-! ## Rewrites -/

theorem Merged.marks {bound : Bool} (h : Merged p q bound id) (hl : p.Linked) :
    q.isMarked = p.isMarked := by
  obtain ⟨input, survivor, format, element, padding, r, s, hex, -, -, hwork, -, hplanned, -⟩ :=
    h.steps
  rw [hplanned.marks, hwork.marks, hex.marks hl]

theorem Fused.marks {prim : Primitive} (h : Fused p q id norm scale prim) :
    q.isMarked = p.isMarked := by
  obtain ⟨q₁, q₂, q₃, h₁, h₂, h₃, h₄⟩ := h.steps
  have hmarks₁ : q₁.isMarked norm = false := by rw [h₁.marks, h.norm_unmarked]
  have hmarks₂ : q₂.isMarked id = false := by rw [h₂.marks hmarks₁, h₁.marks, h.unmarked]
  rw [h₄.1.marks, h₃.marks hmarks₂, h₂.marks hmarks₁, h₁.marks]

theorem Absorbed.marks (h : Absorbed p q id input) : q.isMarked = p.isMarked := by
  obtain ⟨q₁, q₂, a, padding, -, hby, hwork, -, hmoved⟩ := h.steps
  rw [hmoved.1.marks, hwork.marks]
  funext j
  rw [hby.marks]
  split
  case isTrue hj => rw [hj, h.unmarked]
  case isFalse => rfl

theorem Served.marks {next : String} {index : Nat} {made : Option String}
    (h : Served p q m m' next index made) : q.isMarked = p.isMarked := by
  cases h with
  | notNeeded same => rw [same]
  | cached _ _ _ placed => exact placed.elim (·.marks) (·.marks)
  | new _ inserted => exact inserted.marks

theorem Padded.marks (h : Padded p q id) : q.isMarked = p.isMarked := by
  cases h with
  | none same => rw [same]
  | producer input padding work kept => exact work.marks
  | reorder prim source layout padding reader shape named inserted => exact inserted.marks

/-- **No rewrite changes which ids are marked.** -/
theorem Rewrite.marks (h : Rewrite p m q m') (hw : p.WellFormed) : q.isMarked = p.isMarked := by
  cases h with
  | touched hq => exact hq.marks
  | sorted hq => exact hq.marks
  | cleared hq unmarked => exact hq.marks (unmarked hw)
  | fused hq => exact hq.marks
  | absorbed hq => exact hq.marks
  | merged hq => exact hq.marks hw.toLinked
  | dropped hq => exact hq.extracted.marks hw.toLinked
  | served _ hq => exact hq.marks
  | padded hq => exact hq.marks
  | folded hq =>
    obtain ⟨prim, -, hreplaced⟩ := hq.steps
    exact hreplaced.marks
  | swept _ unmarked hq => exact hq.marks unmarked

/-! ## Passes -/

/-- A graph as passes need it whose marks are those of another. -/
structure Remains (p₀ p : Program) (m : List Entry) : Prop extends Based p m where
  wellFormed : p.WellFormed
  marks : p.isMarked = p₀.isMarked

variable {p₀ : Program}

theorem Remains.rewrite (h : Remains p₀ p m) (hq : Rewrite p m q m') : Remains p₀ q m' :=
  ⟨hq.based h.toBased, (hq.kept h.linked).wellFormed h.wellFormed,
    (hq.marks h.wellFormed).trans h.marks⟩

theorem Remains.rewritten (h : Remains p₀ p m) (hq : Rewritten p m q m') : Remains p₀ q m' :=
  Rewrites.invariant (fun hp hr => hp.rewrite hr) h hq.rewrites

/-- Other plans for the same graph. -/
theorem Remains.sameGraph (h : Remains p₀ p m) (hq : SameGraph p q)
    (marks : q.isMarked = p.isMarked) : Remains p₀ q m :=
  ⟨⟨h.toSound.kept hq.kept, hq.ranked h.ranked, h.numbered⟩, hq.kept.wellFormed h.wellFormed,
    marks.trans h.marks⟩

theorem remains_reorderWeights (h : Remains p₀ c.program c.preferences.made) :
    Ends (reorderWeights env) (fun _ c' => Remains p₀ c'.program c'.preferences.made)
      (fun e _ => e.closes = false) c := by
  refine reorderWeights_ends (Remains p₀) (fun hp => ⟨hp.linked, hp.coherent⟩)
    (fun hp hq => hp.sameGraph hq.toSameGraph hq.marks) (fun hp hindex hq => ?_)
    (fun hp hq _ => hp.sameGraph hq.toSameGraph hq.marks) env h
  have hweighted := isWeighted_of_mem_weightSlotsOf hindex
  cases hq with
  | unchanged served => exact hp.rewrite (.served hweighted served)
  | reordered p' r served planned =>
    exact (hp.rewrite (.served hweighted served)).sameGraph planned.toSameGraph planned.marks

/-- **The standard pipeline leaves the outputs marked.** -/
theorem remains_standardPipeline {optimize : Bool} (h : Based c.program c.preferences.made)
    (hw : c.program.WellFormed) :
    Ends (runSteps env (standardPipeline optimize))
      (fun _ c' => Remains c.program c'.program c'.preferences.made) (fun e _ => e.closes = false)
      c := by
  have hstart : Remains c.program c.program c.preferences.made := ⟨h, hw, rfl⟩
  refine ends_standardPipeline (J := fun d => Remains c.program d.program d.preferences.made)
    (K := fun d => Remains c.program d.program d.preferences.made) ?_ (fun d hd => ?_)
    (fun _ hd => remains_reorderWeights hd) fun d hd => ?_
  · exact (rewrites_runSteps env _ c (isRewriting_front optimize) h).imp_good fun _ _ hr =>
      hstart.rewritten hr.1
  · refine (bindAll_ends env hd.linked hd.coherent).imp_good fun _ d' hbound => ?_
    rw [hbound.2]
    exact hd.sameGraph hbound.1.toSameGraph hbound.1.marks
  · exact (rewrites_runSteps env cleanup d (by decide) hd.toBased).imp_good fun _ _ hr =>
      hd.rewritten hr.1

end Pass

/-! ## Compilations -/

namespace Topology

/-- The outputs that are asked for: those that are named, or else all that nothing reads. -/
def outputs (t : Topology) (named : List String) : List String :=
  if named = [] then
    (t.primitives.map (·.id)).filter fun id => !t.primitives.any (·.arguments.contains id)
  else named

theorem mem_outputs {t : Topology} {named : List String} {id : String} :
    id ∈ t.outputs named ↔ t.IsOutput named id := by
  unfold outputs IsOutput
  split
  · rw [List.mem_filter]
    refine and_congr ?_ ?_
    · simp [contains]
    · have hany : (!t.primitives.any (·.arguments.contains id)) = true ↔
          ∀ prim ∈ t.primitives, id ∉ prim.arguments := by simp
      rw [hany]
      refine ⟨fun h u hu => ?_, fun h prim hprim hread => h prim.id ⟨prim, hprim, rfl, hread⟩⟩
      obtain ⟨prim, hprim, -, hread⟩ := hu
      exact h prim hprim hread
  · rfl

end Topology

theorem BuildOptions.repeated?_eq_none_iff : ∀ {seen ids : List String},
    repeated? seen ids = none ↔ ids.Nodup ∧ ∀ id ∈ ids, id ∉ seen
  | seen, [] => by simp [repeated?]
  | seen, id :: ids => by
      rw [repeated?]
      split
      case isTrue h => simp [List.contains_iff_mem.mp h]
      case isFalse h =>
        have hnot : id ∉ seen := fun hmem => h (List.contains_iff_mem.mpr hmem)
        rw [repeated?_eq_none_iff, List.nodup_cons, List.forall_mem_cons]
        simp only [List.mem_cons, not_or]
        constructor
        · rintro ⟨hnodup, hids⟩
          exact ⟨⟨fun hmem => (hids id hmem).1 rfl, hnodup⟩, hnot, fun j hj => (hids j hj).2⟩
        · rintro ⟨⟨hid, hnodup⟩, -, hids⟩
          exact ⟨hnodup, fun j hj => ⟨fun he => hid (he ▸ hj), hids j hj⟩⟩

/-- Valid options name no output twice. -/
theorem BuildOptions.nodup_of_validate {o : BuildOptions} (h : o.validate = .ok ()) :
    o.outputs.Nodup := by
  unfold validate problem? at h
  split at h
  · cases h
  case h_2 hnone =>
    split at hnone
    · cases hnone
    split at hnone
    · cases hnone
    split at hnone
    · cases hnone
    case h_2 hrepeated => exact (repeated?_eq_none_iff.mp hrepeated).1

theorem Topology.Distinct.nodup_outputs {t : Topology} (ht : t.Distinct) {named : List String}
    (hn : named.Nodup) : (t.outputs named).Nodup := by
  unfold outputs
  split
  · exact ht.filter _
  · exact hn

/-- The marks of what is compiled are those that were asked for. -/
theorem remains_compile {o : BuildOptions} {env : Environment} {b : Behaviours} {t : Topology}
    {session : Session} (ht : t.Distinct) (hdebug : env.debug = false) :
    Ends (compile o env b t)
      (fun compiled _ => compiled.program.WellFormed ∧
        ∀ j, compiled.program.isMarked j = true ↔ t.IsOutput o.outputs j)
      (fun _ _ => True) session := by
  refine (ends_compile ht
    (fun p => (Pass.Based p [] ∧ p.WellFormed) ∧ ∀ j, p.isMarked j = true ↔ t.IsOutput o.outputs j)
    (fun p => p.WellFormed ∧ ∀ j, p.isMarked j = true ↔ t.IsOutput o.outputs j)
    (fun _ _ => trivial) (fun p hbuilt => ?_) (fun p hp => ?_) (fun hp => hp.1.toLinked)
    (fun hp hq => ?_) (fun hexpose => ?_) fun _ _ => trivial).imp_good fun _ _ hc => hc.1
  · exact (prepare_effect hbuilt.wellFormed.toLinked o.outputs).imp_good fun _ q hq =>
      ⟨⟨hbuilt.based hq.1, hq.1.kept.wellFormed hbuilt.wellFormed⟩, fun j =>
        (hq.2 j).trans (hbuilt.mem_requestedOutputs ht)⟩
  · obtain ⟨⟨hbased, hw⟩, hmarks⟩ := hp
    refine (Pass.remains_standardPipeline (c := ⟨p, .initial, session⟩) hbased hw).imp_good
      fun _ c hc => ⟨hc.wellFormed, fun j => ?_⟩
    rw [hc.marks]
    exact hmarks j
  · obtain ⟨hw, hmarks⟩ := hp
    refine ⟨hq.kept.wellFormed hw, fun j => ?_⟩
    rw [hq.marks]
    exact hmarks j
  · rw [hdebug] at hexpose
    cases hexpose

/-- **Outputs survive compilation**: what is compiled lists the outputs that were asked for, each names
a node that is marked, and no other node is. -/
theorem compile_outputs (o : BuildOptions) (env : Environment) (b : Behaviours) (t : Topology)
    (session session' : Session) (compiled : Compiled) (ht : t.Distinct)
    (ho : o.validate = .ok ()) (hdebug : env.debug = false)
    (hrun : (compile o env b t).run.run session = (.ok compiled, session')) :
    compiled.program.outputs.Perm (t.outputs o.outputs) ∧
      ∀ id, id ∈ t.outputs o.outputs ↔
        ∃ n, compiled.program.node? id = some n ∧ n.isOutput = true := by
  have hends := @remains_compile o env b t session ht hdebug
  rw [Ends, hrun] at hends
  obtain ⟨hw, hmarks⟩ := hends
  have hmem : ∀ id, id ∈ t.outputs o.outputs ↔ compiled.program.isMarked id = true := fun id => by
    rw [Topology.mem_outputs, hmarks]
  refine ⟨(List.perm_ext_iff_of_nodup hw.outputs_nodup
    (ht.nodup_outputs (BuildOptions.nodup_of_validate ho))).mpr fun id => ?_, fun id => ?_⟩
  · rw [hw.mem_outputs, hmem]
  · rw [hmem, isMarked]
    cases compiled.program.node? id with
    | none => simp [Node.markIn]
    | some n => simp [Node.markIn]

/-- An optimized build of the endpoints: the copy that is one goes, and what it copied is the output
under its id. -/
theorem compile_outputs_corrected : ∃ compiled session',
    (compile { BuildOptions.plain [] with optimize := true } ⟨.builtin .default, none, false⟩
      .builtin .corrected).run.run ⟨.unset, []⟩ = (.ok compiled, session') ∧
    compiled.program.contains "s" = false ∧
    compiled.program.outputs.Perm (Topology.corrected.outputs []) ∧
    ∀ id, id ∈ Topology.corrected.outputs [] ↔
      ∃ n, compiled.program.node? id = some n ∧ n.isOutput = true := by
  obtain ⟨compiled, hrun⟩ := exists_run_eq_ok
    (x := compile { BuildOptions.plain [] with optimize := true }
      ⟨.builtin .default, none, false⟩ .builtin .corrected)
    (s := ⟨.unset, []⟩) (by decide +kernel)
  have hgone : ((compile { BuildOptions.plain [] with optimize := true }
      ⟨.builtin .default, none, false⟩ .builtin .corrected).run.run ⟨.unset, []⟩).1.toOption.map
      (·.program.contains "s") = some false := by
    decide +kernel
  rw [hrun] at hgone
  exact ⟨compiled, _, hrun, Option.some.inj hgone, compile_outputs
    { BuildOptions.plain [] with optimize := true } ⟨.builtin .default, none, false⟩ .builtin
    .corrected ⟨.unset, []⟩ _ compiled (by unfold Topology.Distinct; decide) (by decide) rfl hrun⟩

end NetPlan

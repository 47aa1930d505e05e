import NetPlan.Proofs.Graph.Build
import NetPlan.Proofs.Graph.Changes
import NetPlan.Proofs.Pass.Coherence

/-!
# Proofs/Layout/Coherence — caches stay right

A cached layout is right when it is the fresh one.  Whoever edits a program has to drop the caches
that no longer hold, and every edit and every pass does:

* `coherent_edit` — a change that succeeds and leaves no cycle leaves a coherent program;
* `Pass.sound_run` — so does every pass;
* `layout_eq_freshLayout` — and in a coherent program a layout is computed, with the cache, to just
  what it is without one.
-/

namespace NetPlan

open Program

namespace Edit

variable {p : Program} {source id next : String} {prim : Primitive} {index : Nat}

/-! ## A node put in front of itself -/

/-- **A reorder that is put in front of itself reads itself.** -/
theorem mem_depsOf_addIntermediate (hself : prim.id = next) :
    Ends (addIntermediate prim next index) (fun _ q => next ∈ q.depsOf next)
      (fun _ _ => True) p := by
  rw [addIntermediate, ends_bind, ends_node]
  refine ⟨fun n hn => ?_, fun _ => trivial⟩
  split
  · trivial
  rw [ends_bind, placeIntermediate, ends_bind, ends_get, hself, hn]
  dsimp only
  split
  · trivial
  rw [ends_pure, ends_bind]
  refine replaceDependency_effect.imp (fun _ q hq => ?_) fun _ _ _ => trivial
  obtain ⟨-, -, -, hindex, -, -, -, hdeps⟩ := hq
  refine sameWiring_inheritFlags.imp (fun _ r hr => ?_) fun _ _ _ => trivial
  rw [hr.deps, hdeps, if_pos rfl]
  exact List.mem_set hindex next

end Edit

/-! ## Changes -/

namespace Change

open Edit

variable {p : Program}

/-- **A change without a cycle leaves the caches right.**  What does not fit leaves a node that reads
itself. -/
theorem coherent_edit (hl : p.Linked) (ha : p.Acyclic) (hc : p.Coherent) (c : Change) :
    Ends c.edit (fun _ q => q.Acyclic → q.Coherent) (fun _ _ => True) p := by
  by_cases hfit : c.Fits p
  · exact (ends_edit hl c hfit).imp (fun _ q hq _ => hq.coherent hc) fun _ _ _ => trivial
  cases c with
  | replaceDependency user index new =>
    have hself : new = user := not_not.mp hfit
    refine replaceDependency_effect.imp (fun _ q hq hq' => ?_) fun _ _ _ => trivial
    obtain ⟨-, -, -, hindex, -, -, -, hdeps⟩ := hq
    refine absurd ?_ (hq'.not_mem_self user)
    rw [hdeps, if_pos rfl, hself]
    exact List.mem_set hindex user
  | replaceDependencyOf user old new =>
    have hself : new = user := not_not.mp hfit
    refine replaceDependencyOf_effect.imp (fun _ q hq hq' => ?_) fun _ _ _ => trivial
    obtain ⟨hrew, -, -, -, -, hdeps⟩ := hq
    by_cases hold : old ∈ p.depsOf user
    · refine absurd ?_ (hq'.not_mem_self user)
      rw [hdeps, if_pos rfl, hself]
      exact List.mem_map.mpr ⟨old, hold, if_pos rfl⟩
    · exact (hrew hl fun hmem => absurd hmem hold).coherent hc
  | addIntermediate prim next index =>
    exact (mem_depsOf_addIntermediate (not_not.mp hfit)).imp
      (fun _ q hq hq' => absurd hq (hq'.not_mem_self next)) fun _ _ _ => trivial
  | extract id => exact absurd (ha.extractable id) hfit
  | _ => exact absurd trivial hfit

end Change

/-! ## Layouts -/

/-- **With the cache a layout is what it is without**, or fails as it does without, and caches are
all that changes. -/
theorem layout_eq_freshLayout {p : Program} (hc : p.Coherent) (id : String) :
    ∃ q, (Edit.layout id).run.run p = (p.freshLayout id, q) ∧ q.Coherent ∧
      q.uncached = p.uncached := by
  have hends := Edit.layout_ends id hc
  unfold Ends at hends
  generalize (Edit.layout id).run.run p = out at hends ⊢
  obtain ⟨e | l, q⟩ := out
  · exact ⟨q, by rw [hends.2], hends.1.coherent, hends.1.same⟩
  · exact ⟨q, by rw [hends.2], hends.1.coherent, hends.1.same⟩

/-- **Caches stay right.**  From a well-formed acyclic coherent program, a change that succeeds and
leaves no cycle, and a pass that succeeds, leave a coherent one; and in every coherent program a
layout is computed to just what it is without a cache. -/
theorem coherent_everywhere :
    (∀ p : Program, p.WellFormed → p.Acyclic → p.Coherent →
      (∀ (c : Change) (q : Program), c.edit.run.run p = (.ok (), q) → q.Acyclic → q.Coherent) ∧
      ∀ (pass : Pass) (env : Environment) (preferences : Preferences) (session : Session)
        (stats : PassStats) (c : Compilation),
        (pass.run env).run.run ⟨p, preferences, session⟩ = (.ok stats, c) → c.program.Coherent) ∧
    ∀ (p : Program) (id : String), p.Coherent →
      ∃ q, (Edit.layout id).run.run p = (p.freshLayout id, q) ∧ q.Coherent ∧
        q.uncached = p.uncached := by
  refine ⟨fun p hw ha hc => ⟨fun c q hq => ?_, fun pass env preferences session stats c hrun => ?_⟩,
    fun p id hc => layout_eq_freshLayout hc id⟩
  · have hends := Change.coherent_edit hw.toLinked ha hc c
    rw [Ends, hq] at hends
    exact hends
  · have hends := Pass.sound_run (c := ⟨p, preferences, session⟩) env pass ⟨hw.toLinked, hc⟩
      (ha.ranked hw.toLinked)
    rw [Ends, hrun] at hends
    exact hends.coherent

/-- An input, a copy of it without effect, and a reader of the copy. -/
def Topology.copied : Topology :=
  ⟨[⟨"a", Padding.none, .inputLayout (.dense .f32 .bfyx ⟨1, 1, 1, 1⟩)⟩,
    ⟨"b", Padding.none, .reorder ⟨"a", .bfyx, .f32, []⟩⟩,
    ⟨"c", Padding.none, .softmax ⟨"b", .x⟩⟩]⟩

/-- The graph of a topology with all its layouts, or no nodes if it has none. -/
def Program.laidOut (t : Topology) : Program :=
  match Program.ofTopology t .builtin with
  | .ok p =>
    match Edit.layoutAll.run.run p with
    | (.ok _, q) => q
    | (.error _, _) => .empty .builtin
  | .error _ => .empty .builtin

theorem Program.laidOut_spec {t : Topology} (ht : t.Distinct) :
    (laidOut t).WellFormed ∧ (laidOut t).Coherent := by
  have hempty : (empty .builtin).WellFormed ∧ (empty .builtin).Coherent :=
    ⟨wellFormed_empty _, fun _ _ h => nomatch h⟩
  rw [laidOut]
  obtain ⟨p, hp, hbuilt⟩ | ⟨e, he, -⟩ := ofTopology_ends ht .builtin
  · have hends := Edit.layoutAll_effect hbuilt.coherent
    rw [Ends] at hends
    rw [hp]
    dsimp only
    split
    case h_1 q hq =>
      rw [hq] at hends
      exact ⟨(hends.touched hbuilt.wellFormed.toLinked).kept.wellFormed hbuilt.wellFormed,
        hends.coherent⟩
    case h_2 => exact hempty
  · rw [he]
    exact hempty

/-- The compilation of a topology before the first pass. -/
def Compilation.ofTopology (t : Topology) : Compilation := ⟨.laidOut t, .initial, ⟨.unset, []⟩⟩

theorem Compilation.wellFormed_ofTopology {t : Topology} (ht : t.Distinct) :
    (ofTopology t).program.WellFormed :=
  (Program.laidOut_spec ht).1

/-- The same with some nodes as outputs. -/
def Compilation.exposing (t : Topology) (outputs : List String) : Compilation :=
  { ofTopology t with program := ((Edit.setOutputs outputs).run.run (.laidOut t)).2 }

theorem Compilation.exposing_spec {t : Topology} (ht : t.Distinct) (outputs : List String) :
    (exposing t outputs).program.WellFormed ∧ (exposing t outputs).program.Coherent := by
  obtain ⟨hw, hc⟩ := Program.laidOut_spec ht
  have hkept : Program.Kept (.laidOut t) (exposing t outputs).program :=
    (Edit.setOutputs_effect hw.toLinked outputs).final _ (fun _ _ hq => hq.1.kept)
      fun _ _ hq => hq.2.kept
  exact ⟨hkept.wellFormed hw, hkept.coherent hc⟩

/-- The copy can be extracted, and the pass that removes redundant reorders does; either way the
caches are right. -/
theorem coherent_copied :
    (Program.laidOut .copied).layoutOf "c" = some (.dense .f32 .bfyx ⟨1, 1, 1, 1⟩) ∧
      ((Change.extract "b").apply (.laidOut .copied)).Coherent ∧
      ((Pass.redundantReorders.run ⟨.builtin .default, none, false⟩).run.run
        ⟨.laidOut .copied, .initial, ⟨.unset, []⟩⟩).2.program.Coherent ∧
      ((Edit.layout "b").run.run (.laidOut .copied)).1
        = (Program.laidOut .copied).freshLayout "b" := by
  have hwhole := Program.laidOut_spec (t := .copied) (by unfold Topology.Distinct; decide)
  have hacyclic : (Program.laidOut .copied).Acyclic :=
    Program.acyclic_of_rank_ids (Program.laidOut .copied).ids.idxOf (by decide +kernel)
  obtain ⟨hedits, hpasses⟩ := coherent_everywhere.1 _ hwhole.1 hacyclic hwhole.2
  obtain ⟨q, hq, -⟩ := coherent_everywhere.2 _ "b" hwhole.2
  obtain ⟨_, hedit⟩ := exists_run_eq_ok (x := (Change.extract "b").edit)
    (s := .laidOut .copied) (by decide +kernel)
  obtain ⟨_, hpass⟩ := exists_run_eq_ok
    (x := Pass.redundantReorders.run ⟨.builtin .default, none, false⟩)
    (s := ⟨.laidOut .copied, .initial, ⟨.unset, []⟩⟩) (by decide +kernel)
  refine ⟨by decide +kernel, hedits (.extract "b") _ hedit ?_,
    hpasses .redundantReorders _ _ _ _ _ hpass, ?_⟩
  · exact Program.acyclic_of_rank_ids ((Change.extract "b").apply (.laidOut .copied)).ids.idxOf
      (by decide +kernel)
  · rw [hq]

end NetPlan

import NetPlan.Proofs.Pass.Chains
import NetPlan.Proofs.Pass.Counts
import NetPlan.Proofs.Pass.Sequence

/-!
# Proofs/Pass/Lineage — what becomes of the nodes when reorders go

Where a reorder is merged with its input or makes way for it, the input is left, under the id of the
reorder if that is an output.  So a node that is left may have had another id before.  The `Lineage` of
a node says which, and whether a reorder was merged into it since; an `Ancestry` says so for all nodes,
and `ancestry` reads it off the visits of the pass.

* `stems_contracted` — one rewrite, of either kind: a reorder is gone, every node that is left sees
  the layouts that it saw, and all but merged ones do what they did (`Stems`);
* `Stems.comp` — so it is after one rewrite behind the other;
* `removeRedundantReorders_lineage` — and so it is after the pass, which counts the reorders that are gone.
-/

namespace NetPlan

open Program Edit

namespace Program

variable {p q r : Program} {d e f : String}

/-- Node `e` of `q` has the layout that node `d` of `p` has, if it has one. -/
def LaidOutAs (p q : Program) (e d : String) : Prop :=
  ∀ l, p.freshLayout d = .ok l → q.freshLayout e = .ok l

theorem LaidOutAs.trans (h' : LaidOutAs q r f e) (h : LaidOutAs p q e d) : LaidOutAs p r f d :=
  fun l hl => h' l (h l hl)

end Program

namespace Pass

variable {p q r : Program} {c : Compilation} {id input u : String}

theorem isReorder_iff_kindOf : p.isReorder id ↔ p.kindOf id = some .reorder := by
  refine ⟨kindOf_of_isReorder, fun h => ?_⟩
  obtain ⟨op, hop, hk⟩ := exists_shapeOf_of_kindOf h
  cases op with
  | reorder r => exact ⟨r, hop⟩
  | _ => cases hk

/-! ## Lineages -/

/-- What a node was before: the id it had, and whether another reorder was merged into it since. -/
structure Lineage where
  origin : String
  absorbed : Bool
  deriving DecidableEq

/-- The lineages of nodes, by the ids they have now. -/
def Ancestry := String → Lineage

namespace Ancestry

/-- Every node is what it was. -/
def self : Ancestry := fun id => ⟨id, false⟩

/-- Two nodes became one, which was the input before. -/
def contraction (p : Program) (id input : String) (merged : Bool) : Ancestry := fun u =>
  if u = survivor p id input then ⟨input, merged⟩ else ⟨u, false⟩

/-- First `t`, then `t'`. -/
def comp (t t' : Ancestry) : Ancestry := fun u =>
  ⟨(t (t' u).origin).origin, (t' u).absorbed || (t (t' u).origin).absorbed⟩

theorem self_comp (t : Ancestry) : self.comp t = t :=
  funext fun u => by simp [comp, self]

theorem comp_self (t : Ancestry) : t.comp self = t :=
  funext fun u => by simp [comp, self]

theorem comp_assoc (t t' t'' : Ancestry) : (t.comp t').comp t'' = t.comp (t'.comp t'') :=
  funext fun u => by simp [comp, Bool.or_assoc]

theorem contraction_survivor {merged : Bool} :
    contraction p id input merged (survivor p id input) = ⟨input, merged⟩ := if_pos rfl

theorem contraction_of_ne {merged : Bool} (hid : u ≠ id) (hin : u ≠ input) :
    contraction p id input merged u = ⟨u, false⟩ :=
  if_neg fun he => (survivor_mem p id input).elim (fun hs => hid (he.trans hs))
    fun hs => hin (he.trans hs)

theorem contraction_congr {merged : Bool} (hm : q.isMarked = p.isMarked) :
    contraction q id input merged = contraction p id input merged :=
  funext fun u => by rw [contraction, contraction, survivor, survivor, hm]

end Ancestry

/-- What one visit makes of the nodes: if it succeeds and does something, the node and its input become
one. -/
def visited (s : Selector) (id : String) (c : Compilation) : Ancestry :=
  match ((visit s id).run.run c).1, c.program.depsOf id with
  | .ok true, [input] => .contraction c.program id input (merges s id c)
  | _, _ => .self

/-- What visits one after the other make of the nodes. -/
def ancestry (s : Selector) : List String → Compilation → Ancestry
  | [], _ => .self
  | id :: ids, c => (visited s id c).comp (ancestry s ids ((visit s id).run.run c).2)

/-- The nodes of `q` are nodes of `p`, as `t` says, and only reorders are gone.  A node that is left sees
the layouts that it saw; if no reorder was merged into it, it does what it did. -/
structure Stems (p q : Program) (t : Ancestry) : Prop where
  kept : Kept p q
  marks : q.isMarked = p.isMarked
  outputs : ∀ o, p.isMarked o = true → LaidOutAs p q o o
  there : ∀ u, q.contains u = true → p.contains (t u).origin = true
  distinct : ∀ u v, q.contains u = true → q.contains v = true → (t u).origin = (t v).origin → u = v
  gone : ∀ v, p.contains v = true →
    (∃ u, q.contains u = true ∧ (t u).origin = v) ∨ p.isReorder v
  /-- Only an output may have another id than before. -/
  named : ∀ u, q.contains u = true → (t u).origin = u ∨ p.isMarked u = true
  kinds : ∀ u, q.contains u = true → q.kindOf u = p.kindOf (t u).origin
  tasks : ∀ u, q.contains u = true → (t u).absorbed = false → q.taskOf u = p.taskOf (t u).origin
  slots : ∀ u, q.contains u = true →
    List.Forall₂ (LaidOutAs p q) (q.depsOf u) (p.depsOf (t u).origin)

namespace Stems

variable {t t' : Ancestry} (h : Stems p q t)
include h

/-- **One after the other.** -/
theorem comp (h' : Stems q r t') : Stems p r (t.comp t') where
  kept := h.kept.trans h'.kept
  marks := h'.marks.trans h.marks
  outputs o ho := (h'.outputs o (h.marks ▸ ho)).trans (h.outputs o ho)
  there u hu := h.there _ (h'.there u hu)
  distinct u v hu hv he :=
    h'.distinct u v hu hv (h.distinct _ _ (h'.there u hu) (h'.there v hv) he)
  gone v hv := by
    rcases h.gone v hv with ⟨w, hw, rfl⟩ | hreorder
    · rcases h'.gone w hw with ⟨u, hu, rfl⟩ | hreorder
      · exact Or.inl ⟨u, hu, rfl⟩
      · refine Or.inr ?_
        rw [isReorder_iff_kindOf, ← h.kinds w hw]
        exact isReorder_iff_kindOf.mp hreorder
    · exact Or.inr hreorder
  named u hu := by
    rcases h'.named u hu with he | hm
    · have hu' := h'.there u hu
      rw [he] at hu'
      rw [Ancestry.comp, he]
      exact h.named u hu'
    · exact Or.inr (h.marks ▸ hm)
  kinds u hu := (h'.kinds u hu).trans (h.kinds _ (h'.there u hu))
  tasks u hu hno := by
    obtain ⟨hno', hno⟩ := Bool.or_eq_false_iff.mp hno
    exact (h'.tasks u hu hno').trans (h.tasks _ (h'.there u hu) hno)
  slots u hu := forall₂_comp (fun _ _ _ he hd => he.trans hd) (h'.slots u hu)
    (h.slots _ (h'.there u hu))

/-- **A node that nothing was merged into has the layout it had.** -/
theorem layout (hu : q.contains u = true) (hno : (t u).absorbed = false) :
    LaidOutAs p q u (t u).origin := fun l hl => by
  obtain ⟨task, inputs, htask, hin, hlays⟩ := freshLayout_iff.mp hl
  refine freshLayout_iff.mpr
    ⟨task, inputs, (h.tasks u hu hno).trans htask, ?_, h.kept.behaviours ▸ hlays⟩
  exact forall₂_comp (fun _ _ i he hd => he i hd) (h.slots u hu) hin

end Stems

/-! ## One visit -/

/-- Other caches and flags leave every node what it was. -/
theorem stems_touched (h : Touched p q) : Stems p q .self where
  kept := h.kept
  marks := h.marks
  outputs o _ l hl := h.toSameGraph.freshLayout ▸ hl
  there u hu := h.contains ▸ hu
  distinct _ _ _ _ he := he
  gone v hv := Or.inl ⟨v, h.contains ▸ hv, rfl⟩
  named _ _ := Or.inl rfl
  kinds u _ := congrFun h.toSameGraph.kinds u
  tasks u _ _ := congrFun h.toSameGraph.tasks u
  slots u _ := by
    rw [h.deps]
    refine List.forall₂_same.mpr fun d _ l hl => ?_
    rw [h.toSameGraph.freshLayout]
    exact hl

/-- **A reorder and its input become one.**  If the two are merged the layout of the input changes, which
nothing else reads. -/
theorem stems_contracted {g : Task → Task} (merged : Bool) (h : Contracted p q id input g)
    (hl : p.Linked) (hid : p.isReorder id) (hkind : ∀ t, (g t).operation.kind = t.operation.kind)
    (hwork : merged = false → g = fun t => t) (hmerge : merged = true → p.Mergeable id input)
    (hlaid : ∀ j, (merged = true → j ≠ input) → LaidOutAs p q (onto p id input j) j) :
    Stems p q (.contraction p id input merged) where
  kept := h.kept
  marks := h.marks
  outputs o ho := by
    have hkept := hlaid o fun hm he => by
      rw [he, (hmerge hm).unmarked] at ho
      cases ho
    rwa [h.onto_of_marked ho] at hkept
  there u hu := by
    rcases h.exists_onto hu with rfl | ⟨hne, hne', hc⟩
    · rw [Ancestry.contraction_survivor]
      exact hl.contains_dep (h.only ▸ List.mem_singleton_self input)
    · rwa [Ancestry.contraction_of_ne hne hne']
  distinct u v hu hv he := by
    rcases h.exists_onto hu with rfl | ⟨hu₁, hu₂, -⟩ <;>
      rcases h.exists_onto hv with rfl | ⟨hv₁, hv₂, -⟩
    · rfl
    · rw [Ancestry.contraction_survivor, Ancestry.contraction_of_ne hv₁ hv₂] at he
      exact absurd he.symm hv₂
    · rw [Ancestry.contraction_survivor, Ancestry.contraction_of_ne hu₁ hu₂] at he
      exact absurd he hu₂
    · rwa [Ancestry.contraction_of_ne hu₁ hu₂, Ancestry.contraction_of_ne hv₁ hv₂] at he
  gone v hv := by
    by_cases hvid : v = id
    · exact Or.inr (hvid ▸ hid)
    by_cases hvin : v = input
    · exact Or.inl ⟨_, h.contains_survivor hl, by rw [Ancestry.contraction_survivor, hvin]⟩
    · refine Or.inl ⟨v, ?_, by rw [Ancestry.contraction_of_ne hvid hvin]⟩
      rw [contains_eq_isSome_taskOf, h.tasks v hvid hvin, ← contains_eq_isSome_taskOf, hv]
  named u hu := by
    rcases h.exists_onto hu with rfl | ⟨hne, hne', -⟩
    · rw [Ancestry.contraction_survivor, survivor]
      by_cases hm : p.isMarked id = true
      · exact Or.inr (by rw [if_pos hm, hm])
      · exact Or.inl (by rw [if_neg hm])
    · exact Or.inl (by rw [Ancestry.contraction_of_ne hne hne'])
  kinds u hu := by
    rcases h.exists_onto hu with rfl | ⟨hne, hne', -⟩
    · rw [Ancestry.contraction_survivor, h.kind_survivor hkind]
    · rw [Ancestry.contraction_of_ne hne hne', h.kind_of_ne hne hne']
  tasks u hu hno := by
    rcases h.exists_onto hu with rfl | ⟨hne, hne', -⟩
    · rw [Ancestry.contraction_survivor] at hno ⊢
      rw [h.task, hwork hno, Option.map_id']
    · rw [Ancestry.contraction_of_ne hne hne', h.tasks u hne hne']
  slots u hu := by
    rcases h.exists_onto hu with rfl | ⟨hne, hne', -⟩
    · rw [Ancestry.contraction_survivor, h.reads, ← h.map_onto hl, List.forall₂_map_left_iff,
        h.map_onto hl]
      exact List.forall₂_same.mpr fun d hd => hlaid d fun _ => hl.dep_ne hd
    · rw [Ancestry.contraction_of_ne hne hne', h.deps u hne hne', List.forall₂_map_left_iff]
      -- only the node that is gone read the input of merged ones
      exact List.forall₂_same.mpr fun d hd => hlaid d fun hm he =>
        hne ((hmerge hm).sole u (he ▸ hd))

theorem stems_joined {format : Format} {element : Element} {padding : Padding}
    (h : Joined p q id input format element padding) (hl : p.Linked) :
    Stems p q (.contraction p id input true) :=
  stems_contracted true h.toContracted hl h.mergeable.copy.isReorder
    (kind_merging format element padding) (fun hno => nomatch hno) (fun _ => h.mergeable)
    fun j hne l => h.freshLayout j l (hne rfl)

theorem stems_dropped (h : Dropped p q id input) (hl : p.Linked) :
    Stems p q (.contraction p id input false) :=
  stems_contracted false (h.extracted.contracted hl) hl h.copy.isReorder (fun _ => rfl)
    (fun _ => rfl) (fun hno => nomatch hno) fun _ _ _ => h.freshLayout hl

/-- A graph as the pass is given it: in order, with right caches and slots. -/
structure Straight (p : Program) : Prop extends Sequenced p where
  aligned : p.Aligned

theorem Straight.touched (h : Straight p) (hq : Touched p q) : Straight q :=
  ⟨h.toSequenced.sameGraph hq.toSameGraph hq.order, hq.toSameGraph.aligned h.aligned⟩

/-- **One visit** counts the reorder that is gone. -/
theorem visit_stems (s : Selector) (h : Straight c.program) :
    Ends (visit s id)
      (fun done d => Straight d.program ∧ Stems c.program d.program (visited s id c) ∧
        d.program.size + (if done then 1 else 0) = c.program.size) (fun _ _ => True) c := by
  have hl := h.linked
  refine ((visit_effect s hl h.ranked (Or.inl h.coherent)).and (ends_run _ c)).imp
    (fun done d hd => ?_) fun _ _ _ => trivial
  obtain ⟨⟨-, hdone⟩, hrun⟩ := hd
  cases done with
  | false =>
    have htouch := hdone.1.touched hl
    rw [visited, hrun]
    exact ⟨h.touched htouch, stems_touched htouch,
      size_eq_of_contains hl htouch.kept.linked htouch.contains⟩
  | true =>
    have hvisited : ∀ {input}, c.program.depsOf id = [input] →
        visited s id c = .contraction c.program id input (merges s id c) := fun hdeps => by
      rw [visited, hrun, hdeps]
    rcases hdone with ⟨hmerges, hq, -⟩ | ⟨hmerges, -, p, input, hcomp, hskip⟩
    · obtain ⟨input, format, element, padding, hj⟩ := hq.joined hl
      rw [hvisited hj.only, hmerges]
      exact ⟨⟨h.toSequenced.merged hq, hq.aligned h.aligned⟩, stems_joined hj hl,
        size_contracted hj.toContracted hl⟩
    · have htouch := hcomp.touched hl
      have hp := h.touched htouch
      have hdrop := hskip.dropped hp.coherent
      have hcon := hdrop.extracted.contracted hp.linked
      have hstems := (stems_touched htouch).comp (stems_dropped hdrop hp.linked)
      rw [Ancestry.self_comp, Ancestry.contraction_congr htouch.marks] at hstems
      rw [hvisited (htouch.deps ▸ hcon.only), hmerges]
      refine ⟨⟨hp.toSequenced.extracted hdrop.extracted, hdrop.extracted.aligned hp.aligned⟩,
        hstems, ?_⟩
      rw [if_pos rfl, size_contracted hcon hp.linked,
        size_eq_of_contains hl htouch.kept.linked htouch.contains]

/-! ## All visits -/

/-- **The pass** counts the reorders that are gone. -/
theorem removeRedundantReorders_stems (env : Environment) (h : Straight c.program) :
    Ends (removeRedundantReorders env)
      (fun stats d => Straight d.program ∧
        Stems c.program d.program (ancestry env.selector c.program.order.ids c) ∧
        stats.applied = stats.removed ∧ d.program.size + stats.removed = c.program.size)
      (fun _ _ => True) c := by
  rw [ends_removeRedundantReorders]
  -- what the visits made of the nodes by now, and what those to come make of them, is the ancestry
  refine (Transform.ends_countM_count (fun k ids d => Straight d.program ∧
      (∃ t : Ancestry, Stems c.program d.program t ∧
        t.comp (ancestry env.selector ids d) = ancestry env.selector c.program.order.ids c) ∧
      d.program.size + k = c.program.size) (fun k id rest d hd => ?_) _ 0 c
    ⟨h, ⟨.self, stems_touched (.refl h.linked), Ancestry.self_comp _⟩, rfl⟩).imp_good
    fun count d hd => ?_
  · obtain ⟨hstraight, ⟨t, ht, hcomp⟩, hsize⟩ := hd
    refine ((visit_stems env.selector hstraight).and (ends_run _ d)).imp (fun here e he => ?_)
      fun _ _ _ => trivial
    obtain ⟨⟨hstraight', hvisited, hsize'⟩, hrun⟩ := he
    refine ⟨hstraight', ⟨_, ht.comp hvisited, ?_⟩, by omega⟩
    rw [ancestry, hrun, ← Ancestry.comp_assoc] at hcomp
    exact hcomp
  · obtain ⟨hstraight, ⟨t, ht, hcomp⟩, hsize⟩ := hd
    rw [ancestry, Ancestry.comp_self] at hcomp
    refine ⟨hstraight, hcomp ▸ ht, ?_, ?_⟩
    · change count = c.program.size - d.program.size
      omega
    · change d.program.size + (c.program.size - d.program.size) = c.program.size
      omega

end Pass

/-- **Only reorders go, and layouts stay.**  Take a program in order with right caches and slots.  If the
pass over the reorders succeeds, it leaves such a program, with the same outputs in the same layouts, and
counts one rewrite for every reorder that is gone.  Every node that is left sees the layouts that it saw
in its slots, and has the layout that it had unless a reorder was merged into it. -/
theorem removeRedundantReorders_lineage {env : Environment} {c c' : Compilation} {stats : PassStats}
    (hw : c.program.WellFormed) (ho : c.program.isOrdered = true) (ha : c.program.Aligned)
    (hc : c.program.Coherent)
    (h : (Pass.removeRedundantReorders env).run.run c = (.ok stats, c')) :
    (c'.program.WellFormed ∧ c'.program.isOrdered = true ∧ c'.program.Aligned ∧
      c'.program.Coherent) ∧
    (stats.applied = stats.removed ∧ c'.program.size + stats.removed = c.program.size) ∧
    (∀ o, o ∈ c'.program.outputs ↔ o ∈ c.program.outputs) ∧
    (∀ o ∈ c.program.outputs, LaidOutAs c.program c'.program o o) ∧
    ∃ t, t = Pass.ancestry env.selector c.program.order.ids c ∧
      Pass.Stems c.program c'.program t ∧
      ∀ u, c'.program.contains u = true →
        List.Forall₂ (LaidOutAs c.program c'.program) (c'.program.argsOf u)
          (c.program.argsOf (t u).origin) ∧
        ((t u).absorbed = false → LaidOutAs c.program c'.program u (t u).origin) := by
  have hordered := (isOrdered_iff hw.toLinked).mp ho
  have hends := Pass.removeRedundantReorders_stems env
    (c := c) ⟨⟨⟨hw.toLinked, hc⟩, hordered⟩, ha⟩
  rw [Ends, h] at hends
  obtain ⟨hstraight, hstems, hcount, hsize⟩ := hends
  have hw' := hstems.kept.wellFormed hw
  refine ⟨⟨hw', (isOrdered_iff hstraight.linked).mpr hstraight.ordered, hstraight.aligned,
      hstraight.coherent⟩,
    ⟨hcount, hsize⟩, fun o => ?_, fun o hmem => ?_, _, rfl, hstems, fun u hu => ⟨?_, ?_⟩⟩
  · rw [hw'.mem_outputs, hw.mem_outputs, hstems.marks]
  · exact hstems.outputs o ((hw.mem_outputs o).mp hmem)
  · rw [hstraight.aligned u, ha]
    exact hstems.slots u hu
  · exact hstems.layout hu

/-- One output reads another reorder, and the other has the layout of its input. -/
def Topology.relabelled : Topology :=
  ⟨[⟨"in", Padding.none, .inputLayout (.dense .f32 .bfyx ⟨1, 3, 4, 4⟩)⟩,
    ⟨"a", Padding.none, .reorder ⟨"in", .yxfb, .f32, []⟩⟩,
    ⟨"b", Padding.none, .reorder ⟨"a", .byxf, .f32, []⟩⟩,
    ⟨"s", Padding.none, .softmax ⟨"in", .x⟩⟩,
    ⟨"t", Padding.none, .reorder ⟨"s", .bfyx, .f32, []⟩⟩]⟩

/-- What the outputs copy is left, under the ids of the outputs. -/
theorem removeRedundantReorders_relabelled : ∃ stats c',
    (Pass.removeRedundantReorders ⟨.builtin .default, none, false⟩).run.run
      (.exposing .relabelled ["b", "t"]) = (.ok stats, c') ∧
    stats.applied = 2 ∧ c'.program.ids = ["b", "in", "t"] ∧
    ∃ t, t "b" = ⟨"a", true⟩ ∧ t "t" = ⟨"s", false⟩ ∧
      Pass.Stems (Compilation.exposing .relabelled ["b", "t"]).program c'.program t ∧
      LaidOutAs (Compilation.exposing .relabelled ["b", "t"]).program c'.program "b" "b" ∧
      LaidOutAs (Compilation.exposing .relabelled ["b", "t"]).program c'.program "t" "s" := by
  obtain ⟨hw, hc⟩ := Compilation.exposing_spec (t := .relabelled)
    (by unfold Topology.Distinct; decide) ["b", "t"]
  obtain ⟨stats, c', hrun, hresult⟩ := exists_run_of_map
    (x := Pass.removeRedundantReorders ⟨.builtin .default, none, false⟩)
    (s := .exposing .relabelled ["b", "t"]) (f := fun stats c' => (stats.applied, c'.program.ids))
    (b := (2, ["b", "in", "t"])) (by decide +kernel)
  obtain ⟨hcount, hids⟩ := by simpa only [Prod.mk.injEq] using hresult
  obtain ⟨-, -, -, houtputs, t, ht, hstems, hlaid⟩ := removeRedundantReorders_lineage hw
    (by decide +kernel) (aligned_of_nodes (by decide +kernel)) hc hrun
  have hlineage : t "b" = ⟨"a", true⟩ ∧ t "t" = ⟨"s", false⟩ := by
    rw [ht]
    decide +kernel
  have hthere : c'.program.contains "t" = true := contains_iff_mem_ids.mpr (hids ▸ by decide)
  have hkept := (hlaid "t" hthere).2 (by rw [hlineage.2])
  rw [hlineage.2] at hkept
  exact ⟨stats, c', hrun, hcount, hids, t, hlineage.1, hlineage.2, hstems,
    houtputs "b" (by decide +kernel), hkept⟩

/-- A softmax behind a reorder, and an input. -/
def Topology.reformatted : Topology :=
  ⟨[⟨"x", Padding.none, .inputLayout (.dense .f32 .bfyx ⟨1, 3, 4, 4⟩)⟩,
    ⟨"r", Padding.none, .reorder ⟨"x", .yxfb, .f32, []⟩⟩,
    ⟨"s", Padding.none, .softmax ⟨"r", .x⟩⟩]⟩

/-- The reorder has the layout of the input in the cache, and the softmax its own. -/
def Compilation.reformatted : Compilation :=
  { exposing .reformatted ["s"] with
    program := ((exposing .reformatted ["s"]).program.claiming "r"
      (.dense .f32 .bfyx ⟨1, 3, 4, 4⟩)).claiming "s" (.dense .f32 .yxfb ⟨1, 3, 4, 4⟩) }

/-- **With a wrong layout in the cache a reorder goes that has to stay**, and the output gets another
layout, be it read off the cache or not. -/
theorem removeRedundantReorders_relabels : ∃ stats c',
    Compilation.reformatted.program.WellFormed ∧
    Compilation.reformatted.program.isOrdered = true ∧ Compilation.reformatted.program.Aligned ∧
    (Pass.removeRedundantReorders ⟨.builtin .default, none, false⟩).run.run .reformatted
      = (.ok stats, c') ∧
    stats.applied = 1 ∧ c'.program.ids = ["s", "x"] ∧ "s" ∈ c'.program.outputs ∧
    ((Edit.layout "s").run.run Compilation.reformatted.program).1.toOption
      = some (.dense .f32 .yxfb ⟨1, 3, 4, 4⟩) ∧
    ((Edit.layout "s").run.run c'.program).1.toOption = some (.dense .f32 .bfyx ⟨1, 3, 4, 4⟩) ∧
    ¬ LaidOutAs Compilation.reformatted.program c'.program "s" "s" := by
  obtain ⟨hw, -⟩ := Compilation.exposing_spec (t := .reformatted)
    (by unfold Topology.Distinct; decide) ["s"]
  obtain ⟨stats, c', hrun, hresult⟩ := exists_run_of_map
    (x := Pass.removeRedundantReorders ⟨.builtin .default, none, false⟩) (s := .reformatted)
    (f := fun stats c' => (stats.applied, c'.program.ids, c'.program.outputs,
      ((Edit.layout "s").run.run c'.program).1.toOption, (c'.program.freshLayout "s").toOption))
    (b := (1, ["s", "x"], ["s"], some (.dense .f32 .bfyx ⟨1, 3, 4, 4⟩),
      some (.dense .f32 .bfyx ⟨1, 3, 4, 4⟩))) (by decide +kernel)
  obtain ⟨hcount, hids, houtputs, hasked, hfresh⟩ := by simpa only [Prod.mk.injEq] using hresult
  refine ⟨stats, c', wellFormed_claiming (wellFormed_claiming hw _ _) _ _, by decide +kernel,
    aligned_of_nodes (by decide +kernel), hrun, hcount, hids, houtputs ▸ List.mem_singleton_self _,
    by decide +kernel, hasked, fun hkept => ?_⟩
  have hbefore : (Compilation.reformatted.program.freshLayout "s").toOption
      = some (.dense .f32 .yxfb ⟨1, 3, 4, 4⟩) := by decide +kernel
  rw [toOption_eq_some] at hbefore hfresh
  cases hfresh.symm.trans (hkept _ hbefore)

end NetPlan

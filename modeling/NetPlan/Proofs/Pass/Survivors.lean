import NetPlan.Proofs.Graph.Changes
import NetPlan.Proofs.Layout.Coherence
import NetPlan.Proofs.Pass.Trim

/-!
# Proofs/Pass/Survivors — what trimming leaves

A node leads out if there is a path of users from it to an output (`LeadsOut`).  Trimming leaves
these nodes and the inputs of the network.  What is removed is closed under users, so no node that
stays loses a dependency; only an input of the network that was given dependencies may, as it stays
whether it leads out or not.

* `Cleared.node?` — a node that stays loses edges to what went, and nothing else;
* `Cleared.needed` — what is needed for the outputs is still needed, so nothing more can be trimmed;
* `trimToOutputs_survivors` — the pass never fails, and leaves what it should.
-/

namespace NetPlan

open Program

namespace Program

variable {p : Program} {u : String}

/-- A path of users leads from a node to an output. -/
def LeadsOut (p : Program) (u : String) : Prop :=
  ∃ o ∈ p.outputs, Relation.ReflTransGen (fun d v => v ∈ p.usersOf d) u o

/-- A node leads out just if an output depends on it. -/
theorem leadsOut_iff_needed (h : p.Linked) : p.LeadsOut u ↔ p.Needed u := by
  have hedges : p.Reads = fun d v => v ∈ p.usersOf d :=
    funext fun d => funext fun v => propext (h.edges d v)
  rw [Needed, LeadsOut, hedges]

end Program

namespace Edit

variable {p q : Program} {doomed : List String} {u : String}

theorem Cleared.decide_notMem (h : Cleared p q doomed) (hu : p.contains u = true) :
    decide (u ∉ doomed) = q.contains u := by
  rw [Bool.eq_iff_iff, decide_eq_true_eq, h.contains_iff]
  exact (and_iff_left hu).symm

/-- **A node that stays** loses edges to what went, and nothing else. -/
theorem Cleared.node? (h : Cleared p q doomed) (hl : p.Linked) {m : Node}
    (hm : q.node? u = some m) : ∃ n, p.node? u = some n ∧ m = { n with
      dependencies := n.dependencies.filter q.contains
      users := n.users.filter q.contains
      layout := m.layout } := by
  obtain ⟨hu, hc⟩ := (h.contains_iff u).mp (contains_of_node? hm)
  obtain ⟨n, hn⟩ := Program.contains_iff.mp hc
  have hcore := h.core u
  have hargs := h.args u
  have hdeps := h.deps u
  have husers := h.users hl u
  rw [if_neg hu] at hcore hargs hdeps husers
  rw [coreOf_of_node? hm, coreOf_of_node? hn, Option.some.injEq] at hcore
  rw [argsOf_of_node? hm, argsOf_of_node? hn] at hargs
  rw [List.filter_congr fun d hd => h.decide_notMem (hl.contains_dep hd), depsOf_of_node? hm,
    depsOf_of_node? hn] at hdeps
  rw [List.filter_congr fun v hv => h.decide_notMem (hl.contains_user hv), usersOf_of_node? hm,
    usersOf_of_node? hn] at husers
  exact ⟨n, hn, Node.eq_of_core hcore hdeps husers rfl hargs⟩

/-- **What is needed for the outputs is still needed** when nothing of it went. -/
theorem Cleared.needed (h : Cleared p q doomed) (houtputs : ∀ o ∈ p.outputs, o ∈ q.outputs)
    (hdoomed : ∀ j ∈ doomed, ¬ p.Needed j) (hu : p.Needed u) : q.Needed u := by
  obtain ⟨o, ho, hpath⟩ := hu
  induction hpath using Relation.ReflTransGen.head_induction_on with
  | refl => exact ⟨o, houtputs o ho, .refl⟩
  | @head d v hd hv ih =>
    have hneeded : p.Needed v := ⟨o, ho, hv⟩
    obtain ⟨o', ho', hpath'⟩ := ih
    refine ⟨o', ho', hpath'.head ?_⟩
    rw [Reads, h.deps, if_neg fun hv => hdoomed v hv hneeded]
    exact List.mem_filter.mpr ⟨hd, decide_eq_true fun hd' => hdoomed d hd' (hneeded.dep hd)⟩

/-- What went is what is no longer there. -/
theorem Cleared.eq_filter (h : Cleared p q doomed) (hl : p.Linked)
    (hsub : doomed = p.order.ids.filter (· ∈ doomed)) :
    doomed = p.order.ids.filter fun j => !q.contains j := by
  refine hsub.trans (List.filter_congr fun j hj => ?_)
  rw [← h.decide_notMem (hl.order_contains j hj), decide_not, Bool.not_not]

/-- **Trimming never fails** where the outputs are there. -/
theorem trim_run (hw : p.WellFormed) : ∃ q doomed, trim.run.run p = (.ok doomed.length, q) ∧
    doomed = p.order.ids.filter (fun j => !q.contains j) ∧ Cleared p q doomed ∧
    (doomed = [] → q = p) ∧ ∀ u, u ∈ doomed ↔
      u ∈ p.order.ids ∧ ¬ p.Needed u ∧ ¬ ∃ l, p.shapeOf u = some (.inputLayout l) := by
  obtain ⟨count, q, hrun, doomed, rfl, -, hsub, hcleared, hsame, hdoomed⟩ :=
    Ends.exists_ok <| (trim_spec hw.toLinked).imp (fun _ _ hq => hq)
      fun _ _ ⟨_, o, hmem, hmissing⟩ => by
        have hmark := (hw.mem_outputs o).mp hmem
        rw [isMarked_of_not_contains hmissing] at hmark
        cases hmark
  exact ⟨q, doomed, hrun, hcleared.eq_filter hw.toLinked hsub, hcleared, hsame, hdoomed⟩

/-- Outputs are not removed. -/
theorem Cleared.mem_outputs (h : Cleared p q doomed) (hw : p.WellFormed)
    (hdoomed : ∀ j ∈ doomed, ¬ p.Needed j) (o : String) : o ∈ q.outputs ↔ o ∈ p.outputs := by
  have hmarks := h.marks fun j hj => Bool.eq_false_iff.mpr fun hm =>
    hdoomed j hj ⟨j, (hw.mem_outputs j).mpr hm, .refl⟩
  rw [(h.kept.wellFormed hw).mem_outputs, hmarks, hw.mem_outputs]

/-- **What was trimmed has nothing more to trim.** -/
theorem Cleared.trim_again (h : Cleared p q doomed) (hw : p.WellFormed)
    (hdoomed : ∀ u, u ∈ doomed ↔
      u ∈ p.order.ids ∧ ¬ p.Needed u ∧ ¬ ∃ l, p.shapeOf u = some (.inputLayout l)) :
    trim.run.run q = (.ok 0, q) := by
  obtain ⟨r, more, hrun, -, -, hsame, hmore⟩ := trim_run (h.kept.wellFormed hw)
  have hnil : more = [] := List.eq_nil_iff_forall_not_mem.mpr fun u hu => by
    obtain ⟨hmem, hneeded, hinput⟩ := (hmore u).mp hu
    rw [h.order, List.mem_filter, decide_eq_true_eq] at hmem
    rw [h.shapes, if_neg hmem.2] at hinput
    refine hmem.2 ((hdoomed u).mpr ⟨hmem.1, fun hn => hneeded ?_, hinput⟩)
    have hgone : ∀ j ∈ doomed, ¬ p.Needed j := fun j hj => ((hdoomed j).mp hj).2.1
    exact h.needed (fun o ho => (h.mem_outputs hw hgone o).mpr ho) hgone hn
  rw [hrun, hsame hnil, hnil]
  rfl

end Edit

open Edit

theorem Pass.run_trimToOutputs {env : Environment} {c : Compilation} {count : Nat} {q : Program}
    (hdebug : env.debug = false) (h : Edit.trim.run.run c.program = (.ok count, q)) :
    (Pass.trimToOutputs env).run.run c = (.ok (.ofCounts 0 count), { c with program := q }) := by
  have hends : Ends (Pass.trimToOutputs env)
      (fun stats c' => stats = .ofCounts 0 count ∧ c' = { c with program := q })
      (fun _ _ => False) c := by
    rw [Pass.trimToOutputs, hdebug]
    change Ends (liftM Edit.trim >>= fun n => pure (PassStats.ofCounts 0 n)) _ _ c
    rw [ends_bind, Transform.ends_liftM, Ends, h]
    exact ⟨rfl, rfl⟩
  obtain ⟨_, _, hrun, rfl, rfl⟩ := hends.exists_ok
  exact hrun

/-- **What trimming leaves.**  The pass comes to its end and changes the graph only.  A node stays
just if it is an input of the network or leads to an output; it keeps everything but its cached
layout, its users are those that stay, and its dependencies are all it had — if not, it is an input
of the network that was given some.  The order is the old one without what went, and the record of
removed nodes goes on with it.  Once more the pass does nothing. -/
theorem trimToOutputs_survivors {env : Environment} {c : Compilation} (hdebug : env.debug = false)
    (hw : c.program.WellFormed) (ho : c.program.isOrdered = true) :
    ∃ (stats : PassStats) (c' : Compilation),
      (Pass.trimToOutputs env).run.run c = (.ok stats, c') ∧ c' = { c with program := c'.program } ∧
      (∀ u, c'.program.contains u = true ↔
        ∃ n, c.program.node? u = some n ∧ (n.kind = .inputLayout ∨ c.program.LeadsOut u)) ∧
      (∀ u m, c'.program.node? u = some m → ∃ n, c.program.node? u = some n ∧
        m = { n with
          dependencies := n.dependencies.filter c'.program.contains
          users := n.users.filter c'.program.contains
          layout := m.layout } ∧
        ((n.kind = .inputLayout → n.dependencies = []) → m.dependencies = n.dependencies)) ∧
      c'.program.order.ids = c.program.order.ids.filter c'.program.contains ∧
      c'.program.isOrdered = true ∧ c'.program.WellFormed ∧
      c'.program.removed
        = c.program.removed ++ c.program.order.ids.filter (fun u => !c'.program.contains u) ∧
      stats = .ofCounts 0 (c.program.order.ids.filter fun u => !c'.program.contains u).length ∧
      (Pass.trimToOutputs env).run.run c' = (.ok {}, c') := by
  have hl := hw.toLinked
  obtain ⟨q, doomed, hrun, hgone, hcleared, -, hdoomed⟩ := trim_run hw
  have hordered := hcleared.ordered ((isOrdered_iff hl).mp ho)
  have hstays : ∀ u n, c.program.node? u = some n →
      (q.contains u = true ↔ n.kind = .inputLayout ∨ c.program.LeadsOut u) := fun u n hn => by
    have hmem := (((isOrdered_iff hl).mp ho).mem u).mpr (contains_of_node? hn)
    rw [hcleared.contains_iff, hdoomed, kind_eq_inputLayout_iff hn, leadsOut_iff_needed hl]
    have hc := contains_of_node? hn
    tauto
  refine ⟨_, _, Pass.run_trimToOutputs hdebug hrun, rfl, fun u => ?_, fun u m hm => ?_, ?_,
    (isOrdered_iff hcleared.kept.linked).mpr hordered, hcleared.kept.wellFormed hw, ?_, ?_,
    Pass.run_trimToOutputs (c := { c with program := q }) hdebug (hcleared.trim_again hw hdoomed)⟩
  · constructor
    · intro hu
      obtain ⟨n, hn⟩ := contains_iff.mp ((hcleared.contains_iff u).mp hu).2
      exact ⟨n, hn, (hstays u n hn).mp hu⟩
    · rintro ⟨n, hn, hleads⟩
      exact (hstays u n hn).mpr hleads
  · obtain ⟨n, hn, hsame⟩ := hcleared.node? hl hm
    refine ⟨n, hn, hsame, fun hinput => ?_⟩
    rw [hsame]
    rcases (hstays u n hn).mp (contains_of_node? hm) with hk | hleads
    · rw [hinput hk, List.filter_nil]
    refine List.filter_eq_self.mpr fun d hd => ?_
    rw [← depsOf_of_node? hn] at hd
    have hneeded := ((leadsOut_iff_needed hl).mp hleads).dep hd
    exact (hcleared.contains_iff d).mpr
      ⟨fun hd' => ((hdoomed d).mp hd').2.1 hneeded, hl.contains_dep hd⟩
  · exact hcleared.order.trans
      (List.filter_congr fun j hj => hcleared.decide_notMem (hl.order_contains j hj))
  · rw [hcleared.log, ← hgone]
  · rw [← hgone]

/-- A chain that goes on behind its output, with a node beside it and an input that is not read. -/
def Topology.branched : Topology :=
  ⟨[⟨"in", Padding.none, .inputLayout (.dense .f32 .bfyx ⟨1, 3, 4, 4⟩)⟩,
    ⟨"b", Padding.none, .softmax ⟨"in", .x⟩⟩, ⟨"c", Padding.none, .softmax ⟨"b", .x⟩⟩,
    ⟨"d", Padding.none, .softmax ⟨"c", .x⟩⟩, ⟨"side", Padding.none, .softmax ⟨"b", .x⟩⟩,
    ⟨"unread", Padding.none, .inputLayout (.dense .f32 .bfyx ⟨1, 1, 1, 1⟩)⟩]⟩

/-- What is behind the output and what is beside it goes, and the input that is not read stays. -/
theorem trimToOutputs_branched : ∃ stats c',
    (Pass.trimToOutputs ⟨.builtin .default, none, false⟩).run.run (.exposing .branched ["c"])
      = (.ok stats, c') ∧
    stats.removed = 2 ∧ c'.program.order.ids = ["unread", "in", "b", "c"] ∧
    c'.program.removed = ["side", "d"] ∧ c'.program.usersOf "b" = ["c"] ∧
    (Pass.trimToOutputs ⟨.builtin .default, none, false⟩).run.run c' = (.ok {}, c') := by
  obtain ⟨hw, -⟩ := Compilation.exposing_spec (t := .branched)
    (by unfold Topology.Distinct; decide) ["c"]
  obtain ⟨stats, c', hrun, hresult⟩ := exists_run_of_map
    (x := Pass.trimToOutputs ⟨.builtin .default, none, false⟩) (s := .exposing .branched ["c"])
    (f := fun stats c' => (stats.removed, c'.program.order.ids, c'.program.removed,
      c'.program.usersOf "b"))
    (b := (2, ["unread", "in", "b", "c"], ["side", "d"], ["c"])) (by decide +kernel)
  obtain ⟨hcount, horder, hremoved, husers⟩ := by simpa only [Prod.mk.injEq] using hresult
  obtain ⟨_, _, hrun', -, -, -, -, -, -, -, -, hagain⟩ :=
    @trimToOutputs_survivors ⟨.builtin .default, none, false⟩ _ rfl hw (by decide +kernel)
  rw [hrun] at hrun'
  cases hrun'
  exact ⟨stats, c', hrun, hcount, horder, hremoved, husers, hagain⟩

/-- An input with a chain of two nodes and a node beside it. -/
def Topology.crossed : Topology :=
  ⟨[⟨"y", Padding.none, .inputLayout (.dense .f32 .bfyx ⟨1, 1, 1, 1⟩)⟩,
    ⟨"u", Padding.none, .softmax ⟨"y", .x⟩⟩, ⟨"x", Padding.none, .softmax ⟨"u", .x⟩⟩,
    ⟨"o", Padding.none, .softmax ⟨"y", .x⟩⟩]⟩

/-- The end of the chain is made an input of the network, and keeps its dependency. -/
def Change.grounding : Change :=
  .replace "x" ⟨"x", Padding.none, .inputLayout (.dense .f32 .bfyx ⟨1, 1, 1, 1⟩)⟩ true

/-- The network with the second input, which only the first one's neighbour leads to. -/
def Compilation.crossed : Compilation :=
  { exposing .crossed ["o"] with
    program := Change.grounding.apply (exposing .crossed ["o"]).program }

/-- **An input that was given a dependency stays and loses it**, where what it read leads to no
output. -/
theorem trimToOutputs_loosens : ∃ stats c',
    Compilation.crossed.program.WellFormed ∧ Compilation.crossed.program.isOrdered = true ∧
    (Pass.trimToOutputs ⟨.builtin .default, none, false⟩).run.run .crossed = (.ok stats, c') ∧
    c'.program.contains "x" = true ∧ Compilation.crossed.program.depsOf "x" = ["u"] ∧
    c'.program.depsOf "x" = [] := by
  obtain ⟨hw, -⟩ := Compilation.exposing_spec (t := .crossed)
    (by unfold Topology.Distinct; decide) ["o"]
  obtain ⟨stats, c', hrun, hresult⟩ := exists_run_of_map
    (x := Pass.trimToOutputs ⟨.builtin .default, none, false⟩) (s := .crossed)
    (f := fun _ c' => (c'.program.contains "x", c'.program.depsOf "x"))
    (b := (true, [])) (by decide +kernel)
  obtain ⟨hstays, hdeps⟩ := by simpa only [Prod.mk.injEq] using hresult
  exact ⟨stats, c', wellFormed_applyAll hw [.grounding] ⟨trivial, trivial⟩, by decide +kernel, hrun,
    hstays, by decide +kernel, hdeps⟩

end NetPlan

import NetPlan.Proofs.Graph.Build
import NetPlan.Proofs.Graph.Origin
import NetPlan.Proofs.Pass.Coherence
import NetPlan.Proofs.Pass.Pipeline

/-!
# Proofs/Pass/Faithful — a plain build does the work of its network

Without fusion, preferred layouts and constants to fold, passes do nothing to a trimmed graph but
insert, share, merge and remove reorders that subtract nothing, and set paddings (`Recopied`).  So
the nodes of the result that are no reorders are those of the network that are needed, and they read
from each other what they read there.

`compile_faithful` — for every network that a plain build accepts, with any selector.
-/

namespace NetPlan

open Program Edit Preferences

namespace Pass

variable {p₀ p q : Program} {c : Compilation} {id input next source copy : String} {index : Nat}
  {prim : Primitive} {m m' : List Entry}

/-- `p` has come from `p₀` by changes to reorders that subtract nothing. -/
structure Recopied (p₀ p : Program) : Prop where
  wellFormed : p.WellFormed
  coherent : p.Coherent
  ranked : p.Ranked
  aligned : p.Aligned
  faithful : ∃ g, Faithful g p₀ p

namespace Recopied

theorem linked (h : Recopied p₀ p) : p.Linked := h.wellFormed.toLinked

/-- A change by which nothing is copied wrongly. -/
theorem step (h : Recopied p₀ p) (kept : Kept p q) (ranked : q.Ranked) (aligned : q.Aligned)
    (faithful : ∃ g, Faithful g p q) : Recopied p₀ q := by
  obtain ⟨g, hg⟩ := h.faithful
  obtain ⟨g', hg'⟩ := faithful
  exact ⟨kept.wellFormed h.wellFormed, kept.coherent h.coherent, ranked, aligned, _, hg.trans hg'⟩

/-- The same graph copies the same. -/
theorem sameGraph (h : Recopied p₀ p) (hq : SameGraph p q) (marks : q.isMarked = p.isMarked) :
    Recopied p₀ q :=
  h.step hq.kept (hq.ranked h.ranked) (hq.aligned h.aligned) ⟨_, hq.faithful marks h.aligned⟩

/-- Caches copy nothing. -/
theorem touched (h : Recopied p₀ p) (hq : Touched p q) : Recopied p₀ q :=
  h.sameGraph hq.toSameGraph hq.marks

/-- A copy that makes way. -/
theorem extracted (h : Recopied p₀ p) (hid : p.isCopy id) (hq : Extracted p q id input) :
    Recopied p₀ q :=
  h.step hq.kept (hq.ranked hid.isReorder h.ranked) (hq.aligned h.aligned)
    (hq.faithful hid h.linked h.aligned)

/-- Other work for a node that it does not look different for, beside what a reorder makes of its
input. -/
theorem reworked {g : Task → Task} {k : Operation → Operation} (h : Recopied p₀ p)
    (hq : Reworked p q id g) (kept : Kept p q) (hk : ∀ t, (g t).operation = k t.operation)
    (hkind : ∀ op, (k op).kind = op.kind)
    (hg : ∀ op, k op = op ∨ ∃ r r', op = .reorder r ∧ k op = .reorder r' ∧
      r'.subtract = r.subtract) : Recopied p₀ q := by
  refine h.step kept (hq.ranked (fun t => by rw [hk, hkind]) h.ranked) (hq.aligned h.aligned)
    ⟨_, faithful_of_shapes h.aligned (hq.aligned h.aligned) hq.deps hq.marks fun i => ?_⟩
  rw [hq.shapes hk]
  split
  case isFalse => exact Or.inl rfl
  case isTrue =>
    cases p.shapeOf i with
    | none => exact Or.inl rfl
    | some op =>
      rcases hg op with he | ⟨r, r', rfl, he, hsub⟩
      · exact Or.inl (congrArg some he)
      · exact Or.inr ⟨r, r', rfl, congrArg some he, hsub⟩

/-- Two copies that become one. -/
theorem merged {bound : Bool} (h : Recopied p₀ p) (hq : Merged p q bound id) : Recopied p₀ q := by
  obtain ⟨input, survivor, format, element, padding, r, s, hex, hid, -, hwork, hkept, hplanned, -⟩ :=
    hq.steps
  refine ((h.extracted hid hex).reworked hwork hkept (fun _ => rfl)
    (fun op => kind_retargeted op format element) fun op => ?_).sameGraph hplanned.toSameGraph
      hplanned.marks
  cases op with
  | reorder r => exact Or.inr ⟨r, _, rfl, rfl, rfl⟩
  | _ => exact Or.inl rfl

/-- A copy that is put in between. -/
theorem inserted {layout : Layout} {padding : Padding} (h : Recopied p₀ p)
    (hq : Inserted p q prim next index source) (hnext : ¬ p.isReorder next)
    (hprim : prim = .reorder prim.id source layout padding) : Recopied p₀ q := by
  have hargs : prim.arguments = [source] := by
    rw [hprim]
    rfl
  exact h.step hq.kept (hq.ranked hargs hnext h.linked h.ranked) (hq.aligned h.aligned)
    ⟨_, hq.faithful h.aligned hprim⟩

/-- A copy that another node comes to read. -/
theorem shared (h : Recopied p₀ p) (hq : Shared p q copy next index source)
    (hnext : ¬ p.isReorder next) (hcopy : p.isCopy copy) : Recopied p₀ q :=
  h.step hq.kept (hq.ranked hnext h.ranked) (hq.aligned h.aligned)
    ⟨_, hq.faithful h.aligned (fun he => hnext (he ▸ hcopy.isReorder)) hcopy⟩

/-- A copy with padding. -/
theorem padded (h : Recopied p₀ p) (hq : Padded p q id) : Recopied p₀ q := by
  cases hq with
  | none same => exact same ▸ h
  | producer input padding work kept =>
    exact h.reworked work kept (k := fun op => op) (fun _ => rfl) (fun _ => rfl) fun _ => Or.inl rfl
  | reorder prim source layout padding reader shape named inserted =>
    exact h.inserted inserted reader shape

end Recopied

/-! ## Reorders on record -/

/-- The reorders on record are all there, and subtract nothing. -/
structure OnRecord (p : Program) (m : List Entry) : Prop where
  numbered : Numbered m
  copies : ∀ e ∈ m, p.isCopy e.2.id

/-- A record is right where nodes do what they did. -/
theorem OnRecord.of_shapes (h : OnRecord p m) (shapes : ∀ i, p.contains i = true →
    q.shapeOf i = p.shapeOf i) : OnRecord q m :=
  ⟨h.numbered, fun e he => by
    have hcopy := h.copies e he
    rwa [isCopy, shapes _ (contains_of_isReorder hcopy.isReorder)]⟩

/-- **What a request makes of the program is faithful, and stays on record.** -/
theorem Recopied.served {made : Option String} (h : Recopied p₀ p) (hm : OnRecord p m)
    (hnext : ¬ p.isReorder next) (hq : Served p q m m' next index made) :
    Recopied p₀ q ∧ OnRecord q m' := by
  cases hq with
  | notNeeded same kept =>
    rw [same, kept]
    exact ⟨h, hm⟩
  | @cached source target r entry kept placed =>
    have hcopy : p.isCopy r.id := hm.copies _ entry
    rcases placed with hins | hshare
    · exact absurd (contains_of_isReorder hcopy.isReorder) hins.free
    · refine ⟨h.shared hshare hnext hcopy, kept ▸ hm.of_shapes fun i _ => ?_⟩
      rw [hshare.shapes]
  | @new source target r inserted recorded =>
    obtain ⟨rfl, hnumbered⟩ := recorded hm.numbered
    have hprim : r = .reorder r.id source target target.padding :=
      hnumbered.reorder_of_mem (List.mem_append_right _ List.mem_cons_self)
    refine ⟨h.inserted inserted hnext hprim, hnumbered, fun e he => ?_⟩
    rcases List.mem_append.mp he with he | he
    · refine (hm.of_shapes fun i hi => ?_).copies e he
      rw [inserted.shapes, if_neg fun hir : i = r.id => inserted.free (hir ▸ hi)]
    · obtain rfl := List.mem_singleton.mp he
      refine ⟨⟨"", target.format, target.element, []⟩, ?_, rfl⟩
      rw [inserted.shapes, if_pos rfl, hprim]
      rfl

/-- A change of weights copies them, and puts that on record. -/
theorem Recopied.weighed (h : Recopied p₀ p) (hm : OnRecord p m) (hnext : ¬ p.isReorder next)
    (hq : Weighed p q m m' next index) : Recopied p₀ q ∧ OnRecord q m' := by
  cases hq with
  | unchanged served => exact h.served hm hnext served
  | reordered p' r served planned =>
    obtain ⟨h', hm'⟩ := h.served hm hnext served
    exact ⟨h'.sameGraph planned.toSameGraph planned.marks,
      hm'.of_shapes fun i _ => congrFun planned.shapes i⟩

/-! ## The passes of a plain build -/

/-- **Redundant reorders** copy nothing that is missed. -/
theorem recopied_redundantReorders (env : Environment) (h : Recopied p₀ c.program) :
    Ends (removeRedundantReorders env)
      (fun _ c' => Recopied p₀ c'.program ∧ c'.preferences = c.preferences)
      (fun e _ => e.closes = false) c :=
  removeRedundantReorders_ends env (Recopied p₀) (fun hp => ⟨hp.linked, hp.coherent, hp.ranked⟩)
    (fun hp hq => hp.touched hq) (fun hp hq => hp.merged hq.toMerged)
    (fun hp hq => hp.extracted hq.copy hq.extracted) h

/-- **Padding** copies what it pads. -/
theorem recopied_padInputs (h : Recopied p₀ c.program) :
    Ends padInputs (fun _ c' => Recopied p₀ c'.program ∧ c'.preferences = c.preferences)
      (fun e _ => e.closes = false) c :=
  padInputs_ends (Recopied p₀) (fun hp => ⟨hp.linked, hp.coherent⟩)
    (fun hp hq => hp.touched hq) (fun hp hq => hp.padded hq) h

/-- **Changes of weights** copy these. -/
theorem recopied_reorderWeights (env : Environment) (h : Recopied p₀ c.program)
    (hm : OnRecord c.program c.preferences.made) :
    Ends (reorderWeights env) (fun _ c' => Recopied p₀ c'.program)
      (fun e _ => e.closes = false) c := by
  refine (reorderWeights_ends (fun p m => Recopied p₀ p ∧ OnRecord p m)
    (fun hp => ⟨hp.1.linked, hp.1.coherent⟩) (fun hp hq => ⟨hp.1.touched hq, ?_⟩)
    (fun hp hindex hq => hp.1.weighed hp.2 (isWeighted_of_mem_weightSlotsOf hindex).not_isReorder hq)
    (fun hp hq _ => ⟨hp.1.sameGraph hq.toSameGraph hq.marks, ?_⟩) env ⟨h, hm⟩).imp_good
    fun _ _ hd => hd.1
  · exact hp.2.of_shapes fun i _ => congrFun hq.shapes i
  · exact hp.2.of_shapes fun i _ => congrFun hq.shapes i

/-- What a plain build has come to: a copy of what trimming left, and nothing on record. -/
def Remade (p : Program) (d : Compilation) : Prop :=
  ∃ p₁, Trimmed p p₁ ∧ Recopied p₁ d.program ∧ d.preferences.made = []

/-- One pass after others. -/
theorem Remade.step {α : Type} {x : Transform α} {bad : CompileError → Compilation → Prop}
    (h : Remade p c) (hx : ∀ p₁, Recopied p₁ c.program →
      Ends x (fun _ c' => Recopied p₁ c'.program ∧ c'.preferences = c.preferences) bad c) :
    Ends x (fun _ c' => Remade p c') bad c := by
  obtain ⟨p₁, htrim, hcopy, hmade⟩ := h
  refine (hx p₁ hcopy).imp_good fun _ c' hc => ⟨p₁, htrim, hc.1, ?_⟩
  rw [hc.2, hmade]

/-- **Trimming** leaves what outputs depend on. -/
theorem remade_trimToOutputs (hdebug : env.debug = false) (hw : c.program.WellFormed)
    (hc : c.program.Coherent) (ho : c.program.Ordered) (ha : c.program.Aligned)
    (hm : c.preferences.made = []) :
    Ends (trimToOutputs env) (fun _ c' => Remade c.program c') (fun e _ => e.closes = false) c := by
  rw [trimToOutputs, hdebug, if_neg Bool.false_ne_true, ends_bind, Transform.ends_liftM]
  refine (trim_effect hw.toLinked).imp_good fun _ p₁ h₁ => ?_
  obtain ⟨doomed, hcleared, hdoomed⟩ := h₁
  have htrim := hcleared.trimmed hdoomed hw ho ha
  exact ⟨p₁, htrim, ⟨htrim.kept.wellFormed hw, htrim.kept.coherent hc,
    htrim.ordered.acyclic.ranked htrim.kept.linked, htrim.aligned, _,
    (SameGraph.refl htrim.kept.linked).faithful rfl htrim.aligned⟩, hm⟩

/-- **Layouts** copy nothing. -/
theorem recopied_calculateLayouts (h : Recopied p₀ c.program) :
    Ends calculateLayouts (fun _ c' => Recopied p₀ c'.program ∧ c'.preferences = c.preferences)
      (fun e _ => e.closes = false) c := by
  refine (calculateLayouts_ends h.linked h.coherent).imp_good fun _ c' hc => ?_
  obtain ⟨hpref, p₂, hsorted, -, hfill⟩ := hc
  exact ⟨(h.sameGraph hsorted.toSameGraph hsorted.marks).touched
    (hfill.touched hsorted.kept.linked), hpref⟩

/-- **Binding** copies nothing. -/
theorem recopied_bindAll (env : Environment) (h : Recopied p₀ c.program) :
    Ends (bindAll env) (fun _ c' => Recopied p₀ c'.program ∧ c'.preferences = c.preferences)
      (fun e _ => e.closes = false) c :=
  (bindAll_ends env h.linked h.coherent).imp_good fun _ _ hc =>
    ⟨h.sameGraph hc.1.toSameGraph hc.1.marks, hc.2⟩

/-- Without an evaluator no constant is folded. -/
theorem recopied_constants (hev : env.evaluator = none) (h : Recopied p₀ c.program) :
    Ends (propagateConstants env)
      (fun _ c' => Recopied p₀ c'.program ∧ c'.preferences = c.preferences)
      (fun e _ => e.closes = false) c := by
  rw [propagateConstants, hev]
  exact ⟨h, rfl⟩

/-- **What a plain build makes of a trimmed graph.** -/
theorem recopied_standardPipeline (hev : env.evaluator = none) (hdebug : env.debug = false)
    (hw : c.program.WellFormed) (hc : c.program.Coherent) (ho : c.program.Ordered)
    (ha : c.program.Aligned) (hm : c.preferences.made = []) :
    Ends (runSteps env (standardPipeline false))
      (fun _ c' => ∃ p₁, Trimmed c.program p₁ ∧ Recopied p₁ c'.program)
      (fun e _ => e.closes = false) c := by
  have hempty : ∀ {p}, OnRecord p [] := ⟨numbered_nil, fun _ he => absurd he List.not_mem_nil⟩
  refine ends_standardPipeline (J := Remade c.program) (K := Remade c.program)
    (ends_front (J := Remade c.program) (K := Remade c.program) (L := Remade c.program)
      (remade_trimToOutputs hdebug hw hc ho ha hm)
      (fun _ hd => hd.step fun _ => recopied_calculateLayouts) (fun _ _ hd => hd)
      (fun ho => absurd ho Bool.false_ne_true) fun _ hd => ?_)
    (fun _ hd => hd.step fun _ => recopied_bindAll env) (fun d hd => ?_) fun d hd => ?_
  · refine ends_runSteps_pass (hd.step fun _ => recopied_redundantReorders env) fun _ h₁ => ?_
    refine ends_runSteps_pass (h₁.step fun _ => recopied_padInputs) fun _ h₂ => ?_
    exact ends_runSteps_last (h₂.step fun _ => recopied_constants hev)
  · obtain ⟨p₁, htrim, hcopy, hmade⟩ := hd
    exact (recopied_reorderWeights env hcopy (hmade ▸ hempty)).imp_good fun _ _ hd' =>
      ⟨p₁, htrim, hd'⟩
  · obtain ⟨p₁, htrim, hcopy⟩ := hd
    refine ends_runSteps_pass (recopied_redundantReorders env hcopy) fun _ h₁ =>
      ends_runSteps_last ?_
    exact (recopied_constants hev h₁.1).imp_good fun _ _ h₂ => ⟨p₁, htrim, h₂.1⟩

end Pass

/-! ## The network -/

namespace Topology

/-- What a primitive does. -/
def operationOf (t : Topology) (id : String) : Option Operation := (t.get? id).map (·.operation)

/-- The outputs of a network: those that are named, or else all that nothing reads. -/
def IsOutput (t : Topology) (named : List String) (id : String) : Prop :=
  if named = [] then t.contains id = true ∧ ∀ u, ¬ t.Reads id u else id ∈ named

/-- What stays of a network beside reorders: its inputs, and all that an output depends on. -/
def Retained (t : Topology) (named : List String) (id : String) : Prop :=
  ∃ op, t.operationOf id = some op ∧ op.kind ≠ .reorder ∧
    (op.kind = .inputLayout ∨ ∃ o, t.IsOutput named o ∧ Relation.ReflTransGen t.Reads id o)

/-- In the network and in a program, reorders lead back to matching nodes past the same
subtractions. -/
def SameOrigin (t : Topology) (named : List String) (f : String → String) (p : Program)
    (a b : String) : Prop :=
  ∃ s source, t.Retained named source ∧ Origin t.operationOf a s source ∧
    Origin p.operationOf b s (f source)

end Topology

namespace Program

variable {t : Topology} {b : Behaviours} {p p₀ p₁ q : Program} {named : List String} {i : String}

/-- The graph does what the topology says. -/
theorem Built.operationOf (h : Built t b p) : p.operationOf = t.operationOf := funext fun i => by
  rw [Topology.operationOf, ← congrFun h.primitives i, Program.primitiveOf, Option.map_map]
  rfl

/-- A graph that is built reads what its slots name. -/
theorem Built.slots (h : Built t b p) : p.Aligned := fun j => (congrFun h.aligned j).symm

/-- It reads what the topology says. -/
theorem Built.reads (h : Built t b p) (ht : t.Distinct) : p.Reads = t.Reads := by
  funext a u
  exact propext (reads_iff_topology ht h.primitives h.aligned a u)

/-- It is asked for the outputs of the topology. -/
theorem Built.mem_requestedOutputs (h : Built t b p) (ht : t.Distinct) :
    i ∈ p.requestedOutputs named ↔ t.IsOutput named i := by
  rw [requestedOutputs, Topology.IsOutput]
  by_cases hn : named = []
  · rw [if_pos hn, if_pos (List.isEmpty_iff.mpr hn), List.mem_filter, h.topological.mem,
      Bool.and_eq_true, List.isEmpty_iff, ← contains_iff_topology h.primitives, ← h.reads ht]
    have husers : p.usersOf i = [] ↔ ∀ u, ¬ p.Reads i u := h.wellFormed.usersOf_eq_nil_iff
    rw [husers]
    exact ⟨fun hi => ⟨hi.1, hi.2.2⟩, fun hi => ⟨hi.1, hi.1, hi.2⟩⟩
  · rw [if_neg hn, if_neg fun he => hn (List.isEmpty_iff.mp he)]

/-- `p₁` is what is needed of the graph `p₀` of a network, its outputs marked. -/
structure Prepared (t : Topology) (named : List String) (p₀ p₁ : Program) : Prop where
  shapes : ∀ j, p₀.shapeOf j = (t.operationOf j).map Operation.shape
  deps : ∀ j op, t.operationOf j = some op → p₀.depsOf j = op.arguments
  needed : ∀ j, p₀.Needed j ↔ ∃ o, t.IsOutput named o ∧ Relation.ReflTransGen t.Reads j o
  marks : ∀ j, p₀.isMarked j = true ↔ t.IsOutput named j
  trimmed : Trimmed p₀ p₁

/-- Marked and trimmed it is prepared. -/
theorem Built.prepared (h : Built t b p) (ht : t.Distinct) (hmarked : Remarked p p₀)
    (hmarks : ∀ j, p₀.isMarked j = true ↔ j ∈ p.requestedOutputs named) (htrim : Trimmed p₀ p₁) :
    Prepared t named p₀ p₁ := by
  have hmarks' : ∀ j, p₀.isMarked j = true ↔ t.IsOutput named j := fun j =>
    (hmarks j).trans (h.mem_requestedOutputs ht)
  refine ⟨fun j => ?_, fun j op hop => ?_, fun j => ?_, hmarks', htrim⟩
  · rw [hmarked.shapes, shapeOf_eq_operationOf, h.operationOf]
  · rw [hmarked.deps, h.aligned, argsOf_of_operationOf (h.operationOf ▸ hop)]
  · have hreads : p₀.Reads = t.Reads := by
      rw [← h.reads ht]
      funext a u
      rw [Program.Reads, hmarked.deps, Program.Reads]
    have hw := hmarked.kept.wellFormed h.wellFormed
    rw [Needed, hreads]
    exact exists_congr fun o => and_congr_left' ((hw.mem_outputs o).trans (hmarks' o))

namespace Prepared

variable (h : Prepared t named p₀ p₁)
include h

/-- What is left does what the topology says. -/
theorem shape_of_contains (hi : p₁.contains i = true) :
    p₁.shapeOf i = (t.operationOf i).map Operation.shape := by
  rw [h.trimmed.shapes i hi, h.shapes]

/-- **What is needed of the graph, reorders apart, is what stays of the network.** -/
theorem mem_works : i ∈ p₁.works ↔ t.Retained named i := by
  rw [Program.mem_works, Topology.Retained]
  constructor
  · rintro ⟨_, hop, hk⟩
    have hc : p₁.contains i = true := by rw [contains_eq_isSome_shapeOf, hop, Option.isSome_some]
    rw [h.shape_of_contains hc] at hop
    obtain ⟨op, hget, rfl⟩ := Option.map_eq_some_iff.mp hop
    rw [Operation.kind_shape] at hk
    refine ⟨op, hget, hk, ?_⟩
    obtain ⟨-, hneeded | ⟨l, hl⟩⟩ := (h.trimmed.contains i).mp hc
    · exact Or.inr ((h.needed i).mp hneeded)
    · rw [h.shapes, hget, Option.map_some] at hl
      exact Or.inl (by rw [← Operation.kind_shape, Option.some.inj hl]; rfl)
  · rintro ⟨op, hget, hk, hstay⟩
    have hshape : p₀.shapeOf i = some op.shape := by rw [h.shapes, hget, Option.map_some]
    have hc : p₁.contains i = true := by
      refine (h.trimmed.contains i).mpr ⟨?_, hstay.symm.imp (h.needed i).mpr fun hkind => ?_⟩
      · rw [contains_eq_isSome_shapeOf, hshape, Option.isSome_some]
      · cases op with
        | inputLayout l => exact ⟨l, hshape⟩
        | _ => cases hkind
    refine ⟨op.shape, ?_, (Operation.kind_shape op).symm ▸ hk⟩
    rw [h.shape_of_contains hc, hget, Option.map_some]

/-- Origins in what is needed are origins in the network. -/
theorem origin {a source : String} {s : List (List Single)}
    (ho : Origin p₁.operationOf a s source) : Origin t.operationOf a s source := by
  refine ho.byShape h.trimmed.aligned (motive := Origin t.operationOf) (fun i hi => ?_)
    fun i r d s source hr hd _ ih => ?_
  · obtain ⟨op, hget, hk, -⟩ := h.mem_works.mp hi
    exact .work hget hk
  · have hc := contains_of_isReorder ⟨r, hr⟩
    rw [h.shape_of_contains hc] at hr
    obtain ⟨op, hget, hshape⟩ := Option.map_eq_some_iff.mp hr
    rw [h.trimmed.deps i hc, h.deps i op hget] at hd
    obtain ⟨r', rfl, hpass⟩ := Operation.exists_reorder_of_shape hshape
    have hinput : r'.input = d := (List.cons.inj hd).1
    rw [hpass]
    exact .reorder hget (hinput ▸ ih)

/-- What a slot reads comes from what the topology names there. -/
theorem sameOrigin {f : String → String} {a b : String} (hl : p₁.Linked)
    (hc : p₁.contains a = true) (hcarried : Carried f p₁ q a b) :
    t.SameOrigin named f q a b := by
  obtain ⟨s, source, ho⟩ := exists_origin h.trimmed.aligned hl h.trimmed.ordered.acyclic hc
  exact ⟨s, source, h.mem_works.mp (ho.mem_works h.trimmed.aligned), h.origin ho,
    hcarried s source ho⟩

end Prepared

end Program

/-- **What a plain build makes of a network.** -/
theorem recopied_compile {o : BuildOptions} {env : Environment} {b : Behaviours} {t : Topology}
    {session : Session} (ht : t.Distinct) (hplain : o.optimize = false)
    (hdebug : env.debug = false) (hev : env.evaluator = none) :
    Ends (compile o env b t)
      (fun compiled _ => ∃ p₀ p₁, Prepared t o.outputs p₀ p₁ ∧ Pass.Recopied p₁ compiled.program)
      (fun _ _ => True) session := by
  refine (ends_compile ht
    (fun p₀ => ∃ p, Built t b p ∧ Remarked p p₀ ∧
      ∀ j, p₀.isMarked j = true ↔ j ∈ p.requestedOutputs o.outputs)
    (fun p => ∃ p₀ p₁, Prepared t o.outputs p₀ p₁ ∧ Pass.Recopied p₁ p) (fun _ _ => trivial)
    (fun p hbuilt => ?_) (fun p₀ hp => ?_) (fun hp => ?_) (fun hp hq => ?_) (fun hexpose => ?_)
    fun _ _ => trivial).imp_good fun _ _ hc => hc.1
  · exact (prepare_effect hbuilt.wellFormed.toLinked o.outputs).imp_good
      fun _ q hq => ⟨p, hbuilt, hq⟩
  · obtain ⟨p, hbuilt, hmarked, hmarks⟩ := hp
    rw [hplain]
    refine (Pass.recopied_standardPipeline (c := ⟨p₀, .initial, session⟩) hev hdebug
      (hmarked.kept.wellFormed hbuilt.wellFormed) (hmarked.kept.coherent hbuilt.coherent)
      (hmarked.ordered (congrArg Order.ids hmarked.order) hbuilt.topological)
      (hmarked.aligned hbuilt.slots) rfl).imp_good fun _ c hc => ?_
    obtain ⟨p₁, htrim, hdone⟩ := hc
    exact ⟨p₀, p₁, hbuilt.prepared ht hmarked hmarks htrim, hdone⟩
  · obtain ⟨p₀, p₁, -, hdone⟩ := hp
    exact hdone.linked
  · obtain ⟨p₀, p₁, hprep, hdone⟩ := hp
    exact ⟨p₀, p₁, hprep, hdone.sameGraph hq.toSameGraph hq.marks⟩
  · rw [hdebug] at hexpose
    cases hexpose

/-- **A plain build does the work of its network.**  The nodes of the result that are no reorders are
the inputs of the network and what its outputs depend on, reorders apart, each under its own id or
that of an output reorder that is gone.  They have the same operations, and reorders lead from their
slots, and from the outputs, back to matching nodes past the same subtractions. -/
theorem compile_faithful (o : BuildOptions) (env : Environment) (b : Behaviours) (t : Topology)
    (session session' : Session) (compiled : Compiled) (ht : t.Distinct)
    (hplain : o.optimize = false) (hdebug : env.debug = false) (hev : env.evaluator = none)
    (hrun : (compile o env b t).run.run session = (.ok compiled, session')) :
    ∃ f : String → String,
      Set.BijOn f {id | t.Retained o.outputs id} compiled.program.works ∧
      (∀ id, t.Retained o.outputs id → ∃ op op', t.operationOf id = some op ∧
        compiled.program.operationOf (f id) = some op' ∧ op'.shape = op.shape ∧
        List.Forall₂ (t.SameOrigin o.outputs f compiled.program) op.arguments op'.arguments ∧
        (f id = id ∨
          t.IsOutput o.outputs (f id) ∧ ∃ r, t.operationOf (f id) = some (.reorder r))) ∧
      ∀ id, (id ∈ compiled.program.outputs ↔ t.IsOutput o.outputs id) ∧
        (t.IsOutput o.outputs id →
          t.SameOrigin o.outputs f compiled.program id id) := by
  obtain ⟨p₀, p₁, hprep, hdone⟩ : ∃ p₀ p₁, Prepared t o.outputs p₀ p₁ ∧
      Pass.Recopied p₁ compiled.program := by
    have hends := @recopied_compile o env b t session ht hplain hdebug hev
    rw [Ends, hrun] at hends
    exact hends
  obtain ⟨f, hf⟩ := hdone.faithful
  have hl := hprep.trimmed.kept.linked
  have hcontains : ∀ {i}, p₁.isMarked i = true → p₁.contains i = true := fun {i} hm => by
    by_contra hnot
    rw [isMarked_of_not_contains hnot] at hm
    cases hm
  have houtput : ∀ i, p₁.isMarked i = true ↔ t.IsOutput o.outputs i := fun i => by
    rw [hprep.trimmed.marks, hprep.marks]
  have hretained : {id | t.Retained o.outputs id} = p₁.works :=
    Set.ext fun i => hprep.mem_works.symm
  refine ⟨f, hretained ▸ hf.bijOn, fun id hid => ?_, fun id => ⟨?_, fun hid => ?_⟩⟩
  · have hwork := hprep.mem_works.mpr hid
    have hc := (mem_works_iff.mp hwork).1
    obtain ⟨op, hop, hk, -⟩ := hid
    have hshape : p₁.workOf id = some op.shape := by
      rw [workOf_eq_some, hprep.shape_of_contains hc, hop, Option.map_some, Operation.kind_shape]
      exact ⟨rfl, hk⟩
    have hshape' := (workOf_eq_some.mp ((hf.work id hwork).trans hshape)).1
    rw [shapeOf_eq_operationOf] at hshape'
    obtain ⟨op', hop', hsame⟩ := Option.map_eq_some_iff.mp hshape'
    have hdeps : p₁.depsOf id = op.arguments := by
      rw [hprep.trimmed.deps id hc, hprep.deps id op hop]
    refine ⟨op, op', hop, hop', hsame, ?_, (hf.moved id hwork).imp_right fun hmoved => ?_⟩
    · rw [← hdeps, ← argsOf_of_operationOf hop', hdone.aligned]
      have hreads := (List.forall₂_and_left _ _).mpr
        ⟨fun a ha => hl.contains_dep ha, hf.reads id hwork⟩
      exact hreads.imp fun a b hab => hprep.sameOrigin hl hab.1 hab.2
    · obtain ⟨hm, r, hr⟩ := hmoved
      rw [hprep.shape_of_contains (contains_of_isReorder ⟨r, hr⟩)] at hr
      obtain ⟨op, hget, hshape⟩ := Option.map_eq_some_iff.mp hr
      obtain ⟨r', rfl, -⟩ := Operation.exists_reorder_of_shape hshape
      exact ⟨(houtput _).mp hm, r', hget⟩
  · rw [hdone.wellFormed.mem_outputs, hf.marks, houtput]
  · have hm := (houtput id).mpr hid
    exact hprep.sameOrigin hl (hcontains hm) (hf.outputs id hm)

/-- An input less a value, normalized, and copied into the output. -/
def Topology.corrected : Topology :=
  ⟨[⟨"x", Padding.none, .inputLayout (.dense .f32 .bfyx ⟨1, 1, 1, 1⟩)⟩,
    ⟨"r", Padding.none, .reorder ⟨"x", .bfyx, .f32, [⟨0x3f800000⟩]⟩⟩,
    ⟨"s", Padding.none, .softmax ⟨"r", .x⟩⟩,
    ⟨"b", Padding.none, .reorder ⟨"s", .bfyx, .f32, []⟩⟩]⟩

/-- The last copy goes, and what it copied has its id. -/
theorem compile_faithful_corrected : ∃ compiled session' f,
    (compile (.plain ["b"]) ⟨.builtin .default, none, false⟩ .builtin .corrected).run.run
      ⟨.unset, []⟩ = (.ok compiled, session') ∧
    Set.BijOn f {id | Topology.corrected.Retained ["b"] id} compiled.program.works ∧
    Topology.corrected.Retained ["b"] "s" ∧ f "s" = "b" := by
  obtain ⟨compiled, hrun⟩ := exists_run_eq_ok
    (x := compile (.plain ["b"]) ⟨.builtin .default, none, false⟩ .builtin .corrected)
    (s := ⟨.unset, []⟩) (by decide +kernel)
  have hgone : ((compile (.plain ["b"]) ⟨.builtin .default, none, false⟩ .builtin
      .corrected).run.run ⟨.unset, []⟩).1.toOption.map (·.program.contains "s") = some false := by
    decide +kernel
  rw [hrun] at hgone
  have hnot : compiled.program.contains "s" = false := Option.some.inj hgone
  have hs : Topology.corrected.Retained ["b"] "s" :=
    ⟨.softmax ⟨"r", .x⟩, rfl, by decide, Or.inr ⟨"b", List.mem_singleton_self "b",
      .single ⟨_, List.mem_cons_of_mem _ (List.mem_cons_of_mem _ (List.mem_cons_of_mem _
        List.mem_cons_self)), rfl, List.mem_singleton_self "s"⟩⟩⟩
  obtain ⟨f, hbij, hnodes, -⟩ := compile_faithful (.plain ["b"]) ⟨.builtin .default, none, false⟩
    .builtin .corrected ⟨.unset, []⟩ _ compiled (by unfold Topology.Distinct; decide) rfl rfl rfl
    hrun
  refine ⟨compiled, _, f, hrun, hbij, hs, ?_⟩
  obtain ⟨-, -, -, -, -, -, hself | ⟨hout, -⟩⟩ := hnodes "s" hs
  · have hthere := (mem_works_iff.mp (hbij.mapsTo hs)).1
    rw [hself, hnot] at hthere
    cases hthere
  · exact List.mem_singleton.mp hout

end NetPlan

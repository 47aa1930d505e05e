import NetPlan.Proofs.Pass.Propagation
import NetPlan.Proofs.Pass.Rendering
import NetPlan.Proofs.Pass.Sequence

/-!
# Proofs/Pass/Foldable — fusion in graphs that can be folded

In a graph of literals and of operations that the host evaluates, all in single precision
(`Foldable`), fusion does not fail, and every output keeps its value (`Fusing`): so folding the
constants gives the same literals before and after it (`fuse_folds`).

The one difference is in what is looked at.  A merged reorder is evaluated where one in a format
without known places was not, and fails there if its operands do not fit (`fuse_exposes`).
-/

namespace NetPlan

namespace Program

/-- Literals and operations that the host evaluates, in single precision; activations are absorbed
where fusion puts them. -/
structure Foldable (p : Program) : Prop where
  kinds : ∀ id op, p.shapeOf id = some op → op.kind = .data ∨ Host.isEvaluated op.kind = true
  layouts : ∀ id, p.contains id = true → ∃ l, p.freshLayout id = .ok l ∧ l.element = .f32
  hosts : ∀ id t, p.taskOf id = some t → t.absorbed.isNone = true ∨
    Pass.hostsActivation t.operation.kind = true

variable {p q : Program} {id input : String} {g : Task → Task}

theorem contains_of_isMarked (h : p.isMarked id = true) : p.contains id = true := by
  by_contra hno
  rw [isMarked_of_not_contains hno] at h
  cases h

/-- A node that is evaluated has an input to take its layout from. -/
theorem not_lays_nil {t : Task} {b : Behaviours} {l : Layout}
    (hk : Host.isEvaluated t.operation.kind = true) : ¬ t.Lays b [] l := by
  intro h
  rw [Task.Lays, Node.rule_eq] at h
  obtain ⟨-, -, h⟩ := bind_eq_ok_iff.mp h
  obtain ⟨padding, op, absorbed⟩ := t
  -- every rule of such a kind asks for an input first
  cases op <;> first
    | cases (show Except.error _ = Except.ok l from h)
    | cases hk

namespace Foldable

/-- **Every node is constant.** -/
theorem constant (h : p.Foldable) (hl : p.Linked) (ho : p.Ordered) (id : String) :
    p.contains id = true → p.Constant id := by
  induction id using ho.induction with
  | step id ih =>
    intro hid
    obtain ⟨n, hn⟩ := contains_iff.mp hid
    have hkind := h.kinds id n.operation.shape (by rw [shapeOf, hn, Option.map_some])
    rw [Operation.kind_shape] at hkind
    rcases hkind with hk | hk
    · exact .literal hn hk
    · refine .computed hn (fun he => ?_) (fun hnil => ?_) fun d hd => ?_
      · rw [show n.operation.kind = .inputLayout from he] at hk
        cases hk
      · obtain ⟨l, hlaid, -⟩ := h.layouts id hid
        obtain ⟨t, inputs, ht, hin, hlays⟩ := freshLayout_iff.mp hlaid
        rw [depsOf_of_node? hn, hnil, List.forall₂_nil_left_iff] at hin
        subst hin
        rw [taskOf_of_node? hn] at ht
        cases ht
        refine not_lays_nil ?_ hlays
        rw [Node.task, Operation.kind_shape]
        exact hk
      · rw [← depsOf_of_node? hn] at hd
        exact ih d hd (hl.contains_dep hd)

/-- The constants that are asked for are the outputs. -/
theorem marked_of_exposed (h : p.Foldable) (hl : p.Linked) (ho : p.Ordered)
    (hid : p.Exposed id) : p.isMarked id = true := by
  obtain ⟨-, n, hn, -, hout | ⟨u, hu, hnot⟩⟩ := hid
  · rw [isMarked_of_node? hn, hout]
  · rw [← usersOf_of_node? hn] at hu
    exact absurd (h.constant hl ho u (hl.contains_user hu)) hnot

theorem sameGraph (h : p.Foldable) (ho : p.Ordered) (hq : SameGraph p q) : q.Foldable where
  kinds id op hop := h.kinds id op (hq.shapes ▸ hop)
  layouts id hid := by
    obtain ⟨l, hl, he⟩ := h.layouts id (hq.contains ▸ hid)
    exact ⟨l, (hq.renders ho id).layout l hl, he⟩
  hosts id t ht := h.hosts id t (hq.tasks ▸ ht)

/-- A contraction that renders what it keeps leaves a graph that can be folded. -/
theorem contracted (h : p.Foldable) (hl : p.Linked) (hq : Edit.Contracted p q id input g)
    (hrender : ∀ j, j ≠ input → Renders Eq p q j (Edit.onto p id input j))
    (hg : ∀ t, p.taskOf input = some t → (g t).operation.kind = t.operation.kind ∧
      ((g t).absorbed.isNone = true ∨ Pass.hostsActivation t.operation.kind = true)) :
    q.Foldable := by
  have hnode : ∀ j t, q.taskOf j = some t → ∃ i s, p.taskOf i = some s ∧
      t.operation.kind = s.operation.kind ∧ (t.absorbed.isNone = true ∨
        Pass.hostsActivation s.operation.kind = true) := fun j t ht => by
    have hj : q.contains j = true := by rw [contains_eq_isSome_taskOf, ht, Option.isSome_some]
    rcases hq.exists_onto hj with rfl | ⟨hid, hin, -⟩
    · rw [hq.task, Option.map_eq_some_iff] at ht
      obtain ⟨s, hs, rfl⟩ := ht
      exact ⟨input, s, hs, hg s hs⟩
    · rw [hq.tasks j hid hin] at ht
      exact ⟨j, t, ht, rfl, h.hosts j t ht⟩
  refine ⟨fun j op hop => ?_, fun j hj => ?_, fun j t ht => ?_⟩
  · rw [shapeOf_eq_taskOf, Option.map_eq_some_iff] at hop
    obtain ⟨t, ht, rfl⟩ := hop
    obtain ⟨i, s, hs, hk, -⟩ := hnode j t ht
    rw [hk]
    exact h.kinds i s.operation (by rw [shapeOf_eq_taskOf, hs, Option.map_some])
  · rcases hq.exists_onto hj with rfl | ⟨hid, hin, hj'⟩
    · obtain ⟨l, hlaid, he⟩ := h.layouts id (contains_of_mem_depsOf
        (by rw [hq.only]; exact List.mem_singleton_self input))
      have hr := hrender id (hq.ne hl).symm
      rw [Edit.onto_id] at hr
      exact ⟨l, hr.layout l hlaid, he⟩
    · obtain ⟨l, hlaid, he⟩ := h.layouts j hj'
      have hr := hrender j hin
      rw [Edit.onto_of_ne hid hin] at hr
      exact ⟨l, hr.layout l hlaid, he⟩
  · obtain ⟨i, s, -, hk, hhost⟩ := hnode j t ht
    rwa [hk]

end Foldable

end Program

namespace Pass

open Program Edit

variable {p₀ p q : Program} {id input : String}

/-- What fusion makes of a graph that can be folded: its outputs have the values they had. -/
structure Fusing (p₀ p : Program) : Prop extends Sequenced p where
  foldable : p.Foldable
  marks : p.isMarked = p₀.isMarked
  values : ∀ o v, p₀.isMarked o = true → p₀.HasValue .reference o v → p.HasValue .reference o v

namespace Fusing

variable (h : Fusing p₀ p)
include h

theorem touched (hq : Touched p q) : Fusing p₀ q where
  toSequenced := h.toSequenced.sameGraph hq.toSameGraph hq.order
  foldable := h.foldable.sameGraph h.ordered hq.toSameGraph
  marks := hq.marks.trans h.marks
  values o v ho hv := (hq.toSameGraph.renders h.ordered o).hasValue (h.values o v ho hv)

/-- **Contractions that render** what they keep, where an output is kept. -/
theorem contracted {g : Task → Task} (hq : Contracted p q id input g) (hs : Sequenced q)
    (hrender : ∀ j, j ≠ input → Renders Eq p q j (onto p id input j))
    (hsilent : p.isMarked input = false)
    (hg : ∀ t, p.taskOf input = some t → (g t).operation.kind = t.operation.kind ∧
      ((g t).absorbed.isNone = true ∨ hostsActivation t.operation.kind = true)) :
    Fusing p₀ q where
  toSequenced := hs
  foldable := h.foldable.contracted h.linked hq hrender hg
  marks := hq.marks.trans h.marks
  values o v ho hv := by
    have ho' : p.isMarked o = true := h.marks ▸ ho
    have hr := hrender o fun he => by
      rw [he, hsilent] at ho'
      cases ho'
    rw [hq.onto_of_marked ho'] at hr
    exact hr.hasValue (h.values o v ho hv)

theorem f32 (hid : p.contains id = true) {l : Layout} (hl : p.freshLayout id = .ok l) :
    l.element = .f32 := by
  obtain ⟨l', hl', he⟩ := h.foldable.layouts id hid
  rw [hl] at hl'
  cases hl'
  exact he

theorem absorbed (hq : Absorbed p q id input) (hsilent : p.isMarked input = false) :
    Fusing p₀ q := by
  obtain ⟨a, padding, ⟨absorbed, htask⟩, hcon⟩ := hq.contracted h.linked
  obtain ⟨op, hop, hhost⟩ := hq.host
  have hin : p.contains input = true := by rw [contains_eq_isSome_shapeOf, hop, Option.isSome_some]
  refine h.contracted hcon (h.toSequenced.absorbed hq) (fun j hj => ?_) hsilent fun t ht => ?_
  · refine hq.renders h.linked h.ordered (fun t ht => ?_) (fun l hl => h.f32 hin hl) hj
    rw [htask] at ht
    cases ht
    exact (h.foldable.hosts id _ htask).resolve_right fun hhost => by cases hhost
  · rw [shapeOf_eq_taskOf, ht, Option.map_some, Option.some.injEq] at hop
    exact ⟨rfl, Or.inr (hop ▸ hhost)⟩

theorem merged {bound : Bool} (hq : Merged p q bound id) : Fusing p₀ q := by
  obtain ⟨input, format, element, padding, absorbed, t, r, hcon, htask, ht, hr, husers, hsilent⟩ :=
    hq.contracted h.linked
  have hin : p.contains input = true := by
    rw [contains_eq_isSome_taskOf, ht, Option.isSome_some]
  have hplain : ∀ s, p.taskOf input = some s → s.absorbed.isNone = true := fun s hs => by
    rw [ht] at hs
    cases hs
    refine (h.foldable.hosts input t ht).resolve_right fun hhost => ?_
    rw [hr] at hhost
    cases hhost
  refine h.contracted hcon (h.toSequenced.merged hq) (fun j hj => ?_) hsilent fun s hs => ?_
  · refine renders_merging hcon h.linked h.ordered htask
      ((h.foldable.hosts id _ htask).resolve_right fun hhost => by cases hhost) ht hr husers
      (fun l s hs => Or.inl ?_) hj
    -- the first reorder is in single precision and loses nothing
    obtain ⟨l, hl, he⟩ := h.foldable.layouts input hin
    obtain ⟨t', inputs, ht', -, hlays⟩ := freshLayout_iff.mp hl
    rw [ht] at ht'
    cases ht'
    obtain ⟨-, i, rest, -, rfl⟩ := (Task.lays_reorder_iff hr).mp hlays
    rw [show r.element = .f32 from he, HostTensor.cast_f32]
  · exact ⟨kind_retargeted .., Or.inl (hplain s hs)⟩

end Fusing

/-- **Fusion succeeds**, and every output keeps its value. -/
theorem fuse_fusing (env : Environment) {c : Compilation} (hdebug : env.debug = false)
    (hs : Sequenced c.program) (hf : c.program.Foldable) :
    Ends (fuse env) (fun _ c' => Fusing c.program c'.program) (fun _ _ => False) c := by
  have hconv : ∀ {p : Program} {id : String} {conv : Convolution}, Fusing c.program p →
      ¬ p.shapeOf id = some (.convolution conv) := fun hp hop => by
    rcases hp.foldable.kinds _ _ hop with hk | hk <;> cases hk
  refine (fuse_ends env (Fusing c.program) (Fusing c.program) (fun hp => hp.linked)
    (fun hp hq => hp.touched hq) (fun hp hq => ?_) (fun hp => hp)
    (fun hp => ⟨hp.linked, Or.inl hp.coherent, hp.ranked⟩) (fun hp hq => hp.touched hq)
    (fun hp hq hsilent => hp.absorbed hq (hsilent hdebug)) (fun hp hq => hp.merged hq.toMerged)
    ⟨hs, hf, rfl, fun _ _ _ hv => hv⟩).imp (fun _ _ hd => hd.1) fun _ _ hb => ?_
  · obtain ⟨conv, hop⟩ := hq.convolution
    exact absurd hop (hconv hp)
  · rcases hb.2 with ⟨p, hp, id, conv, hop⟩ | ⟨p, hp, hfail⟩
    · exact hconv hp hop
    · obtain ⟨id, hid, hnone⟩ := hfail hp.ordered hp.coherent
      obtain ⟨l, hl, -⟩ := hp.foldable.layouts id hid
      exact hnone l hl

/-- **What folding makes of an output** is the literal with its value. -/
theorem Propagated.output_iff {ev : Evaluator} (h : Propagated ev p q) {o : String} {l : Layout}
    {b : Buffer} (ho : p.isMarked o = true) :
    q.shapeOf o = some (.data l b) ↔ p.HasValue ev o ⟨l, b⟩ := by
  have hleft : q.contains o = true := contains_of_isMarked (h.marks ▸ ho)
  constructor
  · intro hdata
    by_cases hv : p.Exposed o ∧ ∃ v, p.HasValue ev o v
    · obtain ⟨hexp, v, hv⟩ := hv
      rw [shapeOf_eq_taskOf, (h.folded o v hexp hv).1] at hdata
      cases hdata
      exact hv
    · have hsame := (h.unfolded o hleft fun hexp v hval => hv ⟨hexp, v, hval⟩).1
      rw [shapeOf_eq_taskOf, hsame, ← shapeOf_eq_taskOf, shapeOf, Option.map_eq_some_iff] at hdata
      obtain ⟨n, hn, hop⟩ := hdata
      exact .literal hn (operation_of_shape hop)
  · intro hv
    obtain ⟨n, hn⟩ := contains_iff.mp hv.constant.contains
    by_cases hk : n.kind = .data
    · have hsame := (h.unfolded o hleft fun hexp => by
        obtain ⟨-, m, hm, hkind, -⟩ := hexp
        rw [hn] at hm
        cases hm
        exact absurd hk hkind).1
      cases hv with
      | literal there operation =>
        rw [shapeOf_eq_taskOf, hsame, ← shapeOf_eq_taskOf, shapeOf, there, Option.map_some,
          operation]
        rfl
      | computed there _ kind =>
        rw [hn] at there
        cases there
        exact absurd hk kind
    · have hexp : p.Exposed o := ⟨hv.constant, n, hn, hk, Or.inl (isMarked_of_node? hn ▸ ho)⟩
      rw [shapeOf_eq_taskOf, (h.folded o _ hexp hv).1]
      rfl

end Pass

open Program

/-- **Folding after fusion.**  In a graph that can be folded, fusion succeeds.  If folding the
constants then succeeds, every output that it folds without fusion becomes the same literal; and it
does succeed, if it folds all outputs without fusion. -/
theorem fuse_folds (env : Environment) (c c' : Compilation) (stats : PassStats)
    (hdebug : env.debug = false) (hev : env.evaluator = some .reference)
    (hw : c.program.WellFormed) (ho : c.program.isOrdered = true) (hc : c.program.Coherent)
    (hf : c.program.Foldable) (hrun : (Pass.propagateConstants env).run.run c = (.ok stats, c')) :
    ∃ fusing c₁, (Pass.fuse env).run.run c = (.ok fusing, c₁) ∧
      (∀ folding c₂, (Pass.propagateConstants env).run.run c₁ = (.ok folding, c₂) →
        ∀ o l b, c.program.isMarked o = true → c'.program.shapeOf o = some (.data l b) →
          c₂.program.shapeOf o = some (.data l b)) ∧
      ((∀ o, c.program.isMarked o = true → ∃ l b, c'.program.shapeOf o = some (.data l b)) →
        ∃ folding c₂, (Pass.propagateConstants env).run.run c₁ = (.ok folding, c₂)) := by
  have hordered := (isOrdered_iff hw.toLinked).mp ho
  have hbefore := Pass.propagateConstants_propagated env hev hw.toLinked hordered hc
    (Or.inr Evaluator.slotFree_reference)
  rw [Ends, hrun] at hbefore
  have hfuse := Pass.fuse_fusing env hdebug ⟨⟨hw.toLinked, hc⟩, hordered⟩ hf
  rw [Ends] at hfuse
  split at hfuse
  case h_2 => exact hfuse.elim
  case h_1 fusing c₁ hrun₁ =>
    have hafter := Pass.propagateConstants_propagated env hev hfuse.linked hfuse.ordered
      hfuse.coherent (Or.inr Evaluator.slotFree_reference)
    refine ⟨fusing, c₁, hrun₁, fun folding c₂ hrun₂ o l b hmark hdata => ?_, fun hall => ?_⟩
    · rw [Ends, hrun₂] at hafter
      refine (hafter.output_iff (hfuse.marks ▸ hmark)).mpr ?_
      exact hfuse.values o _ hmark ((hbefore.output_iff hmark).mp hdata)
    · rw [Ends] at hafter
      split at hafter
      case h_1 folding c₂ hrun₂ => exact ⟨folding, c₂, hrun₂⟩
      case h_2 =>
        -- what is asked for is an output, and those have their values
        obtain ⟨id, hexp, hnone⟩ := hafter
        have hmark : c.program.isMarked id = true :=
          hfuse.marks ▸ hfuse.foldable.marked_of_exposed hfuse.linked hfuse.ordered hexp
        obtain ⟨l, b, hdata⟩ := hall id hmark
        exact absurd (hfuse.values id _ hmark ((hbefore.output_iff hmark).mp hdata)) (hnone _)

/-- A check of one node after another. -/
theorem Program.foldable_of_nodes {p : Program}
    (h : ∀ n ∈ p.nodes, (n.kind = .data ∨ Host.isEvaluated n.kind = true) ∧
      (p.freshLayout n.id).toOption.map (·.element) = some .f32 ∧
      (n.absorbed.isNone = true ∨ Pass.hostsActivation n.kind = true)) : p.Foldable := by
  refine ⟨fun id op hop => ?_, fun id hid => ?_, fun id t ht => ?_⟩
  · obtain ⟨n, hn, rfl⟩ := Option.map_eq_some_iff.mp hop
    rw [Operation.kind_shape]
    exact (h n (node?_eq_some hn).1).1
  · obtain ⟨n, hn⟩ := contains_iff.mp hid
    have hlaid := (h n (node?_eq_some hn).1).2.1
    rw [(node?_eq_some hn).2] at hlaid
    cases hl : p.freshLayout id with
    | error e =>
      rw [hl] at hlaid
      cases hlaid
    | ok l =>
      rw [hl] at hlaid
      exact ⟨l, rfl, Option.some.inj hlaid⟩
  · obtain ⟨n, hn, rfl⟩ := Option.map_eq_some_iff.mp ht
    rw [Node.task, Operation.kind_shape]
    exact (h n (node?_eq_some hn).1).2.2

/-- The builtin kernels and the reference evaluator. -/
def Environment.folding : Environment := ⟨.builtin .default, some .reference, false⟩

/-- A scaled literal, its absolute value, and a copy of that there and back. -/
def Topology.scaled : Topology :=
  ⟨[⟨"d", Padding.none, .data (.dense .f32 .bfyx ⟨1, 1, 1, 1⟩) (.f32 #[Single.one])⟩,
    ⟨"k", Padding.none, .data (.dense .f32 .bfyx ⟨1, 1, 1, 1⟩) (.f32 #[Single.one])⟩,
    ⟨"s", Padding.none, .scale ⟨"d", "k", none⟩⟩,
    ⟨"a", Padding.none, .activation ⟨"s", ⟨.abs, ⟨0⟩, ⟨0⟩⟩, none⟩⟩,
    ⟨"r", Padding.none, .reorder ⟨"a", .yxfb, .f32, []⟩⟩,
    ⟨"t", Padding.none, .reorder ⟨"r", .bfyx, .f32, []⟩⟩]⟩

/-- The graph of the scaled literal, laid out, with the last copy as its output. -/
def Compilation.scaled : Compilation := .exposing .scaled ["t"]

/-- The absolute value is absorbed and the copies are merged, and the same literal comes out. -/
theorem fuse_folds_scaled : ∃ stats c' fusing c₁ folding c₂ l b,
    (Pass.propagateConstants .folding).run.run .scaled = (.ok stats, c') ∧
    (Pass.fuse .folding).run.run .scaled = (.ok fusing, c₁) ∧
    c₁.program.order.ids = ["k", "d", "s", "t"] ∧
    (Pass.propagateConstants .folding).run.run c₁ = (.ok folding, c₂) ∧
    c'.program.shapeOf "t" = some (.data l b) ∧ c₂.program.shapeOf "t" = some (.data l b) := by
  obtain ⟨hw, hc⟩ := Compilation.exposing_spec (t := .scaled)
    (by unfold Topology.Distinct; decide) ["t"]
  obtain ⟨stats, hrun⟩ := exists_run_eq_ok (x := Pass.propagateConstants .folding)
    (s := .scaled) (by decide +kernel)
  obtain ⟨fusing, c₁, hfuse, hsame, hall⟩ := fuse_folds .folding .scaled _ stats rfl rfl hw
    (by decide +kernel) hc (foldable_of_nodes (by decide +kernel)) hrun
  obtain ⟨op, hop, hk⟩ := Option.map_eq_some_iff.mp (show (((Pass.propagateConstants
    .folding).run.run .scaled).2.program.shapeOf "t").map Operation.kind = some .data by
      decide +kernel)
  obtain ⟨l, b, rfl⟩ : ∃ l b, op = .data l b := by
    cases op <;> first | exact ⟨_, _, rfl⟩ | cases hk
  obtain ⟨folding, c₂, hfold⟩ := hall fun o ho => by
    have hmarks : ∀ id ∈ Compilation.scaled.program.ids,
        Compilation.scaled.program.isMarked id = true → id = "t" := by decide +kernel
    exact ⟨l, b, hmarks o (contains_iff_mem_ids.mp (contains_of_isMarked ho)) ho ▸ hop⟩
  refine ⟨stats, _, fusing, c₁, folding, c₂, l, b, hrun, hfuse, ?_, hfold, hop,
    hsame folding c₂ hfold "t" l b (by decide +kernel) hop⟩
  have hids : ((Pass.fuse .folding).run.run .scaled).2.program.order.ids = ["k", "d", "s", "t"] := by
    decide +kernel
  rwa [hfuse] at hids

/-- A literal that is copied into a format without known places and back, and then given two values
to subtract from its one feature; and an absolute value of it. -/
def Topology.misfit : Topology :=
  ⟨[⟨"d", Padding.none, .data (.dense .f32 .bfyx ⟨1, 1, 1, 1⟩) (.f32 #[Single.one])⟩,
    ⟨"o", Padding.none, .activation ⟨"d", ⟨.abs, ⟨0⟩, ⟨0⟩⟩, none⟩⟩,
    ⟨"r", Padding.none, .reorder ⟨"d", .bf8Xy16, .f32, []⟩⟩,
    ⟨"t", Padding.none, .reorder ⟨"r", .bfyx, .f32, []⟩⟩,
    ⟨"z", Padding.none, .reorder ⟨"t", .bfyx, .f32, [Single.one, Single.one]⟩⟩]⟩

/-- The graph of the misfit, laid out, with two outputs. -/
def Compilation.misfit : Compilation := .exposing .misfit ["o", "z"]

/-- A negative literal, copied there and back. -/
def Topology.negative : Topology :=
  ⟨[⟨"d", Padding.none, .data (.dense .f32 .bfyx ⟨1, 1, 1, 1⟩) (.f32 #[Single.one.neg])⟩,
    ⟨"r", Padding.none, .reorder ⟨"d", .yxfb, .f32, []⟩⟩,
    ⟨"t", Padding.none, .reorder ⟨"r", .bfyx, .f32, []⟩⟩]⟩

/-- The second copy has absorbed an absolute value, which fusion would not let it. -/
def Compilation.misplaced : Compilation :=
  { exposing .negative ["t"] with
    program := ((exposing .negative ["t"]).program.update "t"
      fun n => { n with absorbed := ⟨.abs, ⟨0⟩, ⟨0⟩⟩ }).invalidate "t" }

theorem Compilation.misplaced_spec : misplaced.program.WellFormed ∧ misplaced.program.Coherent := by
  obtain ⟨hw, hc⟩ := exposing_spec (t := .negative) (by unfold Topology.Distinct; decide) ["t"]
  have hkept : Program.Kept (exposing .negative ["t"]).program misplaced.program :=
    (reworked_update (f := fun n => { n with absorbed := ⟨.abs, ⟨0⟩, ⟨0⟩⟩ })
      (g := fun t => { t with absorbed := ⟨.abs, ⟨0⟩, ⟨0⟩⟩ }) hw.toLinked
      (fun _ => ⟨rfl, rfl, rfl, rfl, rfl, rfl, fun hp => hp⟩) fun _ => rfl).kept
  exact ⟨hkept.wellFormed hw, hkept.coherent hc⟩

/-- **Fusion makes folding fail** on a reorder that was not looked at, as its operand had no known
places; so an output behind it is not folded any more.  **And it forgets an activation** that a
reorder has absorbed, if that is merged. -/
theorem fuse_exposes :
    (Compilation.misfit.program.WellFormed ∧ Compilation.misfit.program.isOrdered = true ∧
      Compilation.misfit.program.Coherent ∧ Compilation.misfit.program.Foldable ∧
      Compilation.misfit.program.isMarked "o" = true ∧ ∃ stats c' fusing c₁,
      (Pass.propagateConstants .folding).run.run .misfit = (.ok stats, c') ∧
      c'.program.shapeOf "o"
        = some (.data (.dense .f32 .bfyx ⟨1, 1, 1, 1⟩) (.f32 #[Single.one])) ∧
      (Pass.fuse .folding).run.run .misfit = (.ok fusing, c₁) ∧
      ((Pass.propagateConstants .folding).run.run c₁).1.toBool = false ∧
      (((Pass.propagateConstants .folding).run.run c₁).2.program.shapeOf "o").map Operation.kind
        = some .activation) ∧
    (Compilation.misplaced.program.WellFormed ∧ Compilation.misplaced.program.isOrdered = true ∧
      Compilation.misplaced.program.Coherent ∧
      (∀ n ∈ Compilation.misplaced.program.nodes,
        (n.kind = .data ∨ Host.isEvaluated n.kind = true) ∧
        (Compilation.misplaced.program.freshLayout n.id).toOption.map (·.element) = some .f32) ∧
      Compilation.misplaced.program.isMarked "t" = true ∧ ∃ stats c' fusing c₁ folding c₂,
      (Pass.propagateConstants .folding).run.run .misplaced = (.ok stats, c') ∧
      c'.program.shapeOf "t"
        = some (.data (.dense .f32 .bfyx ⟨1, 1, 1, 1⟩) (.f32 #[Single.one])) ∧
      (Pass.fuse .folding).run.run .misplaced = (.ok fusing, c₁) ∧
      (Pass.propagateConstants .folding).run.run c₁ = (.ok folding, c₂) ∧
      c₂.program.shapeOf "t"
        = some (.data (.dense .f32 .bfyx ⟨1, 1, 1, 1⟩) (.f32 #[Single.one.neg]))) := by
  obtain ⟨hw, hc⟩ := Compilation.exposing_spec (t := .misfit)
    (by unfold Topology.Distinct; decide) ["o", "z"]
  obtain ⟨stats, hrun⟩ := exists_run_eq_ok (x := Pass.propagateConstants .folding)
    (s := .misfit) (by decide +kernel)
  obtain ⟨fusing, hfuse⟩ := exists_run_eq_ok (x := Pass.fuse .folding)
    (s := .misfit) (by decide +kernel)
  obtain ⟨stats', hrun'⟩ := exists_run_eq_ok (x := Pass.propagateConstants .folding)
    (s := .misplaced) (by decide +kernel)
  obtain ⟨fusing', hfuse'⟩ := exists_run_eq_ok (x := Pass.fuse .folding)
    (s := .misplaced) (by decide +kernel)
  obtain ⟨folding, hfold⟩ := exists_run_eq_ok (x := Pass.propagateConstants .folding)
    (s := ((Pass.fuse .folding).run.run .misplaced).2) (by decide +kernel)
  refine ⟨⟨hw, by decide +kernel, hc, foldable_of_nodes (by decide +kernel), by decide +kernel,
    stats, _, fusing, _, hrun, by decide +kernel, hfuse, by decide +kernel, by decide +kernel⟩,
    Compilation.misplaced_spec.1, by decide +kernel, Compilation.misplaced_spec.2,
    by decide +kernel, by decide +kernel, stats', _, fusing', _, folding, _, hrun', by decide +kernel,
    hfuse', hfold, by decide +kernel⟩

end NetPlan

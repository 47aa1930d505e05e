import NetPlan.Proofs.Graph.Ordered
import NetPlan.Proofs.Layout.Coherence

/-!
# Proofs/Pass/Intact — fusion leaves no loose end

A fused node takes over the arguments of the three nodes it stands for, and two of these go.  It
reads neither of them as long as no normalization reads its convolution as a statistic too, and no
scaling its normalization as a factor (`ReadsOnce`): the pattern asks for a single user, and a user
that reads twice is one.

* `fuse_intact` — in such a program, what the pass leaves is in order and aligned, with the same
  outputs and no more nodes;
* `fuse_dangling` — a convolution that is normalized by itself leaves a slot that names nothing.
-/

namespace NetPlan

open Program Edit

namespace Program

/-- No normalization of a convolution reads it again, and no scaling of a normalization does. -/
structure ReadsOnce (p : Program) : Prop where
  norm : ∀ u x rest, (∃ b, p.shapeOf u = some (.batchNorm b)) → p.argsOf u = x :: rest →
    (∃ c, p.shapeOf x = some (.convolution c)) → x ∉ rest
  scale : ∀ u x rest, (∃ s, p.shapeOf u = some (.scale s)) → p.argsOf u = x :: rest →
    (∃ b, p.shapeOf x = some (.batchNorm b)) → x ∉ rest

variable {p q : Program}

/-- Where every operation was there before, with the same arguments, nothing is read again. -/
theorem ReadsOnce.of_views (hp : p.ReadsOnce)
    (shapes : ∀ j op, q.shapeOf j = some op → (∀ f, op ≠ .fusedConvBnScale f) →
      p.shapeOf j = some op ∧ p.argsOf j = q.argsOf j) : q.ReadsOnce := by
  constructor
  · rintro u x rest ⟨b, hu⟩ hargs ⟨c, hx⟩
    obtain ⟨hu', hargs'⟩ := shapes u _ hu fun f => by simp
    obtain ⟨hx', -⟩ := shapes x _ hx fun f => by simp
    exact hp.norm u x rest ⟨b, hu'⟩ (hargs'.trans hargs) ⟨c, hx'⟩
  · rintro u x rest ⟨s, hu⟩ hargs ⟨b, hx⟩
    obtain ⟨hu', hargs'⟩ := shapes u _ hu fun f => by simp
    obtain ⟨hx', -⟩ := shapes x _ hx fun f => by simp
    exact hp.scale u x rest ⟨s, hu'⟩ (hargs'.trans hargs) ⟨b, hx'⟩

end Program

namespace Pass

variable {p₀ p q : Program} {id norm scale input : String} {prim : Primitive}

/-! ## The order -/

/-- Users stand behind what they read, so none is moved. -/
theorem Relocated.ordered (h : Relocated p q id) (hl : p.Linked) (ho : p.Ordered) : q.Ordered :=
  h.1.ordered (h.2 fun u hu => ho.before u id ((hl.edges id u).mpr hu)) ho

theorem Absorbed.ordered (h : Absorbed p q id input) (hl : p.Linked) (ho : p.Ordered) :
    q.Ordered := by
  obtain ⟨q₁, q₂, a, padding, -, hby, hwork, -, hmoved⟩ := h.steps
  exact hmoved.ordered hwork.linked (hwork.ordered (hby.ordered ho hl))

theorem Merged.ordered {bound : Bool} (h : Merged p q bound id) (hl : p.Linked) (ho : p.Ordered) :
    q.Ordered := by
  obtain ⟨input, survivor, format, element, padding, r, s, hex, -, -, hwork, -, hplanned, -⟩ :=
    h.steps
  exact hplanned.ordered (congrArg Order.ids hplanned.order) (hwork.ordered (hex.ordered hl ho))

theorem Merged.aligned {bound : Bool} (h : Merged p q bound id) (ha : p.Aligned) : q.Aligned := by
  obtain ⟨input, survivor, format, element, padding, r, s, hex, -, -, hwork, -, hplanned, -⟩ :=
    h.steps
  exact hplanned.toSameGraph.aligned (hwork.aligned (hex.aligned ha))

/-! ## One fusion -/

section Fused

variable (h : Fused p q id norm scale prim) (hl : p.Linked) (ho : p.Ordered)
include h hl ho

/-- The three nodes stand one behind the other. -/
theorem Fused.chain : Before p.order.ids id norm ∧ Before p.order.ids norm scale := by
  refine ⟨ho.before norm id ((hl.edges id norm).mpr ?_),
    ho.before scale norm ((hl.edges norm scale).mpr ?_)⟩
  · rw [h.users]
    exact List.mem_singleton_self norm
  · rw [h.norm_users]
    exact List.mem_singleton_self scale

/-- **What the fused node reads stands before it**, if the slots of the three are right. -/
theorem Fused.reads_before (hid : p.argsOf id = p.depsOf id) (hnorm : p.argsOf norm = p.depsOf norm)
    (hscale : p.argsOf scale = p.depsOf scale) {a : String} (hmem : a ∈ prim.arguments) :
    Before p.order.ids a scale := by
  obtain ⟨stats, factors, hstats, hfactors, hargs⟩ := h.reads
  obtain ⟨hfirst, hsecond⟩ := h.chain hl ho
  rw [hargs, List.mem_append, List.mem_append, hid] at hmem
  rw [hstats] at hnorm
  rw [hfactors] at hscale
  rcases hmem with (hconv | hstat) | hfactor
  · exact (ho.before id a hconv).trans ho.nodup (hfirst.trans ho.nodup hsecond)
  · exact (ho.before norm a (hnorm ▸ List.mem_cons_of_mem _ hstat)).trans ho.nodup hsecond
  · exact ho.before scale a (hscale ▸ List.mem_cons_of_mem _ hfactor)

theorem Fused.ordered (hid : p.argsOf id = p.depsOf id) (hnorm : p.argsOf norm = p.depsOf norm)
    (hscale : p.argsOf scale = p.depsOf scale) : q.Ordered := by
  obtain ⟨q₁, q₂, q₃, h₁, h₂, h₃, h₄⟩ := h.steps
  have ho₁ := h₁.ordered (fun d hd _ => h.reads_before hl ho hid hnorm hscale hd) ho
  exact h₄.ordered h₃.kept.linked (h₃.ordered (h₂.ordered ho₁))

variable (ha : p.Aligned) (hr : p.ReadsOnce)
include ha hr

/-- **What the fused node reads stays.** -/
theorem Fused.reads_apart {a : String} (hmem : a ∈ prim.arguments) :
    a ≠ scale ∧ a ≠ norm ∧ a ≠ id := by
  obtain ⟨hfirst, hsecond⟩ := h.chain hl ho
  obtain ⟨stats, factors, hnorm, hscale, hargs⟩ := h.reads
  have hdeps := ha norm
  have hdeps' := ha scale
  rw [hnorm] at hdeps
  rw [hscale] at hdeps'
  have hboth := hfirst.trans ho.nodup hsecond
  have happart : ∀ {x y : String}, Before p.order.ids x y → x ≠ y := fun hb he =>
    Before.irrefl ho.nodup _ (he ▸ hb)
  rw [hargs, List.mem_append, List.mem_append, ha id] at hmem
  rcases hmem with (hconv | hstat) | hfactor
  · have hb := ho.before id a hconv
    exact ⟨happart (hb.trans ho.nodup hboth), happart (hb.trans ho.nodup hfirst), happart hb⟩
  · have hb := ho.before norm a (hdeps ▸ List.mem_cons_of_mem _ hstat)
    refine ⟨happart (hb.trans ho.nodup hsecond), happart hb, ?_⟩
    rintro rfl
    exact hr.norm norm a stats h.batchNorm hnorm h.convolution hstat
  · have hread : a ∈ p.depsOf scale := hdeps' ▸ List.mem_cons_of_mem _ hfactor
    refine ⟨happart (ho.before scale a hread), ?_, ?_⟩
    · rintro rfl
      exact hr.scale scale a factors h.scaling hscale h.batchNorm hfactor
    · rintro rfl
      have huser := (hl.edges a scale).mp hread
      rw [h.users, List.mem_singleton] at huser
      exact happart hsecond huser.symm

/-- The graph after a fusion, before the order is looked at. -/
theorem Fused.settled : ∃ r, Relocated r q scale ∧ r.Aligned ∧
    r.isMarked = p.isMarked ∧ (∀ j, r.contains j = true → p.contains j = true) ∧
    ∀ j op, r.shapeOf j = some op → (∀ f, op ≠ .fusedConvBnScale f) →
      p.shapeOf j = some op ∧ p.argsOf j = r.argsOf j := by
  obtain ⟨q₁, q₂, q₃, h₁, h₂, h₃, h₄⟩ := h.steps
  have hreads := fun a hmem => h.reads_apart hl ho ha hr (a := a) hmem
  have hfilter : prim.arguments = prim.arguments.filter (· ≠ scale) :=
    (Order.filter_ne_of_not_mem fun hmem => (hreads scale hmem).1 rfl).symm
  have ha₁ := h₁.aligned hfilter ha
  have hdeps₁ : ∀ u d, d ∈ q₁.depsOf u → (u = scale ∧ d ∈ prim.arguments) ∨ d ∈ p.depsOf u := by
    intro u d hd
    rw [h₁.deps] at hd
    split at hd
    case isTrue hu => exact Or.inl ⟨hu, hfilter ▸ hd⟩
    case isFalse => exact Or.inr hd
  -- nothing reads the normalization any more, and then nothing the convolution
  have hnorm : ∀ u, norm ∉ q₁.depsOf u := by
    intro u hd
    rw [h₁.deps] at hd
    split at hd
    · rw [← hfilter] at hd
      exact (hreads norm hd).2.1 rfl
    case isFalse hu =>
      have huser := (hl.edges norm u).mp hd
      rw [h.norm_users] at huser
      exact hu (List.mem_singleton.mp huser)
  have hconv : ∀ u, id ∉ q₂.depsOf u := by
    intro u hd
    rw [h₂.deps] at hd
    split at hd
    · cases hd
    case isFalse hu =>
      rcases hdeps₁ u id (List.mem_filter.mp hd).1 with ⟨-, hmem⟩ | hd
      · exact (hreads id hmem).2.2 rfl
      · have huser := (hl.edges id u).mp hd
        rw [h.users] at huser
        exact hu (List.mem_singleton.mp huser)
  have ha₂ := h₂.aligned hnorm ha₁
  have hmarks₁ : q₁.isMarked norm = false := by rw [h₁.marks, h.norm_unmarked]
  have hmarks₂ : q₂.isMarked id = false := by rw [h₂.marks hmarks₁, h₁.marks, h.unmarked]
  refine ⟨q₃, h₄, h₃.aligned hconv ha₂, ?_,
    fun j hj => ?_, fun j op hop hnot => ?_⟩
  · rw [h₃.marks hmarks₂, h₂.marks hmarks₁, h₁.marks]
  · rw [h₃.contains_iff, h₂.contains_iff, h₁.contains] at hj
    exact hj.2.2
  · rw [h₃.shapes] at hop
    split at hop
    · cases hop
    case isFalse hjid =>
    rw [h₂.shapes] at hop
    split at hop
    · cases hop
    case isFalse hjnorm =>
    rw [h₁.shapes] at hop
    split at hop
    case isTrue =>
      obtain ⟨f, hf⟩ := h.fused
      rw [hf] at hop
      exact absurd (Option.some.inj hop).symm (hnot _)
    case isFalse hjscale =>
      refine ⟨hop, ?_⟩
      rw [h₃.args, if_neg hjid, h₂.args, if_neg hjnorm, ha₁, h₁.deps, if_neg hjscale, ha]

end Fused

/-! ## The pass -/

/-- `p` has come from `p₀` with the same outputs and no node under a new id, and nothing about it is
loose. -/
structure Intact (p₀ p : Program) : Prop where
  wellFormed : p.WellFormed
  ordered : p.Ordered
  aligned : p.Aligned
  marks : p.isMarked = p₀.isMarked
  contains : ∀ j, p.contains j = true → p₀.contains j = true

namespace Intact

theorem sameGraph (h : Intact p₀ p) (hq : SameGraph p q) (order : q.order.ids = p.order.ids)
    (marks : q.isMarked = p.isMarked) : Intact p₀ q :=
  ⟨hq.kept.wellFormed h.wellFormed, hq.ordered order h.ordered, hq.aligned h.aligned,
    marks.trans h.marks, fun j hj => h.contains j (hq.contains ▸ hj)⟩

theorem touched (h : Intact p₀ p) (hq : Touched p q) : Intact p₀ q :=
  h.sameGraph hq.toSameGraph (congrArg Order.ids hq.order) hq.marks

theorem fused (h : Intact p₀ p) (hr : p.ReadsOnce) (hq : Fused p q id norm scale prim) :
    Intact p₀ q ∧ q.ReadsOnce := by
  have hl := h.wellFormed.toLinked
  obtain ⟨r, hmoved, ha, hmarks, hcontains, hshapes⟩ := hq.settled hl h.ordered h.aligned hr
  refine ⟨⟨hq.kept.wellFormed h.wellFormed,
    hq.ordered hl h.ordered (h.aligned id) (h.aligned norm) (h.aligned scale),
    hmoved.1.aligned ha, ?_, fun j hj => h.contains j (hcontains j (hmoved.1.contains ▸ hj))⟩,
    hr.of_views fun j op hop hnot => ?_⟩
  · rw [hmoved.1.marks, hmarks, h.marks]
  · rw [hmoved.1.args]
    exact hshapes j op (hmoved.1.shapes ▸ hop) hnot

theorem absorbed (h : Intact p₀ p) (hq : Absorbed p q id input) : Intact p₀ q := by
  obtain ⟨q₁, q₂, a, padding, -, hby, hwork, -, hmoved⟩ := hq.steps
  refine ⟨hq.kept.wellFormed h.wellFormed, hq.ordered h.wellFormed.toLinked h.ordered,
    hmoved.1.aligned (hwork.aligned (hby.aligned h.aligned)), funext fun j => ?_, fun j hj => ?_⟩
  · rw [hmoved.1.marks, hwork.marks, hby.marks, ← h.marks]
    split
    case isTrue hj => rw [hj, hq.unmarked]
    case isFalse => rfl
  · rw [hmoved.1.contains, hwork.contains, hby.contains_iff] at hj
    exact h.contains j hj.2

theorem merged {bound : Bool} (h : Intact p₀ p) (hq : Merged p q bound id) : Intact p₀ q := by
  obtain ⟨input, survivor, format, element, padding, r, s, hex, -, -, hwork, -, hplanned, -⟩ :=
    hq.steps
  have hl := h.wellFormed.toLinked
  refine ⟨hq.kept.wellFormed h.wellFormed, hq.ordered hl h.ordered,
    hplanned.aligned (hwork.aligned (hex.aligned h.aligned)), ?_, fun j hj => ?_⟩
  · rw [hplanned.marks, hwork.marks, hex.marks hl, h.marks]
  · rw [hplanned.contains, hwork.contains] at hj
    exact h.contains j (hex.contains_of hj)

theorem size_le (h : Intact p₀ p) : p.size ≤ p₀.size := by
  have hlength : ∀ r : Program, r.size = r.ids.length := fun r => by
    rw [ids, List.length_map, size]
  rw [hlength, hlength]
  refine (List.subperm_of_subset h.wellFormed.ids_nodup fun j hj => ?_).length_le
  exact contains_iff_mem_ids.mp (h.contains j (contains_iff_mem_ids.mpr hj))

end Intact

/-- **Fusion keeps a program intact.** -/
theorem fuse_intact_ends (env : Environment) {c : Compilation} (hw : c.program.WellFormed)
    (ho : c.program.Ordered) (ha : c.program.Aligned) (hr : c.program.ReadsOnce) :
    Ends (fuse env) (fun _ c' => Intact c.program c'.program) (fun e _ => e.closes = false) c := by
  have hstart : Intact c.program c.program := ⟨hw, ho, ha, rfl, fun _ hj => hj⟩
  refine (fuse_ends env (fun p => Intact c.program p ∧ p.ReadsOnce) (Intact c.program)
    (fun hp => hp.1.wellFormed.toLinked) (fun hp hq => ⟨hp.1.touched hq, ?_⟩)
    (fun hp hq => hp.1.fused hp.2 hq) (fun hp => hp.1) (fun hp => ?_)
    (fun hp hq => hp.touched hq) (fun hp hq _ => hp.absorbed hq) (fun hp hq => hp.merged hq.toMerged)
    ⟨hstart, hr⟩).imp (fun _ _ hd => hd.1) fun _ _ hb => hb.1
  · refine hp.2.of_views fun j op hop _ => ?_
    rw [hq.args, ← hq.shapes]
    exact ⟨hop, rfl⟩
  · have hacyclic := hp.ordered.acyclic
    exact ⟨hp.wellFormed.toLinked, Or.inr hacyclic, hacyclic.ranked hp.wellFormed.toLinked⟩

end Pass

/-- **Fusion leaves no loose end**: there are no more nodes than before, every dependency and every
argument slot names one of them, slot by slot the same, the outputs are the same and still there,
and the processing order is topological. -/
theorem fuse_intact (env : Environment) (c c' : Compilation) (stats : PassStats)
    (hw : c.program.WellFormed) (ho : c.program.isOrdered = true) (ha : c.program.Aligned)
    (hr : c.program.ReadsOnce) (h : (Pass.fuse env).run.run c = (.ok stats, c')) :
    c'.program.size ≤ c.program.size ∧
      (∀ id, ∀ d ∈ c'.program.depsOf id, c'.program.contains d = true) ∧
      (∀ id, ∀ a ∈ c'.program.argsOf id, c'.program.contains a = true) ∧
      c'.program.Aligned ∧
      (∀ id, id ∈ c'.program.outputs ↔ id ∈ c.program.outputs) ∧
      (∀ id ∈ c'.program.outputs, c'.program.contains id = true) ∧
      c'.program.isOrdered = true := by
  have hends := Pass.fuse_intact_ends env hw ((isOrdered_iff hw.toLinked).mp ho) ha hr
  rw [Ends, h] at hends
  have hw' := hends.wellFormed
  have hdeps : ∀ id, ∀ d ∈ c'.program.depsOf id, c'.program.contains d = true := fun id d hd =>
    hw'.contains_dep hd
  refine ⟨hends.size_le, hdeps, fun id a hmem => hdeps id a (hends.aligned id ▸ hmem),
    hends.aligned, fun id => ?_, fun id hid => ?_, (isOrdered_iff hw'.toLinked).mpr hends.ordered⟩
  · rw [hw'.mem_outputs, hw.mem_outputs, hends.marks]
  · by_contra hnot
    rw [hw'.mem_outputs, isMarked_of_not_contains hnot] at hid
    cases hid

/-! ## A convolution, normalized and scaled -/

/-- Nothing is read again where no node names its first argument twice. -/
theorem Program.readsOnce_of_nodes {p : Program}
    (h : ∀ n ∈ p.nodes, ∀ x ∈ n.operation.arguments.head?, x ∉ n.operation.arguments.tail) :
    p.ReadsOnce := by
  have hargs : ∀ u x rest, p.argsOf u = x :: rest → x ∉ rest := by
    intro u x rest hu
    cases hn : p.node? u with
    | none =>
      rw [argsOf_of_not_contains (node?_eq_none.mp hn)] at hu
      cases hu
    | some n =>
      have hfirst := h n (node?_eq_some hn).1 x
      rw [← argsOf_of_node? hn, hu] at hfirst
      exact hfirst rfl
  exact ⟨fun u x rest _ hu _ => hargs u x rest hu, fun u x rest _ hu _ => hargs u x rest hu⟩

/-- A convolution over one element, its result normalized and then scaled. -/
def Topology.normalized (mean : String) : Topology :=
  ⟨[⟨"x", Padding.none, .inputLayout (.dense .f32 .bfyx ⟨1, 1, 1, 1⟩)⟩,
    ⟨"w", Padding.none, .inputLayout (.dense .f32 .oiyx ⟨1, 1, 1, 1⟩)⟩,
    ⟨"m", Padding.none, .inputLayout (.dense .f32 .bfyx ⟨1, 1, 1, 1⟩)⟩,
    ⟨"c", Padding.none, .convolution
      ⟨"x", ["w"], [], ⟨1, 1⟩, ⟨1, 1⟩, ⟨0, 0⟩, none, Activation.none⟩⟩,
    ⟨"n", Padding.none, .batchNorm ⟨"c", mean, "m", ⟨0⟩⟩⟩,
    ⟨"s", Padding.none, .scale ⟨"n", "m", none⟩⟩]⟩

/-- Three nodes become one, which reads what they read of the others. -/
theorem fuse_intact_normalized : ∃ stats c',
    (Pass.fuse ⟨.builtin .default, none, false⟩).run.run (.ofTopology (.normalized "m"))
      = (.ok stats, c') ∧
    c'.program.ids = ["m", "s", "w", "x"] ∧ c'.program.depsOf "s" = ["x", "w", "m", "m", "m"] ∧
    c'.program.Aligned ∧ c'.program.isOrdered = true := by
  obtain ⟨stats, hrun⟩ := exists_run_eq_ok (x := Pass.fuse ⟨.builtin .default, none, false⟩)
    (s := .ofTopology (.normalized "m")) (by decide +kernel)
  have hids : ((Pass.fuse ⟨.builtin .default, none, false⟩).run.run
      (.ofTopology (.normalized "m"))).2.program.ids = ["m", "s", "w", "x"] := by decide +kernel
  have hdeps : ((Pass.fuse ⟨.builtin .default, none, false⟩).run.run
      (.ofTopology (.normalized "m"))).2.program.depsOf "s" = ["x", "w", "m", "m", "m"] := by
    decide +kernel
  have hwhole : (Compilation.ofTopology (.normalized "m")).program.WellFormed :=
    Compilation.wellFormed_ofTopology (by unfold Topology.Distinct; decide)
  have hordered : (Compilation.ofTopology (.normalized "m")).program.isOrdered = true := by
    decide +kernel
  have haligned : (Compilation.ofTopology (.normalized "m")).program.Aligned :=
    Program.aligned_of_nodes (by decide +kernel)
  have honce : (Compilation.ofTopology (.normalized "m")).program.ReadsOnce :=
    Program.readsOnce_of_nodes (by decide +kernel)
  obtain ⟨-, -, -, haligned', -, -, hordered'⟩ :=
    fuse_intact _ _ _ stats hwhole hordered haligned honce hrun
  exact ⟨stats, _, hrun, hids, hdeps, haligned', hordered'⟩

/-- **A convolution that is normalized by itself is lost**: the fused node names it in a slot, reads
one argument less, and the convolution is gone. -/
theorem fuse_dangling :
    (Compilation.ofTopology (.normalized "c")).program.WellFormed ∧
    (Compilation.ofTopology (.normalized "c")).program.isOrdered = true ∧
    (Compilation.ofTopology (.normalized "c")).program.Aligned ∧ ∃ stats c',
    (Pass.fuse ⟨.builtin .default, none, false⟩).run.run (.ofTopology (.normalized "c"))
      = (.ok stats, c') ∧
    c'.program.argsOf "s" = ["x", "w", "c", "m", "m"] ∧
    c'.program.depsOf "s" = ["x", "w", "m", "m"] ∧ c'.program.contains "c" = false := by
  obtain ⟨stats, hrun⟩ := exists_run_eq_ok (x := Pass.fuse ⟨.builtin .default, none, false⟩)
    (s := .ofTopology (.normalized "c")) (by decide +kernel)
  have hleft : ((Pass.fuse ⟨.builtin .default, none, false⟩).run.run
      (.ofTopology (.normalized "c"))).2.program.argsOf "s" = ["x", "w", "c", "m", "m"] ∧
      ((Pass.fuse ⟨.builtin .default, none, false⟩).run.run
      (.ofTopology (.normalized "c"))).2.program.depsOf "s" = ["x", "w", "m", "m"] ∧
      ((Pass.fuse ⟨.builtin .default, none, false⟩).run.run
      (.ofTopology (.normalized "c"))).2.program.contains "c" = false := by decide +kernel
  exact ⟨Compilation.wellFormed_ofTopology (by unfold Topology.Distinct; decide), by decide +kernel,
    Program.aligned_of_nodes (by decide +kernel), stats, _, hrun, hleft⟩

end NetPlan

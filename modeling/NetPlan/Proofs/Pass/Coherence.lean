import NetPlan.Pass.Pipeline
import NetPlan.Proofs.Graph.Search
import NetPlan.Proofs.Pass.Constants
import NetPlan.Proofs.Pass.Fusion
import NetPlan.Proofs.Pass.Padding
import NetPlan.Proofs.Pass.Preferred
import NetPlan.Proofs.Pass.Trim

/-!
# Proofs/Pass/Coherence — every pass leaves the caches right

A pass is made of edits, and every edit keeps the caches right as long as none asks for a node that
reads itself.  Only merging reorders could: it extracts a reorder without looking at layouts, so
reorders must not read each other in a circle.  In an acyclic program they do not (`Ranked`), and no
rewrite of a pass that merges reorders changes that, even where it closes a circle through other
nodes.

`sound_run` — whatever the environment and the reorders on record, a pass that succeeds on a coherent
program with ranked reorders leaves a coherent one.
-/

namespace NetPlan

open Program Edit

namespace Program

variable {p q : Program} {id : String}

/-! ## Reorders in ranks -/

/-- Fewer edges between reorders keep the ranks. -/
theorem Ranked.of_edges (h : p.Ranked) (hsub : ∀ u d, d ∈ q.depsOf u → q.isReorder d →
    q.isReorder u → d ∈ p.depsOf u ∧ p.isReorder d ∧ p.isReorder u) : q.Ranked := by
  obtain ⟨rank, hrank⟩ := h
  refine ⟨rank, fun u d hd hrd hru => ?_⟩
  obtain ⟨hd', hrd', hru'⟩ := hsub u d hd hrd hru
  exact hrank u d hd' hrd' hru'

theorem Acyclic.ranked (h : p.Acyclic) (hl : p.Linked) : p.Ranked := by
  obtain ⟨rank, hrank⟩ := h.exists_rank hl
  exact ⟨rank, fun u d hd _ _ => hrank u d hd⟩

theorem SameGraph.ranked (h : SameGraph p q) (hp : p.Ranked) : q.Ranked :=
  hp.of_edges fun u d hd hrd hru => by
    rw [isReorder, h.shapes] at hrd hru
    exact ⟨h.deps ▸ hd, hrd, hru⟩

/-- Other work for a node, which stays a reorder or something else. -/
theorem Reworked.isReorder_of {g : Task → Task} (h : Reworked p q id g)
    (hg : ∀ t, (g t).operation.kind = t.operation.kind) {j : String} (hj : q.isReorder j) :
    p.isReorder j := by
  obtain ⟨s, hs⟩ := hj
  obtain ⟨op, hop, hkind⟩ := h.exists_kind hg hs
  cases op with
  | reorder s' => exact ⟨s', hop⟩
  | _ => cases hkind

theorem Reworked.ranked {g : Task → Task} (h : Reworked p q id g)
    (hg : ∀ t, (g t).operation.kind = t.operation.kind) (hp : p.Ranked) : q.Ranked :=
  hp.of_edges fun _ _ hd hrd hru => ⟨h.deps ▸ hd, h.isReorder_of hg hrd, h.isReorder_of hg hru⟩

end Program

namespace Edit

variable {p q : Program} {id input old new : String}

theorem Removed.isReorder_of (h : Removed p q id) {j : String} (hj : q.isReorder j) :
    j ≠ id ∧ p.isReorder j := by
  obtain ⟨s, hs⟩ := hj
  rw [h.shapes] at hs
  split at hs
  · cases hs
  case isFalse hne => exact ⟨hne, s, hs⟩

theorem Removed.ranked (h : Removed p q id) (hp : p.Ranked) : q.Ranked := by
  refine hp.of_edges fun u d hd hrd hru =>
    ⟨?_, (h.isReorder_of hrd).2, (h.isReorder_of hru).2⟩
  rw [h.deps] at hd
  split at hd
  · cases hd
  · exact (List.mem_filter.mp hd).1

/-- Another primitive in one place, which is no reorder. -/
theorem Replaced.isReorder_of {prim : Primitive} {reads : List String}
    (h : Replaced p q id prim reads) (hprim : prim.operation.kind ≠ .reorder) {j : String}
    (hj : q.isReorder j) : j ≠ id ∧ p.isReorder j := by
  obtain ⟨s, hs⟩ := hj
  rw [h.shapes] at hs
  split at hs
  · have hkind := congrArg Operation.kind (Option.some.inj hs)
    rw [Operation.kind_shape] at hkind
    exact absurd hkind hprim
  case isFalse hne => exact ⟨hne, s, hs⟩

theorem Replaced.ranked {prim : Primitive} {reads : List String} (h : Replaced p q id prim reads)
    (hprim : prim.operation.kind ≠ .reorder) (hp : p.Ranked) : q.Ranked := by
  refine hp.of_edges fun u d hd hrd hru =>
    ⟨?_, (h.isReorder_of hprim hrd).2, (h.isReorder_of hprim hru).2⟩
  rwa [h.deps, if_neg (h.isReorder_of hprim hru).1] at hd

theorem Renamed.ranked (h : Renamed p q old new) (hl : p.Linked) (hp : p.Ranked) : q.Ranked := by
  obtain ⟨rank, hrank⟩ := hp
  refine ⟨fun j => rank (swap new old j), fun u d hd hrd hru => ?_⟩
  obtain ⟨v, hv, rfl, -, hdeps, hshape, -⟩ := h.exists_node hl (contains_of_isReorder hru)
  obtain ⟨e, he, rfl, -, -, hshape', -⟩ := h.exists_node hl (contains_of_isReorder hrd)
  rw [hdeps] at hd
  rw [isReorder, hshape] at hru
  rw [isReorder, hshape'] at hrd
  dsimp only
  rw [swap_swap hv, swap_swap he]
  obtain ⟨e', he', heq⟩ := List.mem_map.mp hd
  have hne' : e' ≠ new := fun hn => h.free (hl.contains_dep (hn ▸ he'))
  have hee : e' = e := by rw [← @swap_swap old new e' hne', heq, swap_swap he]
  exact hrank v e (hee ▸ he') hrd hru

theorem Bypassed.isReorder_of (h : Bypassed p q id input) {j : String} (hj : q.isReorder j) :
    j ≠ id ∧ p.isReorder j := by
  obtain ⟨s, hs⟩ := hj
  rw [h.shapes] at hs
  split at hs
  · cases hs
  case isFalse hne => exact ⟨hne, s, hs⟩

/-- A node that is bypassed hands its rank on, if it is a reorder; if its input is none, no reorder
has lost anything. -/
theorem Bypassed.ranked (h : Bypassed p q id input) (hid : p.isReorder id ∨ ¬ p.isReorder input)
    (hp : p.Ranked) : q.Ranked := by
  obtain ⟨rank, hrank⟩ := hp
  refine ⟨rank, fun u d hd hrd hru => ?_⟩
  obtain ⟨hu, hru'⟩ := h.isReorder_of hru
  obtain ⟨-, hrd'⟩ := h.isReorder_of hrd
  rw [h.deps, if_neg hu] at hd
  rcases mem_map_swap.mp hd with ⟨rfl, hread⟩ | ⟨-, hread⟩
  · have hid' := hid.resolve_right fun hn => hn hrd'
    have hfirst := hrank id d (by rw [h.only]; exact List.mem_singleton_self d) hrd' hid'
    exact Nat.lt_trans hfirst (hrank u id hread hid' hru')
  · exact hrank u d hread hrd' hru'

theorem Extracted.ranked (h : Extracted p q id input) (hid : p.isReorder id) (hp : p.Ranked) :
    q.Ranked := by
  obtain ⟨r, hby, hq⟩ := h
  have hr := hby.ranked (Or.inl hid) hp
  split at hq
  · obtain ⟨-, s, hs, -, hq⟩ := hq
    exact hq.ranked hs.kept.linked (hs.ranked hr)
  · exact hq.ranked hr

/-- A reorder that something else reads ranks above what it reads. -/
theorem Inserted.ranked {prim : Primitive} {next source : String} {index : Nat}
    (h : Inserted p q prim next index source) (hargs : prim.arguments = [source])
    (hnext : ¬ p.isReorder next) (hl : p.Linked) (hp : p.Ranked) : q.Ranked := by
  obtain ⟨rank, hrank⟩ := hp
  have hfree : ∀ i, p.contains i = true → i ≠ prim.id := fun i hi he => h.free (he ▸ hi)
  have hold : ∀ i, i ≠ prim.id → q.isReorder i → p.isReorder i := fun i hi hr => by
    rwa [isReorder, h.shapes, if_neg hi] at hr
  refine ⟨fun i => if i = prim.id then rank source + 1 else rank i, fun u d hd hrd hru => ?_⟩
  dsimp only
  rw [h.deps] at hd
  by_cases hu : u = prim.id
  · rw [if_pos hu, hargs, List.mem_singleton] at hd
    rw [if_pos hu, hd, if_neg (hfree source (h.known source h.consumes))]
    exact Nat.lt_succ_self _
  · have hru' := hold u hu hru
    rw [if_neg hu, if_neg fun he : u = next => hnext (he ▸ hru')] at hd
    have hd' := hfree d (hl.contains_dep hd)
    rw [if_neg hu, if_neg hd']
    exact hrank u d hd (hold d hd' hrd) hru'

theorem Shared.ranked {shared next source : String} {index : Nat}
    (h : Shared p q shared next index source) (hnext : ¬ p.isReorder next) (hp : p.Ranked) :
    q.Ranked :=
  hp.of_edges fun u d hd hrd hru => by
    rw [isReorder, h.shapes] at hrd hru
    rw [h.deps, if_neg fun he : u = next => hnext (he ▸ hru)] at hd
    exact ⟨hd, hrd, hru⟩

end Edit

namespace Pass

variable {p q : Program} {c : Compilation} {id input norm scale : String} {bound : Bool}

theorem Merged.ranked (h : Merged p q bound id) (hp : p.Ranked) : q.Ranked := by
  obtain ⟨input, survivor, format, element, padding, r, s, hex, hid, -, hwork, -, hplanned, -⟩ :=
    h.steps
  exact hplanned.ranked (hwork.ranked (fun t => kind_retargeted t.operation format element)
    (hex.ranked hid.isReorder hp))

theorem Fused.kind_ne {prim : Primitive} (h : Fused p q id norm scale prim) :
    prim.operation.kind ≠ .reorder := by
  obtain ⟨f, hf⟩ := h.fused
  rw [hf]
  exact fun hk => nomatch hk

theorem Fused.ranked {prim : Primitive} (h : Fused p q id norm scale prim) (hp : p.Ranked) :
    q.Ranked := by
  obtain ⟨q₁, q₂, q₃, h₁, h₂, h₃, h₄⟩ := h.steps
  exact h₄.1.ranked (h₃.ranked (h₂.ranked (h₁.ranked h.kind_ne hp)))

theorem Absorbed.ranked (h : Absorbed p q id input) (hp : p.Ranked) : q.Ranked := by
  obtain ⟨op, hop, hhost⟩ := h.host
  have hinput : ¬ p.isReorder input := by
    rintro ⟨r, hr⟩
    rw [hop] at hr
    rw [Option.some.inj hr] at hhost
    cases hhost
  obtain ⟨q₁, q₂, a, padding, -, hby, hwork, -, hmoved⟩ := h.steps
  exact hmoved.1.ranked (hwork.ranked (fun _ => rfl) (hby.ranked (Or.inr hinput) hp))

/-! ## Kept by the rewrites -/

theorem Merged.kept (h : Merged p q bound id) : Kept p q := by
  obtain ⟨input, survivor, format, element, padding, r, s, hex, -, -, -, hkept, hplanned, -⟩ :=
    h.steps
  exact (hex.kept.trans hkept).trans hplanned.kept

theorem Fused.kept {prim : Primitive} (h : Fused p q id norm scale prim) : Kept p q := by
  obtain ⟨q₁, q₂, q₃, h₁, h₂, h₃, h₄⟩ := h.steps
  exact ((h₁.kept.trans h₂.kept).trans h₃.kept).trans h₄.1.kept

theorem Absorbed.kept (h : Absorbed p q id input) : Kept p q := by
  obtain ⟨q₁, q₂, a, padding, -, hby, -, hkept, hmoved⟩ := h.steps
  exact (hby.kept.trans hkept).trans hmoved.1.kept

theorem Folded.kept (h : Folded p q id) : Kept p q := by
  obtain ⟨prim, -, hreplaced⟩ := h.steps
  exact hreplaced.kept

theorem Padded.kept (h : Padded p q id) (hl : p.Linked) : Kept p q := by
  cases h with
  | none same =>
    rw [same]
    exact .refl hl
  | producer input padding work kept => exact kept
  | reorder prim source layout padding reader shape named inserted => exact inserted.kept

/-! ## The passes -/

/-- Caches that are right, in a graph that agrees on both ends of an edge. -/
structure Sound (p : Program) : Prop where
  linked : p.Linked
  coherent : p.Coherent

theorem Sound.kept (h : Sound p) (hk : Kept p q) : Sound q := ⟨hk.linked, hk.coherent h.coherent⟩

/-- **Every pass leaves the caches right.** -/
theorem sound_run (env : Environment) (pass : Pass) (h : Sound c.program)
    (hr : c.program.Ranked) :
    Ends (pass.run env) (fun _ c' => Sound c'.program) (fun e _ => e.closes = false) c := by
  have hbase : ∀ {p}, Sound p ∧ p.Ranked → p.Linked ∧ p.Coherent ∧ p.Ranked := fun hp =>
    ⟨hp.1.linked, hp.1.coherent, hp.2⟩
  have htouch : ∀ {p q}, Sound p ∧ p.Ranked → Touched p q → Sound q ∧ q.Ranked := fun hp hq =>
    ⟨hp.1.kept hq.kept, hq.ranked hp.2⟩
  have hmerged : ∀ {p q id s}, Sound p ∧ p.Ranked → Rebound s p q id →
      Sound q ∧ q.Ranked := fun hp hq => ⟨hp.1.kept hq.toMerged.kept, hq.toMerged.ranked hp.2⟩
  cases pass with
  | trim =>
    rw [run, trimToOutputs]
    split
    · exact h
    · rw [ends_bind, Transform.ends_liftM]
      refine (trim_effect h.linked).imp_good fun _ q hq => ?_
      obtain ⟨doomed, hq, -⟩ := hq
      exact h.kept hq.kept
  | layouts =>
    refine (calculateLayouts_ends h.linked h.coherent).imp_good fun _ d hd => ?_
    obtain ⟨-, p, hp, -, hfill⟩ := hd
    exact (h.kept hp.kept).kept (hfill.touched hp.kept.linked).kept
  | fusion =>
    exact (fuse_ends env (fun p => Sound p ∧ p.Ranked) (fun p => Sound p ∧ p.Ranked)
      (fun hp => hp.1.linked) htouch (fun hp hq => ⟨hp.1.kept hq.kept, hq.ranked hp.2⟩)
      (fun hp => hp) (fun hp => ⟨hp.1.linked, Or.inl hp.1.coherent, hp.2⟩) htouch
      (fun hp hq _ => ⟨hp.1.kept hq.kept, hq.ranked hp.2⟩) hmerged ⟨h, hr⟩).imp
      (fun _ _ hd => hd.1.1) fun _ _ hb => hb.1
  | inputReorders =>
    exact reorderInputs_ends (fun p _ => Sound p) (fun hp => ⟨hp.linked, hp.coherent⟩)
      (fun hp hq => hp.kept hq.kept) (fun hp _ hq => hp.kept (hq.kept hp.linked)) h
  | biasReorders =>
    exact reorderBias_ends (fun p _ => Sound p) (fun hp => ⟨hp.linked, hp.coherent⟩)
      (fun hp hq => hp.kept hq.kept) (fun hp _ hq => hp.kept (hq.kept hp.linked)) h
  | redundantReorders =>
    exact (removeRedundantReorders_ends env (fun p => Sound p ∧ p.Ranked) hbase htouch hmerged
      (fun hp hq => ⟨hp.1.kept hq.extracted.kept, hq.extracted.ranked hq.copy.isReorder hp.2⟩)
      ⟨h, hr⟩).imp_good
      fun _ _ hd => hd.1.1
  | padding =>
    exact (padInputs_ends Sound (fun hp => ⟨hp.linked, hp.coherent⟩)
      (fun hp hq => hp.kept hq.kept) (fun hp hq => hp.kept (hq.kept hp.linked)) h).imp_good
      fun _ _ hd => hd.1
  | constants =>
    exact (propagateConstants_ends env Sound (fun hp => ⟨hp.linked, hp.coherent⟩)
      (fun hp hq => hp.kept hq.kept) (fun hp hq => hp.kept hq.kept)
      (fun hp _ _ hq => hp.kept hq.kept) h).imp_good fun _ _ hd => hd.1
  | binding =>
    exact (bindAll_ends env h.linked h.coherent).imp_good fun _ _ hd => h.kept hd.1.kept
  | weightReorders =>
    exact reorderWeights_ends (fun p _ => Sound p) (fun hp => ⟨hp.linked, hp.coherent⟩)
      (fun hp hq => hp.kept hq.kept) (fun hp _ hq => hp.kept (hq.kept hp.linked))
      (fun hp hq _ => hp.kept hq.kept) env h

end Pass

end NetPlan

import NetPlan.Proofs.Graph.Build
import NetPlan.Proofs.Graph.Origin
import NetPlan.Proofs.Pass.Rewrite

/-!
# Proofs/Pass/Raw — graphs before the binding

Before nodes are bound no node has a plan, and a reorder reads one node at most (`Raw`).  A graph starts
so (`Built.raw`), and every rewrite leaves it so (`Rewrite.raw`): nodes are put together, read something
else or go, but none gets a plan unless one had it, and none but new reorders becomes a reorder.
-/

namespace NetPlan

open Program Edit Preferences

namespace Program

variable {p q : Program}

/-- A reorder reads one node at most. -/
def Slim (p : Program) : Prop := ∀ u, p.isReorder u → (p.depsOf u).length ≤ 1

/-- No node has a plan, and reorders read one node at most. -/
structure Raw (p : Program) : Prop where
  unplanned : ∀ u, p.planOf u = none
  slim : p.Slim

theorem Slim.of_nodes (h : p.Slim) (reads : ∀ u, q.isReorder u →
    ∃ v, p.isReorder v ∧ (q.depsOf u).length ≤ (p.depsOf v).length) : q.Slim := fun u hu => by
  obtain ⟨v, hv, hlength⟩ := reads u hu
  exact Nat.le_trans hlength (h v hv)

theorem Slim.sameGraph (h : p.Slim) (hq : SameGraph p q) : q.Slim := h.of_nodes fun u hu =>
  ⟨u, by rwa [isReorder, ← hq.shapes], by rw [hq.deps]⟩

theorem Raw.of_nodes (h : p.Raw) (plans : ∀ u, q.planOf u = none ∨ ∃ v, q.planOf u = p.planOf v)
    (reads : ∀ u, q.isReorder u →
      ∃ v, p.isReorder v ∧ (q.depsOf u).length ≤ (p.depsOf v).length) : q.Raw where
  unplanned u := by
    obtain hnone | ⟨v, hv⟩ := plans u
    · exact hnone
    · rw [hv, h.unplanned]
  slim := h.slim.of_nodes reads

theorem Raw.sameGraph (h : p.Raw) (hq : SameGraph p q) (plans : q.planOf = p.planOf) : q.Raw :=
  ⟨fun u => by rw [plans, h.unplanned], h.slim.sameGraph hq⟩

theorem Raw.reworked {id : String} {g : Task → Task} (h : p.Raw) (hq : Reworked p q id g)
    (hg : ∀ t, (g t).operation.kind = t.operation.kind) : q.Raw where
  unplanned u := by
    by_cases hu : u = id
    · rw [hu, hq.unplanned (h.unplanned id)]
    · rw [hq.plans u hu, h.unplanned]
  slim := h.slim.of_nodes fun u hu => ⟨u, hq.isReorder_of hg hu, by rw [hq.deps]⟩

/-- Where slots are right a reorder reads one node. -/
theorem Aligned.slim (h : p.Aligned) : p.Slim := fun u hu => by
  obtain ⟨d, hd⟩ := hu.exists_dep h
  rw [hd]
  exact Nat.le_refl 1

/-- **A graph starts raw.** -/
theorem Built.raw {t : Topology} {b : Behaviours} (h : Built t b p) : p.Raw where
  unplanned := h.unplanned
  slim := Aligned.slim fun j => (congrFun h.aligned j).symm

end Program

namespace Edit

variable {p q : Program} {id input old new next source : String} {index : Nat} {prim : Primitive}

theorem Cleared.raw {doomed : List String} (h : p.Raw) (hq : Cleared p q doomed) : q.Raw := by
  refine h.of_nodes (fun u => ?_) fun u hu => ⟨u, ?_, ?_⟩
  · rw [planOf_eq_coreOf, hq.core]
    split
    · exact Or.inl rfl
    · exact Or.inr ⟨u, by rw [planOf_eq_coreOf]⟩
  · obtain ⟨r, hr⟩ := hu
    rw [hq.shapes] at hr
    split at hr
    · cases hr
    · exact ⟨r, hr⟩
  · rw [hq.deps]
    split
    · exact Nat.zero_le _
    · exact List.length_filter_le _ _

theorem Removed.raw (h : p.Raw) (hq : Removed p q id) : q.Raw := by
  refine h.of_nodes (fun u => ?_) fun u hu => ⟨u, (hq.isReorder_of hu).2, ?_⟩
  · rw [planOf_eq_coreOf, hq.core]
    split
    · exact Or.inl rfl
    · exact Or.inr ⟨u, by rw [planOf_eq_coreOf]⟩
  · rw [hq.deps, if_neg (hq.isReorder_of hu).1]
    exact List.length_filter_le _ _

theorem Replaced.raw {reads : List String} (h : p.Raw) (hq : Replaced p q id prim reads)
    (hprim : prim.operation.kind ≠ .reorder) : q.Raw := by
  refine h.of_nodes (fun u => ?_) fun u hu => ⟨u, (hq.isReorder_of hprim hu).2, ?_⟩
  · rw [hq.plans]
    split
    · exact Or.inl rfl
    · exact Or.inr ⟨u, rfl⟩
  · rw [hq.deps, if_neg (hq.isReorder_of hprim hu).1]

theorem Renamed.raw (h : p.Raw) (hl : p.Linked) (hq : Renamed p q old new) : q.Raw := by
  refine h.of_nodes (fun u => ?_) fun u hu => ?_
  · rw [hq.plans]
    split
    · exact Or.inr ⟨old, rfl⟩
    · split
      · exact Or.inl rfl
      · exact Or.inr ⟨u, rfl⟩
  · obtain ⟨v, -, -, -, hdeps, hshape, -⟩ := hq.exists_node hl (contains_of_isReorder hu)
    refine ⟨v, by rwa [isReorder, ← hshape], ?_⟩
    rw [hdeps, List.length_map]

theorem Bypassed.raw (h : p.Raw) (hq : Bypassed p q id input) : q.Raw := by
  refine h.of_nodes (fun u => ?_) fun u hu => ⟨u, (hq.isReorder_of hu).2, ?_⟩
  · rw [hq.plans]
    split
    · exact Or.inl rfl
    · exact Or.inr ⟨u, rfl⟩
  · rw [hq.deps, if_neg (hq.isReorder_of hu).1, List.length_map]

theorem Extracted.raw (h : p.Raw) (hq : Extracted p q id input) : q.Raw := by
  obtain ⟨r, hby, hq⟩ := hq
  have hr := hby.raw h
  split at hq
  · obtain ⟨-, s, hs, -, hq⟩ := hq
    exact hq.raw (hr.sameGraph hs.toSameGraph hs.plans) hs.kept.linked
  · exact hr.sameGraph hq.toSameGraph hq.plans

theorem Inserted.slim (h : p.Slim) (hq : Inserted p q prim next index source)
    (hargs : prim.arguments = [source]) (hnext : ¬ p.isReorder next) : q.Slim := fun u hu => by
  rw [hq.deps]
  split
  · rw [hargs]
    exact Nat.le_refl 1
  case isFalse hne =>
    rw [isReorder, hq.shapes, if_neg hne] at hu
    rw [if_neg fun he : u = next => hnext (he ▸ hu)]
    exact h u hu

theorem Shared.slim {shared : String} (h : p.Slim) (hq : Shared p q shared next index source)
    (hnext : ¬ p.isReorder next) : q.Slim := fun u hu => by
  rw [isReorder, hq.shapes] at hu
  rw [hq.deps, if_neg fun he : u = next => hnext (he ▸ hu)]
  exact h u hu

end Edit

namespace Pass

variable {p q : Program} {m m' : List Entry} {id input norm scale next : String} {index : Nat}
  {made : Option String}

/-- **An answered request** makes a reorder that reads one node, or points at one. -/
theorem Served.slim (h : p.Slim) (hq : Served p q m m' next index made) (hm : Numbered m)
    (hnext : ¬ p.isReorder next) : q.Slim := by
  obtain ⟨rfl, -⟩ | ⟨e, he, hins, -⟩ | ⟨-, e, -, hshare⟩ := hq.cases hm
  · exact h
  · have hargs : e.2.arguments = [e.1.1] := by
      rw [(hq.numbered hm).reorder_of_mem he]
      rfl
    exact hins.slim h hargs hnext
  · exact hshare.slim h hnext

theorem Served.plans (h : Served p q m m' next index made) : q.planOf = p.planOf := by
  cases h with
  | notNeeded same => rw [same]
  | cached _ _ _ placed => exact placed.elim (·.plans) (·.plans)
  | new _ inserted => exact inserted.plans

theorem Padded.raw (h : p.Raw) (hq : Padded p q id) : q.Raw := by
  cases hq with
  | none same => exact same ▸ h
  | producer input padding work kept => exact h.reworked work fun _ => rfl
  | reorder prim source layout padding reader shape named inserted =>
    have hargs : prim.arguments = [source] := by
      rw [shape]
      rfl
    exact ⟨fun u => by rw [inserted.plans, h.unplanned], inserted.slim h.slim hargs reader⟩

theorem Fused.raw {prim : Primitive} (h : p.Raw) (hq : Fused p q id norm scale prim) : q.Raw := by
  obtain ⟨q₁, q₂, q₃, h₁, h₂, h₃, h₄⟩ := hq.steps
  exact (h₃.raw (h₂.raw (h₁.raw h hq.kind_ne))).sameGraph h₄.1.toSameGraph h₄.1.plans

theorem Absorbed.raw (h : p.Raw) (hq : Absorbed p q id input) : q.Raw := by
  obtain ⟨q₁, q₂, a, padding, -, hby, hwork, -, hmoved⟩ := hq.steps
  exact ((hby.raw h).reworked hwork fun _ => rfl).sameGraph hmoved.1.toSameGraph hmoved.1.plans

theorem Rebound.raw {selector : Option Selector} (h : p.Raw) (hq : Rebound selector p q id) :
    q.Raw := by
  obtain ⟨input, hinput, hplans⟩ := hq.plans
  obtain ⟨input', survivor', format, element, padding, r, s, hex, -, -, hwork, -, hplanned, -,
    hsurvivor, -⟩ := hq.steps
  have hs := (hex.raw h).reworked hwork fun t => kind_retargeted t.operation format element
  obtain rfl : input = input' := by
    obtain ⟨_, hby, -⟩ := hex
    exact (List.cons.inj (hinput.symm.trans hby.only)).1
  refine ⟨fun u => ?_, hs.slim.sameGraph hplanned.toSameGraph⟩
  by_cases hu : u = survivor p id input
  · refine Option.eq_none_iff_forall_ne_some.mpr fun plan hplan => ?_
    obtain ⟨hsome, -⟩ := hplans plan (hu ▸ hplan)
    rw [h.unplanned, h.unplanned] at hsome
    exact hsome.elim nofun nofun
  · rw [hplanned.plans u (hsurvivor ▸ hu), hs.unplanned]

/-- **Rewrites leave a raw graph raw.** -/
theorem Rewrite.raw (h : p.Raw) (hq : Rewrite p m q m') (hm : Numbered m) : q.Raw := by
  cases hq with
  | touched hq => exact h.sameGraph hq.toSameGraph hq.plans
  | sorted hq => exact h.sameGraph hq.toSameGraph hq.plans
  | cleared hq => exact hq.raw h
  | fused hq => exact hq.raw h
  | absorbed hq => exact hq.raw h
  | merged hq => exact hq.raw h
  | dropped hq => exact hq.extracted.raw h
  | served weighted hq =>
    exact ⟨fun u => by rw [hq.plans, h.unplanned], hq.slim h.slim hm weighted.not_isReorder⟩
  | padded hq => exact hq.raw h
  | folded hq =>
    obtain ⟨prim, ⟨l, v, hprim⟩, hreplaced⟩ := hq.steps
    exact hreplaced.raw h (by rw [hprim]; exact fun hk => nomatch hk)
  | swept _ _ hq => exact hq.raw h

theorem Rewritten.raw {p₀ : Program} {m₀ : List Entry} (h : p₀.Raw) (hb : Based p₀ m₀)
    (hq : Rewritten p₀ m₀ p m) : p.Raw :=
  (Rewrites.invariant (I := fun p m => p.Raw ∧ Based p m)
    (fun hp hr => ⟨hr.raw hp.1 hp.2.numbered, hr.based hp.2⟩) ⟨h, hb⟩ hq.rewrites).1

end Pass

end NetPlan

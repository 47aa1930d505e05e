import NetPlan.Proofs.Pass.Chains
import NetPlan.Proofs.Pass.Counts

/-!
# Proofs/Pass/Sweeps — one sweep over the reorders after another

A sweep visits every node once, in processing order, and where two reorders become one the survivor
has been visited already.  So it matters what a rewrite may bring up behind the sweep:

* no two reorders that could not be merged before can be merged after a rewrite, so a sweep leaves none
  that can (`Underway.pending`);
* a merge may leave a survivor that has the layout of its input, and a removal leaves none; so a sweep
  that merges nothing leaves no reorder that can go (`Sweeping.fixed`).

`removeRedundantReorders_walkable` says what one sweep gets to where the caches are right, and
`removeRedundantReorders_inert` that a sweep does nothing where no reorder can go.

Caches that are wrong are wrong for good where nothing is invalidated, and a removal invalidates what
stands behind it only (`Skipped.lasting`).  So a sweep may remove another reorder than it should, but
what it leaves the next one leaves too: two sweeps are enough (`removeRedundantReorders_twice`).
-/

namespace NetPlan

open Program Edit

namespace Pass

variable {p q : Program} {env : Environment} {c : Compilation} {id input : String} {b : Bool}
  {rest : List String}

/-! ## Graphs to sweep -/

/-- A graph as a sweep needs it: reorders do not read each other in a circle, and there are no dead
ends. -/
structure Walkable (p : Program) : Prop extends Seated p where
  linked : p.Linked
  ranked : p.Ranked
  live : p.Live

/-- No two reorders can be merged. -/
def Unmergeable (p : Program) : Prop := ∀ a b, ¬ p.Mergeable a b

/-- No reorder goes. -/
structure Inert (p : Program) : Prop where
  unmergeable : Unmergeable p
  fixed : ∀ id, p.Fixed id

theorem Walkable.touched (h : Walkable p) (hq : Touched p q) : Walkable q :=
  ⟨h.toSeated.of_views (congrArg Order.ids hq.order) hq.contains hq.toSameGraph.kinds hq.deps,
    hq.kept.linked, hq.ranked h.ranked,
    h.live.sameGraph hq.toSameGraph (isMarked_of_eq hq.marks)⟩

theorem Walkable.merged {bound : Bool} (h : Walkable p) (hq : Merged p q bound id) : Walkable q :=
  ⟨hq.seated h.linked h.toSeated, hq.kept.linked, hq.ranked h.ranked, hq.live h.linked h.live⟩

theorem Walkable.elided (h : Walkable p) (hq : Elided p q id input) : Walkable q :=
  ⟨hq.seated h.linked h.toSeated, hq.extracted.kept.linked,
    hq.extracted.ranked hq.copy.isReorder h.ranked, hq.live h.linked h.live⟩

theorem Inert.sameGraph (h : Inert p) (hq : SameGraph p q)
    (marks : ∀ j, p.isMarked j = true → q.isMarked j = true) : Inert q :=
  ⟨fun a b hm => h.unmergeable a b (hm.sameGraph hq marks),
    fun id => (h.fixed id).sameGraph hq marks⟩

theorem Inert.touched (h : Inert p) (hq : Touched p q) : Inert q :=
  h.sameGraph hq.toSameGraph (isMarked_of_eq hq.marks)

theorem Unmergeable.touched (h : Unmergeable p) (hq : Touched p q) : Unmergeable q := fun a b hm =>
  h a b (hm.sameGraph hq.toSameGraph (isMarked_of_eq hq.marks))

/-! ## One sweep -/

/-- On the way from `p₀`, with some nodes still to visit. -/
structure Underway (p₀ : Program) (rest : List String) (p : Program) : Prop
    extends Walkable p where
  ahead : p.Ahead rest
  pending : ∀ a b, p.Mergeable a b → a ∈ rest
  merges : Unmergeable p₀ → Unmergeable p

namespace Underway

variable {p₀ : Program}

theorem start (h : Walkable p) : Underway p p.order.ids p where
  toWalkable := h
  ahead := h.toSeated.ahead h.linked
  pending a _ hm := h.mem a (contains_of_isReorder hm.copy.isReorder)
  merges hp := hp

theorem touched (h : Underway p₀ rest p) (hq : Touched p q) : Underway p₀ rest q where
  toWalkable := h.toWalkable.touched hq
  ahead := h.ahead.sameGraph hq.toSameGraph
  pending a b hm := h.pending a b (hm.sameGraph hq.toSameGraph (isMarked_of_eq hq.marks))
  merges h₀ := (h.merges h₀).touched hq

/-- At the end no two reorders can be merged. -/
theorem unmergeable (h : Underway p₀ [] p) : Unmergeable p := fun a b hm =>
  List.not_mem_nil (h.pending a b hm)

variable (h : Underway p₀ (id :: rest) p)
include h

theorem left (hid : p.contains id = true → ∀ input, ¬ p.Mergeable id input) :
    Underway p₀ rest p where
  toWalkable := h.toWalkable
  ahead := h.ahead.tail
  pending a b hm := (List.mem_cons.mp (h.pending a b hm)).resolve_left fun he => by
    subst he
    exact hid (contains_of_isReorder hm.copy.isReorder) b hm
  merges := h.merges

/-- The survivor has been visited, so nothing is pending for it. -/
theorem not_mergeable_input (hid : p.isReorder id) (hd : input ∈ p.depsOf id)
    (e : String) : ¬ p.Mergeable input e := fun hm =>
  h.ahead.not_mem hid hd ((List.mem_cons.mp (h.pending input e hm)).resolve_left
    (h.linked.dep_ne hd))

/-- A merge is one that was pending. -/
theorem not_merged {bound : Bool} (hq : Merged p q bound id) : ¬ Unmergeable p₀ := fun hp => by
  obtain ⟨input, _, _, _, hj⟩ := hq.joined h.linked
  exact h.merges hp id input hj.mergeable

theorem merged {bound : Bool} (hq : Merged p q bound id) : Underway p₀ rest q := by
  obtain ⟨input, format, element, padding, hj⟩ := hq.joined h.linked
  have hreorder := hj.mergeable.copy.isReorder
  have hread : input ∈ p.depsOf id := hj.mergeable.only ▸ List.mem_singleton_self input
  have hold : ∀ a b, q.Mergeable a b →
      a ≠ id ∧ ∃ b', p.Mergeable a b' := fun a b hm => by
    rcases hj.mergeable_of h.linked hm with hm' | ⟨⟨hne, -⟩, ⟨hm', -⟩ | ⟨hm', -⟩⟩
    · exact absurd hm' (h.not_mergeable_input hreorder hread b)
    · exact ⟨hne, b, hm'⟩
    · exact ⟨hne, id, hm'⟩
  exact
    { toWalkable := h.toWalkable.merged hq
      ahead := h.ahead.contracted hj.toContracted hreorder
      pending := fun a b hm => by
        obtain ⟨hne, b', hm'⟩ := hold a b hm
        exact (List.mem_cons.mp (h.pending a b' hm')).resolve_left hne
      merges := fun hp => absurd hp (h.not_merged hq) }

theorem elided (hnot : ¬ p.Mergeable id input) (hq : Elided p q id input) :
    Underway p₀ rest q := by
  have hl := h.linked
  have hcon := hq.extracted.contracted hl
  have hreorder := hq.copy.isReorder
  have hread : input ∈ p.depsOf id := hcon.only ▸ List.mem_singleton_self input
  have hold : ∀ a b, q.Mergeable a b → a ≠ id ∧ p.Mergeable a b := fun a b hm => by
    rcases hq.mergeable_of hl h.live hnot hm with hm' | ⟨⟨hne, -⟩, hm', -⟩
    · exact absurd hm' (h.not_mergeable_input hreorder hread b)
    · exact ⟨hne, hm'⟩
  exact
    { toWalkable := h.toWalkable.elided hq
      ahead := h.ahead.contracted hcon hreorder
      pending := fun a b hm => by
        obtain ⟨hne, hm'⟩ := hold a b hm
        exact (List.mem_cons.mp (h.pending a b hm')).resolve_left hne
      merges := fun h₀ a b hm => h.merges h₀ a b (hold a b hm).2 }

/-- **What was said of each node that was visited** is said of each that is left, if it is said of the
survivor once it was said of the input. -/
theorem elided_all {stays : Program → String → Prop} (hq : Elided p q id input)
    (hall : ∀ v, p.contains v = true → v ∉ id :: rest → stays p v)
    (hone : ∀ v, v ≠ id → v ∉ rest → p.contains v = true → stays p v →
      stays q (onto p id input v)) (v : String) (hv : q.contains v = true) (hmem : v ∉ rest) :
    stays q v := by
  have hl := h.linked
  have hcon := hq.extracted.contracted hl
  have hread : input ∈ p.depsOf id := hcon.only ▸ List.mem_singleton_self input
  have hvisited : ∀ u, u ≠ id → u ∉ rest → p.contains u = true → stays q (onto p id input u) :=
    fun u hne hnot hu => hone u hne hnot hu (hall u hu fun hmem =>
      (List.mem_cons.mp hmem).elim hne hnot)
  rcases hcon.exists_onto hv with rfl | ⟨hne, hne', hthere⟩
  · -- the input was visited before
    rw [← onto_input]
    exact hvisited input (hcon.ne hl) (h.ahead.not_mem hq.copy.isReorder hread)
      (hl.contains_dep hread)
  · rw [← onto_of_ne (p := p) hne hne']
    exact hvisited v hne hmem hthere

end Underway

/-! ### With right caches -/

/-- `b` tells whether a reorder went by now; if none could be merged or none went, those that were
visited have to stay. -/
structure Sweeping (p₀ : Program) (b : Bool) (rest : List String) (p : Program) : Prop
    extends Underway p₀ rest p where
  coherent : p.Coherent
  fixed : b = false ∨ Unmergeable p₀ → ∀ v, p.contains v = true → v ∉ rest → p.Fixed v

namespace Sweeping

variable {p₀ : Program}

theorem touched (h : Sweeping p₀ b rest p) (hq : Touched p q) : Sweeping p₀ b rest q where
  toUnderway := h.toUnderway.touched hq
  coherent := hq.kept.coherent h.coherent
  fixed hb v hv hmem :=
    (h.fixed hb v (hq.contains ▸ hv) hmem).sameGraph hq.toSameGraph (isMarked_of_eq hq.marks)

variable (h : Sweeping p₀ b (id :: rest) p)
include h

theorem left (hid : p.contains id = true → (∀ input, ¬ p.Mergeable id input) ∧ p.Fixed id) :
    Sweeping p₀ b rest p where
  toUnderway := h.toUnderway.left fun hc => (hid hc).1
  coherent := h.coherent
  fixed hb v hv hnot := by
    by_cases he : v = id
    · exact he ▸ (hid (he ▸ hv)).2
    · exact h.fixed hb v hv fun hmem => hnot ((List.mem_cons.mp hmem).resolve_left he)

theorem merged {bound : Bool} (hq : Merged p q bound id) : Sweeping p₀ true rest q where
  toUnderway := h.toUnderway.merged hq
  coherent := hq.kept.coherent h.coherent
  fixed hb := absurd (hb.resolve_left fun he => by cases he) (h.not_merged hq)

theorem dropped (hnot : ¬ p.Mergeable id input) (hq : Dropped p q id input) :
    Sweeping p₀ true rest q where
  toUnderway := h.toUnderway.elided hnot hq.toElided
  coherent := hq.extracted.kept.coherent h.coherent
  fixed hb := h.toUnderway.elided_all hq.toElided
    (h.fixed (Or.inr (hb.resolve_left fun he => by cases he)))
    fun _ hne _ _ hfix => hq.fixed h.linked hne hfix

end Sweeping

/-- **One sweep** leaves no two reorders that can be merged.  If none could be before, or the sweep
reports no change, those that are left have to stay. -/
theorem removeRedundantReorders_walkable (env : Environment) (h : Walkable c.program)
    (hc : c.program.Coherent) :
    Ends (removeRedundantReorders env)
      (fun stats c' => Walkable c'.program ∧ Unmergeable c'.program ∧
        (stats.changed = false ∨ Unmergeable c.program → Inert c'.program))
      (fun _ _ => True) c := by
  refine (removeRedundantReorders_visits env (Sweeping c.program)
    (fun hp => ⟨hp.linked, hp.coherent, hp.ranked⟩) (fun hp hq hid => (hp.left hid).touched hq)
    (fun hp hq => hp.merged hq.toMerged) (fun hp hq hnot hd _ => (hp.touched hq).dropped (fun hm =>
      hnot _ (hm.sameGraph hq.toSameGraph (isMarked_of_eq hq.marks))) hd)
    ⟨.start h, hc, fun _ v hv hnot => absurd (h.mem v hv) hnot⟩).imp
    (fun stats d hd => ?_) fun _ _ _ => trivial
  obtain ⟨-, b, hv, hb⟩ := hd
  refine ⟨hv.toWalkable, hv.unmergeable, fun hstill => ⟨hv.unmergeable, fun id hcopy => ?_⟩⟩
  exact hv.fixed (hstill.imp_left fun hs => (hb.mp hs).1) id (contains_of_isReorder hcopy.isReorder)
    List.not_mem_nil hcopy

/-- **Where no reorder goes**, a sweep succeeds and changes nothing. -/
theorem removeRedundantReorders_inert (env : Environment) (hl : c.program.Linked)
    (hc : c.program.Coherent) (hr : c.program.Ranked) (h : Inert c.program) :
    Ends (removeRedundantReorders env)
      (fun stats c' => c'.preferences = c.preferences ∧ stats.changed = false ∧
        Touched c.program c'.program)
      (fun _ _ => False) c := by
  refine (removeRedundantReorders_visits env (fun b _ p => b = false ∧ Touched c.program p ∧
    p.Coherent ∧ p.Ranked) (fun hp => ⟨hp.2.1.kept.linked, hp.2.2⟩) (fun hp hq _ => ?_)
    (fun hp hq => ?_) (fun hp hq hnot hd hinput => ?_) ⟨rfl, .refl hl, hc, hr⟩).imp
    (fun stats d hd => ?_) fun _ _ hb => ?_
  · exact ⟨hp.1, hp.2.1.trans hq, hq.kept.coherent hp.2.2.1, hq.ranked hp.2.2.2⟩
  · obtain ⟨input, _, _, _, hj⟩ := hq.toMerged.joined hp.2.1.kept.linked
    exact absurd hj.mergeable ((h.touched hp.2.1).unmergeable _ input)
  · have hp' := hp.2.1.trans hq
    exact absurd ((h.touched hp').fixed _) (hd.not_fixed hp'.kept.linked hinput)
  · obtain ⟨hpref, b, hinv, hb⟩ := hd
    refine ⟨hpref, hb.mpr ⟨hinv.1, Nat.le_of_eq ?_⟩, hinv.2.1⟩
    exact (size_eq_of_contains hl hinv.2.1.kept.linked hinv.2.1.contains).symm
  · obtain ⟨-, b, id, ids, p, hinv, hno⟩ := hb
    have hinert := h.touched hinv.2.1
    exact hno ⟨hinert.unmergeable id, hinert.fixed id⟩

/-! ### Whatever the caches hold -/

/-- A program in order is walkable, if it has no dead ends. -/
theorem walkable_of_ordered (hl : p.Linked) (ho : p.Ordered) (hlive : p.Live) : Walkable p :=
  ⟨ho.seated, hl, ho.acyclic.ranked hl, hlive⟩

/-- **A first sweep** leaves no two reorders that can be merged. -/
theorem removeRedundantReorders_unmergeable (env : Environment) (hl : c.program.Linked)
    (ho : c.program.Ordered) (hlive : c.program.Live) :
    Ends (removeRedundantReorders env)
      (fun _ c' => c'.program.Linked ∧ c'.program.Ordered ∧ c'.program.Live ∧ Unmergeable c'.program)
      (fun _ _ => True) c := by
  refine (removeRedundantReorders_steps env
    (fun _ rest p => Underway c.program rest p ∧ p.Ordered)
    (fun hp => ⟨hp.1.linked, hp.1.ranked, Or.inr (hp.2.acyclic.extractable _)⟩)
    (fun hp hq hid => ?_) (fun hp hq _ => ?_) (fun hp hq hnot hskip => ?_)
    ⟨.start (walkable_of_ordered hl ho hlive), ho⟩).imp (fun _ d hd => ?_) fun _ _ _ => trivial
  · have htouch := hq.touched hp.1.linked
    exact ⟨(hp.1.left fun hc => (hid hc).1).touched htouch,
      htouch.toSameGraph.ordered (congrArg Order.ids htouch.order) hp.2⟩
  · exact ⟨hp.1.merged hq, hq.ordered hp.1.linked hp.2⟩
  · have htouch := hq.touched hp.1.linked
    have ho' := htouch.toSameGraph.ordered (congrArg Order.ids htouch.order) hp.2
    exact ⟨(hp.1.touched htouch).elided (fun hm => hnot _ (hm.sameGraph htouch.toSameGraph
      (isMarked_of_eq htouch.marks))) hskip.toElided,
      hskip.extracted.ordered htouch.kept.linked ho'⟩
  · obtain ⟨-, -, ⟨hd, ho'⟩, -⟩ := hd
    exact ⟨hd.linked, ho', hd.live, hd.unmergeable⟩

/-- A reorder in front of the one that goes stays: what it reads stands in front of it, and the caches
there are left. -/
theorem Skipped.lasting (h : Skipped p q id input) (hl : p.Linked) (ho : p.Ordered) {v : String}
    (hv : Before p.order.ids v id) (hlasting : p.Lasting v) :
    q.Lasting (onto p id input v) := by
  have hcon := h.extracted.contracted hl
  have hread : input ∈ p.depsOf id := hcon.only ▸ List.mem_singleton_self input
  have hne : v ≠ id := fun he => Before.irrefl ho.nodup id (he ▸ hv)
  have hcaches := h.caches (fun j => Before p.order.ids j id)
    (fun i u hu hs => (ho.before u i ((hl.edges i u).mpr hu)).trans ho.nodup hs)
    (Before.irrefl ho.nodup id) (ho.before id input hread)
  obtain ⟨hshape, hdeps⟩ := h.view_onto hl hne
  intro hcopy e honly
  rw [hdeps] at honly
  obtain ⟨d, hd⟩ := List.length_eq_one_iff.mp
    (show (p.depsOf v).length = 1 by rw [← List.length_map (onto p id input), honly]; rfl)
  rw [hd] at honly
  obtain rfl : onto p id input d = e := (List.cons.inj honly).1
  have hbefore : Before p.order.ids d id :=
    (ho.before v d (hd ▸ List.mem_singleton_self d)).trans ho.nodup hv
  have hdid : d ≠ id := fun he => Before.irrefl ho.nodup id (he ▸ hbefore)
  have hmarks : ∀ {i}, p.isMarked i = true → q.isMarked (onto p id input i) = true := fun hi => by
    rw [hcon.onto_of_marked hi, hcon.marks, hi]
  rcases hlasting (by rwa [isCopy, ← hshape]) d hd with ⟨hm, hk⟩ | ⟨l, l', hself, hinput, hboth⟩
  · exact Or.inl ⟨hmarks hm, (kindOf_congr (h.view_onto hl hdid).1).trans hk⟩
  · exact Or.inr ⟨l, l', (hcaches v hv).trans hself, (hcaches d hbefore).trans hinput, fun he =>
      (hboth he).imp hmarks hmarks⟩

/-- On the way through a program in order, where no two reorders can be merged: what was visited stands
in front of what is still to visit, and stays for all that is cached. -/
structure Trailing (p₀ : Program) (rest : List String) (p : Program) : Prop
    extends Underway p₀ rest p where
  ordered : p.Ordered
  behind : ∃ front, p.order.ids = front ++ rest
  lasting : ∀ v, p.contains v = true → v ∉ rest → p.Lasting v

namespace Trailing

variable {p₀ : Program}

theorem start (hl : p.Linked) (ho : p.Ordered) (hlive : p.Live) : Trailing p p.order.ids p where
  toUnderway := .start (walkable_of_ordered hl ho hlive)
  ordered := ho
  behind := ⟨[], rfl⟩
  lasting v hv hnot := absurd ((ho.mem v).mpr hv) hnot

theorem computed (h : Trailing p₀ rest p) (hq : Computed p q) : Trailing p₀ rest q :=
  have htouch := hq.touched h.linked
  { toUnderway := h.toUnderway.touched htouch
    ordered := htouch.toSameGraph.ordered (congrArg Order.ids htouch.order) h.ordered
    behind := htouch.order ▸ h.behind
    lasting := fun v hv hmem => (h.lasting v (htouch.contains ▸ hv) hmem).computed hq h.linked }

variable (h : Trailing p₀ (id :: rest) p)
include h

theorem left (hid : p.contains id = true → (∀ input, ¬ p.Mergeable id input) ∧ p.Lasting id) :
    Trailing p₀ rest p where
  toUnderway := h.toUnderway.left fun hc => (hid hc).1
  ordered := h.ordered
  behind := by
    obtain ⟨front, hfront⟩ := h.behind
    exact ⟨front ++ [id], by rw [hfront, List.append_assoc]; rfl⟩
  lasting v hv hnot := by
    by_cases he : v = id
    · exact he ▸ (hid (he ▸ hv)).2
    · exact h.lasting v hv fun hmem => hnot ((List.mem_cons.mp hmem).resolve_left he)

/-- What was visited stands in front of the node that is. -/
theorem visited_before {v : String} (hne : v ≠ id) (hv : p.contains v = true) (hmem : v ∉ rest) :
    Before p.order.ids v id := by
  obtain ⟨front, hfront⟩ := h.behind
  have hlisted := (h.ordered.mem v).mpr hv
  rw [hfront] at hlisted ⊢
  refine before_iff_append.mpr ⟨front, id :: rest, rfl, ?_, List.mem_cons_self⟩
  exact (List.mem_append.mp hlisted).resolve_right fun hr => (List.mem_cons.mp hr).elim hne hmem

theorem skipped (hnot : ¬ p.Mergeable id input) (hq : Skipped p q id input) :
    Trailing p₀ rest q := by
  have hl := h.linked
  have hcon := hq.extracted.contracted hl
  have hread : input ∈ p.depsOf id := hcon.only ▸ List.mem_singleton_self input
  have hin : input ∉ rest := h.ahead.not_mem hq.copy.isReorder hread
  have hid : id ∉ rest := (List.nodup_cons.mp h.ahead.nodup).1
  refine
    { toUnderway := h.toUnderway.elided hnot hq.toElided
      ordered := hq.extracted.ordered hl h.ordered
      behind := ?_
      lasting := h.toUnderway.elided_all hq.toElided h.lasting fun v hne hmem hv hlasting => ?_ }
  · obtain ⟨front, hfront⟩ := h.behind
    have hnodup := h.ordered.nodup
    rw [hfront] at hnodup
    have hout : id ∉ front := fun hmem =>
      (List.nodup_append.mp hnodup).2.2 id hmem id List.mem_cons_self rfl
    refine ⟨front.map (onto p id input), ?_⟩
    rw [hq.extracted.ids_order, hfront, List.filter_append, List.filter_cons_of_neg (by simp),
      Order.filter_ne_of_not_mem hout, Order.filter_ne_of_not_mem hid, List.map_append]
    refine congrArg (front.map (onto p id input) ++ ·) ((List.map_congr_left fun x hx => ?_).trans
      (List.map_id rest))
    exact onto_of_ne (fun he => hid (he ▸ hx)) fun he => hin (he ▸ hx)
  · exact hq.lasting hl h.ordered (h.visited_before hne hv hmem) hlasting

end Trailing

/-- Reorders that stay for all that is cached, none of which can be merged. -/
structure Dormant (p : Program) : Prop where
  unmergeable : Unmergeable p
  lasting : ∀ id, p.Lasting id

/-- **A second sweep** leaves reorders that stay for all that is cached. -/
theorem removeRedundantReorders_dormant (env : Environment) (hl : c.program.Linked)
    (ho : c.program.Ordered) (hlive : c.program.Live) (h₀ : Unmergeable c.program) :
    Ends (removeRedundantReorders env)
      (fun _ c' => c'.program.Linked ∧ c'.program.Ordered ∧ Dormant c'.program)
      (fun _ _ => True) c := by
  refine (removeRedundantReorders_steps env (fun _ => Trailing c.program)
    (fun hp => ⟨hp.linked, hp.ranked, Or.inr (hp.ordered.acyclic.extractable _)⟩)
    (fun hp hq hid => ?_) (fun hp hq _ => absurd h₀ (hp.not_merged hq))
    (fun hp hq hnot hskip => ?_) (.start hl ho hlive)).imp (fun _ d hd => ?_) fun _ _ _ => trivial
  · have htouch := hq.touched hp.linked
    refine (hp.computed hq).left fun hc => ?_
    obtain ⟨hnot, hlasting⟩ := hid (htouch.contains ▸ hc)
    exact ⟨fun input hm => hnot input (hm.sameGraph htouch.toSameGraph (isMarked_of_eq htouch.marks)),
      hlasting⟩
  · have htouch := hq.touched hp.linked
    exact (hp.computed hq).skipped (fun hm =>
      hnot _ (hm.sameGraph htouch.toSameGraph (isMarked_of_eq htouch.marks))) hskip
  · obtain ⟨-, -, hd, -⟩ := hd
    exact ⟨hd.linked, hd.ordered, hd.unmergeable, fun id hcopy =>
      hd.lasting id (contains_of_isReorder hcopy.isReorder) List.not_mem_nil hcopy⟩

/-- **A third sweep** succeeds and changes nothing. -/
theorem removeRedundantReorders_still (env : Environment) (hl : c.program.Linked)
    (ho : c.program.Ordered) (h : Dormant c.program) :
    Ends (removeRedundantReorders env) (fun stats _ => stats.changed = false)
      (fun _ _ => False) c := by
  have hdormant : ∀ {p : Program}, Computed c.program p → Dormant p := fun hp =>
    ⟨h.unmergeable.touched (hp.touched hl), fun id => (h.lasting id).computed hp hl⟩
  have hgraph : ∀ {p : Program}, Computed c.program p → p.Linked ∧ p.Ordered := fun hp =>
    have htouch := hp.touched hl
    ⟨htouch.kept.linked, htouch.toSameGraph.ordered (congrArg Order.ids htouch.order) ho⟩
  refine (removeRedundantReorders_steps env (fun b _ p => b = false ∧ Computed c.program p)
    (fun hp => ?_) (fun hp hq _ => ⟨hp.1, hp.2.trans hq⟩) (fun hp hq _ => ?_)
    (fun hp hq _ hskip => ?_) ⟨rfl, .refl _⟩).imp (fun stats d hd => ?_) fun _ _ hb => ?_
  · obtain ⟨hlinked, hordered⟩ := hgraph hp.2
    exact ⟨hlinked, hordered.acyclic.ranked hlinked, Or.inr (hordered.acyclic.extractable _)⟩
  · obtain ⟨input, _, _, _, hj⟩ := hq.joined (hgraph hp.2).1
    exact absurd hj.mergeable ((hdormant hp.2).unmergeable _ input)
  · have hp' := hp.2.trans hq
    exact absurd ((hdormant hp').lasting _) (hskip.not_lasting (hgraph hp').1)
  · obtain ⟨-, b, hinv, hb⟩ := hd
    have htouch := hinv.2.touched hl
    refine hb.mpr ⟨hinv.1, Nat.le_of_eq ?_⟩
    exact (size_eq_of_contains hl htouch.kept.linked htouch.contains).symm
  · obtain ⟨-, b, id, ids, p, hinv, hno, -⟩ := hb
    exact hno ⟨(hdormant hinv.2).unmergeable id, (hdormant hinv.2).lasting id⟩

end Pass

/-- **Two sweeps are enough.**  Take a program in order in which every node is an output, is an input of
the network, or has a user, whatever its caches hold.  If two sweeps over the reorders succeed, whatever
the kernels they are given, then a third one succeeds and reports no change. -/
theorem removeRedundantReorders_twice {env env' env'' : Environment} {c c₁ c₂ : Compilation}
    {s₁ s₂ : PassStats} (hw : c.program.WellFormed) (ho : c.program.isOrdered = true)
    (hlive : ∀ u n, c.program.node? u = some n → n.isOutput = false → n.kind ≠ .inputLayout →
      n.users ≠ [])
    (h₁ : (Pass.removeRedundantReorders env).run.run c = (.ok s₁, c₁))
    (h₂ : (Pass.removeRedundantReorders env').run.run c₁ = (.ok s₂, c₂)) :
    ∃ s₃ c₃, (Pass.removeRedundantReorders env'').run.run c₂ = (.ok s₃, c₃) ∧
      s₃.changed = false := by
  have hlive' : c.program.Live := fun u hu => by
    obtain ⟨n, hn⟩ := contains_iff.mp hu
    by_cases hm : n.isOutput = true
    · exact Or.inl ((isMarked_of_node? hn).trans hm)
    by_cases hk : n.kind = .inputLayout
    · exact Or.inr (Or.inr ((kindOf_of_node? hn).trans (congrArg some hk)))
    obtain ⟨v, hv⟩ := List.exists_mem_of_ne_nil _ (hlive u n hn (by simpa using hm) hk)
    rw [← usersOf_of_node? hn] at hv
    exact Or.inr (Or.inl ⟨v, (hw.edges u v).mpr hv⟩)
  have hfirst := Pass.removeRedundantReorders_unmergeable env hw.toLinked
    ((isOrdered_iff hw.toLinked).mp ho) hlive'
  rw [Ends, h₁] at hfirst
  obtain ⟨hl₁, ho₁, hlive₁, hnone⟩ := hfirst
  have hsecond := Pass.removeRedundantReorders_dormant env' hl₁ ho₁ hlive₁ hnone
  rw [Ends, h₂] at hsecond
  obtain ⟨hl₂, ho₂, hdormant⟩ := hsecond
  exact (Pass.removeRedundantReorders_still env'' hl₂ ho₂ hdormant).exists_ok

/-- An input that is copied into another format and back. -/
def Topology.returned : Topology :=
  ⟨[⟨"in", Padding.none, .inputLayout (.dense .f32 .bfyx ⟨1, 3, 4, 4⟩)⟩,
    ⟨"a", Padding.none, .reorder ⟨"in", .yxfb, .f32, []⟩⟩,
    ⟨"b", Padding.none, .reorder ⟨"a", .bfyx, .f32, []⟩⟩,
    ⟨"out", Padding.none, .softmax ⟨"b", .x⟩⟩]⟩

/-- The first sweep merges the two copies when it has passed the first; what is left has no effect, which
only the second sweep sees. -/
theorem removeRedundantReorders_returned : ∃ s₁ c₁ s₂ c₂ s₃ c₃,
    (Pass.removeRedundantReorders ⟨.builtin .default, none, false⟩).run.run
      (.exposing .returned ["out"]) = (.ok s₁, c₁) ∧
    s₁.changed = true ∧ c₁.program.order.ids = ["in", "a", "out"] ∧
    (Pass.removeRedundantReorders ⟨.builtin .default, none, false⟩).run.run c₁ = (.ok s₂, c₂) ∧
    s₂.changed = true ∧ c₂.program.order.ids = ["in", "out"] ∧
    (Pass.removeRedundantReorders ⟨.builtin .default, none, false⟩).run.run c₂ = (.ok s₃, c₃) ∧
    s₃.changed = false := by
  obtain ⟨hw, -⟩ := Compilation.exposing_spec (t := .returned)
    (by unfold Topology.Distinct; decide) ["out"]
  obtain ⟨s₁, c₁, h₁, hfirst⟩ := exists_run_of_map
    (x := Pass.removeRedundantReorders ⟨.builtin .default, none, false⟩)
    (s := .exposing .returned ["out"])
    (f := fun s₁ c₁ => (s₁.changed, c₁.program.order.ids,
      ((Pass.removeRedundantReorders ⟨.builtin .default, none, false⟩).run.run c₁).1.toOption.map
        fun s₂ => (s₂.changed, ((Pass.removeRedundantReorders
          ⟨.builtin .default, none, false⟩).run.run c₁).2.program.order.ids)))
    (b := (true, ["in", "a", "out"], some (true, ["in", "out"]))) (by decide +kernel)
  obtain ⟨hchanged₁, horder₁, hsecond⟩ := by simpa only [Prod.mk.injEq] using hfirst
  obtain ⟨s₂, c₂, h₂, hresult⟩ := exists_run_of_map
    (f := fun (s₂ : PassStats) (c₂ : Compilation) => (s₂.changed, c₂.program.order.ids)) hsecond
  obtain ⟨hchanged₂, horder₂⟩ := by simpa only [Prod.mk.injEq] using hresult
  have hlive : ∀ n ∈ (Compilation.exposing .returned ["out"]).program.nodes, n.isOutput = false →
      n.kind ≠ .inputLayout → n.users ≠ [] := by decide +kernel
  obtain ⟨s₃, c₃, h₃, hstill⟩ : ∃ s₃ c₃,
      (Pass.removeRedundantReorders ⟨.builtin .default, none, false⟩).run.run c₂ = (.ok s₃, c₃) ∧
      s₃.changed = false := removeRedundantReorders_twice hw (by decide +kernel)
    (fun u n hn => hlive n (node?_eq_some hn).1) h₁ h₂
  exact ⟨s₁, c₁, s₂, c₂, s₃, c₃, h₁, hchanged₁, horder₁, h₂, hchanged₂, horder₂, h₃, hstill⟩

end NetPlan

import NetPlan.Proofs.Graph.Between
import NetPlan.Proofs.Graph.Replace
import NetPlan.Proofs.Layout.Coherence

/-!
# Proofs/Graph/Failure — when an edit fails, and what it leaves

An elementary edit fails for a reason that can be read off the program, and leaves the program as it
was (`FailsWhen`): what it looks up first is all that can be missing.

* `failsWhen_replaceDependencyOf` — a loop over the dependencies fails in its first round or never;
* `failsWhen_reverse`, `failsWhen_extract` — once the first edge is dropped, nothing fails any more;
* `extract_declines` — `extract` does nothing, and says so, where there is not one dependency or no
  id that could be given up;
* `elementary_edits_fail_iff` — all of them together.

`addIntermediate` and `replace` look up what they are applied to, make a node, connect it to what it
is to read, and only then touch the rest of the graph.  Once the node is made only the connecting
can fail, so a failure leaves the program as it was, or with the new node and nothing else
(`Abandoned`):

* `addIntermediate_leaves`, `replace_leaves` — which of the two;
* `Abandoned.ne`, `Abandoned.not_isOrdered` — the second is another program, and out of order;
* `failed_edit_leaves` — both, for every run that fails.
-/

namespace NetPlan.Edit

open Program

/-! ## Elementary edits -/

section Elementary

variable {p : Program}

/-- An edit fails in a program just on a condition, and leaves it as it was. -/
structure FailsWhen {α : Type} (x : Edit α) (p : Program) (c : Prop) : Prop where
  fails : (∃ e q, x.run.run p = (.error e, q)) ↔ c
  unchanged : ∀ e q, x.run.run p = (.error e, q) → q = p

theorem FailsWhen.of_ends {α : Type} {x : Edit α} {c : Prop}
    (h : Ends x (fun _ _ => ¬ c) (fun _ q => q = p ∧ c) p) : FailsWhen x p c := by
  rw [Ends] at h
  rcases hrun : x.run.run p with ⟨e | a, t⟩
  · rw [hrun] at h
    refine ⟨⟨fun _ => h.2, fun _ => ⟨e, t, hrun⟩⟩, fun e' q hq => ?_⟩
    cases hrun.symm.trans hq
    exact h.1
  · rw [hrun] at h
    have hnot : ∀ e q, x.run.run p ≠ (.error e, q) := fun e q hq => by cases hrun.symm.trans hq
    refine ⟨⟨?_, fun hc => absurd hc h⟩, fun e q hq => absurd hq (hnot e q)⟩
    rintro ⟨e, q, hq⟩
    exact absurd hq (hnot e q)

/-! ### Edges -/

section Edges

theorem failsWhen_connect (dep user : String) : FailsWhen (connect dep user) p
    (dep = user ∨ ¬ p.contains dep = true ∨ ¬ p.contains user = true) :=
  .of_ends (ends_connect (fun he => ⟨rfl, Or.inl he⟩)
    (fun hnone => ⟨rfl, Or.inr (Or.inl (node?_eq_none.mp hnone))⟩)
    (fun hnone => ⟨rfl, Or.inr (Or.inr (node?_eq_none.mp hnone))⟩)
    fun hne hd hu hc => hc.elim hne fun hc => hc.elim (absurd hd) (absurd hu))

theorem failsWhen_disconnect (dep user : String) :
    FailsWhen (disconnect dep user) p (¬ p.contains user = true) :=
  .of_ends (ends_disconnect (fun hnone => ⟨rfl, node?_eq_none.mp hnone⟩) fun hu hno => hno hu)

theorem failsWhen_replaceDependency (user : String) (index : Nat) (new : String) :
    FailsWhen (replaceDependency user index new) p
      (¬ p.contains new = true ∨ ¬ p.contains user = true ∨ (p.depsOf user).length ≤ index) := by
  have hok : ∀ old, (p.depsOf user)[index]? = some old → p.contains new = true →
      ¬ (¬ p.contains new = true ∨ ¬ p.contains user = true ∨
        (p.depsOf user).length ≤ index) := by
    rintro old hold hnew (hno | hno | hno)
    · exact hno hnew
    · exact hno (contains_of_mem_depsOf (List.mem_of_getElem? hold))
    · exact Nat.not_le.mpr (List.getElem?_eq_some_iff.mp hold).1 hno
  exact .of_ends (ends_replaceDependency
    (fun hnone => ⟨rfl, Or.inl (node?_eq_none.mp hnone)⟩)
    (fun hnone => ⟨rfl, Or.inr (Or.inl (node?_eq_none.mp hnone))⟩)
    (fun hnone => ⟨rfl, Or.inr (Or.inr (List.getElem?_eq_none_iff.mp hnone))⟩)
    (hok new) fun old hold _ => hok old hold)

/-- A dependency that is to be pointed at nothing stops the loop where it started. -/
theorem failsWhen_replaceDependencyOf (h : p.Linked) (user old new : String) :
    FailsWhen (replaceDependencyOf user old new) p
      (¬ p.contains user = true ∨
        old ∈ p.depsOf user ∧ old ≠ new ∧ ¬ p.contains new = true) := by
  refine .of_ends ?_
  by_cases hu : p.contains user = true
  case neg =>
    rw [replaceDependencyOf, ends_bind, ends_node]
    exact ⟨fun n hn => absurd (contains_of_node? hn) hu, fun _ => ⟨rfl, Or.inl hu⟩⟩
  by_cases hnew : p.contains new = true
  case pos =>
    exact replaceDependencyOf_effect.imp
      (fun _ _ _ hc => hc.elim (absurd hu) fun hc => hc.2.2 hnew)
      fun e q hq => absurd hu (hq.2.2 hnew)
  rw [replaceDependencyOf, ends_bind, ends_node]
  refine ⟨fun n hn => ?_, fun hnone => absurd hu (node?_eq_none.mp hnone)⟩
  rw [ends_bind]
  -- no dependency so far was the one to replace
  refine ends_forIn (fun rest q => q = p ∧ (∀ x ∈ rest, x.1 ∈ p.depsOf user) ∧
      (old ∈ p.depsOf user → old ∈ rest.map Prod.fst))
    (fun x rest q hq => ?_) (fun q hq => ?_) n.dependencies.zipIdx p ⟨rfl, fun x hx => ?_, ?_⟩
  · obtain ⟨rfl, hrest, hold⟩ := hq
    dsimp only
    split
    case isTrue hd =>
      have hmem : old ∈ q.depsOf user := hd ▸ hrest x List.mem_cons_self
      have hbad : q = q ∧ (¬ q.contains user = true ∨
          old ∈ q.depsOf user ∧ old ≠ new ∧ ¬ q.contains new = true) :=
        ⟨rfl, Or.inr ⟨hmem, fun he => hnew (he ▸ h.contains_dep hmem), hnew⟩⟩
      rw [ends_bind]
      exact ends_replaceDependency (fun _ => hbad) (fun _ => hbad) (fun _ => hbad)
        (fun _ hc => absurd hc hnew) fun _ _ _ hc => absurd hc hnew
    case isFalse hd =>
      refine ⟨rfl, rfl, fun y hy => hrest y (List.mem_cons_of_mem x hy), fun hmem => ?_⟩
      exact (List.mem_cons.mp (hold hmem)).resolve_left (Ne.symm hd)
  · obtain ⟨rfl, -, hold⟩ := hq
    rintro (hno | ⟨hmem, -⟩)
    · exact hno hu
    · exact List.not_mem_nil (hold hmem)
  · rw [depsOf_of_node? hn]
    exact (List.mem_zipIdx' hx).2 ▸ List.getElem_mem _
  · rw [depsOf_of_node? hn, List.zipIdx_map_fst]
    exact id

/-- An edge that is there has both its ends, and they are two. -/
theorem failsWhen_reverse (h : p.Linked) (dep user : String) :
    FailsWhen (reverse dep user) p (¬ p.contains dep = true ∨ user ∉ p.usersOf dep) := by
  refine .of_ends ?_
  rw [reverse, ends_bind, ends_node]
  refine ⟨fun n hn => ?_, fun hnone => ⟨rfl, Or.inl (node?_eq_none.mp hnone)⟩⟩
  have hd := contains_of_node? hn
  have husers : n.hasUser user = true ↔ user ∈ p.usersOf dep := by
    rw [usersOf_of_node? hn, Node.hasUser, List.contains_iff_mem]
  split
  case isTrue hno =>
    rw [Bool.not_eq_true', Bool.eq_false_iff, ne_eq, husers] at hno
    exact ⟨rfl, Or.inr hno⟩
  case isFalse hyes =>
    rw [Bool.not_eq_true', Bool.not_eq_false, husers] at hyes
    have hu := h.contains_user hyes
    have hne := h.dep_ne ((h.edges dep user).mpr hyes)
    rw [ends_bind]
    refine ends_disconnect (fun hnone => absurd hu (node?_eq_none.mp hnone)) fun _ => ?_
    have hcontains : (p.cut dep user).contains = p.contains := framed_cut.contains
    exact ends_connect (fun he => absurd he.symm hne)
      (fun hnone => absurd (hcontains ▸ hu) (node?_eq_none.mp hnone))
      (fun hnone => absurd (hcontains ▸ hd) (node?_eq_none.mp hnone))
      fun _ _ _ hc => hc.elim (absurd hd) (absurd hyes)

end Edges

/-! ### Nodes -/

section Nodes

theorem failsWhen_rename (old new : String) : FailsWhen (rename old new) p
    (old ≠ new ∧ (p.contains new = true ∨ ¬ p.contains old = true)) :=
  .of_ends (ends_rename (fun he hc => hc.1 he) (fun hne hc => ⟨rfl, hne, Or.inl hc⟩)
    (fun hne hnone => ⟨rfl, hne, Or.inr (node?_eq_none.mp hnone)⟩)
    fun _ hn hnew hc => hc.2.elim hnew (absurd (contains_of_node? hn)))

theorem failsWhen_removeIfDangling (h : p.Linked) (id : String) :
    FailsWhen (removeIfDangling id) p (¬ p.contains id = true) :=
  .of_ends ((removeIfDangling_outcome h).imp (fun _ _ hq hno => hno hq.1) fun _ _ hq => hq.2)

theorem failsWhen_extract (h : p.Linked) (id : String) :
    FailsWhen (extract id) p (¬ p.contains id = true) :=
  .of_ends ((extract_outcome h).imp (fun _ _ hq hno => hno hq.1) fun _ _ hq => hq.2)

/-- **Extracting declines**, and then changes nothing, without one dependency to read instead, or
if both that and the node are outputs. -/
theorem extract_declines (h : p.WellFormed) (id : String) :
    ((∃ q, (extract id).run.run p = (.ok false, q)) ↔ p.contains id = true ∧
      ((p.depsOf id).length ≠ 1 ∨
        ∃ input, p.depsOf id = [input] ∧ id ∈ p.outputs ∧ input ∈ p.outputs)) ∧
    ∀ q, (extract id).run.run p = (.ok false, q) → q = p := by
  have hends : Ends (extract id) _ _ p := extract_outcome h.toLinked
  rw [Ends] at hends
  simp only [h.mem_outputs]
  rcases hrun : (extract id).run.run p with ⟨e | done, t⟩
  · rw [hrun] at hends
    refine ⟨⟨?_, fun hc => absurd hc.1 hends.2.2⟩, fun _ hq => by cases hq⟩
    rintro ⟨_, hq⟩
    cases hq
  rw [hrun] at hends
  obtain ⟨hc, hends⟩ := hends
  cases done with
  | false =>
    obtain ⟨rfl, hboth⟩ := hends
    refine ⟨⟨fun _ => ⟨hc, ?_⟩, fun _ => ⟨t, rfl⟩⟩, fun q hq => by cases hq; rfl⟩
    by_cases hlength : (t.depsOf id).length = 1
    · obtain ⟨input, honly⟩ := List.length_eq_one_iff.mp hlength
      exact Or.inr ⟨input, honly, hboth input honly⟩
    · exact Or.inl hlength
  | true =>
    obtain ⟨input, hpassed⟩ := hends
    refine ⟨⟨?_, ?_⟩, fun _ hq => by cases hq⟩
    · rintro ⟨_, hq⟩
      cases hq
    rintro ⟨-, hlength | ⟨input', honly, hmarks⟩⟩
    · rw [hpassed.only] at hlength
      exact absurd rfl hlength
    · rw [hpassed.only] at honly
      cases honly
      exact absurd hmarks hpassed.marks

end Nodes

/-- **Elementary edits fail when they should, and then change nothing.** -/
theorem elementary_edits_fail_iff (h : p.WellFormed) :
    (∀ dep user, FailsWhen (connect dep user) p
      (dep = user ∨ ¬ p.contains dep = true ∨ ¬ p.contains user = true)) ∧
    (∀ dep user, FailsWhen (disconnect dep user) p (¬ p.contains user = true)) ∧
    (∀ user index new, FailsWhen (replaceDependency user index new) p
      (¬ p.contains new = true ∨ ¬ p.contains user = true ∨ (p.depsOf user).length ≤ index)) ∧
    (∀ user old new, FailsWhen (replaceDependencyOf user old new) p
      (¬ p.contains user = true ∨
        old ∈ p.depsOf user ∧ old ≠ new ∧ ¬ p.contains new = true)) ∧
    (∀ dep user, FailsWhen (reverse dep user) p
      (¬ p.contains dep = true ∨ user ∉ p.usersOf dep)) ∧
    (∀ old new, FailsWhen (rename old new) p
      (old ≠ new ∧ (p.contains new = true ∨ ¬ p.contains old = true))) ∧
    (∀ id, FailsWhen (removeIfDangling id) p (¬ p.contains id = true)) ∧
    ∀ id, FailsWhen (extract id) p (¬ p.contains id = true) ∧
      ((∃ q, (extract id).run.run p = (.ok false, q)) ↔ p.contains id = true ∧
        ((p.depsOf id).length ≠ 1 ∨
          ∃ input, p.depsOf id = [input] ∧ id ∈ p.outputs ∧ input ∈ p.outputs)) ∧
      ∀ q, (extract id).run.run p = (.ok false, q) → q = p :=
  have hl := h.toLinked
  ⟨failsWhen_connect, failsWhen_disconnect, failsWhen_replaceDependency,
    failsWhen_replaceDependencyOf hl, failsWhen_reverse hl, failsWhen_rename,
    failsWhen_removeIfDangling hl, fun id => ⟨failsWhen_extract hl id, extract_declines h id⟩⟩

/-- A dependency that is not there, an edge the other way, and a node without dependencies. -/
theorem elementary_edits_fail_iff_copied :
    (∃ e, (replaceDependencyOf "c" "b" "z").run.run (.laidOut .copied)
      = (.error e, .laidOut .copied)) ∧
    (∃ e, (reverse "b" "a").run.run (.laidOut .copied) = (.error e, .laidOut .copied)) ∧
    (extract "a").run.run (.laidOut .copied) = (.ok false, .laidOut .copied) := by
  obtain ⟨-, -, -, hreplace, hreverse, -, -, hextract⟩ := elementary_edits_fail_iff
    (p := .laidOut .copied) (laidOut_spec (by unfold Topology.Distinct; decide)).1
  obtain ⟨e, q, hq⟩ := (hreplace "c" "b" "z").fails.mpr (Or.inr (by decide +kernel))
  obtain ⟨e', q', hq'⟩ := (hreverse "b" "a").fails.mpr (Or.inr (by decide +kernel))
  obtain ⟨r, hr⟩ := (hextract "a").2.1.mpr ⟨by decide +kernel, Or.inl (by decide +kernel)⟩
  refine ⟨⟨e, ?_⟩, ⟨e', ?_⟩, ?_⟩
  · rw [hq, (hreplace "c" "b" "z").unchanged e q hq]
  · rw [hq', (hreverse "b" "a").unchanged e' q' hq']
  · rw [hr, (hextract "a").2.2 r hr]

end Elementary

/-! ## Compound edits -/

section Compound

variable {p q : Program} {next source old : String} {prim : Primitive} {index : Nat}
  {reads : List String} {e : CompileError}

/-! ### A node that was given up -/

namespace Abandoned

variable (h : Abandoned p q prim reads e)
include h

theorem contains_new : q.contains prim.id = true := by
  rw [contains_eq_isSome_coreOf, h.core, if_pos rfl]
  rfl

/-- The program is another one. -/
theorem ne : q ≠ p := fun he => h.free (he ▸ h.contains_new)

/-- The new node has no place in the order. -/
theorem not_isOrdered (hp : p.Linked) : q.isOrdered = false := by
  rw [Bool.eq_false_iff]
  intro hq
  have hmem := (((isOrdered_iff h.kept.linked).mp hq).mem prim.id).mpr h.contains_new
  rw [h.order] at hmem
  exact h.free (hp.order_contains _ hmem)

/-- There is something the node was to read that it cannot. -/
theorem exists_refused : ∃ d ∈ reads, d = prim.id ∨ ¬ p.contains d = true := by
  obtain ⟨done, dep, rest, hsplit, -, hrefuses, -⟩ := h.stopped
  exact ⟨dep, by simp [hsplit], hrefuses.imp And.left And.left⟩

end Abandoned

/-! ### Inserting -/

/-- A node that was put where it belongs is there, and every other one is and reads what it read. -/
theorem placeIntermediate_frame (h : p.Linked) :
    Ends (placeIntermediate prim source)
      (fun _ q => q.contains prim.id = true ∧
        ∀ j, p.contains j = true → q.contains j = true ∧ q.depsOf j = p.depsOf j)
      (fun e q => (q = p ∧ (p.contains prim.id = true ∨ source ∉ prim.arguments)) ∨
        (source ∈ prim.arguments ∧ Abandoned p q prim prim.arguments e)) p := by
  refine (placeIntermediate_effect h).imp (fun _ q hq => ?_) fun e q hq => ?_
  · obtain ⟨rfl, hreorder, -⟩ | ⟨-, hfree, -, -, hcore, hdeps, -⟩ := hq
    · exact ⟨contains_of_isReorder hreorder, fun _ hj => ⟨hj, rfl⟩⟩
    · have hne : ∀ j, p.contains j = true → j ≠ prim.id := fun j hj he => hfree (he ▸ hj)
      refine ⟨?_, fun j hj => ⟨?_, ?_⟩⟩
      · rw [contains_eq_isSome_coreOf, hcore, if_pos rfl]
        rfl
      · rwa [contains_eq_isSome_coreOf, hcore, if_neg (hne j hj), ← contains_eq_isSome_coreOf]
      · rw [hdeps, if_neg (hne j hj)]
  · exact hq.imp_left fun hsame => ⟨hsame.1, hsame.2.2⟩

/-- Whether inserting comes to making the node: its id is free, and it is to read what it is put
behind. -/
def Starts (p : Program) (prim : Primitive) (next : String) (index : Nat) : Prop :=
  ¬ p.contains prim.id = true ∧
    ∃ source, (p.depsOf next)[index]? = some source ∧ source ∈ prim.arguments

/-- **Inserting fails** before it comes to the node, or in connecting it. -/
theorem addIntermediate_leaves (h : p.Linked) :
    Ends (addIntermediate prim next index) (fun _ _ => True)
      (fun e q => (q = p ∧ ¬ Starts p prim next index) ∨
        (Starts p prim next index ∧ Abandoned p q prim prim.arguments e)) p := by
  rw [addIntermediate, ends_bind, ends_node]
  refine ⟨fun n hn => ?_, fun hnone => Or.inl ⟨rfl, ?_⟩⟩
  case refine_2 =>
    rintro ⟨-, source, hsource, -⟩
    exact node?_eq_none.mp hnone (contains_of_mem_depsOf (List.mem_of_getElem? hsource))
  have hds := depsOf_of_node? hn
  split
  case h_1 hnone =>
    refine Or.inl ⟨rfl, ?_⟩
    rintro ⟨-, source, hsource, -⟩
    rw [hds] at hsource
    cases hnone.symm.trans hsource
  case h_2 source hsome =>
    have hsource : (p.depsOf next)[index]? = some source := hds ▸ hsome
    rw [ends_bind]
    refine (placeIntermediate_frame h).imp (fun _ q hq => ?_) fun e q hq => ?_
    case refine_2 =>
      obtain ⟨rfl, hnot⟩ | ⟨hmem, hq⟩ := hq
      · refine Or.inl ⟨rfl, ?_⟩
        rintro ⟨hfree, s, hs, hmem⟩
        cases hsource.symm.trans hs
        exact hnot.elim hfree fun hno => hno hmem
      · exact Or.inr ⟨⟨hq.free, source, hsource, hmem⟩, hq⟩
    -- from here on nothing fails: all that is looked up is there
    obtain ⟨hid, hold⟩ := hq
    have hthere := hold source (h.contains_dep (List.mem_of_getElem? hsource))
    have hlength : index < (q.depsOf next).length := by
      rw [(hold next (contains_of_node? hn)).2]
      exact (List.getElem?_eq_some_iff.mp hsource).1
    rw [ends_bind]
    refine replaceDependency_effect.imp (fun _ r hr => ?_) fun e r hr =>
      absurd (hr.2.2 hid) (Nat.not_le.mpr hlength)
    have hcontains : r.contains = q.contains := hr.2.1.contains
    refine sameWiring_inheritFlags.imp (fun _ _ _ => trivial) fun _ _ hno => absurd ?_ hno
    rw [hcontains]
    exact ⟨hthere.1, hid⟩

/-! ### Replacing -/

/-- **Replacing fails** without a node to replace, or in connecting the new one, whose own arguments
may be out of reach; the dependencies of the old one are not. -/
theorem replace_leaves (h : p.Linked) (keep : Bool) :
    Ends (replace old prim keep) (fun _ _ => True)
      (fun e q => (q = p ∧ ¬ p.contains old = true) ∨
        (p.contains old = true ∧ keep = false ∧
          Abandoned p q { prim with id := p.unusedId (old ++ "__replacement") }
            prim.arguments e)) p := by
  refine (replace_outcome h keep).imp (fun _ _ _ => trivial) fun e q hq => ?_
  obtain ⟨rfl, -, hnot⟩ | ⟨hc, hq⟩ := hq
  · exact Or.inl ⟨rfl, hnot⟩
  cases keep with
  | false => exact Or.inr ⟨hc, rfl, hq⟩
  | true =>
    -- what a node reads is there, and it is not the new node
    obtain ⟨d, hd, hrefused⟩ := hq.exists_refused
    have hdc : p.contains d = true := h.contains_dep hd
    exact absurd hdc (hrefused.elim (fun he => he ▸ hq.free) fun hno => hno)

/-! ### Failing -/

/-- **What a compound edit leaves when it fails.**  Inserting leaves the program as it was iff it did
not come to making the node, and replacing iff there was nothing to replace; else the new node is
still there, without a place in the order, and there was an argument that it cannot read. -/
theorem failed_edit_leaves (h : p.WellFormed) (prim : Primitive) :
    (∀ next index e q, (addIntermediate prim next index).run.run p = (.error e, q) →
      (q = p ↔ ¬ Starts p prim next index) ∧
      (q ≠ p → Abandoned p q prim prim.arguments e ∧ q.isOrdered = false)) ∧
    ∀ old keep e q, (replace old prim keep).run.run p = (.error e, q) →
      (q = p ↔ ¬ p.contains old = true) ∧
      (q ≠ p → keep = false ∧ q.isOrdered = false ∧
        Abandoned p q { prim with id := p.unusedId (old ++ "__replacement") }
          prim.arguments e) := by
  have hl := h.toLinked
  refine ⟨fun next index e q hrun => ?_, fun old keep e q hrun => ?_⟩
  · have hends : Ends (addIntermediate prim next index) _ _ p := addIntermediate_leaves hl
    rw [Ends, hrun] at hends
    obtain ⟨hq, hnot⟩ | ⟨hstarts, hq⟩ := hends
    · exact ⟨iff_of_true hq hnot, fun hne => absurd hq hne⟩
    · exact ⟨iff_of_false hq.ne (not_not_intro hstarts), fun _ => ⟨hq, hq.not_isOrdered hl⟩⟩
  · have hends : Ends (replace old prim keep) _ _ p := replace_leaves hl keep
    rw [Ends, hrun] at hends
    obtain ⟨hq, hnot⟩ | ⟨hc, hkeep, hq⟩ := hends
    · exact ⟨iff_of_true hq hnot, fun hne => absurd hq hne⟩
    · exact ⟨iff_of_false hq.ne (not_not_intro hc), fun _ => ⟨hkeep, hq.not_isOrdered hl, hq⟩⟩

end Compound

end NetPlan.Edit

namespace NetPlan

/-- A sum with an argument that is not there, in front of a node and in the place of one. -/
theorem failed_edit_leaves_sum :
    (∃ q, (Edit.addIntermediate (.sumWith "z") "a" 0).run.run (.laidOut (.beside true))
        = (.error (.missingNode "z"), q) ∧
      q ≠ .laidOut (.beside true) ∧ q.isOrdered = false) ∧
    ∃ q, (Edit.replace "a" (.sumWith "z") false).run.run (.laidOut (.beside true))
        = (.error (.missingNode "z"), q) ∧
      q ≠ .laidOut (.beside true) ∧ q.isOrdered = false := by
  have hinsert := run_eq_error (x := Edit.addIntermediate (.sumWith "z") "a" 0)
    (s := .laidOut (.beside true)) (e := .missingNode "z") (by decide +kernel)
  have hreplace := run_eq_error (x := Edit.replace "a" (.sumWith "z") false)
    (s := .laidOut (.beside true)) (e := .missingNode "z") (by decide +kernel)
  obtain ⟨hinserted, hreplaced⟩ := Edit.failed_edit_leaves
    (Program.laidOut_spec (t := .beside true) (by unfold Topology.Distinct; decide)).1
    (.sumWith "z")
  have hstarts : Edit.Starts (.laidOut (.beside true)) (.sumWith "z") "a" 0 :=
    ⟨by decide +kernel, "x", by decide +kernel, by decide⟩
  have hne := fun hq => (hinserted _ _ _ _ hinsert).1.mp hq hstarts
  have hne' := fun hq => (hreplaced _ _ _ _ hreplace).1.mp hq (by decide +kernel)
  exact ⟨⟨_, hinsert, hne, ((hinserted _ _ _ _ hinsert).2 hne).2⟩,
    _, hreplace, hne', ((hreplaced _ _ _ _ hreplace).2 hne').2.1⟩

/-- **A node is left behind**, with one edge and no place in the order, where inserting or replacing
found an argument missing. -/
theorem failed_edit_keeps_node :
    (Program.laidOut (.beside true)).WellFormed ∧
    (∃ q, (Edit.addIntermediate (.sumWith "z") "a" 0).run.run (.laidOut (.beside true))
        = (.error (.missingNode "z"), q) ∧
      q ≠ .laidOut (.beside true) ∧ q.ids = ["a", "n", "x", "y"] ∧ q.depsOf "n" = ["x"] ∧
      q.usersOf "x" = ["a", "n"] ∧ q.order.ids = ["x", "a", "y"]) ∧
    ∃ q, (Edit.replace "a" (.sumWith "z") false).run.run (.laidOut (.beside true))
        = (.error (.missingNode "z"), q) ∧
      q ≠ .laidOut (.beside true) ∧ q.ids = ["a", "a__replacement", "x", "y"] := by
  have hids : (Program.laidOut (.beside true)).ids = ["a", "x", "y"] := by decide +kernel
  have hne : ∀ {q : Program} {ids : List String}, q.ids = ids → ids ≠ ["a", "x", "y"] →
      q ≠ .laidOut (.beside true) := fun hq hneq he => hneq (hq.symm.trans (he ▸ hids))
  have hinsert : ((Edit.addIntermediate (.sumWith "z") "a" 0).run.run
      (.laidOut (.beside true))).2.ids = ["a", "n", "x", "y"] := by decide +kernel
  have hreplace : ((Edit.replace "a" (.sumWith "z") false).run.run
      (.laidOut (.beside true))).2.ids = ["a", "a__replacement", "x", "y"] := by decide +kernel
  exact ⟨(Program.laidOut_spec (by unfold Topology.Distinct; decide)).1,
    ⟨_, run_eq_error (by decide +kernel), hne hinsert (by decide), hinsert, by decide +kernel,
      by decide +kernel, by decide +kernel⟩,
    _, run_eq_error (by decide +kernel), hne hreplace (by decide), hreplace⟩

end NetPlan
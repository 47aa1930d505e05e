import NetPlan.Proofs.Graph.Contract

/-!
# Proofs/Layout/Upstream — caches that an edit leaves alone

An edit drops the cached layouts of the nodes whose edges it changes, and of everything downstream of
them.  If the members of a set read members only (`Upstream`), they are downstream of nothing else; so
an edit of other nodes leaves them their caches, be they right or not (`Spared`).

* `extract_spared` — a node that is taken out of a chain leaves the caches of everything upstream of it.
-/

namespace NetPlan

namespace Program

variable {p q r : Program} {s : String → Prop} {dep user old new id j : String} {index : Nat}

/-- Members of `s` read members of `s` only. -/
def Upstream (s : String → Prop) (p : Program) : Prop := ∀ i u, u ∈ p.usersOf i → s u → s i

/-- The members of `s` have the caches in `q` that they have in `p`, and read members only. -/
structure Spared (s : String → Prop) (p q : Program) : Prop where
  upstream : Upstream s q
  caches : ∀ j, s j → q.layoutOf j = p.layoutOf j

theorem Spared.refl (h : Upstream s p) : Spared s p p := ⟨h, fun _ _ => rfl⟩

theorem Spared.trans (h : Spared s p q) (h' : Spared s q r) : Spared s p r :=
  ⟨h'.upstream, fun j hj => (h'.caches j hj).trans (h.caches j hj)⟩

namespace Upstream

variable (h : Upstream s p)
include h

theorem not_mem_downstream (hid : ¬ s id) (hj : s j) : j ∉ p.downstream id := by
  intro hmem
  obtain hseen | ⟨o, ho, hreads⟩ := walk_reachable _ _ _ j hmem
  · exact List.not_mem_nil hseen
  obtain rfl := List.mem_singleton.mp ho
  clear hmem
  induction hreads using Relation.ReflTransGen.head_induction_on with
  | refl => exact hid hj
  | head hread _ ih => exact ih (h _ _ hread hj)

/-- New users of members do no harm. -/
theorem thinned {ds : List String} (ht : Thinned p q ds) (hds : ∀ d ∈ ds, s d) :
    Upstream s q := fun i u hu hs => by
  by_cases hi : i ∈ ds
  · exact hds i hi
  · exact h i u ((ht i hi).subset hu) hs

/-- **An invalidation elsewhere** leaves the caches of members. -/
theorem invalidate (hid : ¬ s id) : Spared s p (p.invalidate id) where
  upstream := by
    have hthin : Thinned p (p.invalidate id) [] := fun j _ => by rw [usersOf_invalidate]
    exact h.thinned hthin fun _ hd => nomatch hd
  caches j hj := by rw [layoutOf_invalidate, if_neg (h.not_mem_downstream hid hj)]

theorem cut (hu : ¬ s user) : Spared s p (p.cut dep user) := by
  have hcut : Upstream s (p.cut dep user) := h.thinned thinned_cut fun _ hd => nomatch hd
  have hbefore : Upstream s ((p.update user (·.dropDependency dep)).update dep (·.dropUser user)) :=
    fun i u hread => hcut i u (by rwa [Program.cut, usersOf_setInputs, usersOf_invalidate])
  refine ⟨hcut, fun j hj => ((hbefore.invalidate hu).caches j hj).trans ?_⟩
  rw [layoutOf_update_same (by simp) (by simp), layoutOf_update_same (by simp) (by simp)]

theorem redirect (hu : ¬ s user) (hnew : s new) (hc : p.contains new = true) :
    Spared s p (p.redirect user index old new) := by
  have hredirect : Upstream s (p.redirect user index old new) :=
    h.thinned (thinned_redirect hc) fun _ hd => List.mem_singleton.mp hd ▸ hnew
  have hbefore : Upstream s ((p.release user index old new).update new (·.addUser user)) :=
    fun i u hread => hredirect i u (by rwa [Program.redirect, usersOf_setInputs, usersOf_invalidate])
  refine ⟨hredirect, fun j hj => ((hbefore.invalidate hu).caches j hj).trans ?_⟩
  rw [layoutOf_update_same (by simp) (by simp), layoutOf_release]

end Upstream

end Program

namespace Edit

open Program

variable {p : Program} {s : String → Prop} {old new id input : String}

/-- Users that are no members come to read a member. -/
theorem moveUsers_spared (h : Upstream s p) (hnew : s new) (users : List String)
    (husers : ∀ u ∈ users, ¬ s u) :
    Ends (forIn users PUnit.unit fun user _ => do
        replaceDependencyOf user old new
        pure (ForInStep.yield PUnit.unit))
      (fun _ q => Spared s p q) (fun _ _ => True) p := by
  refine ends_forIn (fun rest q => (∀ u ∈ rest, ¬ s u) ∧ Spared s p q) (fun user rest q hq => ?_)
    (fun _ hq => hq.2) users p ⟨husers, .refl h⟩
  obtain ⟨hrest, hq⟩ := hq
  obtain ⟨huser, hrest⟩ := List.forall_mem_cons.mp hrest
  have hall : Ends (replaceDependencyOf user old new) (fun _ r => Spared s p r)
      (fun _ _ => True) q := by
    rw [replaceDependencyOf, ends_bind, ends_node]
    refine ⟨fun n _ => ?_, fun _ => trivial⟩
    rw [ends_bind]
    refine ends_forIn (fun _ r => Spared s p r) (fun x _ r hr => ?_) (fun _ hr => hr) _ q hq
    dsimp only
    split
    · rw [ends_bind]
      exact ends_replaceDependency (fun _ => trivial) (fun _ => trivial) (fun _ => trivial)
        (fun _ _ => ⟨rfl, hr⟩) fun _ _ _ hc => ⟨rfl, hr.trans (hr.upstream.redirect huser hnew hc)⟩
    · exact ⟨rfl, hr⟩
  rw [ends_bind]
  exact hall.imp (fun _ r hr => ⟨rfl, hrest, hr⟩) fun _ _ hb => hb

/-- A node that is no member is removed. -/
theorem remove_spared (h : Upstream s p) (hid : ¬ s id) :
    Ends (remove id) (fun _ q => Spared s p q) (fun _ _ => True) p := by
  have hloop : ∀ (l : List String) (dep user : String → String), (∀ x ∈ l, ¬ s (user x)) →
      ∀ q : Program, Spared s p q →
      Ends (forIn l PUnit.unit fun x _ => do
          disconnect (dep x) (user x)
          pure (ForInStep.yield PUnit.unit)) (fun _ r => Spared s p r) (fun _ _ => True) q := by
    intro l dep user hl q hq
    refine ends_forIn (fun rest r => (∀ x ∈ rest, ¬ s (user x)) ∧ Spared s p r)
      (fun x rest r hr => ?_) (fun _ hr => hr.2) l q ⟨hl, hq⟩
    obtain ⟨hrest, hr⟩ := hr
    obtain ⟨hx, hrest⟩ := List.forall_mem_cons.mp hrest
    rw [ends_bind]
    exact ends_disconnect (fun _ => trivial) fun _ => ⟨rfl, hrest, hr.trans (hr.upstream.cut hx)⟩
  have hisolate : Ends (isolate id) (fun _ q => Spared s p q) (fun _ _ => True) p := by
    rw [isolate, ends_bind, ends_node]
    refine ⟨fun n hn => ?_, fun _ => trivial⟩
    rw [ends_bind]
    refine (hloop n.dependencies (fun d => d) (fun _ => id) (fun _ _ => hid) p (.refl h)).imp_good
      fun _ q hq => ?_
    rw [ends_bind]
    exact hloop n.users (fun _ => id) (fun u => u)
      (fun u hu hs => hid (h id u (usersOf_of_node? hn ▸ hu) hs)) q hq
  rw [remove, ends_bind]
  refine hisolate.imp_good fun _ q hq => ?_
  rw [ends_modify]
  refine hq.trans (⟨fun i u hu hs => ?_, fun j hj => ?_⟩ : Spared s q (q.without id))
  · rw [usersOf_without] at hu
    split at hu
    · cases hu
    · exact hq.upstream i u hu hs
  · rw [layoutOf_without, if_neg fun he : j = id => hid (he ▸ hj)]

theorem markOutput_layouts (id : String) :
    Ends (markOutput id) (fun _ q => q.layoutOf = p.layoutOf) (fun _ _ => True) p := by
  rw [markOutput, ends_bind, ends_change]
  refine ⟨fun _ _ => ?_, fun _ => trivial⟩
  have hupdate : (p.update id fun n => { n with isOutput := true }).layoutOf = p.layoutOf :=
    layoutOf_update_same (fun _ => rfl) fun _ => rfl
  rw [ends_modify]
  split
  · exact hupdate
  · exact hupdate

/-- **Taking a node out** leaves the caches upstream of it; its input may have its id by now. -/
theorem extract_spared (h : Upstream s p) (hid : ¬ s id)
    (hinput : ∀ input, p.depsOf id = [input] → s input) :
    Ends (extract id)
      (fun done q => done = true → ∀ input, p.depsOf id = [input] →
        ∀ j, s j → q.layoutOf (onto p id input j) = p.layoutOf j) (fun _ _ => True) p := by
  rw [extract, ends_bind, ends_node]
  refine ⟨fun n hn => ?_, fun _ => trivial⟩
  split
  case h_1 =>
    intro hdone
    cases hdone
  case h_2 input honly =>
  rw [onlyDependency?_eq_some, ← depsOf_of_node? hn] at honly
  have hmark : p.isMarked id = n.isOutput := isMarked_of_node? hn
  have hin : s input := hinput input honly
  rw [ends_bind, ends_node]
  refine ⟨fun source _ => ?_, fun _ => trivial⟩
  split
  case isTrue =>
    intro hdone
    cases hdone
  case isFalse =>
  rw [ends_bind]
  refine (moveUsers_spared h hin n.users fun u hu hs =>
    hid (h id u (usersOf_of_node? hn ▸ hu) hs)).imp_good fun _ a ha => ?_
  rw [ends_bind]
  refine (remove_spared ha.upstream hid).imp_good fun _ b hb => ?_
  have hcaches : ∀ j, s j → b.layoutOf j = p.layoutOf j := (ha.trans hb).caches
  -- marks and flags are no matter of caches
  have htail : ∀ c : Program, c.layoutOf = b.layoutOf → Ends (do
      if n.isOutput then
        markOutput input
        rename input id
      return true)
      (fun done q => done = true → ∀ input, p.depsOf id = [input] →
        ∀ j, s j → q.layoutOf (onto p id input j) = p.layoutOf j) (fun _ _ => True) c := by
    intro c hc
    have hname : ∀ j, s j → onto p id input j = if n.isOutput ∧ j = input then id else j := by
      intro j hj
      have hne : j ≠ id := fun he => hid (he ▸ hj)
      rw [onto, survivor, hmark]
      by_cases hji : j = input
      · cases n.isOutput <;> simp [hji]
      · simp [hne, hji]
    have honly' : ∀ {input' : String}, p.depsOf id = [input'] → input' = input := fun h' =>
      (List.cons.inj (h'.symm.trans honly)).1
    split
    case isTrue hout =>
      rw [ends_bind]
      refine (markOutput_layouts input).imp_good fun _ d hd => ?_
      rw [ends_bind]
      refine ends_rename (fun he => absurd (he ▸ hin) hid) (fun _ _ => trivial) (fun _ _ => trivial)
        fun m hm hfree _ input' h' j hj => ?_
      rw [honly' h', hname j hj]
      by_cases hji : j = input
      · rw [if_pos (And.intro hout hji), layoutOf_renamed hm hfree, if_pos rfl, hd, hc, hji,
          hcaches input hin]
      · have hne : j ≠ id := fun he => hid (he ▸ hj)
        rw [if_neg fun he => hji he.2, layoutOf_renamed hm hfree, if_neg hne, if_neg hji, hd, hc,
          hcaches j hj]
    case isFalse hout =>
      intro _ input' h' j hj
      rw [honly' h', hname j hj, if_neg fun he => hout he.1, hc, hcaches j hj]
  dsimp only
  split
  · rw [ends_bind, ends_change]
    exact ⟨fun _ _ => htail _ (layoutOf_update_same (fun _ => rfl) fun _ => rfl), fun _ => trivial⟩
  · exact htail b rfl

end Edit

end NetPlan

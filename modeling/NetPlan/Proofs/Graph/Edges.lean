import NetPlan.Proofs.Graph.Rewire

/-!
# Proofs/Graph/Edges — edits of edges, from their text to their effect

Each edit of edges either stops before it changed anything, or leaves the program that `link`, `cut`
and `redirect` describe.
-/

namespace NetPlan.Edit

open Program

variable {p : Program} {dep user old new id : String} {index : Nat}
  {good : Unit → Program → Prop} {bad : CompileError → Program → Prop}

/-! ## One edge -/

theorem ends_connect (self : dep = user → bad (.invalidGraph (.selfDependency dep)) p)
    (noDep : p.node? dep = none → bad (.missingNode dep) p)
    (noUser : p.node? user = none → bad (.missingNode user) p)
    (ok : dep ≠ user → p.contains dep = true → p.contains user = true → good () (p.link dep user)) :
    Ends (connect dep user) good bad p := by
  rw [connect]
  split
  case isTrue h => simpa using self h
  case isFalse hne =>
    simp only [ends_bind, ends_node, ends_change, ends_modify, ends_invalidate]
    refine ⟨fun m hm => ⟨fun n hn => ⟨fun _ _ => ?_, fun hnone => ?_⟩, noUser⟩, noDep⟩
    · exact ok hne (contains_of_node? hm) (contains_of_node? hn)
    · change (p.update user _).node? dep = none at hnone
      rw [node?_eq_none, contains_update fun n => n.id_addDependency dep] at hnone
      exact absurd (contains_of_node? hm) hnone

theorem ends_disconnect (noUser : p.node? user = none → bad (.missingNode user) p)
    (ok : p.contains user = true → good () (p.cut dep user)) :
    Ends (disconnect dep user) good bad p := by
  rw [disconnect]
  simp only [ends_bind, ends_node, ends_change, ends_modify, ends_invalidate, ends_changeIfThere]
  refine ⟨fun n hn => ⟨fun m hm => ?_, fun hnone => ?_⟩, noUser⟩
  · have hdeps : m.dependencies.isEmpty = (p.depsOf user).all (· = dep) := by
      rw [← depsOf_of_node? hm, depsOf_update_same (by simp) (by simp),
        depsOf_update_dropDependency (contains_of_node? hn), if_pos rfl]
      rw [Bool.eq_iff_iff]
      simp [List.filter_eq_nil_iff]
    convert ok (contains_of_node? hn) using 1
    rw [cut, hdeps]
    change Program.invalidate (if _ && !p.inputs.contains user then _ else _) user = _
    split <;> rfl
  · rw [node?_eq_none, contains_update (by simp), contains_update (by simp)] at hnone
    exact absurd (contains_of_node? hn) hnone

theorem ends_replaceDependency (noNew : p.node? new = none → bad (.missingNode new) p)
    (noUser : p.node? user = none → bad (.missingNode user) p)
    (noDep : (p.depsOf user)[index]? = none → bad (.invalidGraph (.noDependency user index)) p)
    (same : (p.depsOf user)[index]? = some new → p.contains new = true → good () p)
    (ok : ∀ old, (p.depsOf user)[index]? = some old → old ≠ new → p.contains new = true →
      good () (p.redirect user index old new)) :
    Ends (replaceDependency user index new) good bad p := by
  rw [replaceDependency]
  simp only [ends_bind, ends_node]
  refine ⟨fun m hm => ⟨fun n hn => ?_, noUser⟩, noNew⟩
  rw [Node.dependency?, ← depsOf_of_node? hn]
  have hnew := contains_of_node? hm
  have hu := contains_of_node? hn
  split
  case h_1 hd => exact noDep hd
  case h_2 old hd =>
    split
    case isTrue he => exact same (he ▸ hd) hnew
    case isFalse hne =>
      have hgoal := ok old hd hne hnew
      simp only [ends_bind, ends_node, ends_change, ends_ite, ends_invalidate, ends_changeIfThere]
      refine ⟨fun _ _ => ⟨fun now hnow => ?_, fun hnone => ?_⟩, noUser⟩
      · have hnow' : now.dependencies = (p.depsOf user).set index new := by
          rw [← depsOf_of_node? hnow, depsOf_update_setDependency hu, if_pos rfl]
        rw [redirect, release] at hgoal
        rw [hnow']
        split
        case isTrue hout =>
          rw [if_neg (by simpa using hout)] at hgoal
          refine ⟨fun _ _ => hgoal, fun hnone => ?_⟩
          rw [node?_eq_none, contains_update (by simp), contains_update (by simp)] at hnone
          exact absurd hnew hnone
        case isFalse hin =>
          rw [if_pos (by simpa using hin)] at hgoal
          refine ⟨fun _ _ => hgoal, fun hnone => ?_⟩
          rw [node?_eq_none, contains_update (by simp)] at hnone
          exact absurd hnew hnone
      · rw [node?_eq_none, contains_update (by simp)] at hnone
        exact absurd hu hnone

/-! ## Several edges -/

/-- **Connecting** appends the dependency; what fails changes nothing. -/
theorem connect_effect (h : p.Linked) :
    Ends (connect dep user)
      (fun _ q => Rewired p q ∧ q.argsOf = p.argsOf ∧ dep ≠ user ∧ p.contains dep = true ∧
        Thinned p q [dep] ∧
        ∀ j, q.depsOf j = if j = user then p.depsOf j ++ [dep] else p.depsOf j)
      (fun e q => e.closes = false ∧ q = p) p :=
  ends_connect (fun _ => ⟨rfl, rfl⟩) (fun _ => ⟨rfl, rfl⟩) (fun _ => ⟨rfl, rfl⟩)
    fun hne hd hu =>
      ⟨rewired_link h hne hd hu, argsOf_link, hne, hd, thinned_link hd, depsOf_link hu⟩

theorem disconnect_effect (h : p.Linked) :
    Ends (disconnect dep user)
      (fun _ q => Rewired p q ∧ q.argsOf = p.argsOf ∧ Thinned p q [] ∧
        ∀ j, q.depsOf j = if j = user then (p.depsOf j).filter (· ≠ dep) else p.depsOf j)
      (fun e q => e = .missingNode user ∧ p.node? user = none ∧ q = p) p :=
  ends_disconnect (fun hn => ⟨rfl, hn, rfl⟩)
    fun hu => ⟨rewired_cut h hu, argsOf_cut, thinned_cut, depsOf_cut hu⟩

/-- Why a node is not connected to a dependency, and what is said of it. -/
def Refuses (p : Program) (user dep : String) (e : CompileError) : Prop :=
  dep = user ∧ e = .invalidGraph (.selfDependency dep) ∨
    ¬ p.contains dep = true ∧ e = .missingNode dep

theorem Refuses.closes {e : CompileError} (h : Refuses p user dep e) : e.closes = false := by
  obtain ⟨-, rfl⟩ | ⟨-, rfl⟩ := h
  · rfl
  · rfl

theorem connect_refuses (hu : p.contains user = true) :
    Ends (connect dep user) (fun _ _ => True) (fun e _ => Refuses p user dep e) p :=
  ends_connect (fun he => Or.inl ⟨he, rfl⟩) (fun hnone => Or.inr ⟨node?_eq_none.mp hnone, rfl⟩)
    (fun hnone => absurd hu (node?_eq_none.mp hnone)) fun _ _ _ => trivial

/-- `q` is `p` with a node connected to what comes in front of the first dependency it refuses. -/
structure Halted (p q : Program) (user : String) (deps : List String) (e : CompileError) :
    Prop where
  rewired : Rewired p q
  args : q.argsOf = p.argsOf
  stopped : ∃ done dep rest, deps = done ++ dep :: rest ∧
    (∀ d ∈ done, d ≠ user ∧ p.contains d = true) ∧ Refuses p user dep e ∧
    ∀ j, q.depsOf j = if j = user then p.depsOf j ++ done else p.depsOf j

/-- **Connecting** to a list of dependencies, up to the first that is refused. -/
theorem connectAll_effect (h : p.Linked) (hu : p.contains user = true) (deps : List String) :
    Ends (connectAll deps user)
      (fun _ q => Rewired p q ∧ q.argsOf = p.argsOf ∧ Thinned p q deps ∧
        (∀ d ∈ deps, d ≠ user ∧ p.contains d = true) ∧
        ∀ j, q.depsOf j = if j = user then p.depsOf j ++ deps else p.depsOf j)
      (fun e q => Halted p q user deps e) p := by
  rw [connectAll, ends_bind]
  -- what was connected so far stands before what is still to come
  refine ends_forIn (fun rest q => Rewired p q ∧ q.argsOf = p.argsOf ∧ Thinned p q deps ∧
      ∃ done, deps = done ++ rest ∧ (∀ d ∈ done, d ≠ user ∧ p.contains d = true) ∧
        ∀ j, q.depsOf j = if j = user then p.depsOf j ++ done else p.depsOf j)
    (fun dep rest q hq => ?_) (fun q hq => ?_) deps p
    ⟨.refl h, rfl, .refl p deps, [], rfl, fun _ hd => absurd hd List.not_mem_nil, fun j => by simp⟩
  · obtain ⟨hrew, hargs, hthin, done, hsplit, hok, hdeps⟩ := hq
    have hu' : q.contains user = true := hrew.contains ▸ hu
    rw [ends_bind]
    refine ((connect_effect hrew.linked).and (connect_refuses hu')).imp
      (fun _ r hr => ⟨rfl, ?_⟩) fun e r hr => ?_
    · obtain ⟨⟨hrew', hargs', hne, hc, hthin', hdeps'⟩, -⟩ := hr
      refine ⟨hrew.trans hrew', hargs'.trans hargs, hthin.trans (hthin'.mono (by simp [hsplit])),
        done ++ [dep], by simp [hsplit], ?_, ?_⟩
      · intro d hd
        rcases List.mem_append.mp hd with hd | hd
        · exact hok d hd
        · rw [List.mem_singleton.mp hd, ← hrew.contains]
          exact ⟨hne, hc⟩
      · intro j
        rw [hdeps', hdeps]
        split <;> simp
    · obtain ⟨⟨-, rfl⟩, hrefuses⟩ := hr
      rw [Refuses, hrew.contains] at hrefuses
      exact ⟨hrew, hargs, done, dep, rest, hsplit, hok, hrefuses, hdeps⟩
  · obtain ⟨hrew, hargs, hthin, done, hsplit, hok, hdeps⟩ := hq
    rw [List.append_nil] at hsplit
    exact ⟨hrew, hargs, hthin, hsplit ▸ hok, hsplit ▸ hdeps⟩

/-- **Isolating** a node takes it out of every list of dependencies. -/
theorem isolate_effect (h : p.Linked) :
    Ends (isolate id)
      (fun _ q => Rewired p q ∧ q.argsOf = p.argsOf ∧ p.contains id = true ∧ Thinned p q [] ∧
        ∀ j, q.depsOf j = if j = id then [] else (p.depsOf j).filter (· ≠ id))
      (fun e q => e = .missingNode id ∧ p.node? id = none ∧ q = p) p := by
  rw [isolate, ends_bind, ends_node]
  refine ⟨fun n hn => ?_, fun hn => ⟨rfl, hn, rfl⟩⟩
  have hc := contains_of_node? hn
  rw [ends_bind]
  refine ends_forIn (fun rest q => Rewired p q ∧ q.argsOf = p.argsOf ∧ Thinned p q [] ∧
      (∀ d ∈ q.depsOf id, d ∈ rest) ∧ ∀ j, j ≠ id → q.depsOf j = p.depsOf j)
    (fun dep rest q hq => ?_) (fun q hq => ?_) n.dependencies p
    ⟨.refl h, rfl, .refl p [], fun d hd => depsOf_of_node? hn ▸ hd, fun _ _ => rfl⟩
  · obtain ⟨hrew, hargs, hthin, hleft, hothers⟩ := hq
    rw [ends_bind]
    refine (disconnect_effect hrew.linked).imp (fun _ r hr => ⟨rfl, ?_⟩) fun e r hr => ?_
    · obtain ⟨hrew', hargs', hthin', hdeps'⟩ := hr
      refine ⟨hrew.trans hrew', hargs'.trans hargs, hthin.trans hthin', fun d hd => ?_,
        fun j hj => ?_⟩
      · rw [hdeps', if_pos rfl, List.mem_filter] at hd
        exact (List.mem_cons.mp (hleft d hd.1)).resolve_left (by simpa using hd.2)
      · rw [hdeps', if_neg hj, hothers j hj]
    · rw [node?_eq_none, hrew.contains] at hr
      exact absurd hc hr.2.1
  obtain ⟨hrew, hargs, hthin, hleft, hothers⟩ := hq
  have hempty : q.depsOf id = [] := List.eq_nil_iff_forall_not_mem.mpr fun d hd =>
    absurd (hleft d hd) List.not_mem_nil
  have husers : n.users = p.usersOf id := (usersOf_of_node? hn).symm
  rw [ends_bind]
  refine ends_forIn (fun rest r => Rewired p r ∧ r.argsOf = p.argsOf ∧ Thinned p r [] ∧
      r.depsOf id = [] ∧ ∃ done, n.users = done ++ rest ∧ ∀ j, j ≠ id → r.depsOf j
        = if j ∈ done then (p.depsOf j).filter (· ≠ id) else p.depsOf j)
    (fun user rest r hr => ?_) (fun r hr => ?_) n.users q
    ⟨hrew, hargs, hthin, hempty, [], rfl, fun j hj => by rw [hothers j hj]; simp⟩
  · obtain ⟨hrew, hargs, hthin, hempty, done, hsplit, hothers⟩ := hr
    rw [ends_bind]
    refine (disconnect_effect hrew.linked).imp (fun _ r' hr' => ⟨rfl, ?_⟩) fun e r' hr' => ?_
    · obtain ⟨hrew', hargs', hthin', hdeps'⟩ := hr'
      refine ⟨hrew.trans hrew', hargs'.trans hargs, hthin.trans hthin', ?_, done ++ [user],
        by simp [hsplit], fun j hj => ?_⟩
      · rw [hdeps', hempty]
        split <;> rfl
      · rw [hdeps', hothers j hj]
        by_cases hju : j = user
        · subst hju
          by_cases hd : j ∈ done <;> simp [hd, List.filter_filter]
        · simp [hju]
    · have hmem : user ∈ p.usersOf id := by
        rw [← husers, hsplit]
        simp
      rw [node?_eq_none, hrew.contains] at hr'
      exact absurd (h.contains_user hmem) hr'.2.1
  · obtain ⟨hrew, hargs, hthin, hempty, done, hsplit, hothers⟩ := hr
    rw [List.append_nil, husers] at hsplit
    refine ⟨hrew, hargs, hc, hthin, fun j => ?_⟩
    by_cases hj : j = id
    · rw [if_pos hj, hj, hempty]
    · rw [if_neg hj, hothers j hj]
      split
      case isTrue => rfl
      case isFalse hu =>
        -- a node that is no user does not read the node
        rw [← hsplit, ← h.edges] at hu
        refine (List.filter_eq_self.mpr fun d hd => ?_).symm
        simpa using fun he : d = id => hu (he ▸ hd)

/-- **Isolating a node that nothing reads** drops its own edges and no other, linked or not. -/
theorem isolate_frame (hc : p.contains id = true)
    (husers : ∀ u ∈ p.usersOf id, p.contains u = true) (hread : ∀ u, id ∉ p.depsOf u) :
    Ends (isolate id)
      (fun _ q => Framed p q ∧ q.argsOf = p.argsOf ∧ ∀ j, j ≠ id → q.depsOf j = p.depsOf j)
      (fun _ _ => False) p := by
  -- an edge that is dropped ends in the node, or starts from it and is not read
  have hloop : ∀ (l : List String) (dep user : String → String),
      (∀ x ∈ l, p.contains (user x) = true ∧ (user x = id ∨ dep x = id)) → ∀ q : Program,
      (Framed p q ∧ q.argsOf = p.argsOf ∧ ∀ j, j ≠ id → q.depsOf j = p.depsOf j) →
      Ends (forIn l PUnit.unit fun x _ => do
          disconnect (dep x) (user x)
          pure (ForInStep.yield PUnit.unit))
        (fun _ r => Framed p r ∧ r.argsOf = p.argsOf ∧ ∀ j, j ≠ id → r.depsOf j = p.depsOf j)
        (fun _ _ => False) q := by
    intro l dep user hl q hq
    refine ends_forIn (fun rest r => (∀ x ∈ rest, x ∈ l) ∧ Framed p r ∧ r.argsOf = p.argsOf ∧
        ∀ j, j ≠ id → r.depsOf j = p.depsOf j) (fun x rest r hr => ?_) (fun r hr => hr.2) l q
      ⟨fun _ hx => hx, hq⟩
    obtain ⟨hrest, hframe, hargs, hdeps⟩ := hr
    obtain ⟨hu, hends⟩ := hl x (hrest x List.mem_cons_self)
    rw [ends_bind]
    refine ends_disconnect (fun hnone => node?_eq_none.mp hnone (hframe.contains ▸ hu)) fun hu' => ?_
    refine ⟨rfl, fun y hy => hrest y (List.mem_cons_of_mem x hy), hframe.trans framed_cut,
      argsOf_cut.trans hargs, fun j hj => ?_⟩
    rw [depsOf_cut hu', hdeps j hj]
    split
    case isTrue hju =>
      rw [hends.resolve_left fun he => hj (hju.trans he)]
      exact List.filter_eq_self.mpr fun d hd => by simpa using fun he : d = id => hread j (he ▸ hd)
    case isFalse => rfl
  rw [isolate, ends_bind, ends_node]
  refine ⟨fun n hn => ?_, fun hnone => node?_eq_none.mp hnone hc⟩
  rw [ends_bind]
  refine (hloop n.dependencies (fun d => d) (fun _ => id) (fun _ _ => ⟨hc, Or.inl rfl⟩) p
    ⟨.refl p, rfl, fun _ _ => rfl⟩).imp_good fun _ q hq => ?_
  rw [ends_bind]
  exact hloop n.users (fun _ => id) (fun u => u)
    (fun u hu => ⟨husers u (usersOf_of_node? hn ▸ hu), Or.inr rfl⟩) q hq

/-- **Turning an edge around.** -/
theorem reverse_effect (h : p.Linked) :
    Ends (reverse dep user) (fun _ q => Rewired p q)
      (fun e q => e.closes = false ∧ Rewired p q) p := by
  rw [reverse, ends_bind, ends_node]
  refine ⟨fun n _ => ?_, fun _ => ⟨rfl, .refl h⟩⟩
  split
  · exact ⟨rfl, .refl h⟩
  · rw [ends_bind]
    refine (disconnect_effect h).imp (fun _ q hq => ?_) fun e q hq => ⟨?_, ?_⟩
    · exact (connect_effect hq.1.linked).imp (fun _ r hr => hq.1.trans hr.1)
        fun e r hr => ⟨hr.1, hr.2 ▸ hq.1⟩
    · rw [hq.1]
      rfl
    · rw [hq.2.2]
      exact .refl h

/-- **Pointing one dependency elsewhere** sets the same slot of dependencies and arguments. -/
theorem replaceDependency_effect :
    Ends (replaceDependency user index new)
      (fun _ q => (p.Linked → new ≠ user → Rewired p q) ∧ Framed p q ∧
        p.contains new = true ∧ index < (p.depsOf user).length ∧
        (∀ j, p.argsOf j = p.depsOf j → q.argsOf j = q.depsOf j) ∧
        Thinned p q [new] ∧ Joined p q new user ∧
        ∀ j, q.depsOf j = if j = user then (p.depsOf j).set index new else p.depsOf j)
      (fun e q => e.closes = false ∧ q = p ∧
        (p.contains new = true → (p.depsOf user).length ≤ index)) p := by
  refine ends_replaceDependency
    (fun hnone => ⟨rfl, rfl, fun hnew => absurd hnew (node?_eq_none.mp hnone)⟩)
    (fun hnone => ⟨rfl, rfl, fun _ => ?_⟩)
    (fun hnone => ⟨rfl, rfl, fun _ => List.getElem?_eq_none_iff.mp hnone⟩)
    (fun hsame hnew => ?_) fun old hold hne hnew => ?_
  · rw [depsOf_of_not_contains (node?_eq_none.mp hnone)]
    exact Nat.zero_le index
  · obtain ⟨hlt, hget⟩ := List.getElem?_eq_some_iff.mp hsame
    refine ⟨fun h _ => .refl h, .refl p, hnew, hlt, fun _ hj => hj, .refl p _, Or.inl rfl, fun j => ?_⟩
    split
    case isTrue hj =>
      subst hj
      rw [← hget, List.set_getElem_self]
    case isFalse => rfl
  · obtain ⟨hlt, -⟩ := List.getElem?_eq_some_iff.mp hold
    have hu := contains_of_mem_depsOf (List.mem_of_getElem? hold)
    refine ⟨fun h hnu => rewired_redirect h hold hne hnew hnu, framed_redirect, hnew, hlt,
      fun j hj => ?_, thinned_redirect hnew, joined_redirect hnew hne, depsOf_redirect hu⟩
    rw [depsOf_redirect hu, argsOf_redirect hu, hj]

/-- **Pointing every dependency on one node elsewhere.** -/
theorem replaceDependencyOf_effect :
    Ends (replaceDependencyOf user old new)
      (fun _ q => (p.Linked → (old ∈ p.depsOf user → new ≠ user) → Rewired p q) ∧ Framed p q ∧
        (∀ j, p.argsOf j = p.depsOf j → q.argsOf j = q.depsOf j) ∧
        Thinned p q [new] ∧ Joined p q new user ∧
        ∀ j, q.depsOf j
          = if j = user then (p.depsOf j).map (fun d => if d = old then new else d)
            else p.depsOf j)
      (fun e q => e.closes = false ∧
        (p.Linked → (old ∈ p.depsOf user → new ≠ user) → Rewired p q) ∧
        (p.contains new = true → ¬ p.contains user = true)) p := by
  rw [replaceDependencyOf, ends_bind, ends_node]
  refine ⟨fun n hn => ?_, fun hnone =>
    ⟨rfl, fun h _ => .refl h, fun _ => node?_eq_none.mp hnone⟩⟩
  rw [ends_bind]
  have hds : p.depsOf user = n.dependencies := depsOf_of_node? hn
  -- the slots that are still to come are as they were
  refine ends_forIn (fun rest q =>
      (p.Linked → (old ∈ p.depsOf user → new ≠ user) → Rewired p q) ∧ Framed p q ∧
      (∀ j, p.argsOf j = p.depsOf j → q.argsOf j = q.depsOf j) ∧
      Thinned p q [new] ∧ Joined p q new user ∧ (∀ j, j ≠ user → q.depsOf j = p.depsOf j) ∧
      ∃ k, rest = n.dependencies.zipIdx.drop k ∧ q.depsOf user
        = (n.dependencies.take k).map (fun d => if d = old then new else d)
          ++ n.dependencies.drop k)
    (fun x rest q hq => ?_) (fun q hq => ?_) n.dependencies.zipIdx p
    ⟨fun h _ => .refl h, .refl p, fun _ h => h, .refl p _, Or.inl rfl, fun _ _ => rfl, 0, by simp,
      by simp [hds]⟩
  · obtain ⟨hrew, hframe, halign, hthin, hjoin, hothers, k, hrest, hdeps⟩ := hq
    have hk : k < n.dependencies.length := by
      by_contra hk
      rw [List.drop_eq_nil_of_le (by simpa using Nat.not_lt.mp hk)] at hrest
      cases hrest
    rw [List.drop_eq_getElem_cons (by simpa using hk), List.getElem_zipIdx, Nat.zero_add] at hrest
    obtain ⟨rfl, rfl⟩ := List.cons.inj hrest
    have hnext : ∀ d, (n.dependencies.take k).map (fun d => if d = old then new else d)
        ++ d :: n.dependencies.drop (k + 1)
        = ((n.dependencies.take k).map (fun d => if d = old then new else d)
          ++ n.dependencies.drop k).set k d := by
      intro d
      rw [List.set_append_right _ _ (by simp), List.length_map, List.length_take,
        Nat.min_eq_left (Nat.le_of_lt hk), Nat.sub_self, List.drop_eq_getElem_cons hk,
        List.set_cons_zero]
    have hdone : (n.dependencies.take (k + 1)).map (fun d => if d = old then new else d)
        ++ n.dependencies.drop (k + 1)
        = (n.dependencies.take k).map (fun d => if d = old then new else d)
          ++ (if n.dependencies[k] = old then new else n.dependencies[k])
            :: n.dependencies.drop (k + 1) := by
      rw [List.take_succ_eq_append_getElem hk, List.map_append, List.append_assoc]
      rfl
    dsimp only
    split
    case isTrue hd =>
      have hmem : old ∈ p.depsOf user := by
        rw [hds, ← hd]
        exact List.getElem_mem hk
      rw [ends_bind]
      refine replaceDependency_effect.imp (fun _ r hr => ⟨rfl, ?_⟩) fun e r hr => ?_
      · obtain ⟨hrew', hframe', -, -, halign', hthin', hjoin', hdeps'⟩ := hr
        refine ⟨fun h hnu => (hrew h hnu).trans (hrew' (hrew h hnu).linked (hnu hmem)),
          hframe.trans hframe', fun j hj => halign' j (halign j hj), hthin.trans hthin',
          hjoin.trans hjoin', fun j hj => ?_, k + 1, rfl, ?_⟩
        · rw [hdeps', if_neg hj, hothers j hj]
        · rw [hdeps', if_pos rfl, hdeps, hdone, if_pos hd, hnext]
      · refine ⟨hr.1, hr.2.1 ▸ hrew, fun hnew => ?_⟩
        have hlen := hr.2.2 (hframe.contains ▸ hnew)
        rw [hdeps] at hlen
        simp at hlen
        omega
    case isFalse hd =>
      refine ⟨rfl, hrew, hframe, halign, hthin, hjoin, hothers, k + 1, rfl, ?_⟩
      rw [hdone, if_neg hd, ← List.drop_eq_getElem_cons hk, hdeps]
  · obtain ⟨hrew, hframe, halign, hthin, hjoin, hothers, k, hrest, hdeps⟩ := hq
    have hk : n.dependencies.length ≤ k := by
      have := congrArg List.length hrest
      simp at this
      omega
    refine ⟨hrew, hframe, halign, hthin, hjoin, fun j => ?_⟩
    split
    case isTrue hj =>
      rw [hj, hdeps, hds, List.take_of_length_le hk, List.drop_eq_nil_of_le hk, List.append_nil]
    case isFalse hj => exact hothers j hj

end NetPlan.Edit

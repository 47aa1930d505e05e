import NetPlan.Proofs.Graph.Nodes
import NetPlan.Proofs.Graph.Place

/-!
# Proofs/Graph/Resort — other orders of the same graph

An order may change while the graph stays as it is (`Reordered`).

* `relocateUsersAfter_effect` — users that already stand behind a node stay where they are;
* `sortedBy` — a list sorted by small keys, one key after the other;
* `byLevel_eq_ok` — sorting by level, where it succeeds, puts every node behind its dependencies.
-/

namespace NetPlan

/-! ## Computations with a second state -/

section Carry

variable {σ τ β γ : Type} {bad : CompileError → σ → Prop}

theorem ends_run_liftM {t : τ} {s : σ} {good : γ × τ → σ → Prop}
    (x : ExceptT CompileError (StateM σ) γ) :
    Ends ((liftM x : StateT τ (ExceptT CompileError (StateM σ)) γ).run t) good bad s ↔
      Ends x (fun a s => good (a, t) s) bad s := by
  change Ends (x >>= fun a => pure (a, t)) good bad s ↔ _
  rw [ends_bind]
  rfl

/-- **Loops that carry a value and a second state.**  `inv` is kept from round to round, of the
elements that are still to come. -/
theorem ends_forIn_run_rest
    {body : β → γ → StateT τ (ExceptT CompileError (StateM σ)) (ForInStep γ)}
    (inv : List β → γ → τ → σ → Prop)
    (step : ∀ x rest g t s, inv (x :: rest) g t s →
      Ends ((body x g).run t) (fun r s' => ∃ g', r.1 = .yield g' ∧ inv rest g' r.2 s') bad s) :
    ∀ (xs : List β) (g : γ) (t : τ) (s : σ), inv xs g t s →
      Ends ((forIn xs g body).run t) (fun r s' => inv [] r.1 r.2 s') bad s
  | [], g, t, s, h => by
      rw [List.forIn_nil, StateT.run_pure, ends_pure]
      exact h
  | x :: xs, g, t, s, h => by
      rw [List.forIn_cons, StateT.run_bind, ends_bind]
      refine (step x xs g t s h).imp_good fun r s' hr => ?_
      obtain ⟨g', hg, hinv⟩ := hr
      rw [hg]
      exact ends_forIn_run_rest inv step xs g' r.2 s' hinv

/-- What every element keeps, the loop keeps. -/
theorem ends_forIn_run {body : β → γ → StateT τ (ExceptT CompileError (StateM σ)) (ForInStep γ)}
    (inv : γ → τ → σ → Prop) (xs : List β) (g : γ) (t : τ) (s : σ)
    (step : ∀ x ∈ xs, ∀ g t s, inv g t s →
      Ends ((body x g).run t) (fun r s' => ∃ g', r.1 = .yield g' ∧ inv g' r.2 s') bad s)
    (h : inv g t s) : Ends ((forIn xs g body).run t) (fun r s' => inv r.1 r.2 s') bad s := by
  refine (ends_forIn_run_rest (fun rest g t s => rest ⊆ xs ∧ inv g t s)
    (fun x rest g t s hs => ?_) xs g t s ⟨List.Subset.refl xs, h⟩).imp_good fun _ _ hs => hs.2
  obtain ⟨hmem, hrest⟩ := List.cons_subset.mp hs.1
  refine (step x hmem g t s hs.2).imp_good ?_
  rintro r s' ⟨g', hg, hinv⟩
  exact ⟨g', hg, hrest, hinv⟩

/-- A walk keeps what every visit keeps. -/
theorem ends_walk_run {visit : String → StateT τ (ExceptT CompileError (StateM σ)) (List String)}
    (inv : σ → Prop)
    (step : ∀ id t s, inv s → Ends ((visit id).run t) (fun _ s' => inv s') bad s) :
    ∀ (steps : Nat) (queue seen : List String) (t : τ) (s : σ), inv s →
      Ends ((walk visit steps queue seen).run t) (fun _ s' => inv s') bad s
  | 0, _, _, _, _, h => h
  | _ + 1, [], _, _, _, h => h
  | steps + 1, id :: queue, seen, t, s, h => by
      rw [walk]
      split
      · exact ends_walk_run inv step steps queue seen t s h
      · rw [StateT.run_bind, ends_bind]
        exact (step id t s h).imp_good
          fun r s' hs => ends_walk_run inv step steps _ _ r.2 s' hs

end Carry

namespace Program

/-- `q` is the same graph as `p` in an order that lists at least the same nodes. -/
structure Reordered (p q : Program) : Prop extends SameGraph p q where
  plans : q.planOf = p.planOf
  marks : q.isMarked = p.isMarked
  flags : q.flagsOf = p.flagsOf
  order : ∀ x ∈ p.order.ids, x ∈ q.order.ids

variable {p q r : Program} {id : String}

theorem Reordered.refl (h : p.Linked) : Reordered p p := ⟨.refl h, rfl, rfl, rfl, fun _ hx => hx⟩

theorem Reordered.trans (h : Reordered p q) (h' : Reordered q r) : Reordered p r :=
  ⟨h.toSameGraph.trans h'.toSameGraph, h'.plans.trans h.plans, h'.marks.trans h.marks,
    h'.flags.trans h.flags, fun x hx => h'.order x (h.order x hx)⟩

theorem reordered_setOrder (h : p.Linked) {order : Order} (nodup : order.ids.Nodup)
    (mem : ∀ x ∈ order.ids, p.contains x = true) (more : ∀ x ∈ p.order.ids, x ∈ order.ids) :
    Reordered p (p.setOrder order) :=
  ⟨⟨kept_setOrder h nodup mem, rfl, rfl, rfl, rfl, rfl⟩, rfl, rfl, rfl, more⟩

end Program

namespace Order

variable {o : Order} {l : List String} {x : String}

theorem lookup_zipIdx (x : String) : ∀ (l : List String) (k : Nat),
    (l.zipIdx k).lookup x = if x ∈ l then some (k + l.idxOf x) else none
  | [], _ => rfl
  | a :: l, k => by
      rw [List.zipIdx_cons, List.lookup_cons, lookup_zipIdx x l (k + 1)]
      by_cases hx : x = a
      · simp [hx]
      · have hne : (x == a) = false := by simpa using hx
        have hne' : ¬ a = x := fun he => hx he.symm
        simp [hne, hx, hne', Nat.add_comm, Nat.add_left_comm]

theorem number?_number (o : Order) (x : String) :
    o.number.number? x = if x ∈ o.ids then some (o.ids.idxOf x) else none := by
  change (o.ids.zipIdx).lookup x = _
  rw [lookup_zipIdx, Nat.zero_add]

end Order

/-! ## Sorting by a key -/

section Sorting

variable {α β : Type} {f : α → Nat} {l : List α} {k n : Nat}

/-- The elements with a key below a bound, key by key, those of one key as they were. -/
def sortedBy (f : α → Nat) (n : Nat) (l : List α) : List α :=
  (List.range n).flatMap fun k => l.filter (f · = k)

theorem sortedBy_succ (f : α → Nat) (n : Nat) (l : List α) :
    sortedBy f (n + 1) l = sortedBy f n l ++ l.filter (f · = n) := by
  rw [sortedBy, sortedBy, List.range_succ, List.flatMap_append, List.flatMap_singleton]

theorem sortedBy_perm_filter (f : α → Nat) (l : List α) :
    ∀ n, (sortedBy f n l).Perm (l.filter (f · < n))
  | 0 => by simp [sortedBy]
  | n + 1 => by
      rw [sortedBy_succ]
      have hsplit := List.filter_append_perm (f · < n) (l.filter (f · < n + 1))
      rw [List.filter_filter, List.filter_filter] at hsplit
      refine (((sortedBy_perm_filter f l n).append_right _).trans ?_).trans hsplit
      refine .of_eq (congrArg₂ _ (List.filter_congr fun x _ => ?_) (List.filter_congr fun x _ => ?_))
      · rw [← Bool.decide_and, decide_eq_decide]
        omega
      · rw [← decide_not, ← Bool.decide_and, decide_eq_decide]
        omega

/-- **Sorting keeps every element.** -/
theorem sortedBy_perm (h : ∀ x ∈ l, f x < n) : (sortedBy f n l).Perm l := by
  have hperm := sortedBy_perm_filter f l n
  rwa [List.filter_eq_self.mpr fun x hx => decide_eq_true (h x hx)] at hperm

/-- **Sorted elements have growing keys.** -/
theorem pairwise_sortedBy (f : α → Nat) (l : List α) :
    ∀ n, (sortedBy f n l).Pairwise fun a b => f a ≤ f b
  | 0 => List.Pairwise.nil
  | n + 1 => by
      have hkey : ∀ a ∈ l.filter (f · = n), f a = n := fun a ha =>
        of_decide_eq_true (List.mem_filter.mp ha).2
      rw [sortedBy_succ, List.pairwise_append]
      refine ⟨pairwise_sortedBy f l n, List.pairwise_of_forall_mem_list fun a ha b hb => ?_,
        fun a ha b hb => ?_⟩
      · rw [hkey a ha, hkey b hb]
      · have hlt := (List.mem_filter.mp ((sortedBy_perm_filter f l n).mem_iff.mp ha)).2
        rw [hkey b hb]
        exact Nat.le_of_lt (of_decide_eq_true hlt)

theorem sortedBy_map (f : α → Nat) (g : β → α) (n : Nat) (l : List β) :
    sortedBy f n (l.map g) = (sortedBy (f ∘ g) n l).map g := by
  rw [sortedBy, sortedBy, List.map_flatMap]
  refine congrArg (List.flatMap · _) (funext fun k => ?_)
  rw [List.filter_map]
  rfl

end Sorting

/-! ## Levels -/

namespace Program

variable {p : Program} {id : String} {levels levels' : List (String × Nat)}

/-- A level raised above that of a dependency. -/
def raised (levels : List (String × Nat)) (id : String) (level : Nat) (d : String) :
    Except CompileError Nat :=
  match levels.lookup d with
  | some l => .ok (Nat.max level (l + 1))
  | none => .error (.invalidGraph (.notBefore d id))

/-- The level of a node is above those of its dependencies, and not higher than it has to be. -/
theorem foldlM_raised {deps : List String} : ∀ {start level : Nat},
    deps.foldlM (raised levels id) start = .ok level →
    start ≤ level ∧ (∀ d ∈ deps, ∃ l, levels.lookup d = some l ∧ l < level) ∧
      (level = start ∨ ∃ d ∈ deps, ∃ l, levels.lookup d = some l ∧ level = l + 1) := by
  induction deps with
  | nil =>
    intro start level h
    cases h
    exact ⟨Nat.le_refl _, fun d hd => absurd hd List.not_mem_nil, Or.inl rfl⟩
  | cons d deps ih =>
    intro start level h
    rw [List.foldlM_cons, raised] at h
    cases hd : levels.lookup d with
    | none =>
      rw [hd] at h
      cases h
    | some l =>
      rw [hd] at h
      obtain ⟨hle, hdeps, hleast⟩ := ih h
      have hstart := Nat.le_trans (Nat.le_max_left _ _) hle
      refine ⟨hstart, fun d' hd' => ?_, ?_⟩
      · rcases List.mem_cons.mp hd' with rfl | hd'
        · exact ⟨l, hd, Nat.le_trans (Nat.le_max_right _ _) hle⟩
        · exact hdeps d' hd'
      · rcases hleast with rfl | ⟨d', hd', l', hl', rfl⟩
        · rcases Nat.le_total start (l + 1) with hmax | hmax
          · exact Or.inr ⟨d, List.mem_cons_self, l, hd, Nat.max_eq_right hmax⟩
          · exact Or.inl (Nat.max_eq_left hmax)
        · exact Or.inr ⟨d', List.mem_cons_of_mem _ hd', l', hl', rfl⟩

theorem mem_of_lookup {d : String} {l : Nat} (h : levels.lookup d = some l) : (d, l) ∈ levels := by
  obtain ⟨l₁, l₂, rfl, -⟩ := List.lookup_eq_some_iff.mp h
  simp

theorem exists_lookup {d : String} (h : d ∈ levels.map (·.1)) : ∃ l, levels.lookup d = some l := by
  cases hd : levels.lookup d with
  | none =>
    obtain ⟨e, he, hed⟩ := List.mem_map.mp h
    have hne := List.lookup_eq_none_iff.mp hd e he
    rw [hed] at hne
    simp at hne
  | some l => exact ⟨l, rfl⟩

/-- Where every dependency has a level, there is one for the node. -/
theorem exists_foldlM_raised {deps : List String} (h : ∀ d ∈ deps, d ∈ levels.map (·.1))
    (start : Nat) : ∃ level, deps.foldlM (raised levels id) start = .ok level := by
  induction deps generalizing start with
  | nil => exact ⟨start, rfl⟩
  | cons d deps ih =>
    obtain ⟨l, hl⟩ := exists_lookup (h d List.mem_cons_self)
    rw [List.foldlM_cons, raised, hl]
    exact ih (fun d' hd' => h d' (List.mem_cons_of_mem _ hd')) _

theorem closes_of_raised {deps : List String} {e : CompileError} : ∀ {start : Nat},
    deps.foldlM (raised levels id) start = .error e → e.closes = false := by
  induction deps with
  | nil =>
    intro _ h
    cases h
  | cons d deps ih =>
    intro start h
    rw [List.foldlM_cons, raised] at h
    cases hd : levels.lookup d with
    | none =>
      rw [hd] at h
      cases h
      rfl
    | some l =>
      rw [hd] at h
      exact ih h

theorem addLevel_of_node? {n : Node} (hn : p.node? id = some n) : p.addLevel levels id
    = n.dependencies.foldlM (raised levels id) 0 >>= fun level => pure (levels ++ [(id, level)]) := by
  rw [addLevel, node, hn]
  rfl

theorem addLevel_eq_ok (h : p.addLevel levels id = .ok levels') :
    ∃ level, levels' = levels ++ [(id, level)] ∧
      (∀ d ∈ p.depsOf id, ∃ l, levels.lookup d = some l ∧ l < level) ∧
      (level = 0 ∨ ∃ d ∈ p.depsOf id, ∃ l, levels.lookup d = some l ∧ level = l + 1) := by
  cases hn : p.node? id with
  | none =>
    rw [addLevel, node, hn] at h
    cases h
  | some n =>
    rw [addLevel_of_node? hn] at h
    rw [depsOf_of_node? hn]
    cases hf : n.dependencies.foldlM (raised levels id) 0 with
    | error e =>
      rw [hf] at h
      cases h
    | ok level =>
      rw [hf] at h
      cases h
      obtain ⟨-, hdeps, hleast⟩ := foldlM_raised hf
      exact ⟨level, rfl, hdeps, hleast⟩

/-- Every id has a level above those of its dependencies, and there are no more levels than ids. -/
structure Leveled (p : Program) (levels : List (String × Nat)) : Prop where
  deps : ∀ u k, (u, k) ∈ levels → ∀ d ∈ p.depsOf u, ∃ l, (d, l) ∈ levels ∧ l < k
  bound : ∀ e ∈ levels, e.2 < levels.length

theorem foldlM_addLevel : ∀ {ids : List String} {levels levels' : List (String × Nat)},
    ids.foldlM p.addLevel levels = .ok levels' → p.Leveled levels →
      levels'.map (·.1) = levels.map (·.1) ++ ids ∧ p.Leveled levels'
  | [], levels, levels', h, hl => by
      cases h
      exact ⟨(List.append_nil _).symm, hl⟩
  | id :: ids, levels, levels', h, hl => by
      rw [List.foldlM_cons] at h
      cases ha : p.addLevel levels id with
      | error e =>
        rw [ha] at h
        cases h
      | ok next =>
        rw [ha] at h
        obtain ⟨level, rfl, hdeps, hleast⟩ := addLevel_eq_ok ha
        have hnext : p.Leveled (levels ++ [(id, level)]) := by
          refine ⟨fun u k hu d hd => ?_, fun e he => ?_⟩
          · rcases List.mem_append.mp hu with hu | hu
            · obtain ⟨l, hmem, hlt⟩ := hl.deps u k hu d hd
              exact ⟨l, List.mem_append_left _ hmem, hlt⟩
            · cases List.mem_singleton.mp hu
              obtain ⟨l, hlook, hlt⟩ := hdeps d hd
              exact ⟨l, List.mem_append_left _ (mem_of_lookup hlook), hlt⟩
          · rw [List.length_append, List.length_singleton]
            rcases List.mem_append.mp he with he | he
            · exact Nat.lt_succ_of_lt (hl.bound e he)
            · cases List.mem_singleton.mp he
              rcases hleast with rfl | ⟨d, -, l, hlook, rfl⟩
              · exact Nat.succ_pos _
              · exact Nat.succ_lt_succ (hl.bound _ (mem_of_lookup hlook))
        obtain ⟨hids, hlev⟩ := foldlM_addLevel h hnext
        exact ⟨by rw [hids]; simp, hlev⟩

/-- **Sorted by level, a node comes behind its dependencies.** -/
theorem byLevel_eq_ok {ids : List String} (h : p.byLevel = .ok ids) (hn : p.order.ids.Nodup) :
    ids.Perm p.order.ids ∧ ∀ u ∈ ids, ∀ d ∈ p.depsOf u, Before ids d u := by
  unfold byLevel at h
  cases hf : p.order.ids.foldlM p.addLevel [] with
  | error e =>
    rw [hf] at h
    cases h
  | ok levels =>
    rw [hf] at h
    cases h
    obtain ⟨hids, hlev⟩ := foldlM_addLevel hf
      ⟨fun _ _ hu => absurd hu List.not_mem_nil, fun _ he => absurd he List.not_mem_nil⟩
    rw [List.map_nil, List.nil_append] at hids
    have hperm := sortedBy_perm (f := Prod.snd) hlev.bound
    have hsorted := pairwise_sortedBy Prod.snd levels levels.length
    have hpids := hperm.map Prod.fst
    rw [hids] at hpids
    have hkeys := hpids.nodup_iff.mpr hn
    refine ⟨hpids, fun u hu d hd => ?_⟩
    obtain ⟨⟨u, k⟩, huk, rfl⟩ := List.mem_map.mp hu
    obtain ⟨l, hdl, hlt⟩ := hlev.deps u k (hperm.mem_iff.mp huk) d hd
    have hdl := hperm.mem_iff.mpr hdl
    have hne : d ≠ u := by
      rintro rfl
      have hkl := List.inj_on_of_nodup_map hkeys hdl huk rfl
      rw [(Prod.mk.inj hkl).2] at hlt
      exact Nat.lt_irrefl _ hlt
    refine (Before.total (List.mem_map_of_mem hdl) hu hne).resolve_right fun hb => ?_
    -- were it the other way round, its level would be at most that of its dependency
    obtain ⟨pairs, hsub, heq⟩ := List.sublist_map_iff.mp hb
    match pairs, heq with
    | [a, b], heq =>
      obtain ⟨ha, hb⟩ : u = a.1 ∧ d = b.1 := by simpa using heq
      have hpair := List.rel_of_pairwise_cons (hsorted.sublist hsub) (List.mem_singleton_self b)
      rw [← List.inj_on_of_nodup_map hkeys huk (hsub.subset List.mem_cons_self) ha,
        ← List.inj_on_of_nodup_map hkeys hdl (hsub.subset (by simp)) hb] at hpair
      exact Nat.not_lt.mpr hpair hlt

theorem closes_of_byLevel {e : CompileError} (h : p.byLevel = .error e) : e.closes = false := by
  have hfold : ∀ (ids : List String) (levels : List (String × Nat)),
      ids.foldlM p.addLevel levels = .error e → e.closes = false := by
    intro ids
    induction ids with
    | nil =>
      intro _ h
      cases h
    | cons id ids ih =>
      intro levels h
      rw [List.foldlM_cons] at h
      cases ha : p.addLevel levels id with
      | ok next =>
        rw [ha] at h
        exact ih next h
      | error e' =>
        rw [ha] at h
        cases h
        cases hn : p.node? id with
        | none =>
          rw [addLevel, node, hn] at ha
          cases ha
          rfl
        | some n =>
          rw [addLevel_of_node? hn] at ha
          cases hf : n.dependencies.foldlM (raised levels id) 0 with
          | ok level =>
            rw [hf] at ha
            cases ha
          | error e' =>
            rw [hf] at ha
            cases ha
            exact closes_of_raised hf
  unfold byLevel at h
  cases hf : p.order.ids.foldlM p.addLevel [] with
  | ok levels =>
    rw [hf] at h
    cases h
  | error e' =>
    rw [hf] at h
    cases h
    exact hfold _ _ hf

end Program

namespace Edit

open Program

variable {p : Program} {id : String}

/-- **Sorting by level** orders the same nodes. -/
theorem sortByLevel_effect (h : p.Linked) :
    Ends sortByLevel
      (fun _ q => Reordered p q ∧ ∀ u ∈ q.order.ids, ∀ d ∈ q.depsOf u, Before q.order.ids d u)
      (fun e _ => e.closes = false) p := by
  rw [sortByLevel, ends_bind, ends_get, ends_bind, ends_ofExcept]
  refine ⟨fun ids hids => ?_, fun e he => closes_of_byLevel he⟩
  obtain ⟨hperm, hbefore⟩ := byLevel_eq_ok hids h.order_nodup
  exact ⟨reordered_setOrder h (hperm.nodup_iff.mpr h.order_nodup)
    (fun x hx => h.order_contains x (hperm.mem_iff.mp hx)) fun x hx => hperm.mem_iff.mpr hx, hbefore⟩

theorem number_effect {bad : CompileError → Program → Prop} :
    Ends number (fun _ q => q = p.setOrder p.order.number) bad p := rfl

/-- One visit changes the order at most, and nothing if no user has a lesser number. -/
theorem moveUsersBehind_effect (h : p.Linked) (anchor : String) :
    Ends ((moveUsersBehind id).run anchor)
      (fun r q => Reordered p q ∧
        ((∀ u ∈ p.usersOf id, ∀ i j, p.order.number? u = some i → p.order.number? id = some j →
          ¬ i < j) → r.1 = [] ∧ q = p))
      (fun e _ => e.closes = false ∧ ¬ p.contains id = true) p := by
  rw [moveUsersBehind, StateT.run_bind, ends_bind, ends_run_liftM, ends_get, StateT.run_bind,
    ends_bind, ends_run_liftM, ends_node]
  refine ⟨fun n hn => ?_, fun hnone => ⟨rfl, node?_eq_none.mp hnone⟩⟩
  rw [StateT.run_bind, ends_bind]
  refine (ends_forIn_run (fun moved _ q => Reordered p q ∧
      ((∀ u ∈ p.usersOf id, ∀ i j, p.order.number? u = some i → p.order.number? id = some j →
        ¬ i < j) → moved = [] ∧ q = p)) n.users [] anchor p (fun user huser moved t q hq => ?_)
    ⟨.refl h, fun _ => ⟨rfl, rfl⟩⟩).imp_good fun r q hq => hq
  rw [← usersOf_of_node? hn] at huser
  dsimp only
  rw [StateT.run_bind, ends_bind, ends_run_liftM, ends_get]
  dsimp only
  split
  case h_1 i j hi hj =>
    split
    case isTrue hlt =>
      refine ⟨moved ++ [user], rfl, hq.1.trans (reordered_setOrder hq.1.kept.linked
        (Order.nodup_insertAfter hq.1.kept.linked.order_nodup) (fun x hx => ?_)
        fun x hx => Order.mem_insertAfter.mpr (Or.inl hx)), fun hplaced => ?_⟩
      · rcases Order.mem_insertAfter.mp hx with hx | ⟨rfl, -⟩
        · exact hq.1.kept.linked.order_contains x hx
        · rw [hq.1.contains]
          exact h.contains_user huser
      · rw [(hq.2 hplaced).2] at hi
        exact absurd hlt (hplaced user huser i j hi hj)
    case isFalse => exact ⟨moved, rfl, hq⟩
  case h_2 => exact ⟨moved, rfl, hq⟩

/-- **Moving users behind a node** is a matter of order, and none if they are there already. -/
theorem relocateUsersAfter_effect (h : p.Linked) :
    Ends (relocateUsersAfter id)
      (fun _ q => Reordered p q ∧
        ((∀ u ∈ p.usersOf id, Before p.order.ids id u) → q.order.ids = p.order.ids))
      (fun e _ => e.closes = false ∧ ((∀ u ∈ p.usersOf id, Before p.order.ids id u) →
        ¬ p.contains id = true)) p := by
  have hnumber : Reordered p (p.setOrder p.order.number) :=
    reordered_setOrder h h.order_nodup h.order_contains fun _ hx => hx
  rw [relocateUsersAfter, ends_bind]
  refine number_effect.imp_good fun _ q hq => ?_
  subst hq
  rw [ends_bind, ends_get, ends_bind]
  change Ends ((walk moveUsersBehind (1 + p.userCount) [id] []).run id) _ _ _
  have hkeep : ∀ x t q, Reordered p q →
      Ends ((moveUsersBehind x).run t) (fun _ r => Reordered p r) (fun e _ => e.closes = false) q :=
    fun x t q hq => (moveUsersBehind_effect hq.kept.linked t).imp
      (fun _ r hr => hq.trans hr.1) fun _ _ hb => hb.1
  rw [Nat.add_comm, walk, if_neg (by simp), StateT.run_bind, ends_bind]
  refine (moveUsersBehind_effect hnumber.kept.linked id).imp (fun r q hq => ?_)
    fun _ _ hb => ⟨hb.1, fun _ => hb.2⟩
  by_cases hplaced : ∀ u ∈ p.usersOf id, Before p.order.ids id u
  · -- the walk is over: no user was moved
    obtain ⟨hr, rfl⟩ := hq.2 fun u hu i j hi hj => by
      have hb := (hplaced u hu).idxOf_lt h.order_nodup
      change p.order.number.number? u = some i at hi
      change p.order.number.number? id = some j at hj
      rw [Order.number?_number, if_pos (hplaced u hu).mem_right] at hi
      rw [Order.number?_number, if_pos (hplaced u hu).mem_left] at hj
      cases hi
      cases hj
      exact Nat.not_lt.mpr (Nat.le_of_lt hb)
    have hend : walk moveUsersBehind p.userCount ([] ++ r.1) [id] = pure [id] := by
      rw [hr]
      cases p.userCount <;> rfl
    rw [hend]
    exact ⟨hnumber, fun _ => rfl⟩
  · exact (ends_walk_run (Reordered p) (fun x t q hq => hkeep x t q hq) _ _ _ _ q
      (hnumber.trans hq.1)).imp (fun _ _ hr => ⟨hr, fun hp => absurd hp hplaced⟩)
      fun _ _ hb => ⟨hb, fun hp => absurd hp hplaced⟩

end Edit

end NetPlan

import NetPlan.Proofs.Layout.Coherence
import NetPlan.Proofs.Pass.Evaluation

/-!
# Proofs/Pass/Propagation — constants become their values

The constants that are asked for are folded in processing order, and what is then read by nothing is
swept out against it, so that a node is looked at when all its readers are settled.
-/

namespace NetPlan.Pass

open Program Edit

variable {ev : Evaluator} {p m q r : Program} {folded : List String} {known : Known}
  {id j : String} {v : ConstantValue}

/-! ## Folding -/

theorem Folding.replaced (h : Folding ev p m q folded known) (hexp : p.Exposed id)
    (hnew : id ∉ folded) (hv : known.lookup id = some v)
    (hq : Replaced q r id (Primitive.literal id v.layout v.values) []) :
    Folding ev p m r (id :: folded) known where
  kept := h.kept.trans hq.kept
  core j hj := by
    rw [List.mem_cons, not_or] at hj
    rw [hq.core, if_neg hj.1, h.core j hj.2]
  deps j := by
    rw [hq.deps, h.deps]
    by_cases hj : j = id <;> simp [hj]
  aligned ha j := hq.args j (by
    split
    · rfl
    · exact h.aligned ha j)
  thinned := h.thinned.trans hq.thinned
  order := hq.order.trans h.order
  literal j hj := by
    rw [hq.core]
    by_cases hji : j = id
    · obtain ⟨n, -, hn⟩ := hq.exists_core
      subst hji
      exact ⟨hexp, v, n, hv, (h.core j hnew).symm.trans hn, by rw [if_pos rfl, hn, Option.map_some]⟩
    · rw [if_neg hji]
      exact h.literal j ((List.mem_cons.mp hj).resolve_left hji)
  known := h.known

theorem fold_values (hr : Ready ev p m) (h : Folding ev p m q folded known) (hexp : p.Exposed id)
    (hnew : id ∉ folded) :
    Ends ((fold ev id).run known)
      (fun r q' => (∃ v, p.HasValue ev id v) ∧ Folding ev p m q' (id :: folded) r.2 ∨
        ¬ ev.AcceptsAll ∧ (∀ v, ¬ p.HasValue ev id v) ∧ Folding ev p m q' folded r.2)
      (fun _ _ => ∀ v, ¬ p.HasValue ev id v) q := by
  have hdepth : p.order.ids.idxOf id < q.size + 1 := by
    have hlen : q.order.ids.length ≤ q.ids.length :=
      (List.subperm_of_subset h.linked.order_nodup fun x hx =>
        contains_iff_mem_ids.mp (h.linked.order_contains x hx)).length_le
    have hmem := List.idxOf_lt_length_of_mem ((hr.ordered.mem id).mpr hexp.1.contains)
    rw [← h.order] at hmem ⊢
    rw [ids, List.length_map] at hlen
    exact Nat.lt_succ_of_le (Nat.le_trans (Nat.le_of_lt hmem) hlen)
  rw [fold, StateT.run_bind, ends_bind, ends_run_liftM, ends_get, StateT.run_bind, ends_bind]
  refine (valueWithin_values hr _ id known h hexp.1 hdepth).imp_good fun r q' hq => ?_
  obtain ⟨hlearned, hout⟩ := hq
  rcases r with ⟨_ | v, known'⟩
  · exact Or.inr ⟨hout.2, hout.1, hlearned.folding⟩
  · dsimp only
    rw [StateT.run_bind, ends_bind, ends_run_liftM]
    refine (replace_effect hlearned.folding.linked false).imp (fun _ r hr' => Or.inl ⟨⟨v, ?_⟩, ?_⟩)
      fun _ _ hb => absurd rfl (hb.2.2 ?_)
    · exact (hlearned.folding.known id v hout).1
    · exact hlearned.folding.replaced hexp hnew hout hr'
    · rw [hlearned.folding.contains hr]
      exact hexp.1.contains

/-- **Folding** makes literals of the nodes that have a value. -/
theorem foldAll_values (hr : Ready ev p m) : ∀ (ids : List String) (folded : List String)
    (known : Known) {q : Program}, Folding ev p m q folded known →
    (∀ id ∈ ids, p.Exposed id ∧ id ∉ folded) → ids.Nodup →
    Ends ((foldAll ev ids).run known)
      (fun r q' => ∃ folded', Folding ev p m q' folded' r.2 ∧
        (∀ j, j ∈ folded' ↔ j ∈ folded ∨ j ∈ ids ∧ ∃ v, p.HasValue ev j v) ∧
        (ev.AcceptsAll → ∀ j ∈ ids, ∃ v, p.HasValue ev j v))
      (fun _ _ => ∃ id ∈ ids, ∀ v, ¬ p.HasValue ev id v) q
  | [], folded, known, q, h, _, _ =>
      ⟨folded, h, fun j => by simp, fun _ _ hj => absurd hj List.not_mem_nil⟩
  | id :: ids, folded, known, q, h, hids, hnodup => by
      obtain ⟨hexp, hnew⟩ := hids id List.mem_cons_self
      obtain ⟨hid, hnodup⟩ := List.nodup_cons.mp hnodup
      rw [foldAll, StateT.run_bind, ends_bind]
      refine (fold_values hr h hexp hnew).imp (fun r q' hq => ?_)
        fun _ _ hb => ⟨id, List.mem_cons_self, hb⟩
      rw [StateT.run_bind, ends_bind]
      obtain ⟨hv, hfold⟩ | ⟨hdeclined, hnone, hfold⟩ := hq
      · refine (foldAll_values hr ids (id :: folded) r.2 hfold (fun j hj => ?_) hnodup).imp
          (fun r' q'' hq => ?_) fun _ _ hb => hb.imp fun _ => And.imp_left (List.mem_cons_of_mem _)
        · refine ⟨(hids j (List.mem_cons_of_mem _ hj)).1, ?_⟩
          rw [List.mem_cons, not_or]
          exact ⟨fun he => hid (he ▸ hj), (hids j (List.mem_cons_of_mem _ hj)).2⟩
        · obtain ⟨folded', hfold', hmem, hall⟩ := hq
          refine ⟨folded', hfold', fun j => ?_, fun hacc j hj => ?_⟩
          · rw [hmem, List.mem_cons, List.mem_cons]
            by_cases hj : j = id
            · simp [hj, hv]
            · simp [hj]
          · rcases List.mem_cons.mp hj with rfl | hj
            · exact hv
            · exact hall hacc j hj
      · refine (foldAll_values hr ids folded r.2 hfold (fun j hj =>
          hids j (List.mem_cons_of_mem _ hj)) hnodup).imp (fun r' q'' hq => ?_)
          fun _ _ hb => hb.imp fun _ => And.imp_left (List.mem_cons_of_mem _)
        obtain ⟨folded', hfold', hmem, hall⟩ := hq
        refine ⟨folded', hfold', fun j => ?_, fun hacc => absurd hacc hdeclined⟩
        rw [hmem, List.mem_cons]
        by_cases hj : j = id
        · subst hj
          simp [hid, hnone]
        · simp [hj]

/-- The nodes that are looked for are the exposed ones. -/
theorem isFoldable_iff (hr : Ready ev p m) {n : Node} (hn : m.node? id = some n) :
    isFoldable m n = true ↔ p.Exposed id := by
  have hc := hr.touched.contains ▸ contains_of_node? hn
  obtain ⟨k, hk⟩ := contains_iff.mp hc
  obtain ⟨constant, frontier, hm, hconstant, -⟩ := hr.marked id k hk
  rw [hn] at hm
  cases hm
  have hvariable : ∀ u ∈ k.users, m.isVariable u = true ↔ ¬ p.Constant u := by
    intro u hu
    obtain ⟨w, hw⟩ := contains_iff.mp (hr.linked.contains_user (usersOf_of_node? hk ▸ hu))
    obtain ⟨constant, frontier, hm, hconstant, -⟩ := hr.marked u w hw
    rw [isVariable, hm, Bool.not_eq_true', ← hconstant, Bool.not_eq_true]
  rw [isFoldable, Bool.and_eq_true, Bool.and_eq_true, Bool.or_eq_true, hconstant, Node.isLiteral,
    Bool.not_eq_true', decide_eq_false_iff_not, List.any_eq_true, Exposed, and_assoc]
  refine and_congr_right fun _ => ⟨fun h => ⟨k, hk, h.1, h.2.imp_right ?_⟩, ?_⟩
  · rintro ⟨u, hu, hvar⟩
    exact ⟨u, hu, (hvariable u hu).mp hvar⟩
  · rintro ⟨k', hk', hkind, hread⟩
    rw [hk] at hk'
    cases hk'
    refine ⟨hkind, hread.imp_right ?_⟩
    rintro ⟨u, hu, hvar⟩
    exact ⟨u, hu, (hvariable u hu).mpr hvar⟩

/-! ## Sweeping -/

/-- The nodes of `gone` were swept out of `q`, and those of `done` were looked at. -/
structure Swept (q r : Program) (done gone : List String) : Prop extends Cleared q r gone where
  idle : ∀ j ∈ gone, q.isConstant j = true ∧ q.isMarked j = false
  closed : ∀ u, u ∉ gone → ∀ d ∈ q.depsOf u, d ∉ gone
  read : ∀ j ∈ done, j ∉ gone → q.isConstant j = true →
    q.isMarked j = true ∨ ∃ u, u ∉ gone ∧ j ∈ q.depsOf u

theorem isConstant_eq_coreOf (p : Program) (id : String) :
    p.isConstant id = ((p.coreOf id).map (·.isConstant)).getD false := by
  rw [isConstant, coreOf]
  cases p.node? id <;> rfl

/-- A node that nothing reads is swept out. -/
theorem Swept.remove {done gone : List String} {s : Program} (h : Swept q r done gone)
    (ho : q.Ordered) {rest : List String} (hsplit : q.order.ids.reverse = done ++ id :: rest)
    (hconst : q.isConstant id = true) (hmark : q.isMarked id = false)
    (husers : r.usersOf id = []) (hs : Removed r s id) :
    Swept q s (done ++ [id]) (gone ++ [id]) := by
  have hunread : ∀ u, u ∉ gone → id ∉ q.depsOf u := fun u hu hd => by
    have hread : id ∈ r.depsOf u := by rwa [h.deps_of_closed h.closed, if_neg hu]
    exact h.kept.linked.usersOf_eq_nil_iff.mp husers u hread
  refine ⟨h.toCleared.removed hs, fun j hj => ?_, fun u hu d hd => ?_, fun j hj hg hc => ?_⟩
  · rcases List.mem_append.mp hj with hj | hj
    · exact h.idle j hj
    · rw [List.mem_singleton.mp hj]
      exact ⟨hconst, hmark⟩
  · rw [List.mem_append, not_or] at hu ⊢
    refine ⟨h.closed u hu.1 d hd, fun he => hunread u hu.1 ?_⟩
    rwa [← List.mem_singleton.mp he]
  · rw [List.mem_append, not_or] at hg
    have hj : j ∈ done := (List.mem_append.mp hj).resolve_right hg.2
    refine (h.read j hj hg.1 hc).imp_right fun ⟨u, hu, hd⟩ => ⟨u, ?_, hd⟩
    rw [List.mem_append, not_or, List.mem_singleton]
    refine ⟨hu, fun he => ?_⟩
    -- what was looked at before comes later in the order, so it is not read from here
    have hbefore : Before q.order.ids id j := by
      have hrev := congrArg List.reverse hsplit
      rw [List.reverse_reverse, List.reverse_append] at hrev
      rw [hrev, before_iff_append]
      exact ⟨_, _, rfl, by simp, by simpa using hj⟩
    exact (ho.before u j hd).asymm ho.nodup (he ▸ hbefore)

theorem sweep_swept (ho : q.Ordered) : ∀ (ids done gone : List String) {r : Program},
    q.order.ids.reverse = done ++ ids → Swept q r done gone →
    Ends (sweep ids) (fun _ s => ∃ gone, Swept q s q.order.ids.reverse gone)
      (fun _ _ => False) r
  | [], done, gone, r, hsplit, h => by
      rw [List.append_nil] at hsplit
      exact ⟨gone, hsplit ▸ h⟩
  | id :: ids, done, gone, r, hsplit, h => by
      have hrest : ∀ (here : Nat) (gone : List String) (s : Program),
          Swept q s (done ++ [id]) gone → Ends (do
            let further ← sweep ids
            return here + further) (fun _ s => ∃ gone, Swept q s q.order.ids.reverse gone)
            (fun _ _ => False) s := by
        intro here gone s hs
        rw [ends_bind]
        exact (sweep_swept ho ids (done ++ [id]) gone (by simp [hsplit]) hs).imp_good
          fun _ _ hr => hr
      have hstay : (id ∉ gone → q.isConstant id = true →
          q.isMarked id = true ∨ ∃ u, u ∉ gone ∧ id ∈ q.depsOf u) →
          Swept q r (done ++ [id]) gone := fun hid =>
        { h with
          read := fun j hj hg hc => by
            rcases List.mem_append.mp hj with hj | hj
            · exact h.read j hj hg hc
            · rw [List.mem_singleton.mp hj] at hg hc ⊢
              exact hid hg hc }
      have hview : id ∉ gone → q.coreOf id = r.coreOf id := fun hg => by rw [h.core, if_neg hg]
      rw [sweep, ends_bind, ends_get]
      dsimp only
      split
      case h_1 n hn =>
        have hg : id ∉ gone := ((h.contains_iff id).mp (contains_of_node? hn)).1
        have hconst : q.isConstant id = n.isConstant := by
          rw [isConstant_eq_coreOf, hview hg, ← isConstant_eq_coreOf, isConstant, hn]
        have hmark : q.isMarked id = n.isOutput := by
          rw [isMarked_eq_coreOf, hview hg, ← isMarked_eq_coreOf, isMarked_of_node? hn]
        split
        case isTrue hdead =>
          rw [Bool.and_eq_true, Bool.and_eq_true, List.isEmpty_iff, Bool.not_eq_true'] at hdead
          rw [ends_bind]
          refine (remove_effect h.kept.linked).imp (fun _ s hs => ?_) fun _ _ hb => ?_
          · refine hrest 1 (gone ++ [id]) s (h.remove ho hsplit ?_ ?_ ?_ hs)
            · rw [hconst, hdead.1.1]
            · rw [hmark, hdead.2]
            · rw [usersOf_of_node? hn, hdead.1.2]
          · rw [hn] at hb
            cases hb.2.1
        case isFalse hlive =>
          refine hrest 0 gone r (hstay fun _ hc => ?_)
          by_cases hout : n.isOutput = true
          · exact Or.inl (hmark.trans hout)
          · rw [hconst] at hc
            have husers : n.users ≠ [] := fun hnil => hlive (by simp [hc, hnil, hout])
            obtain ⟨u, hu⟩ := List.exists_mem_of_ne_nil _ husers
            rw [← usersOf_of_node? hn, ← h.kept.linked.edges, h.deps_of_closed h.closed] at hu
            split at hu
            · cases hu
            case isFalse hug => exact Or.inr ⟨u, hug, hu⟩
      case h_2 hn =>
        refine hrest 0 gone r (hstay fun hg hc => ?_)
        rw [isConstant_eq_coreOf, hview hg, coreOf, hn] at hc
        cases hc

/-! ## The pass -/

/-- `q` is `p` with the values of its constants. -/
structure Propagated (ev : Evaluator) (p q : Program) : Prop where
  /-- An exposed constant with a value is a literal with just that value. -/
  folded : ∀ id v, p.Exposed id → p.HasValue ev id v →
    q.taskOf id = some ⟨Padding.none, .data v.layout v.values, Activation.none⟩ ∧ q.depsOf id = []
  /-- Every other node that is left does what it did and reads what it read. -/
  unfolded : ∀ id, q.contains id = true → (p.Exposed id → ∀ v, ¬ p.HasValue ev id v) →
    q.taskOf id = p.taskOf id ∧ q.depsOf id = p.depsOf id
  aligned : p.Aligned → q.Aligned
  /-- No node is new, and every node that is not constant or is exposed is left. -/
  old : ∀ id, q.contains id = true → p.contains id = true
  left : ∀ id, p.contains id = true → ¬ p.Constant id ∨ p.Exposed id → q.contains id = true
  marks : q.isMarked = p.isMarked
  /-- Of the users of a node there are left those that read it, as they stood. -/
  users : ∀ id, q.usersOf id = (p.usersOf id).filter fun u => id ∈ q.depsOf u
  order : q.order.ids = p.order.ids.filter fun id => q.contains id
  layouts : ∀ id, q.contains id = true → q.freshLayout id = p.freshLayout id
  constant : ∀ id, q.Constant id ↔ q.contains id = true ∧ p.Constant id
  /-- If nothing is declined, the constants that are left are literals that are needed. -/
  clean : p.Aligned → ev.AcceptsAll → ∀ id, q.Constant id →
    (∃ n, q.node? id = some n ∧ n.kind = .data) ∧
      (q.isMarked id = true ∨ ∃ u ∈ q.usersOf id, ¬ q.Constant u)

section Assembly

variable {gone : List String} (hr : Ready ev p m) (h : Folding ev p m q folded known)
  (hfolded : ∀ j, j ∈ folded ↔ p.Exposed j ∧ ∃ v, p.HasValue ev j v)
  (hs : Swept q r q.order.ids.reverse gone)
include hr h

/-- Folding keeps the marks. -/
theorem Folding.marks (j : String) : (q.isConstant j = true ↔ p.Constant j) ∧
    q.isMarked j = p.isMarked j := by
  have hsame : q.isConstant j = m.isConstant j ∧ q.isMarked j = m.isMarked j := by
    rw [isConstant_eq_coreOf, isMarked_eq_coreOf, isConstant_eq_coreOf, isMarked_eq_coreOf]
    by_cases hj : j ∈ folded
    · obtain ⟨-, v, n, -, hm, hq⟩ := h.literal j hj
      rw [hm, hq]
      exact ⟨rfl, rfl⟩
    · rw [h.core j hj]
      exact ⟨rfl, rfl⟩
  rw [hsame.1, hsame.2, hr.touched.marks]
  refine ⟨?_, rfl⟩
  cases hn : p.node? j with
  | none =>
    have hnone : ¬ p.contains j = true := node?_eq_none.mp hn
    rw [isConstant, node?_eq_none.mpr (hr.touched.contains ▸ hnone)]
    exact ⟨fun hc => absurd hc Bool.false_ne_true, fun hc => absurd hc.contains hnone⟩
  | some n =>
    obtain ⟨constant, frontier, hm, hconstant, -⟩ := hr.marked j n hn
    rw [isConstant, hm]
    exact hconstant

include hs

theorem Folding.left_iff (j : String) :
    r.contains j = true ↔ j ∉ gone ∧ p.contains j = true := by
  rw [hs.contains_iff, h.contains hr]

/-- What is left is a literal if it was folded, and what it was if not. -/
theorem Folding.view_left {k : Node} (hk : r.node? j = some k) :
    if j ∈ folded then k.kind = .data
    else ∃ n, p.node? j = some n ∧ k.kind = n.kind ∧ k.dependencies = n.dependencies := by
  obtain ⟨hg, hc⟩ := (h.left_iff hr hs j).mp (contains_of_node? hk)
  have hcore : r.coreOf j = q.coreOf j := by rw [hs.core, if_neg hg]
  split
  case isTrue hf =>
    obtain ⟨-, v, c, -, -, hq⟩ := h.literal j hf
    rw [hq, coreOf_of_node? hk] at hcore
    rw [← k.core_kind, Option.some.inj hcore]
    rfl
  case isFalse hf =>
    obtain ⟨n, hn⟩ := contains_iff.mp hc
    refine ⟨n, hn, ?_, ?_⟩
    · have htask : r.taskOf j = p.taskOf j := by
        rw [taskOf_eq_coreOf, hcore, ← taskOf_eq_coreOf, h.tasks hr hf]
      rw [taskOf_of_node? hk, taskOf_of_node? hn] at htask
      have hop := congrArg (fun t : Task => t.operation.kind) (Option.some.inj htask)
      exact (Operation.kind_shape _).symm.trans (hop.trans (Operation.kind_shape _))
    · rw [← depsOf_of_node? hk, hs.deps_of_closed hs.closed, if_neg hg, h.deps, if_neg hf,
        depsOf_of_node? hn]

include hfolded

/-- What is exposed or not constant is not swept out. -/
theorem Folding.not_gone (hj : ¬ p.Constant j ∨ p.Exposed j) : j ∉ gone := by
  intro hg
  obtain ⟨hconst, hmark⟩ := hs.idle j hg
  rw [(h.marks hr j).1] at hconst
  rw [(h.marks hr j).2] at hmark
  obtain ⟨-, n, hn, -, hout | ⟨u, hu, hvar⟩⟩ := hj.resolve_left (not_not_intro hconst)
  · rw [isMarked_of_node? hn, hout] at hmark
    cases hmark
  · have hug : u ∉ gone := fun hug => hvar (((h.marks hr u).1).mp (hs.idle u hug).1)
    refine hs.closed u hug j ?_ hg
    rw [h.deps, if_neg fun huf => hvar ((hfolded u).mp huf).1.1, hr.linked.edges,
      usersOf_of_node? hn]
    exact hu

theorem Folding.constant_left_iff (j : String) :
    r.Constant j ↔ r.contains j = true ∧ p.Constant j := by
  have hview : ∀ {j k}, r.node? j = some k → j ∉ folded → ∃ n, p.node? j = some n ∧
      k.kind = n.kind ∧ k.dependencies = n.dependencies := fun hk hf => by
    have hleft := h.view_left hr hs hk
    rwa [if_neg hf] at hleft
  have hliteral : ∀ {j k}, r.node? j = some k → j ∈ folded → k.kind = .data := fun hk hf => by
    have hleft := h.view_left hr hs hk
    rwa [if_pos hf] at hleft
  constructor
  · intro hc
    refine ⟨hc.contains, ?_⟩
    induction hc with
    | @literal j k there kind =>
      by_cases hf : j ∈ folded
      · exact ((hfolded j).mp hf).1.1
      · obtain ⟨n, hn, hkind, -⟩ := hview there hf
        exact .literal hn (hkind ▸ kind)
    | @computed j k there kind reads _ ih =>
      by_cases hf : j ∈ folded
      · exact ((hfolded j).mp hf).1.1
      · obtain ⟨n, hn, hkind, hdeps⟩ := hview there hf
        exact .computed hn (hkind ▸ kind) (hdeps ▸ reads) fun d hd => ih d (hdeps ▸ hd)
  · rintro ⟨hthere, hc⟩
    induction hc with
    | @literal j n hn kind =>
      obtain ⟨k, hk⟩ := contains_iff.mp hthere
      by_cases hf : j ∈ folded
      · exact .literal hk (hliteral hk hf)
      · obtain ⟨n', hn', hkind, -⟩ := hview hk hf
        cases hn.symm.trans hn'
        exact .literal hk (hkind.trans kind)
    | @computed j n hn kind reads _ ih =>
      obtain ⟨k, hk⟩ := contains_iff.mp hthere
      by_cases hf : j ∈ folded
      · exact .literal hk (hliteral hk hf)
      · obtain ⟨n', hn', hkind, hdeps⟩ := hview hk hf
        cases hn.symm.trans hn'
        refine .computed hk (hkind ▸ kind) (hdeps ▸ reads) fun d hd => ih d (hdeps ▸ hd) ?_
        exact hs.kept.linked.contains_dep (depsOf_of_node? hk ▸ hd)

/-- **What is left of the constants is needed**, if all that are exposed have a value. -/
theorem Folding.clean (ho : p.Ordered) (ha : p.Aligned)
    (hall : ∀ j, p.Exposed j → j ∈ folded) (hj : r.Constant j) :
    (∃ n, r.node? j = some n ∧ n.kind = .data) ∧
      (r.isMarked j = true ∨ ∃ u ∈ r.usersOf j, ¬ r.Constant u) := by
  have hconst := fun j => h.constant_left_iff hr hfolded hs j
  have hmarks : r.isMarked = p.isMarked :=
    (hs.marks fun j hj => (hs.idle j hj).2).trans (funext fun j => (h.marks hr j).2)
  -- a node that is needed is exposed, or was a literal from the start
  have hexposed : ∀ {j n}, p.node? j = some n → r.Constant j →
      (r.isMarked j = true ∨ ∃ u ∈ r.usersOf j, ¬ r.Constant u) → n.kind ≠ .data →
      p.Exposed j := by
    intro j n hn hc hneeded hk
    refine ⟨((hconst j).mp hc).2, n, hn, hk, ?_⟩
    rw [hmarks, isMarked_of_node? hn] at hneeded
    refine hneeded.imp_right fun ⟨u, hu, hvar⟩ => ⟨u, ?_, fun hcu => hvar ?_⟩
    · rw [← usersOf_of_node? hn]
      exact (h.thinned.trans hs.thinned j List.not_mem_nil).subset hu
    · exact (hconst u).mpr ⟨hs.kept.linked.contains_user hu, hcu⟩
  have hneeded : r.isMarked j = true ∨ ∃ u ∈ r.usersOf j, ¬ r.Constant u := by
    induction j using ho.induction_users with
    | step j ih =>
      obtain ⟨hthere, hc⟩ := (hconst j).mp hj
      obtain ⟨hg, hcp⟩ := (h.left_iff hr hs j).mp hthere
      have hmem : j ∈ q.order.ids.reverse := by
        rw [List.mem_reverse, h.order, ho.mem]
        exact hcp
      rw [hmarks, ← (h.marks hr j).2]
      refine (hs.read j hmem hg ((h.marks hr j).1.mpr hc)).imp_right ?_
      rintro ⟨u, hug, hd⟩
      have hread : j ∈ r.depsOf u := by rwa [hs.deps_of_closed hs.closed, if_neg hug]
      refine ⟨u, (hs.kept.linked.edges j u).mp hread, fun hcu => ?_⟩
      -- a constant reader would be needed itself, so it would be a literal, which reads nothing
      rw [h.deps] at hd
      split at hd
      · cases hd
      case isFalse huf =>
        obtain ⟨n, hn⟩ := contains_iff.mp (contains_of_mem_depsOf hd)
        refine huf (hall u (hexposed hn hcu (ih u hd hcu) fun hk => ?_))
        rw [← ha, argsOf_of_node? hn] at hd
        cases hop : n.operation with
        | data l v =>
          rw [hop] at hd
          cases hd
        | _ =>
          rw [Node.kind, hop] at hk
          cases hk
  refine ⟨?_, hneeded⟩
  obtain ⟨k, hk⟩ := contains_iff.mp hj.contains
  refine ⟨k, hk, by_contra fun hkind => ?_⟩
  have hleft := h.view_left hr hs hk
  split at hleft
  · exact hkind hleft
  case isFalse hf =>
    obtain ⟨n, hn, hsame, -⟩ := hleft
    exact hf (hall j (hexposed hn hj hneeded (hsame ▸ hkind)))

theorem Folding.propagated (ho : p.Ordered)
    (hall : ev.AcceptsAll → ∀ j, p.Exposed j → ∃ v, p.HasValue ev j v) : Propagated ev p r := by
  have hleft := h.left_iff hr hs
  have hgone : ∀ j, ¬ p.Constant j ∨ p.Exposed j → j ∉ gone := fun _ =>
    h.not_gone hr hfolded hs
  have hthinned := h.thinned.trans hs.thinned
  have hdeps : ∀ j, r.depsOf j = if j ∈ gone then [] else q.depsOf j :=
    hs.deps_of_closed hs.closed
  have htasks : ∀ j, j ∉ gone → r.taskOf j = q.taskOf j := fun j hj => by
    rw [taskOf_eq_coreOf, hs.core, if_neg hj, ← taskOf_eq_coreOf]
  exact
    { folded := fun id v hexp hv => by
        have hg := hgone id (Or.inr hexp)
        have hf := (hfolded id).mpr ⟨hexp, v, hv⟩
        obtain ⟨-, w, n, hw, -, hq⟩ := h.literal id hf
        cases hv.unique (h.known id w hw).1
        rw [htasks id hg, hdeps, if_neg hg, h.deps, if_pos hf, taskOf_eq_coreOf, hq]
        exact ⟨rfl, rfl⟩
      unfolded := fun id hid hnone => by
        obtain ⟨hg, -⟩ := (hleft id).mp hid
        have hf : id ∉ folded := fun hf => by
          obtain ⟨hexp, v, hv⟩ := (hfolded id).mp hf
          exact hnone hexp v hv
        rw [htasks id hg, h.tasks hr hf, hdeps, if_neg hg, h.deps, if_neg hf]
        exact ⟨rfl, rfl⟩
      aligned := fun ha => hs.aligned hs.closed (h.aligned ha)
      old := fun id hid => ((hleft id).mp hid).2
      left := fun id hid hneeded => (hleft id).mpr ⟨hgone id hneeded, hid⟩
      marks := (hs.marks fun j hj => (hs.idle j hj).2).trans (funext fun j => (h.marks hr j).2)
      users := fun id => hthinned.users hr.linked hs.kept.linked List.not_mem_nil
      order := by
        rw [hs.order, h.order]
        refine List.filter_congr fun id hid => Bool.eq_iff_iff.mpr ?_
        rw [hleft, decide_eq_true_eq]
        exact (and_iff_left ((ho.mem id).mp hid)).symm
      layouts := fun id hid => by
        rw [← h.freshLayout hr]
        refine freshLayout_frame (· ∉ gone) hs.kept.behaviours hs.closed (fun i hi => ?_)
          (fun i hi => by rw [hdeps, if_neg hi]) ((hleft id).mp hid).1
        rw [outlineOf_eq_taskOf, htasks i hi, outlineOf_eq_taskOf]
      constant := h.constant_left_iff hr hfolded hs
      clean := fun ha hacc _ hj => h.clean hr hfolded hs ho ha
        (fun j hexp => (hfolded j).mpr ⟨hexp, hall hacc j hexp⟩) hj }

end Assembly

theorem Folding.ordered (h : Folding ev p m q folded known) (hr : Ready ev p m) : q.Ordered where
  nodup := h.linked.order_nodup
  mem x := by rw [h.order, h.contains hr, hr.ordered.mem]
  before u d hd := by
    rw [h.deps] at hd
    split at hd
    · cases hd
    · rw [h.order]
      exact hr.ordered.before u d hd

/-- **Propagation computes the right values.**  It fails only if a node it has to fold has none. -/
theorem propagateConstants_propagated (env : Environment) {c : Compilation}
    (hev : env.evaluator = some ev) (hl : c.program.Linked) (ho : c.program.Ordered)
    (hc : c.program.Coherent) (hlegible : c.program.Aligned ∨ ev.SlotFree) :
    Ends (propagateConstants env) (fun _ c' => Propagated ev c.program c'.program)
      (fun _ _ => ∃ id, c.program.Exposed id ∧ ∀ v, ¬ c.program.HasValue ev id v) c := by
  rw [propagateConstants, hev]
  dsimp only
  rw [Transform.ends_liftM, foldConstants, ends_bind]
  refine ((markConstants_effect hl).and (markConstants_marked hl ho)).imp (fun _ m hm => ?_)
    fun _ _ hb => hb.2.elim
  obtain ⟨htouched, hmarked⟩ := hm
  have hr : Ready ev c.program m := ⟨hl, ho, hc, hlegible, htouched, hmarked⟩
  generalize c.program = p at *
  rw [ends_bind, ends_get]
  dsimp only
  rw [ends_bind]
  generalize hids : m.order.ids.filter _ = ids
  have htargets : ∀ id, id ∈ ids ↔ p.Exposed id := by
    intro id
    rw [← hids, List.mem_filter, htouched.order, ho.mem]
    constructor
    · rintro ⟨hmem, hfold⟩
      split at hfold
      case h_1 n hn => exact (isFoldable_iff hr hn).mp hfold
      case h_2 => cases hfold
    · intro hexp
      obtain ⟨n, hn⟩ := contains_iff.mp (htouched.contains.symm ▸ hexp.1.contains)
      refine ⟨hexp.1.contains, ?_⟩
      rw [hn]
      exact (isFoldable_iff hr hn).mpr hexp
  refine (foldAll_values hr _ [] [] hr.folding
    (fun id hid => ⟨(htargets id).mp hid, List.not_mem_nil⟩)
    (hids ▸ htouched.kept.linked.order_nodup.filter _)).imp (fun known q hq => ?_)
    fun _ _ hb => hb.imp fun id => And.imp_left (htargets id).mp
  obtain ⟨folded, h, hmem, hall⟩ := hq
  have hfolded : ∀ j, j ∈ folded ↔ p.Exposed j ∧ ∃ v, p.HasValue ev j v := fun j => by
    rw [hmem, htargets]
    simp
  rw [ends_bind, ends_get, ends_bind]
  refine (sweep_swept (h.ordered hr) _ [] [] rfl ?_).imp (fun _ r hs => ?_)
    fun _ _ hb => hb.elim
  · exact ⟨.refl h.linked, fun _ hj => absurd hj List.not_mem_nil,
      fun _ _ _ _ => List.not_mem_nil, fun _ hj => absurd hj List.not_mem_nil⟩
  obtain ⟨gone, hs⟩ := hs
  exact h.propagated hr hfolded hs ho fun hacc j hexp => hall hacc j ((htargets j).mpr hexp)

end NetPlan.Pass

namespace NetPlan

open Program

/-- **Constants become their values.**  If the pass succeeds, every constant that is asked for is a
literal with the value it has in the program before the pass, or is left as it was if it has none. -/
theorem propagateConstants_values (env : Environment) (ev : Evaluator) (c c' : Compilation)
    (stats : PassStats) (hev : env.evaluator = some ev) (hw : c.program.WellFormed)
    (ho : c.program.isOrdered = true) (ha : c.program.Aligned) (hc : c.program.Coherent)
    (hrun : (Pass.propagateConstants env).run.run c = (.ok stats, c')) :
    Pass.Propagated ev c.program c'.program := by
  have hends := Pass.propagateConstants_propagated env hev hw.toLinked
    ((isOrdered_iff hw.toLinked).mp ho) hc (Or.inl ha)
  rw [Ends, hrun] at hends
  exact hends

/-- A literal, its absolute value, and the absolute value of that. -/
def Topology.absolutes : Topology :=
  ⟨[⟨"d", Padding.none, .data (.dense .f32 .bfyx ⟨1, 1, 1, 1⟩) (.f32 #[Single.one])⟩,
    ⟨"a", Padding.none, .activation ⟨"d", ⟨.abs, ⟨0⟩, ⟨0⟩⟩, none⟩⟩,
    ⟨"b", Padding.none, .activation ⟨"a", ⟨.abs, ⟨0⟩, ⟨0⟩⟩, none⟩⟩]⟩

/-- Both absolute values are asked for. -/
def Compilation.absolutes : Compilation := .exposing .absolutes ["a", "b"]

theorem Compilation.absolutes_spec : absolutes.program.WellFormed ∧ absolutes.program.Coherent :=
  exposing_spec (by unfold Topology.Distinct; decide) _

theorem exposed_absolutes : Compilation.absolutes.program.Exposed "a" := by
  have hl := Compilation.absolutes_spec.1.toLinked
  have ho : Compilation.absolutes.program.Ordered := (isOrdered_iff hl).mp (by decide +kernel)
  refine ⟨(Edit.constant_iff_isConstant hl ho "a").mpr (by decide +kernel), ?_⟩
  exact ⟨_, rfl, by decide +kernel, Or.inl (by decide +kernel)⟩

/-- The first of two absolute values becomes the literal it has to be. -/
theorem propagateConstants_absolutes : ∃ stats c' v,
    (Pass.propagateConstants ⟨.builtin .default, some .reference, false⟩).run.run .absolutes
      = (.ok stats, c') ∧ Compilation.absolutes.program.Exposed "a" ∧
    Compilation.absolutes.program.HasValue .reference "a" v ∧
    c'.program.taskOf "a" = some ⟨Padding.none, .data v.layout v.values, Activation.none⟩ ∧
    c'.program.order.ids = ["a", "b"] := by
  obtain ⟨stats, hrun⟩ := exists_run_eq_ok
    (x := Pass.propagateConstants ⟨.builtin .default, some .reference, false⟩)
    (s := .absolutes) (by decide +kernel)
  have hp := propagateConstants_values _ .reference _ _ stats rfl Compilation.absolutes_spec.1
    (by decide +kernel) (aligned_of_nodes (by decide +kernel)) Compilation.absolutes_spec.2 hrun
  have hleft : ((Pass.propagateConstants ⟨.builtin .default, some .reference, false⟩).run.run
      .absolutes).2.program.order.ids = ["a", "b"] ∧
      ((Pass.propagateConstants ⟨.builtin .default, some .reference, false⟩).run.run
      .absolutes).2.program.contains "a" = true ∧
      ((Pass.propagateConstants ⟨.builtin .default, some .reference, false⟩).run.run
      .absolutes).2.program.depsOf "a" ≠ Compilation.absolutes.program.depsOf "a" := by
    decide +kernel
  -- had it no value, it would read what it read
  obtain ⟨v, hv⟩ : ∃ v, Compilation.absolutes.program.HasValue .reference "a" v := by
    by_contra hnone
    exact hleft.2.2 (hp.unfolded "a" hleft.2.1 fun _ v hv => hnone ⟨v, hv⟩).2
  exact ⟨stats, _, v, hrun, exposed_absolutes, hv, (hp.folded "a" v exposed_absolutes hv).1,
    hleft.1⟩

/-- Two literals. -/
def Topology.literals : Topology :=
  ⟨[⟨"k", Padding.none, .data (.dense .f32 .bfyx ⟨1, 1, 1, 1⟩) (.f32 #[Single.one])⟩,
    ⟨"l", Padding.none, .data (.dense .f32 .bfyx ⟨1, 1, 1, 1⟩) (.f32 #[Single.one])⟩]⟩

/-- A literal that reads another, though it has no slot for it. -/
def Compilation.chained : Compilation :=
  { exposing .literals ["k"] with
    program := ((Edit.connect "l" "k").run.run (exposing .literals ["k"]).program).2 }

theorem Compilation.chained_spec : chained.program.WellFormed ∧ chained.program.Coherent := by
  obtain ⟨hw, hc⟩ := exposing_spec (t := .literals) (by unfold Topology.Distinct; decide) ["k"]
  have hkept : Program.Kept (exposing .literals ["k"]).program chained.program :=
    (Edit.connect_effect hw.toLinked).final _ (fun _ _ hq => hq.1.kept)
      fun _ q hq => by
        rw [hq.2]
        exact .refl hw.toLinked
  exact ⟨hkept.wellFormed hw, hkept.coherent hc⟩

/-- An evaluator that takes on everything and computes nothing. -/
def Evaluator.eager : Evaluator := ⟨"eager", fun _ _ _ => true, fun _ _ _ => .error (.failed "")⟩

/-- **A folded node loses the users that were folded**: the first of two absolute values has none
left, though the second is still there.  **And a literal that reads a literal keeps it**: that is
then neither an output nor read by anything but a constant, though nothing was declined. -/
theorem propagateConstants_users :
    (Compilation.absolutes.program.WellFormed ∧ Compilation.absolutes.program.isOrdered = true ∧
      Compilation.absolutes.program.Aligned ∧ Compilation.absolutes.program.Coherent ∧
      Compilation.absolutes.program.Exposed "a" ∧ ∃ stats c',
      (Pass.propagateConstants ⟨.builtin .default, some .reference, false⟩).run.run .absolutes
        = (.ok stats, c') ∧ c'.program.contains "b" = true ∧
      Compilation.absolutes.program.usersOf "a" = ["b"] ∧ c'.program.usersOf "a" = []) ∧
    (Compilation.chained.program.WellFormed ∧ Compilation.chained.program.isOrdered = true ∧
      Compilation.chained.program.Coherent ∧ Evaluator.eager.AcceptsAll ∧ ∃ stats c',
      (Pass.propagateConstants ⟨.builtin .default, some .eager, false⟩).run.run .chained
        = (.ok stats, c') ∧ c'.program.Constant "l" ∧ c'.program.isMarked "l" = false ∧
      c'.program.usersOf "l" = ["k"] ∧ c'.program.Constant "k") := by
  obtain ⟨stats, hrun⟩ := exists_run_eq_ok
    (x := Pass.propagateConstants ⟨.builtin .default, some .reference, false⟩)
    (s := .absolutes) (by decide +kernel)
  obtain ⟨stats', hrun'⟩ := exists_run_eq_ok
    (x := Pass.propagateConstants ⟨.builtin .default, some .eager, false⟩)
    (s := .chained) (by decide +kernel)
  have hleft : ((Pass.propagateConstants ⟨.builtin .default, some .reference, false⟩).run.run
      .absolutes).2.program.contains "b" = true ∧
      Compilation.absolutes.program.usersOf "a" = ["b"] ∧
      ((Pass.propagateConstants ⟨.builtin .default, some .reference, false⟩).run.run
      .absolutes).2.program.usersOf "a" = [] := by decide +kernel
  have hleft' : ((Pass.propagateConstants ⟨.builtin .default, some .eager, false⟩).run.run
      .chained).2.program.isMarked "l" = false ∧
      ((Pass.propagateConstants ⟨.builtin .default, some .eager, false⟩).run.run
      .chained).2.program.usersOf "l" = ["k"] := by decide +kernel
  refine ⟨⟨Compilation.absolutes_spec.1, by decide +kernel, aligned_of_nodes (by decide +kernel),
    Compilation.absolutes_spec.2, exposed_absolutes, stats, _, hrun, hleft⟩,
    Compilation.chained_spec.1, by decide +kernel, Compilation.chained_spec.2,
    fun _ _ _ => rfl, stats', _, hrun', ?_, hleft'.1, hleft'.2, ?_⟩
  · exact .literal rfl (by decide +kernel)
  · exact .literal rfl (by decide +kernel)

end NetPlan

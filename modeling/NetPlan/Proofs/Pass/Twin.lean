import NetPlan.Proofs.Pass.Spent

/-!
# Proofs/Pass/Twin — folding once more

Two programs are twins if they differ in numbers, plans and caches only.  What folding finds in the one
it finds in the other: the same nodes are asked for, and the host is given the same nodes and inputs.
So where folding has succeeded without a change, it succeeds again.

* `valueWithin_twin` — a value that was found is found again;
* `foldConstants_twin` — so is that there is nothing to fold.
-/

namespace NetPlan

open Program Edit

namespace Program

variable {p q p' q' : Program} {id : String}

/-- The same graph in the same order, with the same outputs and flags, and right caches in both. -/
structure Twin (p q : Program) : Prop where
  linked : p.Linked
  linked' : q.Linked
  coherent : p.Coherent
  coherent' : q.Coherent
  behaviours : q.behaviours = p.behaviours
  ids : q.ids = p.ids
  order : q.order.ids = p.order.ids
  deps : q.depsOf = p.depsOf
  tasks : q.taskOf = p.taskOf
  marks : q.isMarked = p.isMarked
  flags : q.flagsOf = p.flagsOf

namespace Twin

theorem refl (hl : p.Linked) (hc : p.Coherent) : Twin p p :=
  ⟨hl, hl, hc, hc, rfl, rfl, rfl, rfl, rfl, rfl, rfl⟩

variable (h : Twin p q)
include h

theorem of_reordered (hq : Reordered q q') (order : q'.order.ids = q.order.ids) : Twin p q' where
  linked := h.linked
  linked' := hq.kept.linked
  coherent := h.coherent
  coherent' := hq.kept.coherent h.coherent'
  behaviours := hq.kept.behaviours.trans h.behaviours
  ids := hq.ids.trans h.ids
  order := order.trans h.order
  deps := hq.deps.trans h.deps
  tasks := hq.tasks.trans h.tasks
  marks := hq.marks.trans h.marks
  flags := hq.flags.trans h.flags

theorem touched (hp : Touched p p') (hq : Touched q q') : Twin p' q' where
  linked := hp.kept.linked
  linked' := hq.kept.linked
  coherent := hp.kept.coherent h.coherent
  coherent' := hq.kept.coherent h.coherent'
  behaviours := hq.kept.behaviours.trans (h.behaviours.trans hp.kept.behaviours.symm)
  ids := hq.ids.trans (h.ids.trans hp.ids.symm)
  order := (congrArg Order.ids hq.order).trans (h.order.trans (congrArg Order.ids hp.order).symm)
  deps := hq.deps.trans (h.deps.trans hp.deps.symm)
  tasks := hq.tasks.trans (h.tasks.trans hp.tasks.symm)
  marks := hq.marks.trans (h.marks.trans hp.marks.symm)
  flags := hq.flags.trans (h.flags.trans hp.flags.symm)

theorem filled (hp : Filled p p') (hq : Filled q q') : Twin p' q' :=
  h.touched (hp.touched h.linked) (hq.touched h.linked')

theorem freshLayout : q.freshLayout id = p.freshLayout id :=
  freshLayout_frame (fun _ => True) h.behaviours (fun _ _ _ _ => trivial)
    (fun i _ => by rw [outlineOf_eq_taskOf, h.tasks, outlineOf_eq_taskOf])
    (fun i _ => congrFun h.deps i) trivial

theorem asked_iff : q.Asked id ↔ p.Asked id := by
  have hconst : q.isConstant = p.isConstant := funext fun j => isConstant_congr (congrFun h.flags j)
  have hkinds : q.kindOf = p.kindOf := funext fun j => kindOf_of_taskOf (congrFun h.tasks j)
  rw [Program.asked_iff, Program.asked_iff, hconst, hkinds, h.marks, h.deps]

theorem size : q.size = p.size := by
  have hlength := congrArg List.length h.ids
  rwa [Program.ids, Program.ids, List.length_map, List.length_map] at hlength

/-- A node has a twin. -/
theorem node? {n : Node} (hn : p.node? id = some n) : ∃ m, q.node? id = some m ∧ m.id = n.id ∧
    m.task = n.task ∧ m.dependencies = n.dependencies := by
  have hc : q.contains id = true := contains_congr h.ids ▸ contains_of_node? hn
  obtain ⟨m, hm⟩ := contains_iff.mp hc
  have htask := congrFun h.tasks id
  have hdeps := congrFun h.deps id
  rw [taskOf_of_node? hm, taskOf_of_node? hn, Option.some.injEq] at htask
  rw [depsOf_of_node? hm, depsOf_of_node? hn] at hdeps
  exact ⟨m, hm, (id_of_node? hm).trans (id_of_node? hn).symm, htask, hdeps⟩

end Twin

end Program

namespace Pass

variable {p q : Program} {id : String} {known : Known}

/-- What succeeds in `p` with an answer that is `still` succeeds in `q` with the same answer, and leaves
twins. -/
def Repeats {α : Type} (still : α → Prop) (x y : Edit α) (p q : Program) : Prop :=
  ∀ a p', x.run.run p = (.ok a, p') → still a → ∃ q', y.run.run q = (.ok a, q') ∧ Twin p' q'

section Rules

variable {α β : Type} {still : α → Prop} {quiet : β → Prop} {x y : Edit β} {f g : β → Edit α}

theorem repeats_pure {a : α} (h : Twin p q) : Repeats still (pure a) (pure a) p q := by
  rintro _ _ ⟨⟩ -
  exact ⟨q, rfl, h⟩

theorem repeats_throw {y : Edit α} (e : CompileError) : Repeats still (throw e) y p q := by
  rintro _ _ ⟨⟩

theorem repeats_of_never {x y : Edit α} (h : Never still x) : Repeats still x y p q := by
  intro a p' hrun ha
  have hends := h p
  rw [Ends, hrun] at hends
  exact absurd ha hends

/-- A sequence that succeeds. -/
theorem run_bind_eq_ok {a : α} {p' : Program} (h : (x >>= f).run.run p = (.ok a, p')) :
    ∃ b r, x.run.run p = (.ok b, r) ∧ (f b).run.run r = (.ok a, p') := by
  rw [ExceptT.run_bind, StateT.run_bind] at h
  generalize x.run.run p = out at h ⊢
  rcases out with ⟨e | b, r⟩
  · cases h
  · exact ⟨b, r, rfl, h⟩

theorem run_bind_of_ok {b : β} {r : Program} (h : x.run.run p = (.ok b, r)) :
    (x >>= f).run.run p = (f b).run.run r := by
  rw [ExceptT.run_bind, StateT.run_bind, h]
  rfl

/-- **One edit after another.** -/
theorem Repeats.bind (hx : Repeats quiet x y p q)
    (hquiet : ∀ b p' q', quiet b → Twin p' q' → Repeats still (f b) (g b) p' q')
    (hloud : ∀ b, ¬ quiet b → Never still (f b)) : Repeats still (x >>= f) (y >>= g) p q := by
  intro a p' hrun ha
  obtain ⟨b, r, hfirst, hsecond⟩ := run_bind_eq_ok hrun
  by_cases hb : quiet b
  · obtain ⟨r', hy, htwin⟩ := hx b r hfirst hb
    rw [run_bind_of_ok hy]
    exact hquiet b r r' hb htwin a p' hsecond ha
  · have hends := hloud b hb r
    rw [Ends, hsecond] at hends
    exact absurd ha hends

theorem Repeats.seq (hx : Repeats (fun _ => True) x y p q)
    (hf : ∀ b p' q', Twin p' q' → Repeats still (f b) (g b) p' q') :
    Repeats still (x >>= f) (y >>= g) p q :=
  hx.bind (fun b p' q' _ => hf b p' q') fun _ hb => absurd trivial hb

theorem repeats_ofExcept {r r' : Except CompileError α} (h : Twin p q)
    (hr : ∀ a, r = .ok a → r' = .ok a) : Repeats still (Edit.ofExcept r) (Edit.ofExcept r') p q := by
  intro a p' hrun _
  rcases r with e | b
  · cases hrun
  · cases hrun
    rw [hr a rfl]
    exact ⟨q, rfl, h⟩

theorem repeats_get {f g : Program → Edit α} (h : Repeats still (f p) (g q) p q) :
    Repeats still (get >>= f) (get >>= g) p q := h

theorem run_liftM_bind {τ : Type} (t : τ) (x : Edit β) (f : β × τ → Edit α) :
    ((liftM x : StateT τ Edit β).run t >>= f) = x >>= fun b => f (b, t) := by
  change ((x >>= fun b => pure (b, t)) >>= f) = _
  rw [bind_assoc]
  rfl

/-- Looking at a node, and then at its twin. -/
theorem repeats_node {f g : Node → Edit α} (h : Twin p q)
    (hf : ∀ n m, p.node? id = some n → q.node? id = some m → m.id = n.id → m.task = n.task →
      m.dependencies = n.dependencies → Repeats still (f n) (g m) p q) :
    Repeats still (node id >>= f) (node id >>= g) p q := by
  intro a p' hrun ha
  obtain ⟨n, r, hn, hrest⟩ := run_bind_eq_ok hrun
  have hends : Ends (node id) (fun n r => p.node? id = some n ∧ r = p) (fun _ _ => True) p := by
    rw [ends_node]
    exact ⟨fun _ hn => ⟨hn, rfl⟩, fun _ => trivial⟩
  rw [Ends, hn] at hends
  obtain ⟨hn, rfl⟩ := hends
  obtain ⟨m, hm, hid, htask, hdeps⟩ := h.node? hn
  have hrun' : (node id).run.run q = (.ok m, q) := by
    change (q.node id, q) = _
    rw [Program.node, hm]
  rw [run_bind_of_ok hrun']
  exact hf n m hn hm hid htask hdeps a p' hrest ha

theorem repeats_layout {still : Layout → Prop} (h : Twin p q) :
    Repeats still (layout id) (layout id) p q := by
  intro l p' hrun _
  have hends := layout_ends id h.coherent
  rw [Ends, hrun] at hends
  obtain ⟨hfill, hlaid⟩ := hends
  have hends' := layout_ends id h.coherent'
  rw [Ends] at hends'
  generalize (layout id).run.run q = out at hends' ⊢
  obtain ⟨e | l', q'⟩ := out
  · have hfail := hends'.2
    rw [h.freshLayout, hlaid] at hfail
    cases hfail
  · obtain ⟨hfill', hlaid'⟩ := hends'
    rw [h.freshLayout, hlaid] at hlaid'
    cases hlaid'
    exact ⟨q', rfl, h.filled hfill hfill'⟩

end Rules

/-! ## Values -/

theorem allValues_twin {f : String → StateT Known Edit (Option ConstantValue)}
    (step : ∀ (id : String) (known : Known) {p q : Program}, Twin p q →
      Repeats (fun _ => True) ((f id).run known) ((f id).run known) p q) :
    ∀ (ids : List String) (known : Known) {p q : Program}, Twin p q →
      Repeats (fun _ => True) ((allValues f ids).run known) ((allValues f ids).run known) p q
  | [], _, _, _, h => repeats_pure h
  | id :: ids, known, p, q, h => by
      rw [allValues, StateT.run_bind]
      refine (step id known h).seq fun r p' q' h' => ?_
      rcases r with ⟨_ | v, known'⟩
      · exact repeats_pure h'
      · dsimp only
        rw [StateT.run_bind]
        exact (allValues_twin step ids known' h').seq fun _ _ _ h'' => repeats_pure h''

/-- **A value that was found is found again.** -/
theorem valueWithin_twin : ∀ (depth : Nat) (id : String) (known : Known) {p q : Program}, Twin p q →
    Repeats (fun _ => True) ((valueWithin .reference depth id).run known)
      ((valueWithin .reference depth id).run known) p q
  | 0, _, _, _, _, _ => repeats_throw _
  | depth + 1, id, known, p, q, h => by
      rw [valueWithin, StateT.run_bind]
      change Repeats _ (pure (known, known) >>= _) (pure (known, known) >>= _) p q
      rw [pure_bind]
      dsimp only
      split
      case h_1 v hv => exact repeats_pure h
      rw [StateT.run_bind, run_liftM_bind]
      refine repeats_node h fun n m hn hm hid htask hdeps => ?_
      have hshape : m.operation.shape = n.operation.shape := congrArg Task.operation htask
      dsimp only
      split
      case h_1 layout values hop =>
        have hop' : m.operation = .data layout values :=
          operation_of_shape (by rw [hshape, hop]; rfl)
        rw [hop']
        exact repeats_pure h
      case h_2 hliteral =>
      split
      case h_1 layout values hop =>
        exact absurd (operation_of_shape (by rw [← hshape, hop]; rfl)) (hliteral layout values)
      rw [hdeps, StateT.run_bind]
      refine (allValues_twin (valueWithin_twin depth) n.dependencies known h).seq
        fun r p₁ q₁ h₁ => ?_
      rcases r with ⟨_ | inputs, known'⟩
      · exact repeats_pure h₁
      dsimp only
      rw [StateT.run_bind, run_liftM_bind]
      refine (repeats_layout h₁).seq fun output p₂ q₂ h₂ => ?_
      dsimp only
      rw [StateT.run_bind, run_liftM_bind]
      refine repeats_node h₂ fun n₂ m₂ _ _ hid₂ htask₂ _ => ?_
      have halike := Evaluator.alike_reference hid₂ htask₂
      rw [halike.canEvaluate]
      split
      case isTrue => exact repeats_pure h₂
      case isFalse =>
        rw [StateT.run_bind, StateT.run_bind, run_liftM_bind, run_liftM_bind]
        exact (repeats_ofExcept h₂ fun v hv => (evaluateNode_alike halike).mpr hv).seq
          fun v p₃ q₃ h₃ => repeats_pure h₃

/-! ## Folding -/

/-- What is not folded here is not folded there. -/
theorem fold_twin (known : Known) (h : Twin p q) : Repeats (fun r => r.1 = false)
    ((fold .reference id).run known) ((fold .reference id).run known) p q := by
  rw [fold, StateT.run_bind, run_liftM_bind]
  refine repeats_get ?_
  dsimp only
  rw [h.size, StateT.run_bind]
  refine (valueWithin_twin _ id known h).seq fun r p' q' h' => ?_
  rcases r with ⟨_ | v, known'⟩
  · exact repeats_pure h'
  · dsimp only
    rw [StateT.run_bind]
    exact repeats_of_never (never_bind fun _ => never_pure (by simp))

theorem foldAll_twin : ∀ (ids : List String) (known : Known) {p q : Program}, Twin p q →
    Repeats (fun r => r.1 = 0) ((foldAll .reference ids).run known)
      ((foldAll .reference ids).run known) p q
  | [], _, _, _, h => repeats_pure h
  | id :: ids, known, p, q, h => by
      rw [foldAll, StateT.run_bind]
      refine (fold_twin known h).bind (fun r p' q' hr h' => ?_) fun r hr => ?_
      · rw [StateT.run_bind]
        refine (foldAll_twin ids r.2 h').bind (fun _ _ _ _ => repeats_pure) fun k hk => never_pure ?_
        omega
      · rw [StateT.run_bind]
        refine never_bind fun k => never_pure ?_
        rw [if_pos (by simpa using hr)]
        dsimp only
        omega

/-- **Where nothing was folded**, the same nodes are declined again in a twin that is in order, and
nothing else can fail. -/
theorem foldConstants_twin (h : Twin p q) {stats : PassStats} {p' : Program}
    (hrun : (foldConstants .reference).run.run p = (.ok stats, p')) (hstats : stats.changed = false)
    (hb : q.behaviours.find .data = .ok .data) (hp : p.Flagged) (hq : q.Flagged) (ho : q.Ordered)
    (hlive : q.Live) (hun : ∀ j, q.Asked j → q.Unfit j) :
    Ends (foldConstants .reference) (fun stats q' => stats.changed = false ∧ Touched q q')
      (fun _ _ => False) q := by
  rw [foldConstants_eq] at hrun
  obtain ⟨⟨⟩, m, hmark, hrun⟩ := run_bind_eq_ok hrun
  obtain ⟨_, _, ⟨⟩, hrun⟩ := run_bind_eq_ok hrun
  obtain ⟨⟨k, known⟩, r, hfold, hrun⟩ := run_bind_eq_ok hrun
  have hm := markConstants_touched h.linked hp
  rw [Ends, hmark] at hm
  have hk : k = 0 := by
    obtain ⟨_, _, ⟨⟩, hrun⟩ := run_bind_eq_ok hrun
    obtain ⟨erased, _, -, ⟨⟩⟩ := run_bind_eq_ok hrun
    exact (changed_ofCounts.mp hstats).1
  rw [foldConstants_eq, ends_bind]
  refine ((markConstants_marked h.linked' ho).and (markConstants_touched h.linked' hq)).imp
    (fun _ m' hm' => ?_) fun _ _ hbad => hbad.1
  obtain ⟨-, hm'⟩ := hm'
  have htwin := h.touched hm hm'
  rw [ends_bind, ends_get]
  dsimp only
  have htargets : targets m' = targets m := by
    classical
    rw [targets_eq htwin.linked (fun j => decide (m.Asked j)) fun j => decide_eq_true_iff,
      targets_eq htwin.linked' (fun j => decide (m.Asked j)) fun j =>
        decide_eq_true_iff.trans htwin.asked_iff.symm, htwin.order]
  rw [htargets, ends_bind]
  obtain ⟨q', hfold', -⟩ := foldAll_twin _ [] htwin _ r hfold hk
  have hlm := htwin.linked'
  have hfolded := foldAll_unfit (targets m) [] hlm htwin.coherent' (hm'.kept.behaviours ▸ hb)
    (fun i hi => ?_) (fun _ _ hv => by cases hv) (fun _ _ hv => by cases hv)
  · rw [Ends, hfold'] at hfolded ⊢
    have htouch := hm'.trans hfolded.2
    have hflagged := hq.sameGraph htouch.toSameGraph htouch.flags
    have hlive' := hlive.touched htouch.toReflagged
    dsimp only
    rw [ends_bind, ends_get, ends_bind]
    refine (sweep_alive (fun j => hlive'.not_dead htouch.kept.linked hflagged) _).imp_good
      fun removed s hs => ?_
    obtain ⟨hremoved, rfl⟩ := hs
    exact ⟨changed_ofCounts.mpr ⟨hk, hremoved⟩, htouch⟩
  · obtain ⟨-, hasked⟩ := (mem_targets hlm).mp (htargets ▸ hi)
    exact ⟨hasked.constant, hasked.computed,
      hm'.toSameGraph.unfit_of_asked hm'.flags hm'.marks hun hasked⟩

end Pass

end NetPlan

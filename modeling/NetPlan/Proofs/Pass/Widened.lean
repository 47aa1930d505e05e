import NetPlan.Proofs.Layout.Widening
import NetPlan.Proofs.Pass.Inherited
import NetPlan.Proofs.Pass.Padding

/-!
# Proofs/Pass/Widened — graphs in which only padding grew

A rewrite may let nodes ask for more padding, and have a node read through a new reorder what it read
itself (`Loosened`).  Layouts then change by more padding only, if reorders can be laid out at all.

* `Loosened.narrowed`, `Loosened.widened` — the layouts of the graph behind it, and of that before it;
* `Widened` — what several such rewrites come to; `Pass.Pads.widened` — padding an input is one.
-/

namespace NetPlan

open Program Edit

namespace Program

variable {p q r : Program} {d d' j : String} {l l' : Layout}

/-- What reorders the program has can be laid out. -/
def LaysReorders (p : Program) : Prop :=
  ∀ id, p.isReorder id → ∃ k, p.behaviours.find .reorder = .ok k

/-! ## One rewrite -/

/-- What is read in `q` for a node of `p`: the node itself, or a reorder of it into more padding. -/
inductive Relays (p q : Program) : String → String → Prop
  | same {d : String} (there : p.contains d = true) : Relays p q d d
  | copied {d new : String} {l : Layout} {padding : Padding} {absorbed : Activation}
      (laid : p.freshLayout d = .ok l) (reads : q.depsOf new = [d])
      (task : q.taskOf new = some ⟨padding, .reorder ⟨"", l.format, l.element, []⟩, absorbed⟩)
      (within : l.padding.Within padding) : Relays p q d new

/-- Every node of `p` is there in `q`, asks for no less padding and reads the same, if through
reorders. -/
structure Loosened (p q : Program) : Prop where
  behaviours : q.behaviours = p.behaviours
  tasks : ∀ j t, p.taskOf j = some t →
    ∃ padding, t.padding.Within padding ∧ q.taskOf j = some { t with padding }
  reads : ∀ j, p.contains j = true → List.Forall₂ (Relays p q) (p.depsOf j) (q.depsOf j)

theorem contains_of_freshLayout (h : p.freshLayout d = .ok l) : p.contains d = true := by
  obtain ⟨_, _, htask, -⟩ := freshLayout_iff.mp h
  rw [contains_eq_isSome_taskOf, htask, Option.isSome_some]

namespace Loosened

/-- **A layout behind the rewrite** is one from before it with no less padding. -/
theorem narrowed (h : Loosened p q) (hl : q.freshLayout d' = .ok l') (hd : Relays p q d d') :
    ∃ l, p.freshLayout d = .ok l ∧ l.Widens l' := by
  refine freshLayout_rec (motive := fun d' l' => ∀ d, Relays p q d d' →
    ∃ l, p.freshLayout d = .ok l ∧ l.Widens l')
    (fun d' task' inputs' l' _ htask' hdeps' hlays' d hd => ?_) hl d hd
  cases hd with
  | same there =>
    obtain ⟨t, ht⟩ := Option.isSome_iff_exists.mp (contains_eq_isSome_taskOf p d' ▸ there)
    obtain ⟨padding, hwithin, hq⟩ := h.tasks d' t ht
    cases hq.symm.trans htask'
    obtain ⟨inputs, hdeps, hin⟩ := exists_forall₂ (forall₂_comp
      (T := fun d i' => ∃ i, p.freshLayout d = .ok i ∧ i.Widens i')
      (fun d d' _ hd hd' => hd'.2 d hd) (h.reads d' there) hdeps')
    rw [h.behaviours] at hlays'
    obtain ⟨l, hlays, hwiden⟩ := Task.lays_narrowed hwithin hin hlays'
    exact ⟨l, freshLayout_iff.mpr ⟨t, inputs, ht, hdeps, hlays⟩, hwiden⟩
  | @copied _ l padding absorbed laid reads task within =>
    cases task.symm.trans htask'
    rw [reads] at hdeps'
    obtain ⟨i', rfl, -, hi'⟩ := forall₂_singleton hdeps'
    obtain ⟨_, hl, hwiden⟩ := hi' d (.same (contains_of_freshLayout laid))
    obtain rfl : l = _ := Except.ok.inj (laid.symm.trans hl)
    obtain ⟨-, _, _, he, rfl⟩ := (Task.lays_reorder_iff rfl).mp hlays'
    cases he
    refine ⟨l, laid, ?_, within⟩
    rw [Layout.bare, Layout.bare, Layout.withPadding, Layout.withPadding, ← hwiden.size]

/-- **A layout from before the rewrite** is there behind it with no less padding. -/
theorem widened (h : Loosened p q) (hq : q.LaysReorders) (hl : p.freshLayout d = .ok l)
    (hd : Relays p q d d') : ∃ l', q.freshLayout d' = .ok l' ∧ l.Widens l' := by
  refine freshLayout_rec (motive := fun d l => ∀ d', Relays p q d d' →
    ∃ l', q.freshLayout d' = .ok l' ∧ l.Widens l')
    (fun d task inputs l hl htask hdeps hlays d' hd => ?_) hl d' hd
  have hself : ∃ l', q.freshLayout d = .ok l' ∧ l.Widens l' := by
    obtain ⟨padding, hwithin, htask'⟩ := h.tasks d task htask
    obtain ⟨inputs', hdeps', hin⟩ := exists_forall₂ (forall₂_comp
      (T := fun d' i => ∃ i', q.freshLayout d' = .ok i' ∧ Layout.Widens i i')
      (fun d' d _ hd hd' => hd'.2 d' hd) (h.reads d (contains_of_freshLayout hl)).flip hdeps)
    obtain ⟨l', hlays', hwiden⟩ := Task.lays_widened hwithin hin.flip hlays
    exact ⟨l', freshLayout_iff.mpr ⟨_, inputs', htask', hdeps', h.behaviours ▸ hlays'⟩, hwiden⟩
  cases hd with
  | same => exact hself
  | @copied _ k padding absorbed laid reads task within =>
    obtain rfl : k = l := Except.ok.inj (laid.symm.trans hl)
    obtain ⟨l', hl', hwiden⟩ := hself
    refine ⟨⟨k.element, k.format, l'.size, padding⟩,
      freshLayout_iff.mpr ⟨_, [l'], task, ?_, ?_⟩, ?_, within⟩
    · rw [reads]
      exact .cons hl' .nil
    · have hreorder : q.isReorder d' := by
        rw [isReorder, shapeOf_eq_taskOf, task]
        exact ⟨_, rfl⟩
      exact (Task.lays_reorder_iff rfl).mpr ⟨hq d' hreorder, l', [], rfl, rfl⟩
    · rw [Layout.bare, Layout.bare, Layout.withPadding, Layout.withPadding, ← hwiden.size]

end Loosened

/-- Caches have no part in whether reorders can be laid out. -/
theorem Filled.laysReorders (h : Filled p q) (hl : p.Linked) (hp : p.LaysReorders) :
    q.LaysReorders := fun id hid => by
  have htouch := h.touched hl
  rw [htouch.kept.behaviours]
  exact hp id (by rwa [isReorder, ← htouch.shapes])

/-! ## Several rewrites -/

/-- A node of `q` has the layout of one of `p`, with more padding if any. -/
structure Stands (p q : Program) (d d' : String) : Prop where
  narrowed : ∀ l', q.freshLayout d' = .ok l' → ∃ l, p.freshLayout d = .ok l ∧ l.Widens l'
  widened : q.LaysReorders → ∀ l, p.freshLayout d = .ok l →
    ∃ l', q.freshLayout d' = .ok l' ∧ l.Widens l'

/-- `j` reorders what a convolution of `p` reads into more padding. -/
inductive Copies (p q : Program) (j : String) : Prop
  | intro {id d d' : String} {conv : Convolution} {l : Layout} {padding : Padding}
      (reader : p.shapeOf id = some (.convolution conv)) (slot : (p.depsOf id)[0]? = some d)
      (laid : p.freshLayout d = .ok l) (reads : q.depsOf j = [d']) (stands : Stands p q d d')
      (task : q.taskOf j
        = some ⟨padding, .reorder ⟨"", l.format, l.element, []⟩, Activation.none⟩)

theorem Copies.isReorder (h : Copies p q j) : q.isReorder j := by
  obtain ⟨_, _, _, _, _, htask⟩ := h
  rw [Program.isReorder, shapeOf_eq_taskOf, htask]
  exact ⟨_, rfl⟩

/-- `q` is `p` but for padding that grew, and for reorders that came to grow it. -/
structure Widened (p q : Program) : Prop where
  kept : Kept p q
  ordered : q.Ordered
  order : q.order.ids.filter p.contains = p.order.ids
  tasks : ∀ j t, p.taskOf j = some t →
    ∃ padding, t.padding.Within padding ∧ q.taskOf j = some { t with padding }
  layouts : ∀ j, p.contains j = true → Stands p q j j
  reads : ∀ j, p.contains j = true → List.Forall₂ (Stands p q) (p.depsOf j) (q.depsOf j)
  news : ∀ j, q.contains j = true → p.contains j = true ∨ Copies p q j

theorem Stands.refl (d : String) : Stands p p d d :=
  ⟨fun l hl => ⟨l, hl, .refl l⟩, fun _ l hl => ⟨l, hl, .refl l⟩⟩

theorem Stands.trans {d'' : String} (hlays : r.LaysReorders → q.LaysReorders) (h : Stands p q d d')
    (h' : Stands q r d' d'') : Stands p r d d'' where
  narrowed l'' hl'' := by
    obtain ⟨l', hl', hwiden'⟩ := h'.narrowed l'' hl''
    obtain ⟨l, hl, hwiden⟩ := h.narrowed l' hl'
    exact ⟨l, hl, hwiden.trans hwiden'⟩
  widened hr l hl := by
    obtain ⟨l', hl', hwiden⟩ := h.widened (hlays hr) l hl
    obtain ⟨l'', hl'', hwiden'⟩ := h'.widened hr l' hl'
    exact ⟨l'', hl'', hwiden.trans hwiden'⟩

namespace Widened

theorem shapeOf (h : Widened p q) (hj : p.contains j = true) : q.shapeOf j = p.shapeOf j := by
  rw [contains_eq_isSome_taskOf, Option.isSome_iff_exists] at hj
  obtain ⟨t, ht⟩ := hj
  obtain ⟨padding, -, hq⟩ := h.tasks j t ht
  rw [shapeOf_eq_taskOf, hq, shapeOf_eq_taskOf, ht]
  rfl

theorem contains (h : Widened p q) (hj : p.contains j = true) : q.contains j = true := by
  rw [contains_eq_isSome_shapeOf, h.shapeOf hj, ← contains_eq_isSome_shapeOf, hj]

/-- Reorders that can be laid out could be before. -/
theorem laysReorders (h : Widened p q) (hq : q.LaysReorders) : p.LaysReorders := fun id hid => by
  rw [isReorder, ← h.shapeOf (contains_of_isReorder hid)] at hid
  exact h.kept.behaviours ▸ hq id hid

/-- Only the nodes of `p` do anything but reorder. -/
theorem contains_of_not_isReorder (h : Widened p q) (hj : q.contains j = true)
    (hno : ¬ q.isReorder j) : p.contains j = true :=
  (h.news j hj).resolve_right fun hcopies => hno hcopies.isReorder

/-- A convolution is no reorder that came in between. -/
theorem shapeOf_narrowed (h : Widened p q) {c : Convolution}
    (hc : q.shapeOf d = some (.convolution c)) :
    p.contains d = true ∧ p.shapeOf d = some (.convolution c) := by
  have hthere : q.contains d = true := by
    rw [contains_eq_isSome_shapeOf, hc, Option.isSome_some]
  have hold : p.contains d = true := h.contains_of_not_isReorder hthere fun ⟨r, hr⟩ => by
    rw [hc] at hr
    cases hr
  exact ⟨hold, h.shapeOf hold ▸ hc⟩

/-- Caches have no part in it. -/
theorem of_filled (h : Filled p q) (hl : p.Linked) (hp : p.Ordered) : Widened p q := by
  have htouch := h.touched hl
  have horder : q.order.ids = p.order.ids := by rw [htouch.order]
  refine ⟨htouch.kept, htouch.toSameGraph.ordered horder hp, ?_, fun j t ht => ?_, fun j _ => ?_,
    fun j _ => ?_, fun j hj => Or.inl (htouch.contains ▸ hj)⟩
  · rw [horder]
    exact List.filter_eq_self.mpr fun j hj => (hp.mem j).mp hj
  · exact ⟨t.padding, .refl _, by rw [htouch.tasks, ht]⟩
  all_goals
    have hself : ∀ d, Stands p q d d := fun d => by
      have hlayout : q.freshLayout = p.freshLayout := freshLayout_of_uncached h.same
      exact ⟨fun l hl => ⟨l, hlayout ▸ hl, .refl l⟩, fun _ l hl => ⟨l, hlayout ▸ hl, .refl l⟩⟩
  · exact hself j
  · rw [htouch.deps]
    exact List.forall₂_same.mpr fun d _ => hself d

theorem trans (h : Widened p q) (h' : Widened q r) : Widened p r where
  kept := h.kept.trans h'.kept
  ordered := h'.ordered
  order := by
    rw [← h.order, ← h'.order, List.filter_filter]
    refine List.filter_congr fun j _ => ?_
    cases hj : p.contains j with
    | true => rw [h.contains hj]; rfl
    | false => rfl
  tasks j t ht := by
    obtain ⟨padding, hwithin, hq⟩ := h.tasks j t ht
    obtain ⟨padding', hwithin', hr⟩ := h'.tasks j _ hq
    exact ⟨padding', hwithin.trans hwithin', hr⟩
  layouts j hj := (h.layouts j hj).trans h'.laysReorders (h'.layouts j (h.contains hj))
  reads j hj := forall₂_comp (fun _ _ _ hd hd' => hd.trans h'.laysReorders hd') (h.reads j hj)
    (h'.reads j (h.contains hj))
  news j hj := by
    rcases h'.news j hj with hq | ⟨hreader, hslot, hlaid, hreads, hstands, htask⟩
    · rcases h.news j hq with hp | ⟨hreader, hslot, hlaid, hreads, hstands, htask⟩
      · exact Or.inl hp
      · obtain ⟨padding', -, htask'⟩ := h'.tasks j _ htask
        have hreads' := h'.reads j hq
        rw [hreads] at hreads'
        obtain ⟨d'', hreads', hstands'⟩ := forall₂_singleton hreads'
        exact Or.inr ⟨hreader, hslot, hlaid, hreads', hstands.trans h'.laysReorders hstands', htask'⟩
    · obtain ⟨hthere, hreader⟩ := h.shapeOf_narrowed hreader
      obtain ⟨d, hslot, hstands'⟩ := exists_getElem?_of_forall₂ (h.reads _ hthere).flip hslot
      obtain ⟨l, hlaid, hwiden⟩ := hstands'.narrowed _ hlaid
      rw [hwiden.format, hwiden.element] at htask
      exact Or.inr ⟨hreader, hslot, hlaid, hreads, hstands'.trans h'.laysReorders hstands, htask⟩

end Widened

/-- A rewrite that loosens is one that widens. -/
theorem Loosened.toWidened (h : Loosened p q) (kept : Kept p q) (ordered : q.Ordered)
    (order : q.order.ids.filter p.contains = p.order.ids)
    (news : ∀ j, q.contains j = true → p.contains j = true ∨ Copies p q j) : Widened p q where
  kept := kept
  ordered := ordered
  order := order
  tasks := h.tasks
  layouts _ hj :=
    ⟨fun _ hl => h.narrowed hl (.same hj), fun hlays _ hl => h.widened hlays hl (.same hj)⟩
  reads j hj := (h.reads j hj).imp fun _ _ hd =>
    ⟨fun _ hl => h.narrowed hl hd, fun hlays _ hl => h.widened hlays hl hd⟩
  news := news

end Program

/-! ## Padding an input -/

theorem forall₂_set {α : Type} {R : α → α → Prop} : ∀ {as : List α} {index : Nat} {b : α},
    (∀ a ∈ as, R a a) → (∀ a, as[index]? = some a → R a b) → List.Forall₂ R as (as.set index b)
  | [], _, _, _, _ => .nil
  | a :: _, 0, _, hself, hb => .cons (hb a rfl)
      (List.forall₂_same.mpr fun c hc => hself c (List.mem_cons_of_mem _ hc))
  | a :: _, _ + 1, _, hself, hb => .cons (hself a List.mem_cons_self)
      (forall₂_set (fun c hc => hself c (List.mem_cons_of_mem _ hc)) hb)

namespace Pass

variable {p q : Program} {id : String} {needed : Padding} {b : Bool} {conv : Convolution}

/-- **Padding the input of a convolution widens** where it is no less padding than there is. -/
theorem Pads.widened (h : Pads p q id needed b) (hconv : p.shapeOf id = some (.convolution conv))
    (hl : p.Linked) (hp : p.Ordered) (hc : p.Coherent)
    (hneeded : ∀ input current, Supplies p id input current → current.padding.Within needed) :
    Widened p q := by
  cases h with
  | enough _ _ same =>
    subst same
    exact .of_filled ⟨rfl, hc⟩ hl hp
  | @producer input current t supplies unmet task runs work kept =>
    have hloose : Loosened p q := by
      refine ⟨kept.behaviours, fun j u hu => ?_, fun j hj => ?_⟩
      · rw [work.tasks]
        split
        case isTrue hj =>
          obtain rfl : t = u := Option.some.inj (task.symm.trans (hj ▸ hu))
          exact ⟨_, Padding.within_max_left _ _, by rw [hu]; rfl⟩
        case isFalse => exact ⟨u.padding, .refl _, hu⟩
      · rw [work.deps]
        exact List.forall₂_same.mpr fun d hd => .same (hl.contains_dep hd)
    refine hloose.toWidened kept (work.ordered hp) ?_ fun j hj => Or.inl (work.contains ▸ hj)
    rw [work.order]
    exact List.filter_eq_self.mpr fun j hj => (hp.mem j).mp hj
  | @reorder input new current supplies unmet reader named inserted =>
    have htasks : ∀ j, q.taskOf j = if j = new then
        some ⟨needed, .reorder ⟨"", current.format, current.element, []⟩, Activation.none⟩
      else p.taskOf j := inserted.tasks
    have hdeps : ∀ j, q.depsOf j = if j = new then [input]
      else if j = id then (p.depsOf j).set 0 new else p.depsOf j := inserted.deps
    have hcontains : ∀ j, q.contains j = true ↔ j = new ∨ p.contains j = true := inserted.contains
    have hfree : p.contains new = false := Bool.eq_false_iff.mpr inserted.free
    have hold : ∀ j, p.contains j = true → j ≠ new := fun j hj he => inserted.free (he ▸ hj)
    have hcopied : Relays p q input new :=
      .copied supplies.2 ((hdeps new).trans (if_pos rfl)) ((htasks new).trans (if_pos rfl))
        (hneeded input current supplies)
    have hloose : Loosened p q := by
      refine ⟨inserted.kept.behaviours, fun j u hu => ⟨u.padding, .refl _, ?_⟩, fun j hj => ?_⟩
      · have hj : p.contains j = true := by
          rw [contains_eq_isSome_taskOf, hu, Option.isSome_some]
        rw [htasks, if_neg (hold j hj), hu]
      · have hself : ∀ d ∈ p.depsOf j, Relays p q d d := fun d hd => .same (hl.contains_dep hd)
        rw [hdeps, if_neg (hold j hj)]
        split
        case isTrue he =>
          refine forall₂_set hself fun a ha => ?_
          obtain rfl : input = a := Option.some.inj (supplies.1.symm.trans (he ▸ ha))
          exact hcopied
        case isFalse => exact List.forall₂_same.mpr hself
    have hordered := inserted.ordered rfl hp
    refine hloose.toWidened inserted.kept hordered ?_ fun j hj => ?_
    · have hfilter : q.order.ids.filter p.contains = q.order.ids.filter (· ≠ new) := by
        refine List.filter_congr fun j hj => ?_
        rcases (hcontains j).mp ((hordered.mem j).mp hj) with rfl | hj
        · rw [hfree, decide_eq_false (not_not.mpr rfl)]
        · rw [hj, decide_eq_true (hold j hj)]
      rw [hfilter, inserted.ids_order hp]
      exact Order.filter_placeAfter input fun hmem => inserted.free ((hp.mem new).mp hmem)
    · rcases (hcontains j).mp hj with rfl | hj
      · exact Or.inr ⟨hconv, supplies.1, supplies.2, (hdeps j).trans (if_pos rfl),
          ⟨fun _ hl => hloose.narrowed hl (.same (contains_of_freshLayout supplies.2)),
            fun hlays _ hl => hloose.widened hlays hl (.same (contains_of_freshLayout supplies.2))⟩,
          (htasks j).trans (if_pos rfl)⟩
      · exact Or.inl hj

end Pass

end NetPlan

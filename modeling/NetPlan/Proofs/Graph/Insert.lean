import NetPlan.Proofs.Graph.Place
import NetPlan.Proofs.Graph.Rename

/-!
# Proofs/Graph/Insert — a node in front of a dependency

`addIntermediate` leads one dependency of a node through the node of a primitive.  That node is new
and comes right behind what it reads (`Inserted`), or it was there, a reorder of the same dependency,
and stays where it was (`Shared`).
-/

namespace NetPlan.Edit

open Program

variable {p q r : Program} {id next source : String} {prim : Primitive} {index : Nat}

/-! ## Inserting -/

/-- `q` is `p` with a new node between `source` and a dependency of `next`. -/
structure Inserted (p q : Program) (prim : Primitive) (next : String) (index : Nat)
    (source : String) : Prop where
  kept : Kept p q
  source_eq : (p.depsOf next)[index]? = some source
  free : ¬ p.contains prim.id = true
  consumes : source ∈ prim.arguments
  known : ∀ a ∈ prim.arguments, p.contains a = true
  contains : ∀ j, q.contains j = true ↔ j = prim.id ∨ p.contains j = true
  tasks : ∀ j, q.taskOf j
    = if j = prim.id then some ⟨prim.padding, prim.operation.shape, Activation.none⟩ else p.taskOf j
  plans : q.planOf = p.planOf
  marks : q.isMarked = p.isMarked
  flags : ∀ j, q.flagsOf j = if j = prim.id then p.flagsOf source else p.flagsOf j
  deps : ∀ j, q.depsOf j = if j = prim.id then prim.arguments
    else if j = next then (p.depsOf j).set index prim.id else p.depsOf j
  args : ∀ j, (j = prim.id ∨ p.argsOf j = p.depsOf j) → q.argsOf j = q.depsOf j
  order : q.order.ids = (p.order.insertAfter source prim.id).ids

/-- `q` is `p` with a dependency of `next` pointed at a reorder of it. -/
structure Shared (p q : Program) (shared next : String) (index : Nat) (source : String) :
    Prop where
  kept : Kept p q
  source_eq : (p.depsOf next)[index]? = some source
  reorder : p.isReorder shared
  reads : (p.depsOf shared)[0]? = some source
  ids : q.ids = p.ids
  tasks : q.taskOf = p.taskOf
  plans : q.planOf = p.planOf
  marks : q.isMarked = p.isMarked
  flags : ∀ j, q.flagsOf j = if j = shared then p.flagsOf source else p.flagsOf j
  deps : ∀ j, q.depsOf j = if j = next then (p.depsOf j).set index shared else p.depsOf j
  args : ∀ j, p.argsOf j = p.depsOf j → q.argsOf j = q.depsOf j
  order : q.order.ids = p.order.ids

theorem Inserted.shapes (h : Inserted p q prim next index source) (j : String) :
    q.shapeOf j = if j = prim.id then some prim.operation.shape else p.shapeOf j := by
  rw [shapeOf_eq_taskOf, h.tasks, shapeOf_eq_taskOf]
  split <;> rfl

theorem Shared.shapes {shared : String} (h : Shared p q shared next index source) :
    q.shapeOf = p.shapeOf := funext fun j => by
  rw [shapeOf_eq_taskOf, h.tasks, shapeOf_eq_taskOf]

/-- Changing the marks of a node. -/
theorem reflagged_change (h : p.Linked) (f : Node → Node) (hf : ∀ n, Node.SameWork (f n) n)
    (marks : ∀ n, (f n).isOutput = n.isOutput) :
    Ends (change id f) (fun _ q => Reflagged p q)
      (fun e q => e.closes = false ∧ Reflagged p q ∧ ¬ p.contains id = true) p := by
  rw [ends_change]
  exact ⟨fun _ _ => reflagged_update hf h id marks, fun hnone =>
    ⟨rfl, .refl h, node?_eq_none.mp hnone⟩⟩

/-- Changing a node so that its flags stay. -/
theorem touched_change (h : p.Linked) (f : Node → Node) (hf : ∀ n, Node.SameWork (f n) n)
    (marks : ∀ n, (f n).isOutput = n.isOutput)
    (flags : ∀ n, p.node? id = some n → (f n).flags = n.flags) :
    Ends (change id f) (fun _ q => Touched p q)
      (fun e q => e.closes = false ∧ Touched p q ∧ ¬ p.contains id = true) p := by
  rw [ends_change]
  refine ⟨fun n hn => ⟨reflagged_update hf h id marks, funext fun j => ?_⟩, fun hnone =>
    ⟨rfl, .refl h, node?_eq_none.mp hnone⟩⟩
  rw [flagsOf, node?_update fun n => (hf n).id, flagsOf]
  split
  case isTrue hj =>
    rw [hj, hn, Option.map_map]
    exact congrArg some (flags n hn)
  case isFalse => rfl

/-- Changing the mark of the frontier. -/
theorem frontier_change (h : p.Linked) (frontier : Bool) :
    Ends (change id fun n => { n with isFrontier := frontier }) (fun _ q => Touched p q)
      (fun e q => e.closes = false ∧ Touched p q ∧ ¬ p.contains id = true) p :=
  touched_change h _ (fun _ => ⟨⟨rfl, rfl, rfl, rfl, rfl⟩, rfl⟩) (fun _ => rfl) fun _ _ => rfl

/-- Handing flags on leaves the graph, linked or not, and fails only if one of the nodes is not
there. -/
theorem sameWiring_inheritFlags :
    Ends (inheritFlags source id) (fun _ q => SameWiring p q)
      (fun _ _ => ¬ (p.contains source = true ∧ p.contains id = true)) p := by
  rw [inheritFlags, ends_bind, ends_node]
  refine ⟨fun s _ => ?_, fun hnone hc => node?_eq_none.mp hnone hc.1⟩
  rw [ends_bind]
  refine (sameWiring_change id (by exact fun _ => ⟨rfl, rfl, rfl, rfl, rfl⟩)).imp (fun _ q hq => ?_)
    fun _ _ hno hc => hno hc.2
  split
  · rw [ends_bind]
    refine (sameWiring_change id (by exact fun _ => ⟨rfl, rfl, rfl, rfl, rfl⟩)).imp (fun _ r hr => ?_)
      fun _ _ hno hc => hno (hq.contains ▸ hc.2)
    rw [ends_bind, ends_get]
    exact (sameWiring_change source (by exact fun _ => ⟨rfl, rfl, rfl, rfl, rfl⟩)).imp
      (fun _ t ht => (hq.trans hr).trans ht)
      fun _ _ hno hc => hno ((hq.trans hr).contains ▸ hc.1)
  · exact hq

/-- **Handing flags on** changes those of one node, and the frontier. -/
theorem inheritFlags_effect (h : p.Linked) :
    Ends (inheritFlags source id)
      (fun _ q => Reflagged p q ∧
        ∀ j, q.flagsOf j = if j = id then p.flagsOf source else p.flagsOf j)
      (fun e q => e.closes = false ∧ Reflagged p q) p := by
  rw [inheritFlags, ends_bind, ends_node]
  refine ⟨fun s hs => ?_, fun _ => ⟨rfl, .refl h⟩⟩
  rw [ends_bind, ends_change]
  refine ⟨fun n hn => ?_, fun _ => ⟨rfl, .refl h⟩⟩
  let f : Node → Node := fun n => { n with isConstant := s.isConstant, isDataFlow := s.isDataFlow }
  have hq : Reflagged p (p.update id f) :=
    reflagged_update (f := f) (fun _ => ⟨⟨rfl, rfl, rfl, rfl, rfl⟩, rfl⟩) h id fun _ => rfl
  have hflags : ∀ j, (p.update id f).flagsOf j
      = if j = id then p.flagsOf source else p.flagsOf j := fun j => by
    rw [flagsOf, node?_update (f := f) fun _ => rfl]
    split
    case isTrue hj =>
      rw [hj, hn, flagsOf, hs]
      rfl
    case isFalse => rfl
  split
  · rw [ends_bind]
    refine (frontier_change hq.kept.linked true).imp (fun _ r hr => ?_)
      fun e r hr => ⟨hr.1, hq.trans hr.2.1.toReflagged⟩
    have hqr := hq.trans hr.toReflagged
    rw [ends_bind, ends_get]
    exact (frontier_change hr.kept.linked ((r.usersOf source).any r.isVariable)).imp
      (fun _ t ht => ⟨hqr.trans ht.toReflagged, fun j => by rw [ht.flags, hr.flags, hflags]⟩)
      fun e t ht => ⟨ht.1, hqr.trans ht.2.1.toReflagged⟩
  · exact ⟨hq, hflags⟩

/-- `q` is `p` with the node of a primitive that was to read a list and refuses one of it: it has all
its argument slots, reads what comes in front of that, and has no place in the order. -/
structure Abandoned (p q : Program) (prim : Primitive) (reads : List String) (e : CompileError) :
    Prop where
  kept : Kept p q
  free : ¬ p.contains prim.id = true
  core : ∀ j, q.coreOf j = if j = prim.id then some (Node.ofPrimitive prim).core else p.coreOf j
  args : ∀ j, q.argsOf j = if j = prim.id then prim.arguments else p.argsOf j
  stopped : ∃ done dep rest, reads = done ++ dep :: rest ∧
    (∀ d ∈ done, d ≠ prim.id ∧ p.contains d = true) ∧ Refuses p prim.id dep e ∧
    ∀ j, q.depsOf j = if j = prim.id then done else p.depsOf j
  order : q.order = p.order
  outputs : q.outputs = p.outputs

theorem Abandoned.closes {reads : List String} {e : CompileError}
    (h : Abandoned p q prim reads e) : e.closes = false := by
  obtain ⟨_, _, _, -, -, hrefuses, -⟩ := h.stopped
  exact hrefuses.closes

/-- A new node that refuses a dependency is left where it is. -/
theorem Halted.abandoned {reads : List String} {e : CompileError} (h : p.Linked)
    (hfree : ¬ p.contains prim.id = true)
    (hq : Halted (p.withNew prim) q prim.id reads e) : Abandoned p q prim reads e := by
  obtain ⟨hrew, hargs, done, dep, rest, hsplit, hok, hrefuses, hdeps⟩ := hq
  refine ⟨(kept_withNew h hfree).trans hrew.kept, hfree, fun j => ?_, fun j => ?_,
    ⟨done, dep, rest, hsplit, fun d hd => ?_, ?_, fun j => ?_⟩, hrew.order, hrew.outputs⟩
  · rw [hrew.core]
    exact coreOf_withNew hfree j
  · rw [hargs]
    exact argsOf_withNew hfree j
  · exact ⟨(hok d hd).1, ((contains_withNew hfree).mp (hok d hd).2).resolve_left (hok d hd).1⟩
  · exact hrefuses.imp_right fun hr =>
      ⟨fun hc => hr.1 ((contains_withNew hfree).mpr (Or.inr hc)), hr.2⟩
  · rw [hdeps, depsOf_withNew hfree]
    split
    case isTrue hj => rw [hj, depsOf_of_not_contains hfree, List.nil_append]
    case isFalse => rfl

/-- The program after the node of a primitive was put where it belongs. -/
theorem placeIntermediate_effect (h : p.Linked) :
    Ends (placeIntermediate prim source)
      (fun _ q => (q = p ∧ p.isReorder prim.id ∧
          (p.depsOf prim.id)[0]? = some source) ∨
        (Kept p q ∧ ¬ p.contains prim.id = true ∧ source ∈ prim.arguments ∧
          (∀ a ∈ prim.arguments, p.contains a = true) ∧
          (∀ j, q.coreOf j
            = if j = prim.id then some (Node.ofPrimitive prim).core else p.coreOf j) ∧
          (∀ j, q.depsOf j = if j = prim.id then prim.arguments else p.depsOf j) ∧
          (∀ j, q.argsOf j = if j = prim.id then prim.arguments else p.argsOf j) ∧
          q.order = p.order.insertAfter source prim.id))
      (fun e q => (q = p ∧ e.closes = false ∧
          (p.contains prim.id = true ∨ source ∉ prim.arguments)) ∨
        (source ∈ prim.arguments ∧ Abandoned p q prim prim.arguments e)) p := by
  rw [placeIntermediate, ends_bind, ends_get]
  split
  case h_1 existing hex =>
    split
    · exact Or.inl ⟨rfl, rfl, Or.inl (contains_of_node? hex)⟩
    case isFalse hsame =>
      rw [Bool.or_eq_true, not_or, decide_eq_true_eq, decide_eq_true_eq, not_not, not_not] at hsame
      refine Or.inl ⟨rfl, isReorder_of_node? hex hsame.1, ?_⟩
      rw [depsOf_of_node? hex]
      exact hsame.2
  case h_2 hnone =>
    have hnew := node?_eq_none.mp hnone
    split
    case isTrue hcons => exact Or.inl ⟨rfl, rfl, Or.inr (by simpa using hcons)⟩
    case isFalse hcons =>
      have hsource : source ∈ prim.arguments := by simpa using hcons
      rw [ends_bind]
      refine (create_effect prim).imp_good fun _ q hq => ?_
      obtain ⟨hn, -⟩ | ⟨-, -, rfl⟩ := hq
      · exact absurd (contains_of_node? hn) hnew
      have hkept := kept_withNew h hnew
      have hthere := (contains_withNew hnew).mpr (Or.inl rfl)
      rw [ends_bind]
      refine (connectAll_effect hkept.linked hthere prim.arguments).imp (fun _ r hr => ?_)
        fun e r hr => Or.inr ⟨hsource, hr.abandoned h hnew⟩
      obtain ⟨hrew, hargs, -, hknown, hdeps⟩ := hr
      have hknown' : ∀ a ∈ prim.arguments, p.contains a = true := fun a ha =>
        ((contains_withNew hnew).mp (hknown a ha).2).resolve_left (hknown a ha).1
      rw [ends_modify]
      refine Or.inr ⟨(hkept.trans hrew.kept).trans (kept_setOrder hrew.linked ?_ fun x hx => ?_),
        hnew, hsource, hknown', fun j => ?_, fun j => ?_, fun j => ?_, ?_⟩
      · exact Order.nodup_insertAfter hrew.linked.order_nodup
      · rcases Order.mem_insertAfter.mp hx with hx | ⟨rfl, -⟩
        · exact hrew.linked.order_contains x hx
        · rw [hrew.contains]
          exact hthere
      · exact (congrFun hrew.core j).trans (coreOf_withNew hnew j)
      · refine (hdeps j).trans ?_
        rw [depsOf_withNew hnew]
        split
        case isTrue hj => rw [hj, depsOf_of_not_contains hnew, List.nil_append]
        case isFalse => rfl
      · exact (congrFun hargs j).trans (argsOf_withNew hnew j)
      · exact congrArg (fun o : Order => o.insertAfter source prim.id) hrew.order

/-- **Inserting** leads one dependency through the node of a primitive.  A reorder must not be put
in front of itself. -/
theorem addIntermediate_effect (h : p.Linked)
    (hself : prim.id = next → ¬ p.isReorder next) :
    Ends (addIntermediate prim next index)
      (fun _ q => ∃ source, Inserted p q prim next index source ∨
        Shared p q prim.id next index source)
      (fun e q => e.closes = false ∧ Kept p q) p := by
  rw [addIntermediate, ends_bind, ends_node]
  refine ⟨fun n hn => ?_, fun _ => ⟨rfl, .refl h⟩⟩
  have hds := depsOf_of_node? hn
  split
  case h_1 => exact ⟨rfl, .refl h⟩
  case h_2 source hsource =>
    have hsource' : (p.depsOf next)[index]? = some source := hds ▸ hsource
    rw [ends_bind]
    refine (placeIntermediate_effect h).imp (fun _ q hq => ?_) fun e q hq => ?_
    case refine_2 =>
      obtain ⟨rfl, hcloses, -⟩ | ⟨-, hq⟩ := hq
      · exact ⟨hcloses, .refl h⟩
      · exact ⟨hq.closes, hq.kept⟩
    have hkept : Kept p q := by
      obtain ⟨rfl, -⟩ | ⟨hk, -⟩ := hq
      · exact .refl h
      · exact hk
    have hne : prim.id ≠ next := by
      intro he
      obtain ⟨-, hr, -⟩ | ⟨-, hfree, -⟩ := hq
      · exact hself he (he ▸ hr)
      · exact hfree (he ▸ contains_of_node? hn)
    rw [ends_bind]
    refine replaceDependency_effect.imp (fun _ r hr => ?_)
      fun e r hr => ⟨hr.1, hr.2.1 ▸ hkept⟩
    obtain ⟨hrew, -, -, -, halign, -, -, hdeps⟩ := hr
    have hrew := hrew hkept.linked hne
    refine (inheritFlags_effect hrew.linked).imp (fun _ s hs => ⟨source, ?_⟩)
      fun e s hs => ⟨hs.1, (hkept.trans hrew.kept).trans hs.2.kept⟩
    obtain ⟨hs, hflags⟩ := hs
    have hkept' := (hkept.trans hrew.kept).trans hs.kept
    have htasks : s.taskOf = q.taskOf := hs.tasks.trans (funext fun j => by
      rw [taskOf_eq_coreOf, taskOf_eq_coreOf, hrew.core])
    have hplans : s.planOf = q.planOf := hs.plans.trans (funext fun j => by
      rw [planOf_eq_coreOf, planOf_eq_coreOf, hrew.core])
    have hmarks : s.isMarked = q.isMarked := hs.marks.trans (funext hrew.isMarked)
    have hflags : ∀ j, s.flagsOf j = if j = prim.id then q.flagsOf source else q.flagsOf j :=
      fun j => by rw [hflags, flagsOf_eq_coreOf, flagsOf_eq_coreOf, hrew.core, flagsOf_eq_coreOf,
        flagsOf_eq_coreOf]
    have halign' : ∀ j, q.argsOf j = q.depsOf j → s.argsOf j = s.depsOf j := fun j hj => by
      rw [hs.args, hs.deps, halign j hj]
    have hcontains : s.contains = q.contains := hs.contains.trans hrew.contains
    obtain ⟨rfl, hreorder, hreads⟩ | ⟨-, hfree, hcons, hknown, hcore, hdeps', hargs', horder⟩ := hq
    · refine Or.inr ⟨hkept', hsource', hreorder, hreads, hs.ids.trans hrew.ids, htasks, hplans,
        hmarks, hflags, fun j => ?_, halign', ?_⟩
      · rw [hs.deps, hdeps]
      · rw [hs.order, hrew.order]
    · refine Or.inl ⟨hkept', hsource', hfree, hcons, hknown, fun j => ?_, fun j => ?_, ?_, ?_,
        fun j => ?_, fun j => ?_, fun j hj => halign' j ?_, ?_⟩
      · rw [hcontains, contains_eq_isSome_coreOf, hcore, contains_eq_isSome_coreOf]
        split
        case isTrue hj => simp [hj]
        case isFalse hj => simp [hj]
      · rw [htasks, taskOf_eq_coreOf, hcore, taskOf_eq_coreOf]
        split
        · rw [Option.map_some, Node.task_core]
          rfl
        · rfl
      · rw [hplans]
        funext j
        rw [planOf_eq_coreOf, hcore, planOf_eq_coreOf]
        split
        case isTrue hj =>
          rw [hj, coreOf, node?_eq_none.mpr hfree]
          rfl
        case isFalse => rfl
      · rw [hmarks]
        funext j
        rw [isMarked_eq_coreOf, hcore, isMarked_eq_coreOf]
        split
        case isTrue hj =>
          rw [hj, coreOf, node?_eq_none.mpr hfree]
          rfl
        case isFalse => rfl
      · have hold : ∀ i, i ≠ prim.id → q.flagsOf i = p.flagsOf i := fun i hi => by
          rw [flagsOf_eq_coreOf, hcore, if_neg hi, ← flagsOf_eq_coreOf]
        have hne' : source ≠ prim.id := fun he => hfree (he ▸ hknown source hcons)
        rw [hflags, hold source hne']
        split
        · rfl
        case isFalse hj => exact hold j hj
      · rw [hs.deps, hdeps, hdeps']
        by_cases hj : j = prim.id
        · rw [if_pos hj, if_neg (hj ▸ hne), if_pos hj]
        · rw [if_neg hj, if_neg hj]
      · rw [hargs', hdeps']
        by_cases hjp : j = prim.id
        · rw [if_pos hjp, if_pos hjp]
        · rw [if_neg hjp, if_neg hjp, hj.resolve_left hjp]
      · rw [hs.order, hrew.order, horder]

end NetPlan.Edit

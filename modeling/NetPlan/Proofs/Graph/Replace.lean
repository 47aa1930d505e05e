import NetPlan.Proofs.Graph.Insert
import NetPlan.Proofs.Graph.View

/-!
# Proofs/Graph/Replace — a node in the place of another

`replace` builds the new node under an id of its own, moves the users over, drops the old node and
hands its id and its place on.  At the end (`Replaced`) one node has another primitive and other
dependencies, and every other node reads what it read.
-/

namespace NetPlan.Edit

open Program

variable {p q r : Program} {old temp : String} {prim : Primitive}

/-- Users, flags and place of a node on their way to another. -/
def flagged (n : Node) (m : Node) : Node :=
  { m with
    isOutput := n.isOutput
    isConstant := n.isConstant
    isFrontier := n.isFrontier
    isDataFlow := n.isDataFlow }

/-- The core of a primitive's node in the place of another: it has the id and the flags of that. -/
def standIn (prim : Primitive) (n : Node) : Node :=
  flagged n (Node.ofPrimitive { prim with id := n.id }).core

/-- `q` is `p` with another primitive and other dependencies in one place. -/
structure Replaced (p q : Program) (old : String) (prim : Primitive) (reads : List String) :
    Prop where
  kept : Kept p q
  there : p.contains old = true
  known : ∀ d ∈ reads, p.contains d = true
  core : ∀ j, q.coreOf j = if j = old then (p.coreOf old).map (standIn prim) else p.coreOf j
  deps : ∀ j, q.depsOf j = if j = old then reads.filter (· ≠ old) else p.depsOf j
  args : ∀ j, (if j = old then prim.arguments = reads.filter (· ≠ old)
    else p.argsOf j = p.depsOf j) → q.argsOf j = q.depsOf j
  thinned : Thinned p q reads
  order : q.order.ids = p.order.ids

namespace Replaced

variable {reads : List String} (h : Replaced p q old prim reads)
include h

theorem exists_core : ∃ n, n.id = old ∧ p.coreOf old = some n := by
  obtain ⟨n, hn⟩ := contains_iff.mp h.there
  exact ⟨n.core, n.core_id.trans (id_of_node? hn), coreOf_of_node? hn⟩

theorem contains : q.contains = p.contains := funext fun j => by
  rw [contains_eq_isSome_coreOf, h.core, contains_eq_isSome_coreOf]
  split
  case isTrue hj => rw [Option.isSome_map, hj]
  case isFalse => rfl

theorem tasks (j : String) : q.taskOf j
    = if j = old then some ⟨prim.padding, prim.operation.shape, Activation.none⟩
      else p.taskOf j := by
  rw [taskOf_eq_coreOf, h.core, taskOf_eq_coreOf]
  split
  · obtain ⟨n, -, hn⟩ := h.exists_core
    rw [hn, Option.map_some, Option.map_some, standIn]
    exact congrArg some (Node.ofPrimitive { prim with id := n.id }).task_core
  · rfl

theorem shapes (j : String) :
    q.shapeOf j = if j = old then some prim.operation.shape else p.shapeOf j := by
  rw [shapeOf_eq_taskOf, h.tasks, shapeOf_eq_taskOf]
  split <;> rfl

theorem plans (j : String) : q.planOf j = if j = old then none else p.planOf j := by
  rw [planOf_eq_coreOf, h.core, planOf_eq_coreOf]
  split
  · obtain ⟨n, -, hn⟩ := h.exists_core
    rw [hn]
    rfl
  · rfl

theorem marks : q.isMarked = p.isMarked := funext fun j => by
  rw [isMarked_eq_coreOf, h.core, isMarked_eq_coreOf]
  split
  case isTrue hj =>
    rw [Option.map_map, hj]
    rfl
  case isFalse => rfl

theorem flags : q.flagsOf = p.flagsOf := funext fun j => by
  rw [flagsOf_eq_coreOf, h.core, flagsOf_eq_coreOf]
  split
  case isTrue hj =>
    rw [Option.map_map, hj]
    rfl
  case isFalse => rfl

end Replaced

/-! ## The steps -/

theorem map_swap_swap {l : List String} (hl : temp ∉ l) :
    (l.map (swap old temp)).map (swap temp old) = l := by
  rw [List.map_map]
  refine (List.map_congr_left fun d hd => ?_).trans (List.map_id l)
  exact swap_swap fun he : d = temp => hl (he ▸ hd)

/-- The new node gets behind the old one, and then its id. -/
theorem ids_order_replaced {o : Order} (hnodup : o.ids.Nodup) (htemp : temp ∉ o.ids)
    (hne : temp ≠ old) :
    (((o.insertAfter old temp).erase old).ids).map (swap temp old) = o.ids := by
  change (((o.insertAfter old temp).ids.filter (· ≠ old)).map (swap temp old)) = o.ids
  by_cases hold : old ∈ o.ids
  · rw [Order.ids_insertAfter_new htemp hold]
    obtain ⟨a, b, hab, hna, hnb, -⟩ := Order.exists_split hnodup hold
    rw [hab] at htemp ⊢
    rw [Order.placeAfter_split hna hnb]
    have hma : a.map (swap temp old) = a := map_swap_of_not_mem fun hmem =>
      htemp (List.mem_append_left _ hmem)
    have hmb : b.map (swap temp old) = b := map_swap_of_not_mem fun hmem =>
      htemp (List.mem_append_right _ (List.mem_cons_of_mem _ hmem))
    rw [List.filter_append, Order.filter_ne_of_not_mem hna, List.filter_cons_of_neg (by simp),
      List.filter_cons_of_pos (by simpa using hne), Order.filter_ne_of_not_mem hnb, List.map_append,
      List.map_cons, hma, hmb, swap_self]
  · have hsame : (o.insertAfter old temp).ids = o.ids := by
      rw [Order.ids_insertAfter, if_neg fun h => hold h.2]
    rw [hsame, Order.filter_ne_of_not_mem hold, map_swap_of_not_mem htemp]

/-- The users of a node, moved over to another one by one. -/
theorem moveUsers_effect {new : String} (users : List String) :
    Ends (forIn users PUnit.unit fun user _ => do
        replaceDependencyOf user old new
        pure (ForInStep.yield PUnit.unit))
      (fun _ q => (p.Linked → new ∉ users → Rewired p q) ∧ Framed p q ∧
        (∀ j, p.argsOf j = p.depsOf j → q.argsOf j = q.depsOf j) ∧
        Thinned p q [new] ∧ (q.usersOf new).Sublist (p.usersOf new ++ users) ∧
        ∀ j, q.depsOf j = if j ∈ users then (p.depsOf j).map (swap old new) else p.depsOf j)
      (fun e q => e.closes = false ∧ (p.Linked → new ∉ users → Rewired p q) ∧
        (p.contains new = true → ∃ u ∈ users, ¬ p.contains u = true)) p := by
  -- users that occur twice are moved once: the second time there is nothing left to move
  refine ends_forIn (fun rest q => (p.Linked → new ∉ users → Rewired p q) ∧ Framed p q ∧
      (∀ j, p.argsOf j = p.depsOf j → q.argsOf j = q.depsOf j) ∧ Thinned p q [new] ∧
      ∃ done, users = done ++ rest ∧ (q.usersOf new).Sublist (p.usersOf new ++ done) ∧
        ∀ j, q.depsOf j = if j ∈ done then (p.depsOf j).map (swap old new) else p.depsOf j)
    (fun user rest q hq => ?_) (fun q hq => ?_) users p
    ⟨fun h _ => .refl h, .refl p, fun _ hj => hj, .refl p _, [], rfl, by simp, fun j => by simp⟩
  · obtain ⟨hrew, hframe, halign, hthin, done, hsplit, hjoined, hdeps⟩ := hq
    have hne : new ∉ users → new ≠ user := fun hnew he => hnew (by rw [hsplit, he]; simp)
    rw [ends_bind]
    refine replaceDependencyOf_effect.imp (fun _ r hr => ⟨rfl, ?_⟩) fun e r hr =>
      ⟨hr.1, fun h hnew => (hrew h hnew).trans (hr.2.1 (hrew h hnew).linked fun _ => hne hnew),
        fun hc => ?_⟩
    case refine_2 =>
      refine ⟨user, by simp [hsplit], ?_⟩
      rw [← hframe.contains] at hc ⊢
      exact hr.2.2 hc
    obtain ⟨hrew', hframe', halign', hthin', hjoin', hdeps'⟩ := hr
    refine ⟨fun h hnew => (hrew h hnew).trans (hrew' (hrew h hnew).linked fun _ => hne hnew),
      hframe.trans hframe', fun j hj => halign' j (halign j hj),
      hthin.trans hthin', done ++ [user], by simp [hsplit], ?_, fun j => ?_⟩
    · rw [← List.append_assoc]
      rcases hjoin' with hsame | ⟨-, hmore⟩
      · rw [hsame]
        exact hjoined.trans (List.sublist_append_left _ _)
      · rw [hmore]
        exact hjoined.append (List.Sublist.refl _)
    rw [hdeps', hdeps]
    by_cases hj : j = user
    · subst hj
      by_cases hd : j ∈ done
      · rw [if_pos rfl, if_pos hd, if_pos (by simp), List.map_map]
        refine List.map_congr_left fun d _ => ?_
        change swap old new (swap old new d) = swap old new d
        unfold swap
        grind
      · rw [if_pos rfl, if_neg hd, if_pos (by simp)]
        rfl
    · simp [hj]
  · obtain ⟨hrew, hframe, halign, hthin, done, hsplit, hjoined, hdeps⟩ := hq
    rw [List.append_nil] at hsplit
    exact ⟨hrew, hframe, halign, hthin, hsplit ▸ hjoined, hsplit ▸ hdeps⟩

/-- The new node stands beside the old one, and the users read it. -/
structure Staged (p q : Program) (old temp : String) (prim : Primitive) (reads : List String) :
    Prop where
  kept : Kept p q
  free : ¬ p.contains temp = true
  known : ∀ d ∈ reads, p.contains d = true
  core : ∀ j, q.coreOf j
    = if j = temp then some (Node.ofPrimitive { prim with id := temp }).core else p.coreOf j
  deps : ∀ j, q.depsOf j = if j = temp then reads else (p.depsOf j).map (swap old temp)
  args : ∀ j, (if j = temp then prim.arguments = reads else p.argsOf j = p.depsOf j) →
    q.argsOf j = q.depsOf j
  thinned : Thinned p q (temp :: reads)
  users : temp ∉ reads → (q.usersOf temp).Sublist (p.usersOf old)
  order : q.order = p.order
  outputs : q.outputs = p.outputs

/-- The first half of a replacement. -/
theorem stage_effect {n : Node} {reads : List String} (h : p.Linked) (hn : p.node? old = some n)
    (hfree : ¬ p.contains temp = true) {good : Unit → Program → Prop}
    {k : Edit Unit}
    (hk : ∀ q, Staged p q old temp prim reads →
      Ends k good (fun _ _ => False) q) :
    Ends (do
        let _ ← create { prim with id := temp }
        connectAll reads temp
        for user in n.users do
          replaceDependencyOf user old temp
        k) good (fun e q => Abandoned p q { prim with id := temp } reads e) p := by
  rw [ends_bind]
  refine (create_effect { prim with id := temp }).imp_good fun _ q hq => ?_
  obtain ⟨hn', -⟩ | ⟨-, -, rfl⟩ := hq
  · exact absurd (contains_of_node? hn') hfree
  have hnew : Kept p (p.withNew { prim with id := temp }) := kept_withNew h hfree
  rw [ends_bind]
  refine (connectAll_effect hnew.linked ((contains_withNew hfree).mpr (Or.inl rfl)) reads).imp
    (fun _ q hq => ?_) fun e q hq => hq.abandoned h hfree
  obtain ⟨hcon, hargs, hthin, hknown, hdeps⟩ := hq
  have husers : n.users = p.usersOf old := (usersOf_of_node? hn).symm
  have htemp : temp ∉ n.users := fun hu => hfree (h.contains_user (husers ▸ hu))
  rw [ends_bind]
  refine (moveUsers_effect n.users).imp
    (fun _ r hr => (hk r ?_).imp (fun _ _ hs => hs) fun _ _ hf => hf.elim) fun e r hr => ?_
  case refine_2 =>
    have hthere : ∀ j, j = temp ∨ p.contains j = true → q.contains j = true := fun j hj => by
      rw [hcon.contains]
      exact (contains_withNew hfree).mpr hj
    obtain ⟨u, hu, hmissing⟩ := hr.2.2 (hthere temp (Or.inl rfl))
    exact absurd (hthere u (Or.inr (h.contains_user (husers ▸ hu)))) hmissing
  obtain ⟨hmove, -, halign, hthin', hmoved, hdeps'⟩ := hr
  have hmove := hmove hcon.linked htemp
  have hthinned : ∀ j, j ∉ reads → (q.usersOf j).Sublist (p.usersOf j) := fun j hj => by
    have hsub := hthin j hj
    rwa [usersOf_withNew hfree] at hsub
  have hdeps'' : ∀ j, r.depsOf j
      = if j = temp then reads else (p.depsOf j).map (swap old temp) := by
    intro j
    rw [hdeps', hdeps, depsOf_withNew hfree]
    by_cases hj : j = temp
    · rw [if_pos hj, if_pos hj, if_neg (hj ▸ htemp), hj, depsOf_of_not_contains hfree,
        List.nil_append]
    · rw [if_neg hj, if_neg hj]
      split
      · rfl
      case isFalse hu =>
        rw [husers, ← h.edges] at hu
        exact (map_swap_of_not_mem hu).symm
  refine ⟨hnew.trans (hcon.kept.trans hmove.kept), hfree, fun d hd => ?_, fun j => ?_, hdeps'',
    fun j hj => halign j ?_, fun j hj => ?_, fun ht => ?_, hmove.order.trans hcon.order,
    hmove.outputs.trans hcon.outputs⟩
  · exact ((contains_withNew hfree).mp (hknown d hd).2).resolve_left (hknown d hd).1
  · rw [hmove.core, hcon.core]
    exact coreOf_withNew hfree j
  · rw [hargs, hdeps, depsOf_withNew hfree, argsOf_withNew hfree]
    change (if j = temp then prim.arguments else p.argsOf j) = _
    by_cases hjt : j = temp
    · rw [if_pos hjt] at hj ⊢
      rw [if_pos hjt, hjt, depsOf_of_not_contains hfree, List.nil_append, hj]
    · rw [if_neg hjt] at hj ⊢
      rw [if_neg hjt, hj]
  · rw [List.mem_cons, not_or] at hj
    exact (hthin' j (by simpa using hj.1)).trans (hthinned j hj.2)
  · have hnone : q.usersOf temp = [] :=
      List.sublist_nil.mp (usersOf_of_not_contains hfree ▸ hthinned temp ht)
    rw [hnone, List.nil_append] at hmoved
    rwa [← husers]

theorem sameWork_flagged (n m : Node) : Node.SameWork (flagged n m) m :=
  ⟨⟨rfl, rfl, rfl, rfl, rfl⟩, rfl⟩

/-- The program without the replaced node, before the other one gets its id. -/
def dropReplaced (p : Program) (n : Node) (old temp : String) : Program :=
  let outputs := p.outputs.filter (· ≠ old)
  { p.dropNode old with
    order := p.order.erase old
    inputs := p.inputs.filter (· ≠ old)
    outputs := if n.isOutput then outputs ++ [temp] else outputs }

/-- The second half of a replacement, up to the id. -/
theorem kept_dropReplaced {n : Node} (hn : p.node? old = some n)
    (hfree : ¬ p.contains temp = true) (hl : q.Linked) (hdeps : q.depsOf old = [])
    (hread : ∀ u, old ∉ q.depsOf u) (hc : p.Coherent → q.Coherent)
    (hb : q.behaviours = p.behaviours) (houtputs : q.outputs = p.outputs)
    (hmarks : ∀ j, q.isMarked j = if j = temp then n.isOutput else p.isMarked j) :
    Kept p (dropReplaced q n old temp) := by
  have hdrop := kept_without hl hdeps hread
  have hl' : (dropReplaced q n old temp).Linked :=
    hdrop.linked.of_views rfl rfl rfl rfl hdrop.linked.order_nodup hdrop.linked.order_contains
  refine ⟨hl', fun hp => (hdrop.coherent (hc hp)).congr rfl rfl, fun hw => ⟨hl', ?_, fun j => ?_⟩,
    hb⟩
  all_goals
    have htemp : temp ∉ p.outputs := fun hmem => by
      have hmark := (hw.mem_outputs temp).mp hmem
      rw [isMarked_of_not_contains hfree] at hmark
      cases hmark
    have houts : (dropReplaced q n old temp).outputs
        = if n.isOutput then p.outputs.filter (· ≠ old) ++ [temp]
          else p.outputs.filter (· ≠ old) := by
      rw [← houtputs]
      rfl
    rw [houts]
  · split
    · refine List.concat_eq_append ▸ (hw.outputs_nodup.filter _).concat fun hmem => ?_
      exact htemp (List.mem_filter.mp hmem).1
    · exact hw.outputs_nodup.filter _
  · have hmark : (dropReplaced q n old temp).isMarked j
        = if j = old then false else if j = temp then n.isOutput else p.isMarked j := by
      rw [← hmarks]
      exact isMarked_without q old j
    have hne : temp ≠ old := fun he => hfree (he ▸ contains_of_node? hn)
    have hout := hw.mem_outputs j
    rw [hmark]
    by_cases hj : j = temp
    · subst hj
      cases hno : n.isOutput <;> simp [hne, htemp]
    · cases hno : n.isOutput <;> by_cases hjo : j = old <;> simp [hj, hjo, hout, hne.symm]

/-- The last steps of a replacement: the old node goes, and the new one gets its id. -/
theorem handOver_effect {n : Node} {reads : List String} {b : Program} (h : p.Linked)
    (hn : p.node? old = some n) (hq : Staged p q old temp prim reads)
    (hreads : prim.arguments = reads.filter (· ≠ old) → prim.arguments = reads)
    (hiso : Rewired ((q.update temp (flagged n)).setOrder (q.order.insertAfter old temp)) b)
    (hargs : b.argsOf = q.argsOf) (hthin : Thinned q b [])
    (hdeps : ∀ j, b.depsOf j = if j = old then [] else (q.depsOf j).filter (· ≠ old)) :
    Ends (do
        modify (dropReplaced · n old temp)
        rename temp old) (fun _ r => Replaced p r old prim reads) (fun _ _ => False) b := by
  have hold := contains_of_node? hn
  have hne : temp ≠ old := fun he => hq.free (he ▸ hold)
  have hwork : ∀ m : Node, Node.SameWork (if m.id = temp then flagged n m else m) m := fun m =>
    (sameWork_flagged n m).ite (m.id = temp)
  have hplace := fun m => (hwork m).toSamePlace
  have hcore : ∀ j, b.coreOf j
      = if j = temp then some (flagged n (Node.ofPrimitive { prim with id := temp }).core)
        else p.coreOf j := fun j => by
    rw [hiso.core]
    change ((q.update temp (flagged n)).node? j).map Node.core = _
    rw [node?_update (f := flagged n) fun _ => rfl]
    have hqj := hq.core j
    split
    case isTrue hj =>
      rw [if_pos hj, coreOf] at hqj
      rw [Option.map_map]
      exact (Option.map_map (flagged n) Node.core (q.node? j)).symm.trans
        (congrArg (Option.map (flagged n)) hqj)
    case isFalse hj => rwa [if_neg hj] at hqj
  have hread : ∀ u, old ∉ b.depsOf u := fun u => by
    rw [hdeps]
    split <;> simp
  have hmarks : ∀ j, b.isMarked j = if j = temp then n.isOutput else p.isMarked j := fun j => by
    rw [isMarked_eq_coreOf, hcore, isMarked_eq_coreOf]
    split <;> rfl
  have hkept : Kept p (dropReplaced b n old temp) := by
    refine kept_dropReplaced hn hq.free hiso.linked (by rw [hdeps, if_pos rfl]) hread
      (fun hc => hiso.coherent ?_) (hiso.behaviours.trans hq.kept.behaviours)
      (hiso.outputs.trans hq.outputs) hmarks
    exact (coherent_updateAll hplace (hq.kept.coherent hc)).congr rfl rfl
  have hdrop : ∀ {α : Type} (v : Option Node → α) (i : String),
      v ((dropReplaced b n old temp).node? i) = if i = old then v none else v (b.node? i) :=
    fun v i => view_without v b old i
  rw [ends_bind, ends_modify]
  refine (rename_effect hkept.linked).imp (fun _ r hr => ?_) fun e r hr => ?_
  · obtain ⟨he, -⟩ | hr := hr
    · exact absurd he hne
    have hrcore : ∀ j, r.coreOf j
        = if j = old then (p.coreOf old).map (standIn prim) else p.coreOf j := fun j => by
      have hx := hdrop (Option.map Node.core)
      rw [hr.core, coreOf, hx, coreOf, hx, ← coreOf, ← coreOf, hcore, hcore, if_pos rfl]
      by_cases hj : j = old
      · have hstand : standIn prim n.core
            = flagged n (Node.ofPrimitive { prim with id := old }).core := by
          rw [← id_of_node? hn]
          rfl
        rw [if_pos hj, if_pos hj, if_neg hne, coreOf_of_node? hn, Option.map_some, Option.map_some,
          hstand]
        rfl
      · rw [if_neg hj, if_neg hj, if_neg hj]
        split
        case isTrue hjt => rw [hjt, coreOf, node?_eq_none.mpr hq.free, Option.map_none]
        case isFalse => rfl
    have hcontains : r.contains = p.contains := funext fun j => by
      rw [contains_eq_isSome_coreOf, hrcore, contains_eq_isSome_coreOf]
      split
      case isTrue hj => rw [Option.isSome_map, hj]
      case isFalse => rfl
    have hxdeps : ∀ j, j ≠ old → (dropReplaced b n old temp).depsOf j
        = if j = temp then reads.filter (· ≠ old) else (p.depsOf j).map (swap old temp) := by
      intro j hj
      have hx := hdrop Node.depsIn j
      rw [if_neg hj] at hx
      refine hx.trans ?_
      change b.depsOf j = _
      rw [hdeps, if_neg hj, hq.deps]
      split
      · rfl
      · refine Order.filter_ne_of_not_mem fun hmem => ?_
        rcases mem_map_swap.mp hmem with ⟨he, -⟩ | ⟨ho, -⟩
        · exact hne he.symm
        · exact ho rfl
    have hrdeps : ∀ j, r.depsOf j = if j = old then reads.filter (· ≠ old) else p.depsOf j := by
      intro j
      rw [hr.deps]
      by_cases hj : j = old
      · rw [if_pos hj, if_pos hj, hxdeps temp hne, if_pos rfl]
      · rw [if_neg hj, if_neg hj]
        split
        case isTrue hjt => rw [hjt, depsOf_of_not_contains hq.free]
        case isFalse hjt =>
          rw [hxdeps j hj, if_neg hjt]
          exact map_swap_swap fun hmem => hq.free (h.contains_dep hmem)
    have hxargs : ∀ j, j ≠ old → (dropReplaced b n old temp).argsOf j = q.argsOf j := by
      intro j hj
      have hx := hdrop Node.argsIn j
      rw [if_neg hj] at hx
      exact hx.trans (congrFun hargs j)
    refine ⟨hkept.trans hr.kept, hold, hq.known, hrcore, hrdeps, fun j hj => ?_, fun j hj => ?_,
      ?_⟩
    · by_cases hjo : j = old
      · rw [if_pos hjo] at hj
        have halign := hr.args temp hne
        rw [swap_self, hxargs temp hne, hxdeps temp hne, if_pos rfl] at halign
        rw [hjo]
        refine halign ?_
        rw [hq.args temp (by rw [if_pos rfl]; exact hreads hj), hq.deps, if_pos rfl, ← hj,
          hreads hj]
      · rw [if_neg hjo] at hj
        by_cases hjt : j = temp
        · have hnot : ¬ r.contains temp = true := hcontains ▸ hq.free
          rw [hjt, depsOf_of_not_contains hnot, argsOf_of_not_contains hnot]
        · have halign := hr.args j hjo
          rw [swap_of_ne hjt, hxargs j hjo, hxdeps j hjo, if_neg hjt] at halign
          refine halign ?_
          rw [hq.args j (by rw [if_neg hjt]; exact hj), hq.deps, if_neg hjt]
    · have hx : ∀ i, i ≠ old → (dropReplaced b n old temp).usersOf i = b.usersOf i :=
        fun i hi => (hdrop Node.usersIn i).trans (if_neg hi)
      rw [hr.users]
      by_cases hjo : j = old
      · have ht : temp ∉ reads := fun hmem => hq.free (hq.known temp hmem)
        rw [if_pos hjo, hjo, hx temp hne]
        exact (hthin temp List.not_mem_nil).trans (hq.users ht)
      · rw [if_neg hjo]
        split
        · exact List.nil_sublist _
        case isFalse hjt =>
          have hsub : (b.usersOf j).Sublist (p.usersOf j) :=
            (hthin j List.not_mem_nil).trans (hq.thinned j (by simp [hjt, hj]))
          rw [hx j hjo, map_swap_of_not_mem fun hmem =>
            hq.free (h.contains_user (hsub.subset hmem))]
          exact hsub
    · have horder : (dropReplaced b n old temp).order.ids
          = ((p.order.insertAfter old temp).erase old).ids := by
        change (b.order.erase old).ids = _
        rw [hiso.order, ← hq.order]
        rfl
      rw [hr.order, horder]
      exact ids_order_replaced h.order_nodup (fun ht => hq.free (h.order_contains temp ht)) hne
  · have hx : ∀ j, (dropReplaced b n old temp).contains j
        = if j = old then false else b.contains j := contains_without b old
    rcases hr.2.2 with hc | hc
    · rw [hx, if_pos rfl] at hc
      cases hc
    · rw [hx, if_neg hne, contains_eq_isSome_coreOf, hcore, if_pos rfl] at hc
      exact hc rfl

/-- The second half of a replacement. -/
theorem settle_effect {n : Node} {reads : List String} (h : p.Linked)
    (hn : p.node? old = some n) (hq : Staged p q old temp prim reads)
    (hreads : prim.arguments = reads.filter (· ≠ old) → prim.arguments = reads) :
    Ends (do
        change temp (flagged n)
        modify fun p => { p with order := p.order.insertAfter old temp }
        isolate old
        modify (dropReplaced · n old temp)
        rename temp old) (fun _ r => Replaced p r old prim reads) (fun _ _ => False) q := by
  have hcontains : ∀ j, q.contains j = true ↔ j = temp ∨ p.contains j = true := fun j => by
    rw [contains_eq_isSome_coreOf, hq.core, contains_eq_isSome_coreOf]
    split
    case isTrue hj => simp [hj]
    case isFalse hj => simp [hj]
  have htemp : q.contains temp = true := (hcontains temp).mpr (Or.inl rfl)
  have hwork : ∀ m : Node, Node.SameWork (if m.id = temp then flagged n m else m) m := fun m =>
    (sameWork_flagged n m).ite (m.id = temp)
  have hplace := fun m => (hwork m).toSamePlace
  have hlu : (q.update temp (flagged n)).Linked := linked_updateAll hplace hq.kept.linked
  have hcu : (q.update temp (flagged n)).contains = q.contains :=
    contains_congr (ids_updateAll fun m => (hwork m).id)
  rw [ends_bind, ends_change]
  refine ⟨fun _ _ => ?_, fun hnone => absurd htemp (node?_eq_none.mp hnone)⟩
  rw [ends_bind, ends_modify]
  -- the flags have moved, and the new node has a place
  have hla : ((q.update temp (flagged n)).setOrder (q.order.insertAfter old temp)).Linked :=
    (kept_setOrder hlu (Order.nodup_insertAfter hq.kept.linked.order_nodup) fun x hx => by
      rw [hcu]
      rcases Order.mem_insertAfter.mp hx with hx | ⟨rfl, -⟩
      · exact hq.kept.linked.order_contains x hx
      · exact htemp).linked
  rw [ends_bind]
  refine (isolate_effect hla).imp (fun _ b hb => ?_) fun e b hb => ?_
  · obtain ⟨hiso, hargs, -, hthin, hdeps⟩ := hb
    refine handOver_effect h hn hq hreads hiso (hargs.trans (argsOf_updateAll hplace))
      (fun j hj => ?_) fun j => ?_
    · have hsub := hthin j hj
      have husers : ((q.update temp (flagged n)).setOrder (q.order.insertAfter old temp)).usersOf
          = q.usersOf := usersOf_updateAll hplace
      rwa [husers] at hsub
    rw [hdeps]
    exact congrArg (fun ds => if j = old then [] else ds.filter (· ≠ old))
      (congrFun (depsOf_updateAll hplace) j)
  · refine node?_eq_none.mp hb.2.1 ?_
    change (q.update temp (flagged n)).contains old = true
    rw [hcu]
    exact (hcontains old).mpr (Or.inr (contains_of_node? hn))

/-- How a replacement ends: without a node to replace, with a new one that was given up, or done. -/
theorem replace_outcome (h : p.Linked) (keep : Bool) :
    Ends (replace old prim keep)
      (fun _ q => Replaced p q old prim (if keep then p.depsOf old else prim.arguments))
      (fun e q => (q = p ∧ e.closes = false ∧ ¬ p.contains old = true) ∨
        (p.contains old = true ∧
          Abandoned p q { prim with id := p.unusedId (old ++ "__replacement") }
            (if keep then p.depsOf old else prim.arguments) e)) p := by
  rw [replace, ends_bind, ends_node]
  refine ⟨fun n hn => ?_, fun hnone => Or.inl ⟨rfl, rfl, node?_eq_none.mp hnone⟩⟩
  rw [ends_bind, ends_get]
  have hreads : prim.arguments
      = (if keep then p.depsOf old else prim.arguments).filter (· ≠ old) →
      prim.arguments = if keep then p.depsOf old else prim.arguments := by
    cases keep with
    | false => exact fun _ => rfl
    | true => exact fun hargs => hargs.trans (Order.filter_ne_of_not_mem (h.irrefl old))
  rw [depsOf_of_node? hn] at hreads ⊢
  exact (stage_effect h hn (not_contains_unusedId p _) fun q hq =>
    settle_effect h hn hq hreads).imp (fun _ _ hr => hr) fun e q hq =>
      Or.inr ⟨contains_of_node? hn, hq⟩

/-- **Replacing** changes one node and nobody else's dependencies. -/
theorem replace_effect (h : p.Linked) (keep : Bool) :
    Ends (replace old prim keep)
      (fun _ q => Replaced p q old prim (if keep then p.depsOf old else prim.arguments))
      (fun e q => e.closes = false ∧ Kept p q ∧
        (p.contains old = true → (if keep then p.depsOf old else prim.arguments) ≠ [])) p := by
  refine (replace_outcome h keep).imp (fun _ _ hr => hr) fun e q hq => ?_
  obtain ⟨rfl, hcloses, hnot⟩ | ⟨-, hq⟩ := hq
  · exact ⟨hcloses, .refl h, fun hc => absurd hc hnot⟩
  · obtain ⟨_, _, _, hsplit, -⟩ := hq.stopped
    rw [hsplit]
    exact ⟨hq.closes, hq.kept, fun _ =>
      List.append_ne_nil_of_right_ne_nil _ (List.cons_ne_nil _ _)⟩

end NetPlan.Edit

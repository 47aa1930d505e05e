import NetPlan.Proofs.Graph.Reach
import NetPlan.Proofs.Layout.Coherence

/-!
# Proofs/Graph/Relocate — moving users behind a node

A relocation walks from a node through its users.  A visit puts every user that stands before the
visited node behind whatever moved last, and into the queue.  A node may move again, if a later
visit finds it before one of its dependencies; but it is visited once, and what it is moved past
then stays where it is.

* `Relocating` says what the walk keeps, with `Moving` in the middle of a visit: the ids up to the
  place of the start stay the same, what did not move stands before what did, and an edge is broken
  only if its source waits for its visit, or was visited before one of its own dependencies.
* The order at the start tells what is visited, and in which sequence (`visited`): a user that need
  not move any more was in the queue already.
* `relocateUsersAfter_repairs` — so if only edges from the start are broken, and nothing with users
  is visited before one of its dependencies, the order is right in the end.
* `relocateUsersAfter_disorders` — otherwise it may be wrong.
-/

namespace NetPlan

/-! ## Walks to the end -/

section Carry

variable {σ τ : Type} {bad : CompileError → σ → Prop}

/-- **A walk with enough steps comes to its end**, and what every step keeps, of the queue and of
what was seen, holds there of an empty queue. -/
theorem ends_walk_run_empty {f : String → List String} {keys : List String}
    (hf : ∀ id, id ∉ keys → f id = [])
    {visit : String → StateT τ (ExceptT CompileError (StateM σ)) (List String)}
    (inv : List String → List String → τ → σ → Prop)
    (skip : ∀ id queue seen t s, id ∈ seen → inv (id :: queue) seen t s → inv queue seen t s)
    (step : ∀ id queue seen t s, id ∉ seen → inv (id :: queue) seen t s →
      Ends ((visit id).run t) (fun r s' => r.1.length ≤ (f id).length ∧
        inv (queue ++ r.1) (id :: seen) r.2 s') bad s) :
    ∀ (steps : Nat) (queue seen : List String) (t : τ) (s : σ),
      queue.length + unseen f keys seen ≤ steps → inv queue seen t s →
      Ends ((walk visit steps queue seen).run t) (fun r s' => inv [] r.1 r.2 s') bad s
  | 0, [], _, _, _, _, h => h
  | _ + 1, [], _, _, _, _, h => h
  | 0, id :: queue, _, _, _, hsteps, _ => by
      rw [List.length_cons] at hsteps
      omega
  | steps + 1, id :: queue, seen, t, s, hsteps, h => by
      rw [List.length_cons] at hsteps
      rw [walk]
      split
      case isTrue hid =>
        exact ends_walk_run_empty hf inv skip step steps queue seen t s (by omega)
          (skip id queue seen t s (by simpa using hid) h)
      case isFalse hid =>
        have hid : id ∉ seen := by simpa using hid
        have hcost := unseen_visit_le hf hid
        rw [StateT.run_bind, ends_bind]
        exact (step id queue seen t s hid h).imp_good fun r s' hs =>
          ends_walk_run_empty hf inv skip step steps _ _ r.2 s'
            (by rw [List.length_append]; omega) hs.2

end Carry

namespace Program

variable {p q : Program} {id x y anchor user : String} {queue seen rest moved : List String}
  {due : List (String × String)}

/-! ## Places -/

/-- The place of an id in the processing order. -/
def place (p : Program) (x : String) : Nat := p.order.ids.idxOf x

theorem place_lt_length_iff : p.place x < p.order.ids.length ↔ x ∈ p.order.ids :=
  List.idxOf_lt_length_iff

theorem before_iff_place_lt (h : p.order.ids.Nodup) (hy : y ∈ p.order.ids) :
    Before p.order.ids x y ↔ p.place x < p.place y := before_iff_idxOf_lt h hy

theorem eq_of_place (hx : x ∈ p.order.ids) (h : p.place x = p.place y) : x = y :=
  (List.idxOf_inj hx).mp h

/-- The program with one node behind another, and the positions recorded anew. -/
def moveBehind (p : Program) (anchor user : String) : Program :=
  p.setOrder (p.order.insertAfter anchor user).number

theorem place_moveBehind (hn : p.order.ids.Nodup) (ha : anchor ∈ p.order.ids)
    (hlt : p.place user < p.place anchor) (x : String) :
    (p.moveBehind anchor user).place x =
      if x = user then p.place anchor
      else if p.place user < p.place x ∧ p.place x ≤ p.place anchor then p.place x - 1
      else p.place x := Order.idxOf_insertAfter hn ha hlt x

/-- The users of a node that do not stand behind `id`. -/
def usersAhead (p : Program) (id x : String) : List String :=
  (p.usersOf x).filter fun u => p.place u ≤ p.place id

/-- What users that do not stand behind `id` lead to from there, in the sequence of the visits. -/
def visited (p : Program) (id : String) : List String :=
  (Id.run (walk (fun x => pure (p.usersAhead id x)) (1 + p.userCount) [id] [])).reverse

/-- Every node is listed, and no edge is broken but those that leave `id`. -/
structure OrderedBut (p : Program) (id : String) : Prop where
  listed : ∀ x, p.contains x = true → x ∈ p.order.ids
  before : ∀ u, ∀ d ∈ p.depsOf u, d ≠ id → Before p.order.ids d u

/-! ## What the walk keeps -/

/-- Where a relocation of the users of `id` stands: the queue, what was seen, what moved last and the
program so far.  `due` are edges that the visit under way has still to look at. -/
structure Relocating (p : Program) (id : String) (due : List (String × String))
    (queue seen : List String) (anchor : String) (q : Program) : Prop where
  nodes : q.nodes = p.nodes
  perm : q.order.ids.Perm p.order.ids
  numbered : q.order.number = q.order
  place_anchor : q.place anchor = p.place id
  place_le_iff : ∀ x, q.place x ≤ p.place id ↔ p.place x ≤ p.place id
  place_le_of_mem : ∀ x, x ∈ queue ∨ x ∈ seen → q.place x ≤ p.place id
  /-- What did not move stands before what did. -/
  place_lt_of_not_mem : ∀ x, p.place x ≤ p.place id → x ∉ queue → x ∉ seen →
    ∀ y, y ∈ queue ∨ y ∈ seen → q.place x < q.place y
  /-- An edge that was looked at is in order, unless its source was visited before a dependency. -/
  settled : ∀ d, ∀ u ∈ p.usersOf d, d ∉ queue ∨ d ∈ seen → (d, u) ∉ due →
    q.place d < q.place u ∨ ∃ z, d ∈ p.usersOf z ∧ Before seen z d

namespace Relocating

theorem mem_of_place_le (h : Relocating p id due queue seen anchor q) (hid : id ∈ p.order.ids)
    (hx : q.place x ≤ p.place id) : x ∈ q.order.ids := by
  have := place_lt_length_iff.mpr hid
  rw [← place_lt_length_iff, h.perm.length_eq]
  omega

theorem number?_eq (h : Relocating p id due queue seen anchor q) (hx : x ∈ q.order.ids) :
    q.order.number? x = some (q.place x) := by
  have hnum := Order.number?_number q.order x
  rwa [h.numbered, if_pos hx] at hnum

theorem start (hp : p.Linked) (ho : p.OrderedBut id) (hid : p.contains id = true) :
    Relocating p id [] [id] [] id (p.setOrder p.order.number) where
  nodes := rfl
  perm := .refl _
  numbered := rfl
  place_anchor := rfl
  place_le_iff _ := Iff.rfl
  place_le_of_mem x hx := by
    obtain rfl := List.mem_singleton.mp (hx.resolve_right List.not_mem_nil)
    exact Nat.le_refl _
  place_lt_of_not_mem x hle hx _ y hy := by
    obtain rfl := List.mem_singleton.mp (hy.resolve_right List.not_mem_nil)
    rw [List.mem_singleton] at hx
    exact Nat.lt_of_le_of_ne hle fun he => hx (eq_of_place (ho.listed y hid) he.symm).symm
  settled d u hu hd _ := by
    have hne : d ≠ id := fun he =>
      hd.resolve_right List.not_mem_nil (List.mem_singleton.mpr he)
    exact Or.inl ((ho.before u d ((hp.edges d u).mpr hu) hne).idxOf_lt hp.order_nodup)

/-- What was seen is not visited again. -/
theorem skip (h : Relocating p id due (x :: queue) seen anchor q) (hx : x ∈ seen) :
    Relocating p id due queue seen anchor q where
  nodes := h.nodes
  perm := h.perm
  numbered := h.numbered
  place_anchor := h.place_anchor
  place_le_iff := h.place_le_iff
  place_le_of_mem y hy := h.place_le_of_mem y (by grind)
  place_lt_of_not_mem y hle hq hs z hz := h.place_lt_of_not_mem y hle (by grind) hs z (by grind)
  settled d u hu hd := h.settled d u hu (by grind)

/-- A visit has all edges that leave its node to look at. -/
theorem enter (h : Relocating p id [] (x :: queue) seen anchor q) :
    Relocating p id ((p.usersOf x).map (x, ·)) queue (x :: seen) anchor q where
  nodes := h.nodes
  perm := h.perm
  numbered := h.numbered
  place_anchor := h.place_anchor
  place_le_iff := h.place_le_iff
  place_le_of_mem y hy := h.place_le_of_mem y (by grind)
  place_lt_of_not_mem y hle hq hs z hz :=
    h.place_lt_of_not_mem y hle (by grind) (by grind) z (by grind)
  settled d u hu hd hdue := by
    have hdx : d ≠ x := fun he => hdue (List.mem_map.mpr ⟨u, he ▸ hu, by rw [he]⟩)
    refine (h.settled d u hu (by grind) List.not_mem_nil).imp_right ?_
    rintro ⟨z, hz, hbefore⟩
    exact ⟨z, hz, hbefore.mono (List.sublist_cons_self x seen)⟩

/-- An edge in order needs no move. -/
theorem pass (h : Relocating p id ((x, user) :: due) queue seen anchor q)
    (hlt : q.place x < q.place user) : Relocating p id due queue seen anchor q where
  nodes := h.nodes
  perm := h.perm
  numbered := h.numbered
  place_anchor := h.place_anchor
  place_le_iff := h.place_le_iff
  place_le_of_mem := h.place_le_of_mem
  place_lt_of_not_mem := h.place_lt_of_not_mem
  settled d u hu hd hdue := by
    by_cases hedge : (d, u) = (x, user)
    · cases hedge
      exact Or.inl hlt
    · exact h.settled d u hu hd (by grind)

/-- **A user that moves** comes to stand behind everything that moved before, and waits for its
visit.  If it had it already, the visit under way comes later. -/
theorem move (h : Relocating p id ((x, user) :: due) queue (x :: seen) anchor q)
    (hn : p.order.ids.Nodup) (hid : id ∈ p.order.ids) (huser : user ∈ p.usersOf x)
    (hne : user ≠ x) (hlt : q.place user < p.place id) :
    Relocating p id due (queue ++ [user]) (x :: seen) user (q.moveBehind anchor user) := by
  have hnq : q.order.ids.Nodup := h.perm.nodup_iff.mpr hn
  have hanchor := h.mem_of_place_le hid (Nat.le_of_eq h.place_anchor)
  have hmem := h.mem_of_place_le hid (Nat.le_of_lt hlt)
  have hplace := place_moveBehind hnq hanchor (h.place_anchor ▸ hlt)
  simp only [h.place_anchor] at hplace
  have hinj : ∀ y, y ≠ user → q.place y ≠ q.place user := fun y hy he =>
    hy (eq_of_place hmem he.symm).symm
  -- the others keep their sequence
  have hmono : ∀ y z, y ≠ user → z ≠ user → q.place y < q.place z →
      (q.moveBehind anchor user).place y < (q.moveBehind anchor user).place z := by
    intro y z hy hz hyz
    have := hinj y hy
    have := hinj z hz
    rw [hplace, hplace, if_neg hy, if_neg hz]
    split <;> split <;> omega
  -- and what has its place up to the anchor stands before the user now
  have hlast : ∀ y, y ≠ user → q.place y ≤ p.place id →
      (q.moveBehind anchor user).place y < p.place id := by
    intro y hy hle
    have := hinj y hy
    rw [hplace, if_neg hy]
    split <;> omega
  have huser' : (q.moveBehind anchor user).place user = p.place id := by rw [hplace, if_pos rfl]
  have hx := h.place_le_of_mem x (Or.inr List.mem_cons_self)
  refine ⟨h.nodes, (Order.perm_insertAfter hnq hmem anchor).trans h.perm, rfl, huser',
    fun y => ?_, fun y hy => ?_, fun y hle hq hs z hz => ?_, fun d u hu hd hdue => ?_⟩
  · have hy := h.place_le_iff y
    rw [hplace]
    split
    case isTrue he =>
      subst he
      omega
    case isFalse => split <;> omega
  · by_cases he : y = user
    · exact Nat.le_of_eq (he ▸ huser')
    · exact Nat.le_of_lt (hlast y he (h.place_le_of_mem y (by grind)))
  · have hy : y ≠ user := fun he => hq (by simp [he])
    by_cases hzu : z = user
    · rw [hzu, huser']
      exact hlast y hy ((h.place_le_iff y).mpr hle)
    · exact hmono y z hy hzu (h.place_lt_of_not_mem y hle (by grind) hs z (by grind))
  · by_cases hdu : d = user
    · -- what it is moved past has to wait for its next visit, and there is none
      have hseen : d ∈ seen := by grind
      exact Or.inr ⟨x, hdu ▸ huser,
        before_iff_append.mpr ⟨[x], seen, rfl, List.mem_singleton_self x, hseen⟩⟩
    by_cases hedge : (d, u) = (x, user)
    · cases hedge
      exact Or.inl (huser' ▸ hlast x hdu hx)
    refine (h.settled d u hu (by grind) (by grind)).imp_left fun hdlt => ?_
    by_cases huu : u = user
    · rw [huu, huser']
      rw [huu] at hdlt
      exact hlast d hdu (by omega)
    · exact hmono d u hdu huu hdlt

end Relocating

/-- Where the visit of `x` stands that has moved some of its users and has still to look at others.
`position` is the place of the node when the visit began. -/
structure Moving (p : Program) (id x : String) (queue seen : List String) (position : Nat)
    (rest moved : List String) (anchor : String) (q : Program) : Prop
    extends Relocating p id (rest.map (x, ·)) (queue ++ moved) (x :: seen) anchor q where
  users : rest ⊆ p.usersOf x
  place_le : q.place x ≤ position
  length_le : moved.length + rest.length ≤ (p.usersOf x).length
  pending_eq : pending (x :: seen) (queue ++ moved ++ rest.filter (p.place · ≤ p.place id))
    = pending (x :: seen) (queue ++ p.usersAhead id x)

namespace Moving

variable {position : Nat}

theorem start (h : Relocating p id [] (x :: queue) seen anchor q) :
    Moving p id x queue seen (q.place x) (p.usersOf x) [] anchor q where
  toRelocating := by
    rw [List.append_nil]
    exact h.enter
  users := List.Subset.refl _
  place_le := Nat.le_refl _
  length_le := by simp
  pending_eq := by
    rw [List.append_nil]
    rfl

theorem ne (h : Moving p id x queue seen position (user :: rest) moved anchor q)
    (hp : p.Linked) : user ≠ x := fun he =>
  hp.irrefl x ((hp.edges x x).mpr (he ▸ h.users List.mem_cons_self))

/-- **A user that does not stand before the node** stands behind it, and behind the start or in the
queue, unless it was visited. -/
theorem pass (h : Moving p id x queue seen position (user :: rest) moved anchor q)
    (hp : p.Linked) (hid : id ∈ p.order.ids) (hge : ¬ q.place user < position) :
    Moving p id x queue seen position rest moved anchor q where
  toRelocating := by
    have hx := h.mem_of_place_le hid (h.place_le_of_mem x (Or.inr List.mem_cons_self))
    have hne : q.place x ≠ q.place user := fun he => h.ne hp (eq_of_place hx he).symm
    have := h.place_le
    exact h.toRelocating.pass (by omega)
  users := (List.cons_subset.mp h.users).2
  place_le := h.place_le
  length_le := by
    have := h.length_le
    rw [List.length_cons] at this
    omega
  pending_eq := by
    rw [← h.pending_eq, List.filter_cons]
    split
    case isTrue hahead =>
      have hwaits : user ∈ queue ++ moved ∨ user ∈ x :: seen := by
        by_contra hnot
        rw [not_or] at hnot
        have := h.place_lt_of_not_mem user (of_decide_eq_true hahead) hnot.1 hnot.2 x
          (Or.inr List.mem_cons_self)
        have := h.place_le
        omega
      rw [pending_append_of_mem hwaits]
    case isFalse => rfl

/-- **A user that stands before the node** moves. -/
theorem move (h : Moving p id x queue seen position (user :: rest) moved anchor q)
    (hp : p.Linked) (hid : id ∈ p.order.ids) (hposition : position ≤ p.place id)
    (hlt : q.place user < position) :
    Moving p id x queue seen position rest (moved ++ [user]) user (q.moveBehind anchor user) where
  toRelocating := by
    rw [← List.append_assoc]
    exact h.toRelocating.move hp.order_nodup hid (h.users List.mem_cons_self) (h.ne hp) (by omega)
  users := (List.cons_subset.mp h.users).2
  place_le := by
    have hanchor := h.mem_of_place_le hid (Nat.le_of_eq h.place_anchor)
    have hbefore : q.place user < q.place anchor := by
      rw [h.place_anchor]
      omega
    have := h.place_le
    rw [place_moveBehind (h.perm.nodup_iff.mpr hp.order_nodup) hanchor hbefore,
      if_neg (h.ne hp).symm]
    split <;> omega
  length_le := by
    have := h.length_le
    rw [List.length_cons] at this
    rw [List.length_append, List.length_singleton]
    omega
  pending_eq := by
    have hahead : p.place user ≤ p.place id := (h.place_le_iff user).mp (by omega)
    rw [← h.pending_eq, List.filter_cons_of_pos (by simpa using hahead)]
    simp only [List.append_assoc, List.singleton_append]

end Moving

end Program

/-! ## The relocation -/

namespace Edit

open Program

variable {p q : Program} {id x anchor : String} {queue seen : List String}

/-- **A visit** puts into the queue what it would have put there at the start, up to what waits
already. -/
theorem moveUsersBehind_relocating (hp : p.Linked) (ho : p.OrderedBut id)
    (hid : p.contains id = true) (h : Relocating p id [] (x :: queue) seen anchor q) :
    Ends ((moveUsersBehind x).run anchor)
      (fun r q' => r.1.length ≤ (p.usersOf x).length ∧
        Relocating p id [] (queue ++ r.1) (x :: seen) r.2 q' ∧
        pending (x :: seen) (queue ++ r.1) = pending (x :: seen) (queue ++ p.usersAhead id x))
      (fun _ _ => False) q := by
  have hlisted := ho.listed id hid
  have hposition := h.place_le_of_mem x (Or.inl List.mem_cons_self)
  have hx := h.mem_of_place_le hlisted hposition
  rw [moveUsersBehind, StateT.run_bind, ends_bind, ends_run_liftM, ends_get, StateT.run_bind,
    ends_bind, ends_run_liftM, ends_node]
  simp only [node?_congr h.nodes]
  refine ⟨fun n hn => ?_, fun hnone => ?_⟩
  · rw [StateT.run_bind, ends_bind, ← usersOf_of_node? hn]
    refine (ends_forIn_run_rest (Moving p id x queue seen (q.place x))
      (fun user rest moved anchor' q' hq' => ?_) (p.usersOf x) [] anchor q
      (.start h)).imp_good fun r q' hq' => ?_
    · have huser := hp.contains_user (hq'.users List.mem_cons_self)
      have hmem := hq'.perm.mem_iff.mpr (ho.listed user huser)
      rw [StateT.run_bind, ends_bind, ends_run_liftM, ends_get, hq'.number?_eq hmem,
        h.number?_eq hx]
      dsimp only
      split
      case isTrue hlt => exact ⟨moved ++ [user], rfl, hq'.move hp hlisted hposition hlt⟩
      case isFalse hge => exact ⟨moved, rfl, hq'.pass hp hlisted hge⟩
    · have hpending := hq'.pending_eq
      rw [List.filter_nil, List.append_nil] at hpending
      exact ⟨hq'.length_le, hq'.toRelocating, hpending⟩
  · exact absurd (hp.order_contains x (h.perm.mem_iff.mp hx)) (node?_eq_none.mp hnone)

/-- **A relocation ends**, with the same nodes in another order.  An edge it leaves broken has a
source that was visited before one of its own dependencies. -/
theorem relocateUsersAfter_breaks (hp : p.Linked) (ho : p.OrderedBut id)
    (hid : p.contains id = true) :
    Ends (relocateUsersAfter id)
      (fun _ q => q.nodes = p.nodes ∧ q.order.ids.Perm p.order.ids ∧
        ∀ u, ∀ d ∈ p.depsOf u, Before q.order.ids d u ∨ ∃ z ∈ p.depsOf d, Before (p.visited id) d z)
      (fun _ _ => False) p := by
  have hkeys : ∀ x, x ∉ p.ids → p.usersOf x = [] := fun x hx =>
    usersOf_of_not_contains fun hc => hx (contains_iff_mem_ids.mp hc)
  have hkeys' : ∀ x, x ∉ p.ids → p.usersAhead id x = [] := fun x hx => by
    rw [usersAhead, hkeys x hx, List.filter_nil]
  have hcount : unseen (p.usersAhead id) p.ids [] ≤ p.userCount :=
    (unseen_mono (fun _ => List.length_filter_le _ _) _ _).trans
      (Nat.le_of_eq (sum_length_usersOf hp.ids_nodup))
  rw [relocateUsersAfter, ends_bind]
  refine number_effect.imp_good fun _ q hq => ?_
  subst hq
  rw [ends_bind, ends_get, ends_bind]
  change Ends ((walk moveUsersBehind (1 + p.userCount) [id] []).run id) _ _ _
  -- beside what the relocation keeps, the walk through the order at the start has the same to come
  refine (ends_walk_run_empty hkeys
    (fun queue seen anchor q => Relocating p id [] queue seen anchor q ∧
      ∀ steps, queue.length + unseen (p.usersAhead id) p.ids seen ≤ steps →
        Id.run (walk (fun x => pure (p.usersAhead id x)) steps queue seen)
          = (p.visited id).reverse)
    (fun x queue seen anchor q hx hq => ?_) (fun x queue seen anchor q hx hq => ?_)
    (1 + p.userCount) [id] [] id _ ?_ ⟨.start hp ho hid, fun steps hsteps => ?_⟩).imp_good
      fun r q hq => ?_
  · refine ⟨hq.1.skip hx, fun steps hsteps => ?_⟩
    rw [← walk_of_mem hx]
    exact hq.2 (steps + 1) (by rw [List.length_cons]; omega)
  · refine (moveUsersBehind_relocating hp ho hid hq.1).imp_good
      fun r q' hq' => ⟨hq'.1, hq'.2.1, fun steps hsteps => ?_⟩
    let enough := queue.length + (p.usersAhead id x).length + unseen (p.usersAhead id) p.ids seen
    have hvisit := unseen_cons_le (p.usersAhead id) p.ids seen x
    rw [walk_eq_of_pending hkeys' steps enough _ (queue ++ p.usersAhead id x) _ hsteps
      (by rw [List.length_append]; omega) hq'.2.2, ← walk_of_not_mem hx]
    exact hq.2 (enough + 1) (by rw [List.length_cons]; omega)
  · rw [sum_length_usersOf hp.ids_nodup, List.length_singleton]
  · rw [visited, List.reverse_reverse]
    exact walk_eq_of_pending hkeys' _ _ _ _ _ hsteps (by rw [List.length_singleton]; omega) rfl
  · obtain ⟨hrel, hvisited⟩ := hq
    have hseen : r.1 = (p.visited id).reverse :=
      (walk_of_pending_nil _ rfl).symm.trans (hvisited _ (Nat.le_refl _))
    refine ⟨hrel.nodes, hrel.perm, fun u d hd => ?_⟩
    have hu := hrel.perm.mem_iff.mpr (ho.listed u (contains_of_mem_depsOf hd))
    rcases hrel.settled d u ((hp.edges d u).mp hd) (Or.inl List.not_mem_nil) List.not_mem_nil with
      hlt | ⟨z, hz, hbefore⟩
    · exact Or.inl ((before_iff_place_lt (hrel.perm.nodup_iff.mpr hp.order_nodup) hu).mpr hlt)
    · rw [hseen] at hbefore
      exact Or.inr ⟨z, (hp.edges z d).mpr hz, List.reverse_sublist.mp hbefore⟩

/-- **A relocation repairs an order** in which only edges from the start are broken, if it visits
nothing that has users before one of its own dependencies. -/
theorem relocateUsersAfter_repairs (hp : p.WellFormed) (ho : p.OrderedBut id)
    (hid : p.contains id = true) :
    ∃ q, (relocateUsersAfter id).run.run p = (.ok (), q) ∧ q.nodes = p.nodes ∧
      q.order.ids.Perm p.order.ids ∧
      ((∀ u, ∀ d ∈ p.depsOf u, ∀ z ∈ p.depsOf d, ¬ Before (p.visited id) d z) →
        q.isOrdered = true) := by
  obtain ⟨_, q, hrun, hnodes, hperm, hbreaks⟩ :=
    (relocateUsersAfter_breaks hp.toLinked ho hid).exists_ok
  refine ⟨q, hrun, hnodes, hperm, fun hvisits => ?_⟩
  have hnodup := hperm.nodup_iff.mpr hp.order_nodup
  have hids : q.ids = p.ids := congrArg (List.map Node.id) hnodes
  refine (isOrdered_iff_of_listed ?_ hnodup ?_).mpr ⟨hnodup, fun x => ?_, fun u d hd => ?_⟩
  · rw [hids]
    exact hp.ids_nodup
  · intro x hx
    rw [contains_congr hids]
    exact hp.order_contains x (hperm.mem_iff.mp hx)
  · rw [hperm.mem_iff, contains_congr hids]
    exact ⟨hp.order_contains x, ho.listed x⟩
  · rw [depsOf, node?_congr hnodes] at hd
    refine (hbreaks u d hd).resolve_right ?_
    rintro ⟨z, hz, hbefore⟩
    exact hvisits u d hd z hz hbefore

end Edit

/-- An input `s` with two readers, `b` of which reads the other, `a`, and is read by `c`.  They are
listed in this or in the other sequence. -/
def Topology.shortcut (inTurn : Bool) : Topology :=
  let s : Primitive := ⟨"s", .none, .inputLayout (.dense .f32 .bfyx ⟨1, 1, 1, 1⟩)⟩
  let a : Primitive := ⟨"a", .none, .softmax ⟨"s", .x⟩⟩
  let b : Primitive := ⟨"b", .none, .eltwise ⟨["a", "s"], .sum, [], .none⟩⟩
  let c : Primitive := ⟨"c", .none, .softmax ⟨"b", .x⟩⟩
  ⟨if inTurn then [s, a, b, c] else [s, b, a, c]⟩

/-- The input comes last, and the others in their right order before it. -/
def Program.shortcut (inTurn : Bool) : Program :=
  (laidOut (.shortcut inTurn)).setOrder (.ofList ["a", "b", "c", "s"])

namespace Program

/-- Both graphs have the edges of one order, and the sequence of the visits tells them apart. -/
theorem shortcut_computed : ∀ inTurn : Bool,
    (shortcut inTurn).ids = ["a", "b", "c", "s"] ∧
    (∀ u ∈ ["a", "b", "c", "s"], ∀ d ∈ (shortcut inTurn).depsOf u,
      ["s", "a", "b", "c"].idxOf d < ["s", "a", "b", "c"].idxOf u ∧
        (d = "s" ∨ Before ["a", "b", "c", "s"] d u)) ∧
    (shortcut inTurn).visited "s"
      = (if inTurn then ["s", "a", "b", "c"] else ["s", "b", "a", "c"]) ∧
    ((Edit.relocateUsersAfter "s").run.run (shortcut inTurn)).1.toBool = true ∧
    ((Edit.relocateUsersAfter "s").run.run (shortcut inTurn)).2.order.ids
      = (if inTurn then ["s", "a", "b", "c"] else ["s", "a", "c", "b"]) ∧
    ((Edit.relocateUsersAfter "s").run.run (shortcut inTurn)).2.isOrdered = inTurn := by
  unfold Before
  decide +kernel

theorem contains_shortcut (inTurn : Bool) (x : String) :
    (shortcut inTurn).contains x = true ↔ x ∈ ["a", "b", "c", "s"] := by
  rw [contains_iff_mem_ids, (shortcut_computed inTurn).1]

theorem orderedBut_shortcut (inTurn : Bool) : (shortcut inTurn).WellFormed ∧
    (shortcut inTurn).Acyclic ∧ (shortcut inTurn).OrderedBut "s" := by
  obtain ⟨hids, hedges, -⟩ := shortcut_computed inTurn
  have hbuilt : (laidOut (.shortcut inTurn)).WellFormed :=
    (laidOut_spec (by cases inTurn <;> (unfold Topology.Distinct; decide))).1
  refine ⟨(kept_setOrder hbuilt.toLinked (by decide) fun x hx =>
      (contains_shortcut inTurn x).mpr hx).wellFormed hbuilt,
    acyclic_of_rank_ids _ fun u hu d hd => (hedges u (hids ▸ hu) d hd).1,
    fun x hx => (contains_shortcut inTurn x).mp hx, fun u d hd hne => ?_⟩
  have hu := (contains_shortcut inTurn u).mp (contains_of_mem_depsOf hd)
  exact (hedges u hu d hd).2.resolve_left hne

end Program

/-- Readers that are visited in turn end up in order. -/
theorem relocateUsersAfter_repairs_shortcut :
    (Program.shortcut true).visited "s" = ["s", "a", "b", "c"] ∧
    ∃ q, (Edit.relocateUsersAfter "s").run.run (.shortcut true) = (.ok (), q) ∧
      q.isOrdered = true := by
  obtain ⟨-, hedges, hvisited, -⟩ := Program.shortcut_computed true
  obtain ⟨hp, -, ho⟩ := Program.orderedBut_shortcut true
  obtain ⟨q, hrun, -, -, hrepairs⟩ :=
    Edit.relocateUsersAfter_repairs hp ho ((Program.contains_shortcut true "s").mpr (by decide))
  refine ⟨hvisited, q, hrun, hrepairs fun u d hd z hz hbefore => ?_⟩
  rw [hvisited, if_pos rfl] at hbefore
  have hd := (Program.contains_shortcut true d).mp (Program.contains_of_mem_depsOf hz)
  exact Nat.lt_asymm (hedges d hd z hz).1 (hbefore.idxOf_lt (by decide))

/-- **A reader that is visited before what it reads** moves again behind its own user, which stays:
the order is wrong in the end, though the graph is acyclic and only edges from the start were
broken. -/
theorem relocateUsersAfter_disorders :
    (Program.shortcut false).WellFormed ∧ (Program.shortcut false).Acyclic ∧
    (Program.shortcut false).OrderedBut "s" ∧
    (Program.shortcut false).visited "s" = ["s", "b", "a", "c"] ∧
    ∃ q, (Edit.relocateUsersAfter "s").run.run (.shortcut false) = (.ok (), q) ∧
      q.order.ids = ["s", "a", "c", "b"] ∧ q.isOrdered = false := by
  obtain ⟨-, -, hvisited, hok, horder, hordered⟩ := Program.shortcut_computed false
  obtain ⟨hp, hacyclic, ho⟩ := Program.orderedBut_shortcut false
  obtain ⟨_, hrun⟩ := exists_run_eq_ok hok
  exact ⟨hp, hacyclic, ho, hvisited, _, hrun, horder, hordered⟩

end NetPlan

import Mathlib.Logic.Relation
import NetPlan.Proofs.Graph.View

/-!
# Proofs/Graph/Reach — a walk misses nothing

`walk` takes a number of steps in advance.  A step either drops an id that was seen or visits one,
and a visit puts as many ids into the queue as the id has neighbours; so the length of the queue
and the neighbours of the ids not yet seen (`unseen`) bound the steps there can be.  With that many
steps a walk ends with an empty queue, and what it has seen is closed under neighbours
(`walk_closed`) and nothing else (`walk_reachable`): it is what leads to the start (`mem_walk_iff`).
For users this is `mem_downstream_of_user`: what is downstream of a node is closed under users.

What a walk goes on to see depends on its queue only through the ids not yet seen, in the sequence
of their first entries (`pending`): queues that agree in this lead to the same walk
(`walk_eq_of_pending`).
-/

namespace NetPlan

section Walk

variable (f : String → List String)

/-- Number of neighbours, with repetition, of the keys that were not seen. -/
def unseen (keys seen : List String) : Nat :=
  (keys.map fun k => if k ∈ seen then 0 else (f k).length).foldr (· + ·) 0

theorem unseen_cons_le (keys seen : List String) (id : String) :
    unseen f keys (id :: seen) ≤ unseen f keys seen := by
  induction keys with
  | nil => exact Nat.le_refl _
  | cons k keys ih =>
    simp only [unseen, List.map_cons, List.foldr_cons] at ih ⊢
    refine Nat.add_le_add ?_ ih
    by_cases hk : k ∈ seen
    · simp [hk]
    · rw [if_neg hk]
      split
      · exact Nat.zero_le _
      · exact Nat.le_refl _

/-- **A visit is paid for by the neighbours it had not seen.** -/
theorem unseen_cons_add_le {keys seen : List String} {id : String} (hk : id ∈ keys)
    (hs : id ∉ seen) : unseen f keys (id :: seen) + (f id).length ≤ unseen f keys seen := by
  induction keys with
  | nil => exact absurd hk List.not_mem_nil
  | cons k keys ih =>
    have hle := unseen_cons_le f keys seen id
    simp only [unseen, List.map_cons, List.foldr_cons] at ih hle ⊢
    rcases List.mem_cons.mp hk with rfl | hk
    · rw [if_pos List.mem_cons_self, if_neg hs]
      omega
    · have := ih hk
      have hle' : (if k ∈ id :: seen then 0 else (f k).length)
          ≤ if k ∈ seen then 0 else (f k).length := by
        by_cases hks : k ∈ seen
        · simp [hks]
        · rw [if_neg hks]
          split
          · exact Nat.zero_le _
          · exact Nat.le_refl _
      omega

variable {f} {g : String → List String} {keys seen queue queue' : List String} {id x : String}

theorem unseen_mono (h : ∀ k, (f k).length ≤ (g k).length) (keys seen : List String) :
    unseen f keys seen ≤ unseen g keys seen := by
  induction keys with
  | nil => exact Nat.le_refl _
  | cons k keys ih =>
    simp only [unseen, List.map_cons, List.foldr_cons] at ih ⊢
    refine Nat.add_le_add ?_ ih
    split
    · exact Nat.le_refl _
    · exact h k

/-- What a walk can still put into its queue pays for every visit. -/
theorem unseen_visit_le (hf : ∀ id, id ∉ keys → f id = []) (hs : id ∉ seen) :
    unseen f keys (id :: seen) + (f id).length ≤ unseen f keys seen := by
  by_cases hk : id ∈ keys
  · exact unseen_cons_add_le f hk hs
  · rw [hf id hk]
    exact unseen_cons_le f keys seen id

theorem walk_of_mem (h : id ∈ seen) (steps : Nat) (queue : List String) :
    Id.run (walk (fun i => pure (f i)) (steps + 1) (id :: queue) seen)
      = Id.run (walk (fun i => pure (f i)) steps queue seen) := by
  rw [walk, if_pos (by simpa using h)]

theorem walk_of_not_mem (h : id ∉ seen) (steps : Nat) (queue : List String) :
    Id.run (walk (fun i => pure (f i)) (steps + 1) (id :: queue) seen)
      = Id.run (walk (fun i => pure (f i)) steps (queue ++ f id) (id :: seen)) := by
  rw [walk, if_neg (by simpa using h)]
  rfl

/-- **A walk with enough steps sees the queue and is closed under neighbours.** -/
theorem walk_closed (hf : ∀ id, id ∉ keys → f id = []) :
    ∀ (steps : Nat) (queue seen : List String), queue.length + unseen f keys seen ≤ steps →
      (∀ i ∈ seen, ∀ j ∈ f i, j ∈ seen ∨ j ∈ queue) →
      let r := Id.run (walk (fun i => pure (f i)) steps queue seen)
      (∀ i ∈ seen, i ∈ r) ∧ (∀ i ∈ queue, i ∈ r) ∧ ∀ i ∈ r, ∀ j ∈ f i, j ∈ r
  | 0, queue, seen, hsteps, hseen => by
      obtain rfl : queue = [] := List.length_eq_zero_iff.mp (by omega)
      refine ⟨fun i hi => hi, fun i hi => absurd hi List.not_mem_nil, fun i hi j hj => ?_⟩
      rcases hseen i hi j hj with h | h
      · exact h
      · exact absurd h List.not_mem_nil
  | steps + 1, [], seen, _, hseen => by
      refine ⟨fun i hi => hi, fun i hi => absurd hi List.not_mem_nil, fun i hi j hj => ?_⟩
      rcases hseen i hi j hj with h | h
      · exact h
      · exact absurd h List.not_mem_nil
  | steps + 1, id :: queue, seen, hsteps, hseen => by
      rw [List.length_cons] at hsteps
      by_cases hid : id ∈ seen
      · have ih := walk_closed hf steps queue seen (by omega) fun i hi j hj => by
          rcases hseen i hi j hj with h | h
          · exact Or.inl h
          · rcases List.mem_cons.mp h with rfl | h
            · exact Or.inl hid
            · exact Or.inr h
        rw [walk_of_mem hid]
        refine ⟨ih.1, fun i hi => ?_, ih.2.2⟩
        rcases List.mem_cons.mp hi with rfl | hi
        · exact ih.1 i hid
        · exact ih.2.1 i hi
      · have hcost := unseen_visit_le hf hid
        have ih := walk_closed hf steps (queue ++ f id) (id :: seen)
          (by rw [List.length_append]; omega) fun i hi j hj => by
            rcases List.mem_cons.mp hi with rfl | hi
            · exact Or.inr (List.mem_append_right _ hj)
            · rcases hseen i hi j hj with h | h
              · exact Or.inl (List.mem_cons_of_mem _ h)
              · rcases List.mem_cons.mp h with rfl | h
                · exact Or.inl List.mem_cons_self
                · exact Or.inr (List.mem_append_left _ h)
        rw [walk_of_not_mem hid]
        refine ⟨fun i hi => ih.1 i (List.mem_cons_of_mem _ hi), fun i hi => ?_, ih.2.2⟩
        rcases List.mem_cons.mp hi with rfl | hi
        · exact ih.1 i List.mem_cons_self
        · exact ih.2.1 i (List.mem_append_left _ hi)

/-- **A walk sees nothing but what the neighbours lead to.** -/
theorem walk_reachable : ∀ (steps : Nat) (queue seen : List String),
    ∀ i ∈ Id.run (walk (fun i => pure (f i)) steps queue seen),
      i ∈ seen ∨ ∃ o ∈ queue, Relation.ReflTransGen (fun j k => j ∈ f k) i o
  | 0, _, _, _, hi => Or.inl hi
  | _ + 1, [], _, _, hi => Or.inl hi
  | steps + 1, id :: queue, seen, i, hi => by
      have hqueue : (∃ o ∈ queue, Relation.ReflTransGen (fun j k => j ∈ f k) i o) →
          ∃ o ∈ id :: queue, Relation.ReflTransGen (fun j k => j ∈ f k) i o := fun ⟨o, ho, hr⟩ =>
        ⟨o, List.mem_cons_of_mem _ ho, hr⟩
      rw [walk] at hi
      split at hi
      · exact (walk_reachable steps queue seen i hi).imp_right hqueue
      · rcases walk_reachable steps (queue ++ f id) (id :: seen) i hi with hs | ⟨o, ho, hr⟩
        · rcases List.mem_cons.mp hs with rfl | hs
          · exact Or.inr ⟨i, List.mem_cons_self, .refl⟩
          · exact Or.inl hs
        · rcases List.mem_append.mp ho with ho | ho
          · exact Or.inr (hqueue ⟨o, ho, hr⟩)
          · exact Or.inr ⟨id, List.mem_cons_self, hr.tail ho⟩

/-- **A walk with enough steps sees what leads to its start**, and nothing else. -/
theorem mem_walk_iff (hf : ∀ id, id ∉ keys → f id = []) {steps : Nat} {queue : List String}
    (hsteps : queue.length + unseen f keys [] ≤ steps) (i : String) :
    i ∈ Id.run (walk (fun i => pure (f i)) steps queue []) ↔
      ∃ o ∈ queue, Relation.ReflTransGen (fun j k => j ∈ f k) i o := by
  constructor
  · intro hi
    exact (walk_reachable steps queue [] i hi).resolve_left List.not_mem_nil
  · rintro ⟨o, ho, hr⟩
    obtain ⟨-, hstart, hclosed⟩ :=
      walk_closed hf steps queue [] hsteps fun i hi => absurd hi List.not_mem_nil
    induction hr using Relation.ReflTransGen.head_induction_on with
    | refl => exact hstart o ho
    | head hread _ ih => exact hclosed _ ih _ hread

/-! ## Queues that lead to the same visits -/

/-- The ids of a queue that were not seen, each once, in the sequence of their visits. -/
def pending : List String → List String → List String
  | _, [] => []
  | seen, id :: queue =>
    if id ∈ seen then pending seen queue else id :: pending (id :: seen) queue

theorem pending_of_mem (h : id ∈ seen) (queue : List String) :
    pending seen (id :: queue) = pending seen queue := if_pos h

theorem pending_of_not_mem (h : id ∉ seen) (queue : List String) :
    pending seen (id :: queue) = id :: pending (id :: seen) queue := if_neg h

theorem mem_pending : ∀ {queue seen : List String}, x ∈ pending seen queue ↔ x ∈ queue ∧ x ∉ seen
  | [], seen => by simp [pending]
  | id :: queue, seen => by
      rw [pending]
      split
      case isTrue hid =>
        rw [mem_pending, List.mem_cons]
        refine and_congr_left fun hx => (or_iff_right fun he : x = id => hx (he ▸ hid)).symm
      case isFalse hid =>
        rw [List.mem_cons, mem_pending, List.mem_cons, List.mem_cons]
        by_cases hx : x = id
        · simp [hx, hid]
        · simp [hx]

theorem pending_congr : ∀ (queue : List String) {seen seen' : List String},
    (∀ x, x ∈ seen ↔ x ∈ seen') → pending seen queue = pending seen' queue
  | [], _, _, _ => rfl
  | id :: queue, seen, seen', h => by
      have hcons : ∀ x, x ∈ id :: seen ↔ x ∈ id :: seen' := fun x => by
        rw [List.mem_cons, List.mem_cons, h]
      simp only [pending, h, pending_congr queue h, pending_congr queue hcons]

theorem pending_append (more : List String) : ∀ (queue seen : List String),
    pending seen (queue ++ more) = pending seen queue ++ pending (queue ++ seen) more
  | [], _ => rfl
  | id :: queue, seen => by
      rw [List.cons_append, pending, pending]
      split
      case isTrue hid =>
        have hsame : ∀ x, x ∈ queue ++ seen ↔ x ∈ id :: queue ++ seen := fun x => by
          by_cases hx : x = id <;> simp [hx, hid]
        rw [pending_append more queue seen, pending_congr more hsame]
      case isFalse =>
        have hsame : ∀ x, x ∈ queue ++ id :: seen ↔ x ∈ id :: queue ++ seen := fun x => by
          simp [or_left_comm]
        rw [pending_append more queue (id :: seen), pending_congr more hsame, List.cons_append,
          List.cons_append]

/-- What comes behind two queues that lead to the same visits leads to the same. -/
theorem pending_append_congr (h : pending seen queue = pending seen queue') (more : List String) :
    pending seen (queue ++ more) = pending seen (queue' ++ more) := by
  have hsame : ∀ x, x ∈ queue ++ seen ↔ x ∈ queue' ++ seen := fun x => by
    have hx := congrArg (x ∈ ·) h
    simp only [mem_pending, eq_iff_iff] at hx
    rw [List.mem_append, List.mem_append]
    tauto
  rw [pending_append, pending_append, h, pending_congr more hsame]

/-- An id that waits already, or was seen, does not come to another visit. -/
theorem pending_append_of_mem (h : x ∈ queue ∨ x ∈ seen) (more : List String) :
    pending seen (queue ++ x :: more) = pending seen (queue ++ more) := by
  rw [pending_append, pending_append, pending, if_pos (List.mem_append.mpr h)]

/-- A walk ends where nothing is left to visit. -/
theorem walk_of_pending_nil : ∀ {queue : List String} (steps : Nat), pending seen queue = [] →
    Id.run (walk (fun i => pure (f i)) steps queue seen) = seen
  | _, 0, _ => rfl
  | [], _ + 1, _ => rfl
  | id :: queue, steps + 1, h => by
      by_cases hid : id ∈ seen
      · rw [pending_of_mem hid] at h
        rw [walk_of_mem hid, walk_of_pending_nil steps h]
      · rw [pending_of_not_mem hid] at h
        cases h

/-- **Walks with enough steps are the same** from queues that lead to the same visits. -/
theorem walk_eq_of_pending (hf : ∀ id, id ∉ keys → f id = []) :
    ∀ (steps steps' : Nat) (queue queue' seen : List String),
      queue.length + unseen f keys seen ≤ steps → queue'.length + unseen f keys seen ≤ steps' →
      pending seen queue = pending seen queue' →
      Id.run (walk (fun i => pure (f i)) steps queue seen)
        = Id.run (walk (fun i => pure (f i)) steps' queue' seen)
  | steps, steps', [], queue', seen, _, _, h => by
      rw [walk_of_pending_nil steps rfl, walk_of_pending_nil steps' h.symm]
  | steps, steps', queue, [], seen, _, _, h => by
      rw [walk_of_pending_nil steps h, walk_of_pending_nil steps' rfl]
  | 0, _, id :: queue, _, _, hsteps, _, _ => by
      rw [List.length_cons] at hsteps
      omega
  | _, 0, _, id :: queue, _, _, hsteps, _ => by
      rw [List.length_cons] at hsteps
      omega
  | steps + 1, steps' + 1, id :: queue, id' :: queue', seen, hsteps, hsteps', h => by
      by_cases hid : id ∈ seen
      · rw [pending_of_mem hid] at h
        rw [List.length_cons] at hsteps
        rw [walk_of_mem hid]
        exact walk_eq_of_pending hf steps (steps' + 1) queue (id' :: queue') seen (by omega) hsteps' h
      by_cases hid' : id' ∈ seen
      · rw [pending_of_mem hid'] at h
        rw [List.length_cons] at hsteps'
        rw [walk_of_mem hid']
        exact walk_eq_of_pending hf (steps + 1) steps' (id :: queue) queue' seen hsteps (by omega) h
      rw [pending_of_not_mem hid, pending_of_not_mem hid'] at h
      obtain ⟨rfl, h⟩ := List.cons.inj h
      have hcost := unseen_visit_le hf hid
      rw [List.length_cons] at hsteps hsteps'
      rw [walk_of_not_mem hid, walk_of_not_mem hid]
      exact walk_eq_of_pending hf steps steps' _ _ _ (by rw [List.length_append]; omega)
        (by rw [List.length_append]; omega) (pending_append_congr h _)
  termination_by steps steps' => steps + steps'

end Walk

namespace Program

variable {p : Program} {id i j : String}

theorem sum_length_usersOf (h : p.ids.Nodup) :
    unseen p.usersOf p.ids [] = p.userCount := by
  rw [unseen, userCount, ids, List.map_map]
  refine congrArg (List.foldr (· + ·) 0) (List.map_congr_left fun n hn => ?_)
  rw [Function.comp_apply, if_neg List.not_mem_nil, usersOf_of_node? (node?_of_mem h hn)]

theorem sum_length_depsOf (h : p.ids.Nodup) :
    unseen p.depsOf p.ids [] = p.dependencyCount := by
  rw [unseen, dependencyCount, ids, List.map_map]
  refine congrArg (List.foldr (· + ·) 0) (List.map_congr_left fun n hn => ?_)
  rw [Function.comp_apply, if_neg List.not_mem_nil, depsOf_of_node? (node?_of_mem h hn)]

theorem downstream_closed (h : p.ids.Nodup) (id : String) :
    id ∈ p.downstream id ∧ ∀ i ∈ p.downstream id, ∀ j ∈ p.usersOf i, j ∈ p.downstream id := by
  have hkeys : ∀ i, i ∉ p.ids → p.usersOf i = [] := fun i hi =>
    usersOf_of_not_contains fun hc => hi (contains_iff_mem_ids.mp hc)
  have hw := walk_closed hkeys
    (1 + p.userCount) [id] [] (Nat.le_of_eq (by rw [sum_length_usersOf h, List.length_singleton]))
    (fun i hi => absurd hi List.not_mem_nil)
  exact ⟨hw.2.1 id (List.mem_singleton_self id), hw.2.2⟩

theorem mem_downstream_self (h : p.ids.Nodup) (id : String) : id ∈ p.downstream id :=
  (downstream_closed h id).1

/-- **What is downstream of a node is closed under users.** -/
theorem mem_downstream_of_user (h : p.ids.Nodup) (hi : i ∈ p.downstream id)
    (hj : j ∈ p.usersOf i) : j ∈ p.downstream id :=
  (downstream_closed h id).2 i hi j hj

end Program

end NetPlan

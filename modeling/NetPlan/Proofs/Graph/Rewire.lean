import NetPlan.Proofs.Effect
import NetPlan.Proofs.Layout.Fresh

/-!
# Proofs/Graph/Rewire — edits of edges

`connect`, `disconnect` and `replaceDependency` change the edges into one node and nothing else of
the graph.  What each leaves behind is a program of its own — `link`, `cut`, `redirect` — and stands
to the program before as `Rewired` says: the same nodes but for edges, argument slots and caches, the
same order and outputs, still linked, and coherent if it was.  `Rewired` composes, so an edit made of
several such steps is described by where the dependencies end up.  What does not hang on links being
right, the nodes but for their edges, is `Framed`.
-/

namespace NetPlan

namespace Node

variable (n : Node) (id : String) (index : Nat)

theorem addUser_eq : n.addUser id
    = { n with users := if id ∈ n.users then n.users else n.users ++ [id] } := by
  rw [addUser, hasUser]
  by_cases h : id ∈ n.users
  · simp [h]
  · simp [h]

@[simp] theorem id_addDependency : (n.addDependency id).id = n.id := (rfl)
@[simp] theorem users_addDependency : (n.addDependency id).users = n.users := (rfl)
@[simp] theorem operation_addDependency : (n.addDependency id).operation = n.operation := (rfl)
@[simp] theorem core_addDependency : (n.addDependency id).core = n.core := (rfl)
@[simp] theorem layout_addDependency : (n.addDependency id).layout = n.layout := (rfl)

@[simp] theorem id_dropDependency : (n.dropDependency id).id = n.id := (rfl)
@[simp] theorem users_dropDependency : (n.dropDependency id).users = n.users := (rfl)
@[simp] theorem operation_dropDependency : (n.dropDependency id).operation = n.operation := (rfl)
@[simp] theorem core_dropDependency : (n.dropDependency id).core = n.core := (rfl)
@[simp] theorem layout_dropDependency : (n.dropDependency id).layout = n.layout := (rfl)

@[simp] theorem id_addUser : (n.addUser id).id = n.id := by rw [addUser_eq]; rfl
@[simp] theorem dependencies_addUser : (n.addUser id).dependencies = n.dependencies := by
  rw [addUser_eq]
@[simp] theorem operation_addUser : (n.addUser id).operation = n.operation := by
  rw [addUser_eq]; rfl
@[simp] theorem core_addUser : (n.addUser id).core = n.core := by rw [addUser_eq]; rfl
@[simp] theorem layout_addUser : (n.addUser id).layout = n.layout := by rw [addUser_eq]

@[simp] theorem id_dropUser : (n.dropUser id).id = n.id := (rfl)
@[simp] theorem dependencies_dropUser : (n.dropUser id).dependencies = n.dependencies := (rfl)
@[simp] theorem operation_dropUser : (n.dropUser id).operation = n.operation := (rfl)
@[simp] theorem core_dropUser : (n.dropUser id).core = n.core := (rfl)
@[simp] theorem layout_dropUser : (n.dropUser id).layout = n.layout := (rfl)

@[simp] theorem id_setDependency : (n.setDependency index id).id = n.id := (rfl)
@[simp] theorem users_setDependency : (n.setDependency index id).users = n.users := (rfl)
@[simp] theorem layout_setDependency : (n.setDependency index id).layout = n.layout := (rfl)
@[simp] theorem arguments_setDependency :
    (n.setDependency index id).operation.arguments = n.operation.arguments.set index id :=
  Operation.arguments_setSlot ..
@[simp] theorem core_setDependency : (n.setDependency index id).core = n.core :=
  congrArg (fun op => ({ n.withOperation op with
    dependencies := [], users := [], layout := none } : Node)) (Operation.shape_setSlot ..)

end Node

namespace Program

/-- What an edit keeps. -/
structure Kept (p q : Program) : Prop where
  linked : q.Linked
  coherent : p.Coherent → q.Coherent
  wellFormed : p.WellFormed → q.WellFormed
  behaviours : q.behaviours = p.behaviours

namespace Kept

variable {p q r : Program}

theorem refl (h : p.Linked) : Kept p p := ⟨h, fun hc => hc, fun hw => hw, rfl⟩

theorem trans (h : Kept p q) (h' : Kept q r) : Kept p r :=
  ⟨h'.linked, fun hc => h'.coherent (h.coherent hc), fun hw => h'.wellFormed (h.wellFormed hw),
    h'.behaviours.trans h.behaviours⟩

end Kept

/-- `q` is `p` with other edges, argument slots and caches. -/
structure Rewired (p q : Program) : Prop where
  ids : q.ids = p.ids
  core : q.coreOf = p.coreOf
  order : q.order = p.order
  outputs : q.outputs = p.outputs
  removed : q.removed = p.removed
  behaviours : q.behaviours = p.behaviours
  linked : q.Linked
  coherent : p.Coherent → q.Coherent

variable {p q r : Program} {dep user old new j : String} {index : Nat}

namespace Rewired

theorem refl (h : p.Linked) : Rewired p p := ⟨rfl, rfl, rfl, rfl, rfl, rfl, h, fun hc => hc⟩

theorem trans (h : Rewired p q) (h' : Rewired q r) : Rewired p r :=
  ⟨h'.ids.trans h.ids, h'.core.trans h.core, h'.order.trans h.order,
    h'.outputs.trans h.outputs, h'.removed.trans h.removed, h'.behaviours.trans h.behaviours,
    h'.linked, fun hc => h'.coherent (h.coherent hc)⟩

theorem contains (h : Rewired p q) : q.contains = p.contains := contains_congr h.ids

theorem isMarked (h : Rewired p q) (id : String) : q.isMarked id = p.isMarked id := by
  rw [isMarked_eq_coreOf, isMarked_eq_coreOf, h.core]

theorem kept (h : Rewired p q) : Kept p q :=
  ⟨h.linked, h.coherent, fun hp => h.linked.wellFormed hp h.outputs h.isMarked, h.behaviours⟩

end Rewired

/-- `q` is `p` with other edges, argument slots and caches, whether they agree or not. -/
structure Framed (p q : Program) : Prop where
  ids : q.ids = p.ids
  core : q.coreOf = p.coreOf
  order : q.order = p.order

namespace Framed

theorem refl (p : Program) : Framed p p := ⟨rfl, rfl, rfl⟩

theorem trans (h : Framed p q) (h' : Framed q r) : Framed p r :=
  ⟨h'.ids.trans h.ids, h'.core.trans h.core, h'.order.trans h.order⟩

theorem contains (h : Framed p q) : q.contains = p.contains := contains_congr h.ids

end Framed

/-- Lists of users only lose entries, but for those of some nodes. -/
def Thinned (p q : Program) (gain : List String) : Prop :=
  ∀ j, j ∉ gain → (q.usersOf j).Sublist (p.usersOf j)

/-- `user` was added to the users of `new`, at the end, or was there already. -/
def Joined (p q : Program) (new user : String) : Prop :=
  q.usersOf new = p.usersOf new ∨
    user ∉ p.usersOf new ∧ q.usersOf new = p.usersOf new ++ [user]

section Users

variable {gain : List String}

theorem Thinned.refl (p : Program) (gain : List String) : Thinned p p gain :=
  fun j _ => List.Sublist.refl (p.usersOf j)

theorem Thinned.trans (h : Thinned p q gain) (h' : Thinned q r gain) : Thinned p r gain :=
  fun j hj => (h' j hj).trans (h j hj)

theorem Thinned.mono {more : List String} (h : Thinned p q gain) (hmore : gain ⊆ more) :
    Thinned p q more := fun j hj => h j fun hmem => hj (hmore hmem)

theorem filter_mem_of_sublist {l k : List String} (h : l.Sublist k) (hk : k.Nodup) :
    k.filter (· ∈ l) = l := by
  induction h with
  | slnil => rfl
  | @cons l k a h ih =>
    obtain ⟨ha, hk⟩ := List.nodup_cons.mp hk
    rw [List.filter_cons_of_neg (by simpa using fun hmem => ha (h.subset hmem)), ih hk]
  | @cons_cons l k a h ih =>
    obtain ⟨ha, hk⟩ := List.nodup_cons.mp hk
    rw [List.filter_cons_of_pos (by simp)]
    refine congrArg (a :: ·) ((List.filter_congr fun x hx => ?_).trans (ih hk))
    have hne : x ≠ a := fun he => ha (he ▸ hx)
    simp [hne]

/-- **Users that were not lost still read the node**, and stand in the list as they stood. -/
theorem Thinned.users (h : Thinned p q gain) (hp : p.Linked) (hq : q.Linked) (hj : j ∉ gain) :
    q.usersOf j = (p.usersOf j).filter fun u => j ∈ q.depsOf u := by
  rw [← filter_mem_of_sublist (h j hj) (hp.users_nodup j)]
  exact List.filter_congr fun u _ => decide_eq_decide.mpr (hq.edges j u).symm

theorem Joined.trans (h : Joined p q new user) (h' : Joined q r new user) :
    Joined p r new user := by
  rcases h with h | ⟨hnot, h⟩
  · rwa [Joined, h] at h'
  · rcases h' with h' | ⟨hnot', -⟩
    · exact Or.inr ⟨hnot, h'.trans h⟩
    · exact absurd (by rw [h]; simp) hnot'

end Users

/-! ## What a change of one node does to the views -/

section Update

variable {f : Node → Node} {id : String}

theorem depsOf_update (f : Node → Node) (hf : ∀ n, (f n).id = n.id)
    {g : List String → List String} (h : ∀ n, (f n).dependencies = g n.dependencies)
    (hc : p.contains id = true) (j : String) :
    (p.update id f).depsOf j = if j = id then g (p.depsOf j) else p.depsOf j := by
  rw [depsOf, node?_update hf]
  by_cases hj : j = id
  · rw [if_pos hj, if_pos hj]
    obtain ⟨n, hn⟩ := contains_iff.mp hc
    rw [hj, hn, depsOf_of_node? hn, ← h]
    rfl
  · rw [if_neg hj, if_neg hj, depsOf]

@[simp] theorem depsOf_update_same (hf : ∀ n, (f n).id = n.id)
    (h : ∀ n, (f n).dependencies = n.dependencies) : (p.update id f).depsOf = p.depsOf :=
  funext fun j => view_update Node.depsIn
    hf h id j

theorem usersOf_update (f : Node → Node) (hf : ∀ n, (f n).id = n.id)
    {g : List String → List String} (h : ∀ n, (f n).users = g n.users)
    (hc : p.contains id = true ∨ g [] = []) (j : String) :
    (p.update id f).usersOf j = if j = id then g (p.usersOf j) else p.usersOf j := by
  rw [usersOf, node?_update hf]
  by_cases hj : j = id
  · rw [if_pos hj, if_pos hj, hj, usersOf]
    cases hn : p.node? id with
    | none => exact (hc.resolve_left (node?_eq_none.mp hn)).symm
    | some n => exact h n
  · rw [if_neg hj, if_neg hj, usersOf]

@[simp] theorem usersOf_update_same (hf : ∀ n, (f n).id = n.id) (h : ∀ n, (f n).users = n.users) :
    (p.update id f).usersOf = p.usersOf :=
  funext fun j => view_update Node.usersIn hf h id j

theorem argsOf_update (f : Node → Node) (hf : ∀ n, (f n).id = n.id)
    {g : List String → List String} (h : ∀ n, (f n).operation.arguments = g n.operation.arguments)
    (hc : p.contains id = true) (j : String) :
    (p.update id f).argsOf j = if j = id then g (p.argsOf j) else p.argsOf j := by
  rw [argsOf, node?_update hf]
  by_cases hj : j = id
  · rw [if_pos hj, if_pos hj]
    obtain ⟨n, hn⟩ := contains_iff.mp hc
    rw [hj, hn, argsOf_of_node? hn, ← h]
    rfl
  · rw [if_neg hj, if_neg hj, argsOf]

@[simp] theorem argsOf_update_same (hf : ∀ n, (f n).id = n.id)
    (h : ∀ n, (f n).operation = n.operation) : (p.update id f).argsOf = p.argsOf :=
  funext fun j => view_update
    Node.argsIn hf
    (fun n => congrArg Operation.arguments (h n)) id j

@[simp] theorem coreOf_update_same (hf : ∀ n, (f n).id = n.id) (h : ∀ n, (f n).core = n.core) :
    (p.update id f).coreOf = p.coreOf :=
  funext fun j => view_update (Option.map Node.core) hf (fun n => congrArg some (h n)) id j

@[simp] theorem layoutOf_update_same (hf : ∀ n, (f n).id = n.id) (h : ∀ n, (f n).layout = n.layout) :
    (p.update id f).layoutOf = p.layoutOf :=
  funext fun j => view_update (fun o => o.bind Node.layout) hf h id j

@[simp] theorem contains_update (hf : ∀ n, (f n).id = n.id) : (p.update id f).contains = p.contains :=
  contains_congr (ids_update hf id)

end Update

/-- The program with another list of inputs. -/
def setInputs (p : Program) (inputs : List String) : Program := { p with inputs }

section Inputs

variable (p) (inputs : List String)

@[simp] theorem ids_setInputs : (p.setInputs inputs).ids = p.ids := (rfl)
@[simp] theorem depsOf_setInputs : (p.setInputs inputs).depsOf = p.depsOf := (rfl)
@[simp] theorem usersOf_setInputs : (p.setInputs inputs).usersOf = p.usersOf := (rfl)
@[simp] theorem argsOf_setInputs : (p.setInputs inputs).argsOf = p.argsOf := (rfl)
@[simp] theorem coreOf_setInputs : (p.setInputs inputs).coreOf = p.coreOf := (rfl)

end Inputs

/-! ## Connecting -/

/-- **An edit of the edges into one node.**  Once its edges are changed on both ends the node is
invalidated, and the inputs follow. -/
theorem Linked.rewired (h : p.Linked) {inputs : List String} (ids : q.ids = p.ids)
    (core : q.coreOf = p.coreOf) (order : q.order = p.order) (outputs : q.outputs = p.outputs)
    (removed : q.removed = p.removed) (behaviours : q.behaviours = p.behaviours)
    (caches : q.layoutOf = p.layoutOf)
    (deps : ∀ v, v ≠ user → q.depsOf v = p.depsOf v) (irrefl : user ∉ q.depsOf user)
    (others : ∀ d v, v ≠ user → (v ∈ q.usersOf d ↔ v ∈ p.usersOf d))
    (ends : ∀ d, user ∈ q.usersOf d ↔ d ∈ q.depsOf user) (nodup : ∀ d, (q.usersOf d).Nodup)
    (inputs_nodup : inputs.Nodup) (mem_inputs : ∀ v, v ≠ user → (v ∈ inputs ↔ v ∈ p.inputs))
    (input : user ∈ inputs ↔ p.contains user = true ∧ q.depsOf user = []) :
    Rewired p ((q.invalidate user).setInputs inputs) := by
  have hl : ((q.invalidate user).setInputs inputs).Linked := by
    refine h.rewire (u := user) (by simp [ids]) order ?_ ?_ ?_ ?_ ?_ inputs_nodup mem_inputs ?_
    all_goals simpa
  refine ⟨by simp [ids], by simp [core], order, outputs, removed, behaviours, hl, fun hc => ?_⟩
  refine (hc.invalidate (q := q) user ?_ (fun d i hd => ?_) behaviours (fun i _ => ?_) deps
    fun i l _ hl => caches ▸ hl).congr rfl rfl
  · simpa using hl.ids_nodup
  · simpa [hd] using hl.edges d i
  · rw [outlineOf_eq_coreOf, outlineOf_eq_coreOf, core]

/-- The program with one more edge. -/
def link (p : Program) (dep user : String) : Program :=
  (((p.update user (·.addDependency dep)).update dep (·.addUser user)).invalidate user).setInputs
    (p.inputs.filter (· ≠ user))

theorem depsOf_update_addDependency (hu : p.contains user = true) (j : String) :
    (p.update user (·.addDependency dep)).depsOf j
      = if j = user then p.depsOf j ++ [dep] else p.depsOf j :=
  depsOf_update (·.addDependency dep) (g := (· ++ [dep])) (fun _ => rfl) (fun _ => rfl) hu j

theorem usersOf_update_addUser (hd : p.contains dep = true) (j : String) :
    (p.update dep (·.addUser user)).usersOf j
      = if j = dep then (if user ∈ p.usersOf j then p.usersOf j else p.usersOf j ++ [user])
        else p.usersOf j :=
  usersOf_update (·.addUser user) (g := fun us => if user ∈ us then us else us ++ [user])
    (fun n => n.id_addUser user) (fun n => by rw [Node.addUser_eq]) (Or.inl hd) j

theorem depsOf_link (hu : p.contains user = true) (j : String) :
    (p.link dep user).depsOf j = if j = user then p.depsOf j ++ [dep] else p.depsOf j := by
  simp [link, depsOf_update_addDependency hu]

theorem argsOf_link : (p.link dep user).argsOf = p.argsOf := by simp [link]

theorem thinned_link (hd : p.contains dep = true) : Thinned p (p.link dep user) [dep] := by
  intro j hj
  have hne : j ≠ dep := by simpa using hj
  simp [link, usersOf_update_addUser (show (p.update user (·.addDependency dep)).contains dep = true
    by simpa using hd), hne]

theorem rewired_link (h : p.Linked) (hne : dep ≠ user) (hd : p.contains dep = true)
    (hu : p.contains user = true) : Rewired p (p.link dep user) := by
  have husers : ∀ j, ((p.update user (·.addDependency dep)).update dep (·.addUser user)).usersOf j
      = if j = dep then (if user ∈ p.usersOf j then p.usersOf j else p.usersOf j ++ [user])
        else p.usersOf j := fun j => by
    rw [usersOf_update_addUser (by simpa using hd), usersOf_update_same (by simp) (by simp)]
  refine h.rewired (by simp) (by simp) rfl rfl rfl rfl (by simp)
    (fun v hv => by simp [depsOf_update_addDependency hu, hv]) ?_ (fun d v hv => ?_) (fun d => ?_)
    (fun d => ?_) (h.inputs_nodup.filter _) (fun v hv => by simp [hv]) ?_
  · simpa [depsOf_update_addDependency hu] using ⟨h.irrefl user, hne.symm⟩
  · rw [husers]
    grind
  · have hedge := h.edges d user
    simp only [husers, depsOf_update_same, depsOf_update_addDependency hu, Node.id_addUser,
      Node.dependencies_addUser, implies_true, if_true, List.mem_append, List.mem_singleton]
    grind
  · have hnd := h.users_nodup d
    rw [husers]
    grind
  · simp [depsOf_update_addDependency hu]

/-! ## Disconnecting -/

/-- The program without the edges from `dep` to `user`. -/
def cut (p : Program) (dep user : String) : Program :=
  (((p.update user (·.dropDependency dep)).update dep (·.dropUser user)).invalidate user).setInputs
    (if (p.depsOf user).all (· = dep) && !p.inputs.contains user then p.inputs ++ [user]
      else p.inputs)

theorem depsOf_update_dropDependency (hu : p.contains user = true) (j : String) :
    (p.update user (·.dropDependency dep)).depsOf j
      = if j = user then (p.depsOf j).filter (· ≠ dep) else p.depsOf j :=
  depsOf_update (·.dropDependency dep) (g := List.filter (· ≠ dep)) (fun _ => rfl)
    (fun _ => rfl) hu j

theorem usersOf_update_dropUser (j : String) :
    (p.update dep (·.dropUser user)).usersOf j
      = if j = dep then (p.usersOf j).filter (· ≠ user) else p.usersOf j :=
  usersOf_update (·.dropUser user) (g := List.filter (· ≠ user)) (fun _ => rfl)
    (fun _ => rfl) (Or.inr rfl) j

theorem depsOf_cut (hu : p.contains user = true) (j : String) :
    (p.cut dep user).depsOf j
      = if j = user then (p.depsOf j).filter (· ≠ dep) else p.depsOf j := by
  simp [cut, depsOf_update_dropDependency hu]

theorem argsOf_cut : (p.cut dep user).argsOf = p.argsOf := by simp [cut]

theorem framed_cut : Framed p (p.cut dep user) := ⟨by simp [cut], by simp [cut], rfl⟩

theorem thinned_cut : Thinned p (p.cut dep user) [] := by
  intro j _
  simp only [cut, usersOf_setInputs, usersOf_invalidate, usersOf_update_dropUser]
  rw [usersOf_update_same (by simp) (by simp)]
  split
  · exact List.filter_sublist
  · exact List.Sublist.refl _

theorem rewired_cut (h : p.Linked) (hu : p.contains user = true) :
    Rewired p (p.cut dep user) := by
  have husers : ∀ j, ((p.update user (·.dropDependency dep)).update dep (·.dropUser user)).usersOf j
      = if j = dep then (p.usersOf j).filter (· ≠ user) else p.usersOf j := fun j => by
    rw [usersOf_update_dropUser, usersOf_update_same (by simp) (by simp)]
  have hempty : (p.depsOf user).all (· = dep) = true ↔ (p.depsOf user).filter (· ≠ dep) = [] := by
    simp [List.filter_eq_nil_iff]
  have hin := h.mem_inputs user
  refine h.rewired (by simp) (by simp) rfl rfl rfl rfl (by simp)
    (fun v hv => by simp [depsOf_update_dropDependency hu, hv]) ?_ (fun d v hv => ?_) (fun d => ?_)
    (fun d => ?_) ?_ (fun v hv => ?_) ?_
  · simpa [depsOf_update_dropDependency hu] using fun hmem => absurd hmem (h.irrefl user)
  · rw [husers]
    grind
  · have hedge := h.edges d user
    simp only [husers, depsOf_update_same, depsOf_update_dropDependency hu, Node.id_dropUser,
      Node.dependencies_dropUser, implies_true, if_true]
    grind
  · have hnd := h.users_nodup d
    rw [husers]
    split
    · exact hnd.filter _
    · exact hnd
  · split
    case isTrue hc =>
      have hni : user ∉ p.inputs := by simpa using (Bool.and_eq_true_iff.mp hc).2
      exact List.concat_eq_append ▸ h.inputs_nodup.concat hni
    case isFalse => exact h.inputs_nodup
  · split
    · simp [hv]
    · rfl
  · simp only [depsOf_update_same, Node.id_dropUser, Node.dependencies_dropUser, implies_true,
      depsOf_update_dropDependency hu, if_true]
    split
    case isTrue hc =>
      have hall := hempty.mp (Bool.and_eq_true_iff.mp hc).1
      rw [hall]
      simp [hu]
    case isFalse hc =>
      rw [Bool.and_eq_true_iff, hempty] at hc
      by_cases hi : user ∈ p.inputs
      · have := (hin.mp hi).2
        simp [hi, hu, this]
      · have hnil : ¬ (p.depsOf user).filter (· ≠ dep) = [] := fun h' => hc ⟨h', by simpa using hi⟩
        exact ⟨fun h' => absurd h' hi, fun h' => absurd h'.2 hnil⟩

/-! ## Redirecting -/

theorem depsOf_update_setDependency (hu : p.contains user = true) (j : String) :
    (p.update user (·.setDependency index new)).depsOf j
      = if j = user then (p.depsOf j).set index new else p.depsOf j :=
  depsOf_update (·.setDependency index new) (g := fun ds => ds.set index new) (fun _ => rfl)
    (fun _ => rfl) hu j

theorem argsOf_update_setDependency (hu : p.contains user = true) (j : String) :
    (p.update user (·.setDependency index new)).argsOf j
      = if j = user then (p.argsOf j).set index new else p.argsOf j :=
  argsOf_update (·.setDependency index new) (g := fun as => as.set index new) (fun _ => rfl)
    (fun n => n.arguments_setDependency new index) hu j

/-- The program with one dependency of `user`, so far `old`, pointed at `new`, and `user` gone from
the users of `old` if it was the last one. -/
def release (p : Program) (user : String) (index : Nat) (old new : String) : Program :=
  if old ∈ (p.depsOf user).set index new then p.update user (·.setDependency index new)
  else (p.update user (·.setDependency index new)).update old (·.dropUser user)

/-- The program with one dependency of `user`, so far `old`, pointed at `new`. -/
def redirect (p : Program) (user : String) (index : Nat) (old new : String) : Program :=
  (((p.release user index old new).update new (·.addUser user)).invalidate user).setInputs p.inputs

section Release

variable (p user index old new)

@[simp] theorem ids_release : (p.release user index old new).ids = p.ids := by
  rw [release]
  split <;> simp

@[simp] theorem coreOf_release : (p.release user index old new).coreOf = p.coreOf := by
  rw [release]
  split <;> simp

@[simp] theorem layoutOf_release : (p.release user index old new).layoutOf = p.layoutOf := by
  rw [release]
  split <;> simp

@[simp] theorem order_release : (p.release user index old new).order = p.order := by
  rw [release]
  split <;> rfl

@[simp] theorem outputs_release : (p.release user index old new).outputs = p.outputs := by
  rw [release]
  split <;> rfl

@[simp] theorem removed_release : (p.release user index old new).removed = p.removed := by
  rw [release]
  split <;> rfl

@[simp] theorem behaviours_release :
    (p.release user index old new).behaviours = p.behaviours := by
  rw [release]
  split <;> rfl

theorem usersOf_release (j : String) : (p.release user index old new).usersOf j
    = if j = old ∧ old ∉ (p.depsOf user).set index new
      then (p.usersOf j).filter (· ≠ user) else p.usersOf j := by
  rw [release]
  split
  case isTrue hin => simp [hin]
  case isFalse hin => simp [usersOf_update_dropUser, hin]

end Release

theorem depsOf_release (hu : p.contains user = true) (j : String) :
    (p.release user index old new).depsOf j
      = if j = user then (p.depsOf j).set index new else p.depsOf j := by
  rw [release]
  split <;> simp [depsOf_update_setDependency hu]

theorem argsOf_release (hu : p.contains user = true) (j : String) :
    (p.release user index old new).argsOf j
      = if j = user then (p.argsOf j).set index new else p.argsOf j := by
  rw [release]
  split <;> simp [argsOf_update_setDependency hu]

theorem depsOf_redirect (hu : p.contains user = true) (j : String) :
    (p.redirect user index old new).depsOf j
      = if j = user then (p.depsOf j).set index new else p.depsOf j := by
  simp [redirect, depsOf_release hu]

theorem argsOf_redirect (hu : p.contains user = true) (j : String) :
    (p.redirect user index old new).argsOf j
      = if j = user then (p.argsOf j).set index new else p.argsOf j := by
  simp [redirect, argsOf_release hu]

theorem framed_redirect : Framed p (p.redirect user index old new) :=
  ⟨by simp [redirect], by simp [redirect], order_release ..⟩

theorem usersOf_redirect (hnew : p.contains new = true) (j : String) :
    (p.redirect user index old new).usersOf j
      = if j = new then
          (if user ∈ (p.release user index old new).usersOf j
            then (p.release user index old new).usersOf j
            else (p.release user index old new).usersOf j ++ [user])
        else (p.release user index old new).usersOf j := by
  rw [redirect, usersOf_setInputs, usersOf_invalidate,
    usersOf_update_addUser (by rwa [contains_congr (ids_release ..)])]

theorem thinned_redirect (hnew : p.contains new = true) :
    Thinned p (p.redirect user index old new) [new] := by
  intro j hj
  rw [usersOf_redirect hnew, if_neg (by simpa using hj), usersOf_release]
  split
  · exact List.filter_sublist
  · exact List.Sublist.refl _

theorem joined_redirect (hnew : p.contains new = true) (hne : old ≠ new) :
    Joined p (p.redirect user index old new) new user := by
  have hrelease : (p.release user index old new).usersOf new = p.usersOf new := by
    rw [usersOf_release, if_neg fun h => hne h.1.symm]
  rw [Joined, usersOf_redirect hnew, if_pos rfl, hrelease]
  split
  · exact Or.inl rfl
  case isFalse hnot => exact Or.inr ⟨hnot, rfl⟩

theorem rewired_redirect (h : p.Linked) (hold : (p.depsOf user)[index]? = some old)
    (hne : old ≠ new) (hnew : p.contains new = true) (hnu : new ≠ user) :
    Rewired p (p.redirect user index old new) := by
  have hmem : old ∈ p.depsOf user := List.mem_of_getElem? hold
  have hu := contains_of_mem_depsOf hmem
  obtain ⟨hlt, hget⟩ := List.getElem?_eq_some_iff.mp hold
  have hdeps : ∀ j, ((p.release user index old new).update new (·.addUser user)).depsOf j
      = if j = user then (p.depsOf j).set index new else p.depsOf j := by
    simp [depsOf_release hu]
  have husers : ∀ j, ((p.release user index old new).update new (·.addUser user)).usersOf j
      = if j = new then (if user ∈ p.usersOf j then p.usersOf j else p.usersOf j ++ [user])
        else if j = old ∧ old ∉ (p.depsOf user).set index new
          then (p.usersOf j).filter (· ≠ user) else p.usersOf j := by
    intro j
    rw [usersOf_update_addUser (by rwa [contains_congr (ids_release ..)]), usersOf_release]
    grind
  -- `old` may still be read at another place
  have hset : ∀ d, d ∈ (p.depsOf user).set index new ↔ d = new ∨ (d ≠ old ∧ d ∈ p.depsOf user) ∨
      (d = old ∧ old ∈ (p.depsOf user).set index new) := by
    intro d
    grind [List.mem_set, List.mem_iff_getElem]
  have hirr := h.irrefl user
  refine h.rewired (by simp) (by simp) (order_release ..) (outputs_release ..) (removed_release ..)
    (behaviours_release ..) (by simp) (fun v hv => by rw [hdeps, if_neg hv]) ?_ (fun d v hv => ?_)
    (fun d => ?_) (fun d => ?_) h.inputs_nodup (fun v _ => Iff.rfl) ?_
  · rw [hdeps, if_pos rfl, hset]
    grind
  · rw [husers]
    grind
  · have hedge := h.edges d user
    have hd := hset d
    rw [husers, hdeps, if_pos rfl]
    grind
  · have hnd := h.users_nodup d
    rw [husers]
    grind [List.Nodup.filter]
  · rw [h.mem_inputs, hdeps, if_pos rfl, List.set_eq_nil_iff]

end Program

end NetPlan

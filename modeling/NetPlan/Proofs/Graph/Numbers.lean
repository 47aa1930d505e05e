import NetPlan.Proofs.Graph.Changes

/-!
# Proofs/Graph/Numbers — numbers of an order

An order records positions of ids, and forgets the position of an id that it gives up: there are
numbers for listed ids only (`Order.Sound`).  Every edit keeps that, whether it succeeds or fails
midway and whatever the graph (`sound_edit`), so it holds of what any sequence of changes leaves
(`sound_applyAll`), and of every graph that is built (`sound_ofTopology`).
-/

namespace NetPlan

namespace Order

variable {o : Order} {anchor id old new : String}

/-- Numbers are recorded for listed ids only. -/
def Sound (o : Order) : Prop := ∀ x ∈ o.numbers, x.1 ∈ o.ids

/-- Fresh numbers are sound. -/
theorem sound_number (o : Order) : o.number.Sound := fun x hx => by
  obtain ⟨-, hid⟩ := List.mem_zipIdx' hx
  exact hid ▸ List.getElem_mem _

/-- An id that goes takes its number with it. -/
theorem Sound.erase (h : o.Sound) (id : String) : (o.erase id).Sound := fun x hx => by
  obtain ⟨hmem, hne⟩ := List.mem_filter.mp hx
  exact List.mem_filter.mpr ⟨h x hmem, hne⟩

/-- An id that comes in has no number yet. -/
theorem Sound.insertAfter (h : o.Sound) (anchor id : String) : (o.insertAfter anchor id).Sound := by
  rw [Order.insertAfter, insertAfter?]
  split
  · exact h
  · exact fun x hx => mem_placeAfter.mpr (Or.inl (h.erase id x hx))

/-- A number goes with its id. -/
theorem Sound.rename (h : o.Sound) (old new : String) : (o.rename old new).Sound := by
  rw [Order.rename]
  split
  · intro x hx
    obtain ⟨y, hy, rfl⟩ := List.mem_map.mp hx
    exact List.mem_map_of_mem (h y hy)
  · exact h

end Order

namespace Edit

open Program

variable {α β : Type} {f : Node → Node} {prim : Primitive}

/-- Whatever becomes of the edit, numbers are recorded for listed ids only. -/
def KeepsSound (x : Edit α) : Prop := ∀ p : Program, p.order.Sound →
  Ends x (fun _ q => q.order.Sound) (fun _ q => q.order.Sound) p

section Rules

theorem keepsSound_pure (a : α) : KeepsSound (pure a) := fun _ h => h

theorem keepsSound_throw (e : CompileError) : KeepsSound (throw e : Edit α) := fun _ h => h

/-- One step after another. -/
theorem KeepsSound.bind {x : Edit β} {g : β → Edit α} (hx : KeepsSound x)
    (hg : ∀ b, KeepsSound (g b)) : KeepsSound (x >>= g) := fun p h => by
  rw [ends_bind]
  exact (hx p h).imp_good fun b q hq => hg b q hq

theorem keepsSound_get : KeepsSound (get : Edit Program) := fun _ h => h

/-- A change that keeps the numbers sound. -/
theorem keepsSound_modify {g : Program → Program} (hg : ∀ p, p.order.Sound → (g p).order.Sound) :
    KeepsSound (modify g) := fun p h => hg p h

/-- A loop of such steps. -/
theorem keepsSound_forIn {body : β → PUnit → Edit (ForInStep PUnit)}
    (h : ∀ b, KeepsSound (body b PUnit.unit)) :
    ∀ xs : List β, KeepsSound (forIn xs PUnit.unit body)
  | [] => keepsSound_pure PUnit.unit
  | b :: xs => by
      rw [List.forIn_cons]
      refine (h b).bind fun r => ?_
      cases r with
      | done u => exact keepsSound_pure u
      | yield u => exact keepsSound_forIn h xs

theorem keepsSound_node (id : String) : KeepsSound (node id) := fun p h => by
  rw [ends_node]
  exact ⟨fun _ _ => h, fun _ => h⟩

theorem keepsSound_ofExcept (r : Except CompileError α) : KeepsSound (ofExcept r) := fun p h => by
  rw [ends_ofExcept]
  exact ⟨fun _ _ => h, fun _ _ => h⟩

theorem keepsSound_change (id : String) : KeepsSound (change id f) := fun p h => by
  rw [ends_change]
  exact ⟨fun _ _ => h, fun _ => h⟩

end Rules

/-! ## Edges -/

theorem keepsSound_connect (dep user : String) : KeepsSound (connect dep user) := fun _ h =>
  ends_connect (fun _ => h) (fun _ => h) (fun _ => h) fun _ _ _ => h

theorem keepsSound_disconnect (dep user : String) : KeepsSound (disconnect dep user) := fun _ h =>
  ends_disconnect (fun _ => h) fun _ => h

theorem keepsSound_replaceDependency (user : String) (index : Nat) (new : String) :
    KeepsSound (replaceDependency user index new) := fun _ h =>
  ends_replaceDependency (fun _ => h) (fun _ => h) (fun _ => h) (fun _ _ => h)
    fun _ _ _ _ => framed_redirect.order.symm ▸ h

theorem keepsSound_replaceDependencyOf (user old new : String) :
    KeepsSound (replaceDependencyOf user old new) := by
  rw [replaceDependencyOf]
  refine (keepsSound_node user).bind fun n => (keepsSound_forIn (fun x => ?_) _).bind
    fun _ => keepsSound_pure ()
  obtain ⟨d, index⟩ := x
  dsimp only
  split
  · exact (keepsSound_replaceDependency _ _ _).bind fun _ => keepsSound_pure _
  · exact keepsSound_pure _

theorem keepsSound_connectAll (deps : List String) (user : String) :
    KeepsSound (connectAll deps user) := by
  rw [connectAll]
  exact (keepsSound_forIn (fun dep => (keepsSound_connect dep user).bind fun _ =>
    keepsSound_pure _) deps).bind fun _ => keepsSound_pure ()

theorem keepsSound_isolate (id : String) : KeepsSound (isolate id) := by
  rw [isolate]
  refine (keepsSound_node id).bind fun n => ?_
  refine (keepsSound_forIn (fun dep => (keepsSound_disconnect dep id).bind fun _ =>
    keepsSound_pure _) n.dependencies).bind fun _ => ?_
  exact (keepsSound_forIn (fun user => (keepsSound_disconnect id user).bind fun _ =>
    keepsSound_pure _) n.users).bind fun _ => keepsSound_pure ()

theorem keepsSound_reverse (dep user : String) : KeepsSound (reverse dep user) := by
  rw [reverse]
  refine (keepsSound_node dep).bind fun n => ?_
  split
  · exact keepsSound_throw _
  · exact (keepsSound_disconnect dep user).bind fun _ => keepsSound_connect user dep

/-! ## Nodes -/

theorem keepsSound_create (prim : Primitive) : KeepsSound (create prim) := fun p h =>
  (create_effect prim).imp_good fun n q hq => by
    obtain ⟨-, rfl⟩ | ⟨-, -, rfl⟩ := hq
    · exact h
    · exact h

theorem keepsSound_remove (id : String) : KeepsSound (remove id) := by
  rw [remove]
  exact (keepsSound_isolate id).bind fun _ => keepsSound_modify fun _ h => h.erase id

theorem keepsSound_removeIfDangling (id : String) : KeepsSound (removeIfDangling id) := by
  rw [removeIfDangling]
  refine (keepsSound_node id).bind fun n => ?_
  split
  · exact keepsSound_pure false
  · exact (keepsSound_remove id).bind fun _ => keepsSound_pure true

theorem keepsSound_rename (old new : String) : KeepsSound (rename old new) := fun _ h =>
  ends_rename (fun _ => h) (fun _ _ => h) (fun _ _ => h) fun _ _ _ => h.rename _ new

theorem keepsSound_markOutput (id : String) : KeepsSound (markOutput id) := by
  rw [markOutput]
  refine (keepsSound_change id).bind fun _ => keepsSound_modify fun p h => ?_
  split
  · exact h
  · exact h

theorem keepsSound_placeIntermediate (prim : Primitive) (source : String) :
    KeepsSound (placeIntermediate prim source) := by
  rw [placeIntermediate]
  refine keepsSound_get.bind fun p => ?_
  split
  · split
    · exact keepsSound_throw _
    · exact keepsSound_pure _
  · split
    · exact keepsSound_throw _
    · exact (keepsSound_create prim).bind fun _ => (keepsSound_connectAll _ _).bind fun _ =>
        keepsSound_modify fun _ h => h.insertAfter source prim.id

theorem keepsSound_inheritFlags (source id : String) : KeepsSound (inheritFlags source id) := by
  rw [inheritFlags]
  refine (keepsSound_node source).bind fun s => (keepsSound_change id).bind fun _ => ?_
  split
  · exact (keepsSound_change id).bind fun _ => keepsSound_get.bind fun _ =>
      keepsSound_change source
  · exact keepsSound_pure ()

theorem keepsSound_addIntermediate (prim : Primitive) (next : String) (index : Nat) :
    KeepsSound (addIntermediate prim next index) := by
  rw [addIntermediate]
  refine (keepsSound_node next).bind fun n => ?_
  split
  · exact keepsSound_throw _
  · exact (keepsSound_placeIntermediate prim _).bind fun _ =>
      (keepsSound_replaceDependency next index prim.id).bind fun _ =>
        keepsSound_inheritFlags _ prim.id

theorem keepsSound_replace (old : String) (prim : Primitive) (keep : Bool) :
    KeepsSound (replace old prim keep) := by
  rw [replace]
  refine (keepsSound_node old).bind fun n => keepsSound_get.bind fun p => ?_
  refine (keepsSound_create _).bind fun _ => (keepsSound_connectAll _ _).bind fun _ => ?_
  refine (keepsSound_forIn (fun user => (keepsSound_replaceDependencyOf user old _).bind
    fun _ => keepsSound_pure _) n.users).bind fun _ => (keepsSound_change _).bind fun _ => ?_
  refine (keepsSound_modify fun _ h => h.insertAfter old _).bind fun _ =>
    (keepsSound_isolate old).bind fun _ => ?_
  exact (keepsSound_modify fun _ h => h.erase old).bind fun _ => keepsSound_rename _ old

theorem keepsSound_extract (id : String) : KeepsSound (extract id) := by
  rw [extract]
  refine (keepsSound_node id).bind fun n => ?_
  split
  · exact keepsSound_pure false
  case h_2 input _ =>
    refine (keepsSound_node input).bind fun source => ?_
    split
    · exact keepsSound_pure false
    refine (keepsSound_forIn (fun user => (keepsSound_replaceDependencyOf user id input).bind
      fun _ => keepsSound_pure _) n.users).bind fun _ => (keepsSound_remove id).bind fun _ => ?_
    have htail : KeepsSound (do
        if n.isOutput then
          markOutput input
          rename input id
        return true) := by
      split
      · exact (keepsSound_markOutput input).bind fun _ => (keepsSound_rename input id).bind
          fun _ => keepsSound_pure true
      · exact keepsSound_pure true
    dsimp only
    split
    · exact (keepsSound_change input).bind fun _ => htail
    · exact htail

theorem keepsSound_setOutputs (requested : List String) : KeepsSound (setOutputs requested) := by
  rw [setOutputs]
  refine (keepsSound_modify (by exact fun _ h => h)).bind fun _ => keepsSound_get.bind fun p => ?_
  exact (keepsSound_forIn (fun id => (keepsSound_markOutput id).bind fun _ => keepsSound_pure _)
    _).bind fun _ => keepsSound_pure ()

theorem keepsSound_setPadding (id : String) (padding : Padding) :
    KeepsSound (setPadding id padding) := by
  rw [setPadding]
  refine (keepsSound_node id).bind fun n => ?_
  split
  · exact keepsSound_pure ()
  · exact (keepsSound_change id).bind fun _ => keepsSound_modify fun _ h => h

end Edit

/-! ## Changes -/

namespace Change

open Edit

variable {p : Program}

/-- **Every change records numbers for listed ids only**, whatever the graph. -/
theorem sound_edit (c : Change) : KeepsSound c.edit := by
  cases c with
  | create prim => exact (keepsSound_create prim).bind fun _ => keepsSound_pure ()
  | connect dep user => exact keepsSound_connect dep user
  | disconnect dep user => exact keepsSound_disconnect dep user
  | replaceDependency user index new => exact keepsSound_replaceDependency user index new
  | replaceDependencyOf user old new => exact keepsSound_replaceDependencyOf user old new
  | removeIfDangling id => exact (keepsSound_removeIfDangling id).bind fun _ => keepsSound_pure ()
  | isolate id => exact keepsSound_isolate id
  | reverse dep user => exact keepsSound_reverse dep user
  | remove id => exact keepsSound_remove id
  | addIntermediate prim next index => exact keepsSound_addIntermediate prim next index
  | replace old prim keep => exact keepsSound_replace old prim keep
  | extract id => exact (keepsSound_extract id).bind fun _ => keepsSound_pure ()
  | rename old new => exact keepsSound_rename old new
  | markOutput id => exact keepsSound_markOutput id
  | setOutputs requested => exact keepsSound_setOutputs requested
  | setPadding id padding => exact keepsSound_setPadding id padding

/-- **Every edit keeps the numbers sound.** -/
theorem sound_apply (h : p.order.Sound) (c : Change) : (c.apply p).order.Sound :=
  (sound_edit c p h).final (fun q => q.order.Sound) (fun _ _ hq => hq) fun _ _ hq => hq

/-- So does every sequence of changes. -/
theorem sound_applyAll (h : p.order.Sound) (cs : List Change) : (applyAll p cs).order.Sound := by
  induction cs generalizing p with
  | nil => exact h
  | cons c cs ih => exact ih (sound_apply h c)

end Change

namespace Program

open Edit

/-- So does building the graph of a topology. -/
theorem keepsSound_build (t : Topology) : KeepsSound (build t) := by
  rw [build]
  refine (keepsSound_forIn (fun prim => (keepsSound_create prim).bind fun _ =>
    keepsSound_pure _) t.primitives).bind fun _ => ?_
  refine (keepsSound_forIn (fun prim => (keepsSound_forIn (fun dep => ?_) prim.arguments).bind
    fun _ => keepsSound_pure _) t.primitives).bind fun _ => ?_
  · refine KeepsSound.bind keepsSound_get fun p => ?_
    dsimp only
    split
    · exact (keepsSound_throw _).bind fun _ => (keepsSound_connect dep prim.id).bind
        fun _ => keepsSound_pure _
    · exact (keepsSound_connect dep prim.id).bind fun _ => keepsSound_pure _
  · rw [sortDepthFirst]
    exact keepsSound_get.bind fun p => (keepsSound_ofExcept _).bind fun ids =>
      keepsSound_modify fun _ _ => Order.sound_number _

/-- A graph that was built records numbers for listed ids only. -/
theorem sound_ofTopology {t : Topology} {b : Behaviours} {p : Program}
    (h : ofTopology t b = .ok p) : p.order.Sound := by
  have hends := keepsSound_build t (empty b) fun _ hx => nomatch hx
  rw [Ends] at hends
  rw [ofTopology] at h
  split at h
  case h_1 q hrun =>
    rw [hrun] at hends
    exact Except.ok.inj h ▸ hends
  case h_2 => cases h

end Program

end NetPlan

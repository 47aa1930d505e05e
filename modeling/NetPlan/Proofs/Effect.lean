import NetPlan.Pass.Transform

/-!
# Proofs/Effect — how a computation on a state ends

Edits of a program and transformations of a compilation change a state and may stop with an error;
what they had changed by then stays changed.  `Ends x good bad s` says how `x`, started in `s`, comes
to its end: with a value and a state that are `good`, or with an error and a state that are `bad`.

* the rules `ends_pure`, `ends_bind`, … turn a claim about a program text into one about states;
* `ends_forIn` is the rule for loops: what holds before every round, of the elements still to come,
  holds of none at the end.
-/

namespace NetPlan

variable {σ α β : Type}

/-- How a computation ends that is started in a state. -/
def Ends (x : ExceptT CompileError (StateM σ) α) (good : α → σ → Prop)
    (bad : CompileError → σ → Prop) (s : σ) : Prop :=
  match x.run.run s with
  | (.ok a, t) => good a t
  | (.error e, t) => bad e t

section Rules

variable {good : α → σ → Prop} {bad : CompileError → σ → Prop} {s : σ}

@[simp] theorem ends_pure (a : α) :
    Ends (pure a : ExceptT CompileError (StateM σ) α) good bad s ↔ good a s := Iff.rfl

@[simp] theorem ends_throw (e : CompileError) :
    Ends (throw e : ExceptT CompileError (StateM σ) α) good bad s ↔ bad e s := Iff.rfl

/-- **One computation after another**: the second starts where the first ends well. -/
@[simp] theorem ends_bind (x : ExceptT CompileError (StateM σ) β)
    (f : β → ExceptT CompileError (StateM σ) α) :
    Ends (x >>= f) good bad s ↔ Ends x (fun b t => Ends (f b) good bad t) bad s := by
  have hrun : (x >>= f).run.run s = match x.run.run s with
      | (.ok b, t) => (f b).run.run t
      | (.error e, t) => (.error e, t) := by
    rw [ExceptT.run_bind, StateT.run_bind]
    rcases x.run.run s with ⟨r | r, t⟩ <;> rfl
  unfold Ends
  rw [hrun]
  rcases x.run.run s with ⟨r | r, t⟩ <;> rfl

@[simp] theorem ends_get {good : σ → σ → Prop} :
    Ends (get : ExceptT CompileError (StateM σ) σ) good bad s ↔ good s s := Iff.rfl

@[simp] theorem ends_modify {good : Unit → σ → Prop} (f : σ → σ) :
    Ends (modify f : ExceptT CompileError (StateM σ) Unit) good bad s ↔ good () (f s) := Iff.rfl

@[simp] theorem ends_ite (c : Prop) [Decidable c] (x y : ExceptT CompileError (StateM σ) α) :
    Ends (if c then x else y) good bad s ↔ if c then Ends x good bad s else Ends y good bad s := by
  split <;> rfl

/-- What is known of an end can be weakened. -/
theorem Ends.imp {x : ExceptT CompileError (StateM σ) α} {good' : α → σ → Prop}
    {bad' : CompileError → σ → Prop} (h : Ends x good bad s) (hg : ∀ a t, good a t → good' a t)
    (hb : ∀ e t, bad e t → bad' e t) : Ends x good' bad' s := by
  unfold Ends at h ⊢
  generalize x.run.run s = out at h ⊢
  rcases out with ⟨e | a, t⟩
  · exact hb e t h
  · exact hg a t h

theorem Ends.imp_good {x : ExceptT CompileError (StateM σ) α} {good' : α → σ → Prop}
    (h : Ends x good bad s) (hg : ∀ a t, good a t → good' a t) : Ends x good' bad s :=
  h.imp hg fun _ _ hb => hb

/-- Two things known of one end are known together. -/
theorem Ends.and {x : ExceptT CompileError (StateM σ) α} {good' : α → σ → Prop}
    {bad' : CompileError → σ → Prop} (h : Ends x good bad s) (h' : Ends x good' bad' s) :
    Ends x (fun a t => good a t ∧ good' a t) (fun e t => bad e t ∧ bad' e t) s := by
  unfold Ends at h h' ⊢
  generalize x.run.run s = out at h h' ⊢
  rcases out with ⟨e | a, t⟩
  · exact ⟨h, h'⟩
  · exact ⟨h, h'⟩

/-- So are any number of things. -/
theorem ends_forall {ι : Type} {x : ExceptT CompileError (StateM σ) α} {good : ι → α → σ → Prop}
    {bad : ι → CompileError → σ → Prop} (h : ∀ i, Ends x (good i) (bad i) s) :
    Ends x (fun a t => ∀ i, good i a t) (fun e t => ∀ i, bad i e t) s := by
  unfold Ends at h ⊢
  generalize x.run.run s = out at h ⊢
  rcases out with ⟨e | a, t⟩
  · exact h
  · exact h

/-- What is known of an end on a condition. -/
theorem Ends.of_imp {x : ExceptT CompileError (StateM σ) α} {P : Prop}
    (h : P → Ends x good bad s) : Ends x (fun a t => P → good a t) (fun e t => P → bad e t) s := by
  unfold Ends at h ⊢
  generalize x.run.run s = out at h ⊢
  rcases out with ⟨e | a, t⟩
  · exact h
  · exact h

/-- A computation ends somehow. -/
theorem ends_trivial (x : ExceptT CompileError (StateM σ) α) (s : σ) :
    Ends x (fun _ _ => True) (fun _ _ => True) s := by
  unfold Ends
  split <;> trivial

theorem Ends.exists_ok {x : ExceptT CompileError (StateM σ) α}
    (h : Ends x good (fun _ _ => False) s) : ∃ a t, x.run.run s = (.ok a, t) ∧ good a t := by
  rw [Ends] at h
  split at h
  case h_1 a t hrun => exact ⟨a, t, hrun, h⟩
  case h_2 => exact h.elim

theorem ends_run (x : ExceptT CompileError (StateM σ) α) (s : σ) :
    Ends x (fun a t => x.run.run s = (.ok a, t)) (fun e t => x.run.run s = (.error e, t)) s := by
  rw [Ends]
  split <;> assumption

/-- What holds at every end holds of the state that is left. -/
theorem Ends.final {x : ExceptT CompileError (StateM σ) α} (h : Ends x good bad s) (P : σ → Prop)
    (hg : ∀ a t, good a t → P t) (hb : ∀ e t, bad e t → P t) : P (x.run.run s).2 := by
  unfold Ends at h
  generalize x.run.run s = out at h ⊢
  rcases out with ⟨e | a, t⟩
  · exact hb e t h
  · exact hg a t h

/-- A computation that succeeds has a value. -/
theorem exists_run_eq_ok {x : ExceptT CompileError (StateM σ) α}
    (h : (x.run.run s).1.toBool = true) : ∃ a, x.run.run s = (.ok a, (x.run.run s).2) := by
  generalize x.run.run s = out at h ⊢
  rcases out with ⟨e | a, t⟩
  · cases h
  · exact ⟨a, rfl⟩

/-- A computation that fails, and the state it leaves. -/
theorem run_eq_error {x : ExceptT CompileError (StateM σ) α} {e : CompileError}
    (h : (x.run.run s).1 = .error e) : x.run.run s = (.error e, (x.run.run s).2) :=
  Prod.ext h rfl

/-- A result that is there is that of a success. -/
theorem toOption_eq_some {ε : Type} {x : Except ε α} {a : α} :
    x.toOption = some a ↔ x = .ok a := by
  cases x <;> simp [Except.toOption]

/-- What can be read off a success and its state, from one evaluation of both. -/
theorem exists_run_of_map {x : ExceptT CompileError (StateM σ) α} {f : α → σ → β} {b : β}
    (h : (x.run.run s).1.toOption.map (f · (x.run.run s).2) = some b) :
    ∃ a t, x.run.run s = (.ok a, t) ∧ f a t = b := by
  generalize x.run.run s = out at h ⊢
  obtain ⟨e | a, t⟩ := out
  · cases h
  · exact ⟨a, t, rfl, Option.some.inj h⟩

/-- **Loops.**  `inv` is kept from round to round, of the elements that are still to come. -/
theorem ends_forIn {body : β → PUnit → ExceptT CompileError (StateM σ) (ForInStep PUnit)}
    {good : PUnit → σ → Prop} (inv : List β → σ → Prop)
    (step : ∀ x rest t, inv (x :: rest) t →
      Ends (body x PUnit.unit) (fun r t' => r = .yield PUnit.unit ∧ inv rest t') bad t)
    (done : ∀ t, inv [] t → good PUnit.unit t) :
    ∀ (xs : List β) (s : σ), inv xs s → Ends (forIn xs PUnit.unit body) good bad s
  | [], s, h => by
      rw [List.forIn_nil, ends_pure]
      exact done s h
  | x :: xs, s, h => by
      rw [List.forIn_cons, ends_bind]
      refine (step x xs s h).imp ?_ fun _ _ hb => hb
      rintro _ t ⟨rfl, ht⟩
      exact ends_forIn inv step done xs t ht

/-- **Walks** keep what every visit keeps. -/
theorem ends_walk {visit : String → ExceptT CompileError (StateM σ) (List String)}
    (inv : σ → Prop) (step : ∀ id t, inv t → Ends (visit id) (fun _ t' => inv t') bad t) :
    ∀ (steps : Nat) (queue seen : List String) (s : σ), inv s →
      Ends (walk visit steps queue seen) (fun _ t => inv t) bad s
  | 0, _, _, _, h => h
  | _ + 1, [], _, _, h => h
  | steps + 1, id :: queue, seen, s, h => by
      rw [walk]
      split
      · exact ends_walk inv step steps queue seen s h
      · rw [ends_bind]
        exact (step id s h).imp_good fun _ t ht => ends_walk inv step steps _ _ t ht

end Rules

/-- Whether an error is one of those that close a compilation. -/
def CompileError.closes : CompileError → Bool
  | .invalidGraph .orderInvalid => true
  | .invalidGraph (.unbound _) => true
  | _ => false

/-! ## Looking at the program -/

namespace Edit

variable {p : Program} {bad : CompileError → Program → Prop}

theorem ends_ofExcept {good : α → Program → Prop} (r : Except CompileError α) :
    Ends (ofExcept r) good bad p ↔
      (∀ a, r = .ok a → good a p) ∧ ∀ e, r = .error e → bad e p := by
  rcases r with e | a
  · change bad e p ↔ _
    simp
  · change good a p ↔ _
    simp

theorem ends_node {good : Node → Program → Prop} (id : String) :
    Ends (node id) good bad p ↔
      (∀ n, p.node? id = some n → good n p) ∧ (p.node? id = none → bad (.missingNode id) p) := by
  rw [node, ends_bind, ends_get, ends_ofExcept, Program.node]
  cases p.node? id with
  | none => simp
  | some n => simp

theorem ends_change {good : Unit → Program → Prop} (id : String) (f : Node → Node) :
    Ends (change id f) good bad p ↔
      (∀ n, p.node? id = some n → good () (p.update id f)) ∧
        (p.node? id = none → bad (.missingNode id) p) := by
  rw [change, ends_bind, ends_node]
  rfl

theorem ends_changeIfThere {good : Unit → Program → Prop} (id : String) (f : Node → Node) :
    Ends (changeIfThere id f) good bad p ↔ good () (p.update id f) := Iff.rfl

theorem ends_invalidate {good : Unit → Program → Prop} (id : String) :
    Ends (invalidate id) good bad p ↔ good () (p.invalidate id) := Iff.rfl

end Edit

/-! ## Edits as parts of a transformation -/

namespace Transform

variable {c : Compilation} {bad : CompileError → Compilation → Prop}

/-- **An edit inside a transformation** changes the program and nothing else. -/
theorem ends_liftM {good : α → Compilation → Prop} (e : Edit α) :
    Ends (liftM e : Transform α) good bad c ↔
      Ends e (fun a p => good a { c with program := p })
        (fun err p => bad err { c with program := p }) c.program := by
  have hrun : (liftM e : Transform α).run.run c
      = ((e.run.run c.program).1, { c with program := (e.run.run c.program).2 }) := rfl
  unfold Ends
  rw [hrun]
  rcases e.run.run c.program with ⟨r | r, q⟩ <;> rfl

theorem ends_program {good : Program → Compilation → Prop} :
    Ends program good bad c ↔ good c.program c := Iff.rfl

theorem ends_preferences {good : Preferences → Compilation → Prop} :
    Ends preferences good bad c ↔ good c.preferences c := Iff.rfl

theorem ends_setPreferences {good : Unit → Compilation → Prop} (preferences : Preferences) :
    Ends (setPreferences preferences) good bad c ↔ good () { c with preferences } := Iff.rfl

/-- **Counting** keeps what every round keeps, of the ids that are still to come. -/
theorem ends_countM {f : String → Transform Bool} (inv : List String → Compilation → Prop)
    (step : ∀ id rest t, inv (id :: rest) t → Ends (f id) (fun _ t' => inv rest t') bad t) :
    ∀ (ids : List String) (c : Compilation), inv ids c →
      Ends (countM f ids) (fun _ c' => inv [] c') bad c
  | [], _, h => h
  | id :: ids, c, h => by
      rw [countM, ends_bind]
      refine (step id ids c h).imp_good fun _ t ht => ?_
      rw [ends_bind]
      exact (ends_countM inv step ids t ht).imp_good fun _ _ ht' => ht'

/-- **Counting**, where it matters too how many were counted by then. -/
theorem ends_countM_count {f : String → Transform Bool}
    (inv : Nat → List String → Compilation → Prop)
    (step : ∀ k id rest t, inv k (id :: rest) t →
      Ends (f id) (fun here t' => inv (k + if here then 1 else 0) rest t') bad t) :
    ∀ (ids : List String) (k : Nat) (c : Compilation), inv k ids c →
      Ends (countM f ids) (fun count c' => inv (k + count) [] c') bad c
  | [], _, _, h => h
  | id :: ids, k, c, h => by
      rw [countM, ends_bind]
      refine (step k id ids c h).imp_good fun here t ht => ?_
      rw [ends_bind]
      refine (ends_countM_count inv step ids _ t ht).imp_good fun count c' hc => ?_
      rw [Nat.add_assoc] at hc
      exact hc

/-- The same, where it only matters whether anything was counted. -/
theorem ends_countM_any {f : String → Transform Bool}
    (inv : Bool → List String → Compilation → Prop)
    (step : ∀ b id rest t, inv b (id :: rest) t →
      Ends (f id) (fun here t' => inv (b || here) rest t') bad t)
    (ids : List String) (b : Bool) (c : Compilation) (h : inv b ids c) :
    Ends (countM f ids)
      (fun count c' => ∃ b', inv b' [] c' ∧ (b' = false ↔ b = false ∧ count = 0)) bad c := by
  refine (ends_countM_count (fun k rest t => ∃ b', inv b' rest t ∧ (b' = false ↔ b = false ∧ k = 0))
    (fun k id rest t ht => ?_) ids 0 c ⟨b, h, (and_iff_left rfl).symm⟩).imp_good
    fun count c' hc => by rwa [Nat.zero_add] at hc
  obtain ⟨b', hinv, hb'⟩ := ht
  refine (step b' id rest t hinv).imp_good fun here t' ht' => ⟨_, ht', ?_⟩
  rw [Bool.or_eq_false_iff, hb', and_assoc]
  cases here <;> simp

theorem ends_countNodes {f : String → Transform Bool} (inv : Compilation → Prop)
    (step : ∀ id t, inv t → Ends (f id) (fun _ t' => inv t') bad t) (h : inv c) :
    Ends (countNodes f) (fun _ c' => inv c') bad c := by
  rw [countNodes, ends_bind, ends_program]
  exact ends_countM (fun _ => inv) (fun id _ => step id) _ c h

end Transform

end NetPlan

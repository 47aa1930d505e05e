import Mathlib.Logic.Relation
import NetPlan.Graph.Sort
import NetPlan.Proofs.Graph.Extract
import NetPlan.Proofs.Graph.Place
import NetPlan.Proofs.Layout.Cache

/-!
# Proofs/Graph/Search — graphs without cycles, and depth-first orders

`Reads p d u` is the edge from `d` to `u`.  A program is **acyclic** when no node leads back to
itself.  Then every node has a rank above those of the nodes it reads (`Acyclic.exists_rank`): the
number of nodes that lead to it.  And every node can be extracted (`Acyclic.extractable`).

A depth-first search enters a node, then everything downstream that was not visited, and puts the
node in front when it leaves it.  At every moment the visited nodes are those that were left and
those on the path (`Standing`), and the nodes that were left stand before all their users.

* `search_ends` — a search from a node leaves it, or there is a cycle;
* `depthFirst_ends` — so the nodes are put into a topological order, each once and behind all it
  reads, or there is a cycle.
-/

namespace NetPlan

/-! ## Cycles -/

namespace Program

/-- An edge of the graph. -/
def Reads (p : Program) (d u : String) : Prop := d ∈ p.depsOf u

/-- No node leads back to itself. -/
def Acyclic (p : Program) : Prop := ∀ u, ¬ Relation.TransGen p.Reads u u

variable {p : Program} {u d : String}

/-- Ranks exclude cycles. -/
theorem acyclic_of_rank (rank : String → Nat) (h : ∀ u d, d ∈ p.depsOf u → rank d < rank u) :
    p.Acyclic := fun u hu => by
  have hlt : ∀ {a b}, Relation.TransGen p.Reads a b → rank a < rank b := fun hab => by
    induction hab with
    | single hab => exact h _ _ hab
    | tail _ hbc ih => exact Nat.lt_trans ih (h _ _ hbc)
  exact Nat.lt_irrefl _ (hlt hu)

/-- It is enough to rank the nodes that are there. -/
theorem acyclic_of_rank_ids (rank : String → Nat)
    (h : ∀ u ∈ p.ids, ∀ d ∈ p.depsOf u, rank d < rank u) : p.Acyclic :=
  acyclic_of_rank rank fun u d hd => h u (contains_iff_mem_ids.mp (contains_of_mem_depsOf hd)) d hd

namespace Acyclic

theorem not_mem_self (h : p.Acyclic) (u : String) : u ∉ p.depsOf u := fun hu => h u (.single hu)

/-- **Without cycles there are ranks.** -/
theorem exists_rank (h : p.Acyclic) (hl : p.Linked) :
    ∃ rank : String → Nat, ∀ u d, d ∈ p.depsOf u → rank d < rank u := by
  classical
  let above (u : String) : Finset String :=
    p.ids.toFinset.filter fun x => Relation.TransGen p.Reads x u
  refine ⟨fun u => (above u).card, fun u d hd => Finset.card_lt_card ?_⟩
  rw [Finset.ssubset_iff_of_subset fun x hx => ?_]
  · refine ⟨d, Finset.mem_filter.mpr ⟨?_, .single hd⟩, fun hmem => h d (Finset.mem_filter.mp hmem).2⟩
    exact List.mem_toFinset.mpr (contains_iff_mem_ids.mp (hl.contains_dep hd))
  · obtain ⟨hx, hreach⟩ := Finset.mem_filter.mp hx
    exact Finset.mem_filter.mpr ⟨hx, hreach.tail hd⟩

theorem extractable (h : p.Acyclic) (id : String) : p.Extractable id := fun _ hin _ =>
  Or.inr fun hc => h id (.tail (.single hc) hin)

end Acyclic

end Program

end NetPlan

/-! ## Depth-first search -/

namespace NetPlan.Program

variable {p : Program} {s s' : Search} {path : List String} {id : String} {depth : Nat}

/-- Where a search stands that follows a path. -/
structure Standing (p : Program) (path : List String) (s : Search) : Prop where
  visited : ∀ x, x ∈ s.visited ↔ x ∈ s.finished ∨ x ∈ path
  path_nodup : path.Nodup
  path_contains : ∀ x ∈ path, p.contains x = true
  apart : ∀ x ∈ path, x ∉ s.finished
  finished_nodup : s.finished.Nodup
  finished_contains : ∀ x ∈ s.finished, p.contains x = true
  /-- What was left stands before its users, which were left earlier. -/
  behind : ∀ x ∈ s.finished, ∀ u ∈ p.usersOf x, Before s.finished x u

namespace Standing

theorem start (p : Program) : Standing p [] ⟨[], []⟩ where
  visited x := by simp
  path_nodup := List.nodup_nil
  path_contains _ h := nomatch h
  apart _ h := nomatch h
  finished_nodup := List.nodup_nil
  finished_contains _ h := nomatch h
  behind _ h := nomatch h

/-- **Entering** a node that was not visited. -/
theorem enter (h : Standing p path s) (hid : p.contains id = true) (hnew : id ∉ s.visited) :
    Standing p (id :: path) { s with visited := id :: s.visited } := by
  rw [h.visited, not_or] at hnew
  refine ⟨fun x => ?_, List.nodup_cons.mpr ⟨hnew.2, h.path_nodup⟩, fun x hx => ?_, fun x hx => ?_,
    h.finished_nodup, h.finished_contains, h.behind⟩
  · rw [List.mem_cons, h.visited, List.mem_cons]
    tauto
  · rcases List.mem_cons.mp hx with rfl | hx
    · exact hid
    · exact h.path_contains x hx
  · rcases List.mem_cons.mp hx with rfl | hx
    · exact hnew.1
    · exact h.apart x hx

/-- **Leaving** a node whose users were left. -/
theorem leave (h : Standing p (id :: path) s) (husers : ∀ u ∈ p.usersOf id, u ∈ s.finished) :
    Standing p path { s with finished := id :: s.finished } := by
  have hpath := List.nodup_cons.mp h.path_nodup
  refine ⟨fun x => ?_, hpath.2, fun x hx => h.path_contains x (List.mem_cons_of_mem _ hx),
    fun x hx hf => ?_, List.nodup_cons.mpr ⟨h.apart id List.mem_cons_self, h.finished_nodup⟩,
    fun x hx => ?_, fun x hx u hu => ?_⟩
  · change x ∈ s.visited ↔ x ∈ id :: s.finished ∨ x ∈ path
    rw [h.visited, List.mem_cons, List.mem_cons]
    tauto
  · rcases List.mem_cons.mp hf with rfl | hf
    · exact hpath.1 hx
    · exact h.apart x (List.mem_cons_of_mem _ hx) hf
  · rcases List.mem_cons.mp hx with rfl | hx
    · exact h.path_contains x List.mem_cons_self
    · exact h.finished_contains x hx
  · rcases List.mem_cons.mp hx with rfl | hx
    · exact List.Sublist.cons_cons x (List.singleton_sublist.mpr (husers u hu))
    · exact (h.behind x hx u hu).mono (List.sublist_cons_self ..)

/-- A path is not longer than there are nodes. -/
theorem length_path_le (h : Standing p path s) : path.length ≤ p.size := by
  have hsub : path ⊆ p.ids := fun x hx => contains_iff_mem_ids.mp (h.path_contains x hx)
  have hlength := (h.path_nodup.subperm hsub).length_le
  rwa [ids, List.length_map] at hlength

end Standing

/-! ## The search -/

/-- What a search along a path comes to: it stands at the end of a path again, with more nodes left,
some of them for sure, or it found a cycle. -/
def Searched (p : Program) (path : List String) (s : Search) (sure : List String)
    (result : Except CompileError Search) : Prop :=
  (∃ s', result = .ok s' ∧ Standing p path s' ∧ (∀ x ∈ s.finished, x ∈ s'.finished) ∧
    ∀ x ∈ sure, x ∈ s'.finished) ∨
  ∃ e, result = .error e ∧ e.closes = false ∧ ¬ p.Acyclic

/-- What follows a search that succeeded. -/
theorem Searched.bind {sure sure' : List String} {result : Except CompileError Search}
    {path' : List String} {f : Search → Except CompileError Search}
    (h : Searched p path s sure result)
    (hf : ∀ s', Standing p path s' → (∀ x ∈ s.finished, x ∈ s'.finished) →
      (∀ x ∈ sure, x ∈ s'.finished) → Searched p path' s' sure' (f s')) :
    Searched p path' s sure' (result >>= f) := by
  obtain ⟨s', rfl, hs', hmore, hsure⟩ | ⟨e, rfl, he, hcycle⟩ := h
  · obtain ⟨t, ht, hst, hmore', hsure'⟩ | hbad := hf s' hs' hmore hsure
    · exact Or.inl ⟨t, ht, hst, fun x hx => hmore' x (hmore x hx), hsure'⟩
    · exact Or.inr hbad
  · exact Or.inr ⟨e, rfl, he, hcycle⟩

/-- Several nodes, one after the other. -/
theorem foldlM_searched {f : Search → String → Except CompileError Search} {P : String → Prop}
    (step : ∀ s u, Standing p path s → P u → Searched p path s [u] (f s u)) :
    ∀ (us : List String) (s : Search), Standing p path s → (∀ u ∈ us, P u) →
      Searched p path s us (us.foldlM f s)
  | [], s, h, _ => Or.inl ⟨s, rfl, h, fun _ hx => hx, fun _ hx => nomatch hx⟩
  | u :: us, s, h, hus => by
      rw [List.foldlM_cons]
      refine (step s u h (hus u List.mem_cons_self)).bind fun s' hs' hmore hu => ?_
      obtain ⟨t, ht, hst, hmore', hus'⟩ | hbad := foldlM_searched step us s' hs'
        fun v hv => hus v (List.mem_cons_of_mem _ hv)
      · refine Or.inl ⟨t, ht, hst, hmore', fun x hx => ?_⟩
        rcases List.mem_cons.mp hx with rfl | hx
        · exact hmore' x (hu x (List.mem_singleton_self x))
        · exact hus' x hx
      · exact Or.inr hbad

/-- **A search from a node** leaves the node, or there is a cycle.  The path leads to the node, and
with every node on it the search may go one less deep. -/
theorem search_ends (hl : p.Linked) : ∀ (depth : Nat) (path : List String) (id : String)
    (s : Search), p.size < depth + path.length → Standing p (id :: path) s →
      (∀ x ∈ path, Relation.TransGen p.Reads x id) →
      Searched p path s [id] (p.search depth path id s)
  | 0, path, id, s, hdepth, hs, _ => by
      have hlength := hs.length_path_le
      rw [List.length_cons] at hlength
      omega
  | depth + 1, path, id, s, hdepth, hs, hpath => by
      obtain ⟨n, hn⟩ := contains_iff.mp (hs.path_contains id List.mem_cons_self)
      have husers : n.users = p.usersOf id := (usersOf_of_node? hn).symm
      rw [search, node, hn]
      change Searched p path s [id] (n.users.foldlM _ s >>= _)
      rw [husers]
      refine Searched.bind (foldlM_searched (P := (· ∈ p.usersOf id))
        (fun t user ht huser => ?_) _ s hs fun _ hu => hu)
        fun t ht hmore hleft => Or.inl ⟨_, rfl, ht.leave hleft,
          fun x hx => List.mem_cons_of_mem _ hx, fun x hx => ?_⟩
      · have hedge : p.Reads id user := (hl.edges id user).mpr huser
        have hleads : ∀ x ∈ id :: path, Relation.TransGen p.Reads x user := fun x hx => by
          rcases List.mem_cons.mp hx with rfl | hx
          · exact .single hedge
          · exact (hpath x hx).tail hedge
        split
        case isTrue hback =>
          refine Or.inr ⟨_, rfl, rfl, fun hacyclic => hacyclic user (hleads user ?_)⟩
          simpa using hback
        case isFalse hback =>
        have hoff : user ∉ id :: path := by simpa using hback
        split
        case isTrue hmissing =>
          rw [hl.contains_user huser] at hmissing
          cases hmissing
        split
        case isTrue hseen =>
          have hfin := ((ht.visited user).mp (by simpa using hseen)).resolve_right hoff
          exact Or.inl ⟨t, rfl, ht, fun _ hx => hx, fun x hx => List.mem_singleton.mp hx ▸ hfin⟩
        case isFalse hseen =>
          have hnew : user ∉ t.visited := by simpa using hseen
          exact search_ends hl depth (id :: path) user _ (by rw [List.length_cons]; omega)
            (ht.enter (hl.contains_user huser) hnew) hleads
      · rw [List.mem_singleton.mp hx]
        exact List.mem_cons_self

/-- A search from an input. -/
theorem searchFrom_ends (hl : p.Linked) (hs : Standing p [] s) (hid : p.contains id = true) :
    Searched p [] s [id] (p.searchFrom s id) := by
  rw [searchFrom]
  split
  case isTrue hseen =>
    have hfin := ((hs.visited id).mp (by simpa using hseen)).resolve_right List.not_mem_nil
    exact Or.inl ⟨s, rfl, hs, fun _ hx => hx, fun x hx => List.mem_singleton.mp hx ▸ hfin⟩
  case isFalse hseen =>
    exact search_ends hl _ [] id _ (Nat.lt_succ_self _) (hs.enter hid (by simpa using hseen))
      fun _ hx => nomatch hx

/-! ## The order -/

/-- An order lists every node once, behind all it reads. -/
structure Topological (p : Program) (ids : List String) : Prop where
  nodup : ids.Nodup
  mem : ∀ x, x ∈ ids ↔ p.contains x = true
  before : ∀ u d, d ∈ p.depsOf u → Before ids d u

theorem Topological.acyclic {ids : List String} (h : p.Topological ids) : p.Acyclic :=
  acyclic_of_rank ids.idxOf fun u d hd => (h.before u d hd).idxOf_lt h.nodup

/-- Without a cycle everything is downstream of the inputs. -/
theorem Standing.mem_finished (hs : Standing p [] s) (hl : p.Linked) (ha : p.Acyclic)
    (hinputs : ∀ x ∈ p.inputs, x ∈ s.finished) {x : String} (hx : p.contains x = true) :
    x ∈ s.finished := by
  obtain ⟨rank, hrank⟩ := ha.exists_rank hl
  induction hr : rank x using Nat.strong_induction_on generalizing x with
  | _ r ih =>
    cases hdeps : p.depsOf x with
    | nil => exact hinputs x ((hl.mem_inputs x).mpr ⟨hx, hdeps⟩)
    | cons d ds =>
      have hd : d ∈ p.depsOf x := hdeps ▸ List.mem_cons_self
      have hfin := ih (rank d) (hr ▸ hrank x d hd) (hl.contains_dep hd) rfl
      exact (hs.behind d hfin x ((hl.edges d x).mp hd)).mem_right

/-- The nodes that were left are all nodes just if they are as many. -/
theorem Standing.length_finished_eq_iff (hs : Standing p [] s) (hl : p.Linked) :
    s.finished.length = p.size ↔ ∀ x, p.contains x = true → x ∈ s.finished := by
  have hsub : s.finished ⊆ p.ids := fun x hx =>
    contains_iff_mem_ids.mp (hs.finished_contains x hx)
  have hsize : p.size = p.ids.length := (List.length_map _).symm
  have hperm := hs.finished_nodup.subperm hsub
  rw [hsize]
  constructor
  · intro hlength x hx
    exact (hperm.perm_of_length_le (Nat.le_of_eq hlength.symm)).mem_iff.mpr
      (contains_iff_mem_ids.mp hx)
  · intro hall
    refine Nat.le_antisymm hperm.length_le (hl.ids_nodup.subperm fun x hx => ?_).length_le
    exact hall x (contains_iff_mem_ids.mpr hx)

/-- **Depth first, the nodes are put into a topological order, or there is a cycle.** -/
theorem depthFirst_ends (hl : p.Linked) :
    (∃ ids, p.depthFirst = .ok ids ∧ p.Topological ids) ∨
      ∃ e, p.depthFirst = .error e ∧ e.closes = false ∧ ¬ p.Acyclic := by
  have hinputs : ∀ x ∈ p.inputs, p.contains x = true := fun x hx => ((hl.mem_inputs x).mp hx).1
  rw [depthFirst]
  obtain ⟨s, hs, hstands, -, hsure⟩ | ⟨e, he, hcloses, hcycle⟩ :=
    foldlM_searched (fun s x hs hx => searchFrom_ends hl hs hx) p.inputs ⟨[], []⟩
      (Standing.start p) hinputs
  · have hdone : (.ok s >>= fun s : Search =>
        if s.finished.length ≠ p.size then
          .error (.invalidGraph (.unreachable (p.size - s.finished.length) p.size))
        else pure s.finished : Except CompileError (List String))
        = if s.finished.length ≠ p.size then
            .error (.invalidGraph (.unreachable (p.size - s.finished.length) p.size))
          else .ok s.finished := rfl
    rw [hs, hdone]
    by_cases hlength : s.finished.length = p.size
    · have hall := (hstands.length_finished_eq_iff hl).mp hlength
      rw [if_neg (not_not.mpr hlength)]
      refine Or.inl ⟨s.finished, rfl, hstands.finished_nodup,
        fun x => ⟨hstands.finished_contains x, hall x⟩, fun u d hd => ?_⟩
      exact hstands.behind d (hall d (hl.contains_dep hd)) u ((hl.edges d u).mp hd)
    · rw [if_pos hlength]
      refine Or.inr ⟨_, rfl, rfl, fun ha => hlength ?_⟩
      exact (hstands.length_finished_eq_iff hl).mpr fun x hx => hstands.mem_finished hl ha hsure hx
  · rw [he]
    exact Or.inr ⟨e, rfl, hcloses, hcycle⟩

end NetPlan.Program

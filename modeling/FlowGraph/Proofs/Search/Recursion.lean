import FlowGraph.Proofs.Search.Run
/-!
Depth-first search by recursion. The recursive search is a relation, so that it may fail to end;
where it ends, the searches that keep a list of what is still to be tried meet the same vertices in
the same order, and the parent of a vertex is the one whose call entered it.
-/

set_option autoImplicit false

namespace FlowGraph

universe u

namespace Graph

variable {N : Type u} [Node N]

/-- Calls of the recursive search, made in turn, come to their end. A call is given by the number
of the vertex that makes it and the vertex it is made for. It enters a vertex if none of its index
was entered, and there makes a call for each successor. The calls that entered a vertex are noted,
and a vertex has the number of its call. -/
inductive Calls (g : Graph N) : List (Nat × N) → List (Nat × N) → List (Nat × N) → Prop
  | nil {entered : List (Nat × N)} : Calls g [] entered entered
  | skip {caller : Nat} {v : N} {rest entered entered' : List (Nat × N)}
      (known : Node.index v ∈ (entered.map Prod.snd).map Node.index)
      (next : Calls g rest entered entered') : Calls g ((caller, v) :: rest) entered entered'
  | enter {caller : Nat} {v : N} {rest entered inside entered' : List (Nat × N)}
      (fresh : Node.index v ∉ (entered.map Prod.snd).map Node.index)
      (down : Calls g ((g.successors v).map (entered.length, ·)) (entered ++ [(caller, v)]) inside)
      (next : Calls g rest inside entered') : Calls g ((caller, v) :: rest) entered entered'

namespace Calls

variable {g : Graph N} {calls calls' entered entered' entered'' : List (Nat × N)}

private theorem exists_of_append (h : g.Calls (calls ++ calls') entered entered'') :
    ∃ entered', g.Calls calls entered entered' ∧ g.Calls calls' entered' entered'' := by
  induction calls generalizing entered with
  | nil => exact ⟨entered, nil, h⟩
  | cons call calls ih =>
    cases h with
    | skip known next =>
      obtain ⟨entered', first, second⟩ := ih next
      exact ⟨entered', skip known first, second⟩
    | enter fresh down next =>
      obtain ⟨entered', first, second⟩ := ih next
      exact ⟨entered', enter fresh down first, second⟩

theorem unique (h : g.Calls calls entered entered') (h' : g.Calls calls entered entered'') :
    entered' = entered'' := by
  induction h generalizing entered'' with
  | nil =>
    cases h' with
    | nil => rfl
  | skip known _ ih =>
    cases h' with
    | skip _ next => exact ih next
    | enter fresh _ _ => exact absurd known fresh
  | enter fresh _ _ ihDown ihNext =>
    cases h' with
    | skip known _ => exact absurd known fresh
    | enter _ down next =>
      obtain rfl := ihDown down
      exact ihNext next

/-- What lies on the stack of a search while it tries the vertices on top is as it was when these
are tried, and in between it has met what the recursive search enters. -/
private theorem run {entry : N} {stack : List (List N)} (h : g.Calls calls entered entered')
    (run : g.Run entry (entered.map Prod.snd) (calls.map Prod.snd :: stack)) :
    g.Run entry (entered'.map Prod.snd) stack := by
  induction h generalizing stack with
  | nil => exact run.leave
  | skip known _ ih => exact ih (run.skip known)
  | @enter caller v rest entered _ _ fresh _ _ ihDown ihNext =>
    have inside := run.meet fresh
    refine ihNext (ihDown ?_)
    simpa [Function.comp_def] using inside

end Calls

end Graph

namespace Tables

variable {N : Type u} {t : Tables N}

/-- The numbered vertices, each with the number of its parent in front. -/
def entered (t : Tables N) : List (Nat × N) := t.parents.toList.zip t.vertices.toList

theorem map_snd_entered (valid : t.Valid) : t.entered.map Prod.snd = t.vertices.toList :=
  List.map_snd_zip (by simp [valid.size_parents])

theorem map_fst_entered (valid : t.Valid) : t.entered.map Prod.fst = t.parents.toList :=
  List.map_fst_zip (by simp [valid.size_parents])

private theorem length_entered (valid : t.Valid) : t.entered.length = t.vertices.size := by
  rw [← Array.length_toList, ← map_snd_entered valid, List.length_map]

private theorem entered_discover [Node N] (valid : t.Valid) (tail : Nat) (v : N) :
    (t.discover tail v).entered = t.entered ++ [(tail, v)] := by
  change (t.parents.push tail).toList.zip (t.vertices.push v).toList = _
  rw [Array.toList_push, Array.toList_push, List.zip_append (by simp [valid.size_parents])]
  rfl

end Tables

namespace Discovery

variable {N : Type u} [Node N] {g : Graph N} {entry : N} {bound : Nat} {d d' : Discovery N}
  {pending : List (Nat × N)}

private theorem follow_calls (h : Sound g entry pending d) (ht : TailsLt pending d)
    (ok : follow g bound pending d ht = .ok d') : g.Calls pending d.entered d'.entered := by
  fun_induction follow g bound pending d ht with
  | case1 d _ =>
    obtain rfl := Except.ok.inj ok
    exact Graph.Calls.nil
  | case2 d tail v rest _ htail hrest head hv _ ih =>
    have next := ih (h.addEdge htail hv) ok
    have known := h.records.mem_map_index_of_get? hv
    rw [← Tables.map_snd_entered d.valid] at known
    exact Graph.Calls.skip known next
  | case3 d tail v rest _ htail hrest hv hlt number visited _ ih =>
    have fresh := h.records.notMem_map_index_of_get? hv
    rw [← Tables.map_snd_entered d.valid] at fresh
    obtain ⟨inside, down, next⟩ := (ih (h.visit htail hv) ok).exists_of_append
    have entered := Tables.entered_discover d.valid tail v
    have length := Tables.length_entered d.valid
    refine Graph.Calls.enter fresh ?_ next
    rw [length, ← entered]
    exact down
  | case4 d tail v rest _ htail hrest hv hlt => cases ok

end Discovery

namespace Graph

variable {N : Type u} [Node N] {g : Graph N} {entry : N} {bound : Nat}

theorem calls_of_explore {t : SpanningTree N} (h : (g.explore bound entry).result = .ok t) :
    g.Calls [(0, entry)] [] t.entered := by
  obtain ⟨_, d, found, _, rfl⟩ := exists_follow_of_explore h
  have down := Discovery.follow_calls (Discovery.sound_start g entry) _ found
  exact Calls.enter List.not_mem_nil down Calls.nil

/-- All searches from an entry agree. The recursive search comes to its end, and its calls enter
vertices along the edges `entered`; the search that keeps a stack comes to its end having met these
vertices, in this order and no index twice; no limit that allows for them cuts short the
preorder; the bounds that allow for them are those under which a spanning tree is found; and then
the tree has these vertices, each with its caller for a parent, and their successors were asked
for once each, in this order. -/
structure SearchesAgree (g : Graph N) (entry : N) (entered : List (Nat × N)) : Prop where
  recursive : g.Calls [(0, entry)] [] entered
  recursive_unique : ∀ entered', g.Calls [(0, entry)] [] entered' → entered' = entered
  iterative : g.Run entry (entered.map Prod.snd) []
  distinct : ((entered.map Prod.snd).map Node.index).Nodup
  preorder : ∀ limit, entered.length ≤ limit →
    (g.preorder limit entry).toList = entered.map Prod.snd
  accepts : ∀ bound, (∃ t, (g.explore bound entry).result = .ok t) ↔ entered.length ≤ bound
  tree : ∀ bound t, (g.explore bound entry).result = .ok t →
    t.vertices.toList = entered.map Prod.snd ∧ t.parents.toList = entered.map Prod.fst ∧
      (g.explore bound entry).asked = t.vertices

private theorem accepts_of_run {met : List N} (run : g.Run entry met [])
    (room : met.length ≤ bound) :
    ∃ t, (g.explore bound entry).result = .ok t := by
  cases result : (g.explore bound entry).result with
  | ok t => exact ⟨t, rfl⟩
  | error e =>
    obtain ⟨_, d, tail, v, pending, follows, full, hv, _⟩ :=
      follows_of_explore_error (run.pos.trans_le room) result
    obtain ⟨stack, next, _⟩ := follows.meet hv
    have hle := next.length_le_of_ended run
    rw [Array.length_toList, Array.size_push, full] at hle
    exact absurd (hle.trans room) (Nat.not_succ_le_self bound)

private theorem searchesAgree_of_explore {t : SpanningTree N}
    (h : (g.explore bound entry).result = .ok t) : g.SearchesAgree entry t.entered := by
  have calls := calls_of_explore h
  have run : g.Run entry (t.entered.map Prod.snd) [] := by
    cases calls with
    | skip known _ => cases known
    | enter _ down next =>
      cases next with
      | nil => exact down.run (by simpa [Function.comp_def] using Run.start)
  have tree : ∀ bound t', (g.explore bound entry).result = .ok t' → t'.entered = t.entered :=
    fun _ _ h' => (calls_of_explore h').unique calls
  refine ⟨calls, fun _ calls' => calls'.unique calls, run, run.nodup, ?_, ?_, ?_⟩
  · intro limit room
    exact run.preorder_of_ended (by rwa [List.length_map])
  · intro bound'
    constructor
    · rintro ⟨t', h'⟩
      rw [← tree bound' t' h', Tables.length_entered t'.valid]
      obtain ⟨_, d, follows, _, rfl⟩ := follows_of_explore h'
      exact follows.room
    · intro room
      exact accepts_of_run run (by rwa [List.length_map])
  · intro bound' t' h'
    rw [← tree bound' t' h', Tables.map_snd_entered t'.valid, Tables.map_fst_entered t'.valid]
    obtain ⟨_, d, follows, asked, rfl⟩ := follows_of_explore h'
    exact ⟨rfl, rfl, asked.trans follows.asked⟩

/-- Where finitely many vertices are reachable, every search from the entry ends, and all agree. -/
theorem exists_searchesAgree (g : Graph N) (entry : N)
    (finite : {v | g.Reachable entry v}.Finite) : ∃ entered, g.SearchesAgree entry entered := by
  have found : ∃ t, (g.explore {v | g.Reachable entry v}.ncard entry).result = .ok t :=
    exists_explore finite.cast_ncard_eq.ge
  obtain ⟨t, ht⟩ := found
  exact ⟨t.entered, searchesAgree_of_explore ht⟩

theorem exists_searchesAgree_loop :
    ∃ entered, (ofRows [[2, 2, 1], [3, 0], [1, 3, 1], [3, 2]]).SearchesAgree 0 entered :=
  exists_searchesAgree _ 0 (Set.finite_of_encard_le_coe
    (encard_reachable_ofRows [[2, 2, 1], [3, 0], [1, 3, 1], [3, 2]] 0 (by decide) (by decide)))

end Graph

end FlowGraph

import FlowGraph.Proofs.Search.Arborescence
import FlowGraph.Proofs.Search.Exploration
/-!
Searches that no limit cuts short, step by step. Such a search keeps, for every vertex that it has
not left, the successors still to be tried. On an endless graph it never ends, but the vertices it
has met so far are always a beginning of one order. A search with a limit, and a search with a
bound, are the same search up to the point where they break off.
-/

set_option autoImplicit false

namespace FlowGraph

universe u

namespace Graph

variable {N : Type u} [Node N]

/-- The states that a search from the entry comes to: the vertices met, and a stack that holds the
successors still to be tried of each vertex not yet left, those of the latest on top. A vertex
counts as met if one of its index is, and its successors are asked for when it is met. -/
inductive Run (g : Graph N) (entry : N) : List N → List (List N) → Prop
  | start : Run g entry [entry] [g.successors entry]
  | leave {met : List N} {stack : List (List N)} (h : Run g entry met ([] :: stack)) :
      Run g entry met stack
  | skip {met top : List N} {v : N} {stack : List (List N)}
      (h : Run g entry met ((v :: top) :: stack)) (known : Node.index v ∈ met.map Node.index) :
      Run g entry met (top :: stack)
  | meet {met top : List N} {v : N} {stack : List (List N)}
      (h : Run g entry met ((v :: top) :: stack)) (fresh : Node.index v ∉ met.map Node.index) :
      Run g entry (met ++ [v]) (g.successors v :: top :: stack)

private theorem preorderFrom_of_le {g : Graph N} {limit : Nat} {order : Array N}
    (h : limit ≤ order.size) (pending : List N) (seen : BitSet) :
    g.preorderFrom limit pending seen order = order := by
  induction pending with
  | nil => rw [preorderFrom]
  | cons v rest ih =>
    rw [preorderFrom, if_neg (Nat.not_lt.2 h), ih]
    exact ite_self order

namespace Run

variable {g : Graph N} {entry v : N} {met met' rest : List N} {stack stack' : List (List N)}

theorem nodup (h : g.Run entry met stack) : (met.map Node.index).Nodup := by
  induction h with
  | start => exact List.nodup_singleton _
  | leave _ ih => exact ih
  | skip _ _ ih => exact ih
  | meet _ fresh ih =>
    rw [List.map_append, List.map_singleton]
    exact List.nodup_append.2 ⟨ih, List.nodup_singleton _, fun k hk l hl heq =>
      fresh (List.mem_singleton.1 hl ▸ heq ▸ hk)⟩

theorem pos (h : g.Run entry met stack) : 0 < met.length := by
  induction h with
  | start => exact Nat.one_pos
  | leave _ ih => exact ih
  | skip _ _ ih => exact ih
  | meet _ _ ih => exact Nat.lt_of_lt_of_le ih (by simp)

private theorem exists_top (h : g.Run entry met stack) (hstack : stack.flatten = v :: rest) :
    ∃ top below, g.Run entry met ((v :: top) :: below) ∧ top ++ below.flatten = rest := by
  induction stack with
  | nil => cases hstack
  | cons top below ih =>
    cases top with
    | nil => exact ih h.leave hstack
    | cons w top =>
      rw [List.flatten_cons, List.cons_append] at hstack
      obtain ⟨rfl, hrest⟩ := List.cons.inj hstack
      exact ⟨top, below, h, hrest⟩

/-- A search with a limit passes through every state in which no more vertices are met than the
limit allows. -/
private theorem preorder_eq (h : g.Run entry met stack) {limit : Nat} (room : met.length ≤ limit) :
    ∃ seen, Marks seen met.toArray ∧
      g.preorder limit entry = g.preorderFrom limit stack.flatten seen met.toArray := by
  induction h with
  | start =>
    have unmet : Marks ∅ (#[] : Array N) := by
      intro i
      simp
    have below : (#[] : Array N).size < limit := room
    refine ⟨_, unmet.push entry, ?_⟩
    rw [preorder, preorderFrom, if_neg (by simp), if_pos below]
    simp
  | leave _ ih => exact ih room
  | @skip met top v stack _ known ih =>
    obtain ⟨seen, marks, heq⟩ := ih room
    refine ⟨seen, marks, ?_⟩
    rw [heq, List.flatten_cons, List.cons_append, preorderFrom, if_pos ((marks _).2 known)]
    rfl
  | @meet met top v stack _ fresh ih =>
    rw [List.length_append, List.length_singleton] at room
    obtain ⟨seen, marks, heq⟩ := ih (Nat.le_of_succ_le room)
    have unseen : ¬ seen.contains (Node.index v) = true := fun hseen => fresh ((marks _).1 hseen)
    have below : met.toArray.size < limit := room
    have marks' := marks.push v
    rw [List.push_toArray] at marks'
    refine ⟨_, marks', ?_⟩
    rw [heq, List.flatten_cons, List.cons_append, preorderFrom, if_neg unseen, if_pos below,
      List.push_toArray]
    rfl

theorem preorder_length (h : g.Run entry met stack) :
    (g.preorder met.length entry).toList = met := by
  obtain ⟨_, _, heq⟩ := h.preorder_eq le_rfl
  rw [heq, preorderFrom_of_le (by simp)]

theorem preorder_of_ended (h : g.Run entry met []) {limit : Nat} (room : met.length ≤ limit) :
    (g.preorder limit entry).toList = met := by
  obtain ⟨_, _, heq⟩ := h.preorder_eq room
  rw [heq, List.flatten_nil, preorderFrom]

private theorem exists_take (h : g.Run entry met stack) {k : Nat} (hpos : 0 < k)
    (hle : k ≤ met.length) :
    ∃ stack', g.Run entry (met.take k) stack' := by
  induction h with
  | start =>
    rw [List.take_of_length_le hpos]
    exact ⟨_, start⟩
  | leave _ ih => exact ih hle
  | skip _ _ ih => exact ih hle
  | @meet met top v stack h fresh ih =>
    by_cases hk : k ≤ met.length
    · rw [List.take_append_of_le_length hk]
      exact ih hk
    · rw [List.take_of_length_le (by rw [List.length_append, List.length_singleton]; omega)]
      exact ⟨_, h.meet fresh⟩

theorem take_eq (h : g.Run entry met stack) (h' : g.Run entry met' stack')
    (hle : met.length ≤ met'.length) : met'.take met.length = met := by
  obtain ⟨_, first⟩ := h'.exists_take h.pos hle
  have same := first.preorder_length
  rw [List.length_take_of_le hle, h.preorder_length] at same
  exact same.symm

theorem length_le_of_ended (h : g.Run entry met stack) (h' : g.Run entry met' []) :
    met.length ≤ met'.length := by
  by_contra hlt
  have same := h'.preorder_of_ended (Nat.le_of_not_le hlt)
  rw [h.preorder_length] at same
  exact hlt (congrArg List.length same).le

end Run

end Graph

namespace Tables.Records

variable {N : Type u} [Node N] {t : Tables N} {g : Graph N} {entry : N} {pending : List (Nat × N)}
  {i k : Nat}

theorem mem_map_index_of_get? (h : t.Records g entry pending) (hk : t.indices.get? k = some i) :
    k ∈ t.vertices.toList.map Node.index := by
  obtain ⟨v, hv, rfl⟩ := (h.index_iff k i).1 hk
  exact List.mem_map_of_mem (Array.mem_toList_iff.2 (Array.mem_of_getElem? hv))

theorem notMem_map_index_of_get? (h : t.Records g entry pending)
    (hk : t.indices.get? k = none) : k ∉ t.vertices.toList.map Node.index := by
  intro known
  obtain ⟨v, hv, rfl⟩ := List.mem_map.1 known
  obtain ⟨i, hi⟩ := List.mem_iff_getElem?.1 hv
  rw [Array.getElem?_toList] at hi
  rw [(h.index_iff _ i).2 ⟨v, hi, rfl⟩] at hk
  cases hk

end Tables.Records

namespace Discovery

variable {N : Type u} [Node N] {g : Graph N} {entry v : N} {bound tail head : Nat}
  {d : Discovery N} {pending rest : List (Nat × N)}

/-- What a search for at most `bound` vertices has in common with the search without a bound: it
has met the vertices that are numbered and asked for the successors of each, once and in this
order. -/
structure Follows (g : Graph N) (entry : N) (bound : Nat) (pending : List (Nat × N))
    (d : Discovery N) : Prop where
  sound : Sound g entry pending d
  asked : d.asked = d.vertices
  room : d.vertices.size ≤ bound
  run : ∃ stack, g.Run entry d.vertices.toList stack ∧ stack.flatten = pending.map Prod.snd

private theorem follows_start (g : Graph N) (entry : N) (pos : 0 < bound) :
    Follows g entry bound (start g entry).1 (start g entry).2 where
  sound := sound_start g entry
  asked := rfl
  room := pos
  run := ⟨_, Graph.Run.start, by simp [start, ask, Function.comp_def]⟩

theorem Follows.meet (h : Follows g entry bound ((tail, v) :: rest) d)
    (hv : d.indices.get? (Node.index v) = none) :
    ∃ stack, g.Run entry (d.vertices.push v).toList stack ∧
      stack.flatten = g.successors v ++ rest.map Prod.snd := by
  obtain ⟨stack, run, hstack⟩ := h.run
  obtain ⟨top, below, run, hrest⟩ := run.exists_top hstack
  have next := run.meet (h.sound.records.notMem_map_index_of_get? hv)
  rw [← Array.toList_push] at next
  refine ⟨_, next, ?_⟩
  rw [List.flatten_cons, List.flatten_cons, hrest]

private theorem Follows.addEdge (h : Follows g entry bound ((tail, v) :: rest) d)
    (ht : tail < d.vertices.size) (hv : d.indices.get? (Node.index v) = some head) :
    Follows g entry bound rest (d.addEdge tail head ht) where
  sound := h.sound.addEdge ht hv
  asked := h.asked
  room := h.room
  run := by
    obtain ⟨stack, run, hstack⟩ := h.run
    obtain ⟨top, below, run, hrest⟩ := run.exists_top hstack
    exact ⟨_, run.skip (h.sound.records.mem_map_index_of_get? hv), hrest⟩

private theorem Follows.visit (h : Follows g entry bound ((tail, v) :: rest) d)
    (ht : tail < d.vertices.size) (hv : d.indices.get? (Node.index v) = none)
    (hlt : d.vertices.size < bound) :
    Follows g entry bound ((d.visit g v tail ht).1 ++ rest)
      ((d.visit g v tail ht).2.addEdge tail d.vertices.size (lt_size_visit d g v tail ht)) where
  sound := h.sound.visit ht hv
  asked := congrArg (·.push v) h.asked
  room := by
    change (d.vertices.push v).size ≤ bound
    rw [Array.size_push]
    exact hlt
  run := by
    obtain ⟨stack, run, hstack⟩ := h.meet hv
    refine ⟨stack, run, ?_⟩
    simp [Discovery.visit, ask, Function.comp_def, hstack]

/-- A bounded search ends as the search without a bound does, or breaks off when it has met as many
vertices as the bound allows and comes to one more. -/
private theorem follow_follows (h : Follows g entry bound pending d) (ht : TailsLt pending d) :
    match follow g bound pending d ht with
    | .ok d' => Follows g entry bound [] d'
    | .error d' => d'.vertices.size = bound ∧ ∃ tail v pending',
        Follows g entry bound ((tail, v) :: pending') d' ∧
          d'.indices.get? (Node.index v) = none := by
  fun_induction follow g bound pending d ht with
  | case1 d _ => exact h
  | case2 d tail v rest _ htail hrest head hv _ ih => exact ih (h.addEdge htail hv)
  | case3 d tail v rest _ htail hrest hv hlt number visited _ ih => exact ih (h.visit htail hv hlt)
  | case4 d tail v rest _ htail hrest hv hlt =>
    exact ⟨Nat.le_antisymm h.room (Nat.le_of_not_lt hlt), tail, v, rest, h, hv⟩

end Discovery

namespace Graph

variable {N : Type u} [Node N] {g : Graph N} {entry : N} {bound : Nat}

theorem follows_of_explore {t : SpanningTree N} (h : (g.explore bound entry).result = .ok t) :
    0 < bound ∧ ∃ d : Discovery N, d.Follows g entry bound [] ∧
      (g.explore bound entry).asked = d.asked ∧ t = d.toSpanningTree.ascendingPredecessors := by
  obtain ⟨pos, d, found, asked, tree⟩ := exists_follow_of_explore h
  have follows := Discovery.follow_follows (Discovery.follows_start g entry pos)
    (Discovery.tailsLt_start g entry)
  rw [found] at follows
  exact ⟨pos, d, follows, asked, tree⟩

theorem follows_of_explore_error {e : SearchError} (pos : 0 < bound)
    (h : (g.explore bound entry).result = .error e) :
    e = .boundExceeded bound ∧ ∃ (d : Discovery N) (tail : Nat) (v : N) (pending : List (Nat × N)),
      d.Follows g entry bound ((tail, v) :: pending) ∧ d.vertices.size = bound ∧
        d.indices.get? (Node.index v) = none ∧ (g.explore bound entry).asked = d.asked := by
  have follows := Discovery.follow_follows (Discovery.follows_start g entry pos)
    (Discovery.tailsLt_start g entry)
  cases found : Discovery.follow g bound (Discovery.start g entry).1 (Discovery.start g entry).2
      (Discovery.tailsLt_start g entry) with
  | ok d =>
    rw [explore_of_ok pos found] at h
    cases h
  | error d =>
    rw [explore_of_error pos found] at h ⊢
    rw [found] at follows
    obtain ⟨full, tail, v, pending, follows, hv⟩ := follows
    exact ⟨(Except.error.inj h).symm, d, tail, v, pending, follows, full, hv, rfl⟩

end Graph

end FlowGraph

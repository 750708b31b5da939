import FlowGraph.Proofs.Graph.Dominance
import FlowGraph.Search.Preorder
import Mathlib.Data.Set.Card
/-!
Preorder of trees. Where a graph is a tree from its root down, a search never comes back to a
vertex, so its preorder is the list that going down from each vertex in turn writes out. Such a
list names the descendants of the root, each once, and those of every vertex stand side by side,
the vertex itself in front.
-/

set_option autoImplicit false

namespace FlowGraph

universe u

namespace Graph

variable {N : Type u} {g : Graph N} {root a b u v x : N} {k l : Nat}

inductive Descent (g : Graph N) (a : N) : N → Nat → Prop
  | here : Descent g a a 0
  | down {u v : N} {k : Nat} (h : Descent g a u k) (edge : v ∈ g.successors u) :
      Descent g a v (k + 1)

namespace Descent

theorem trans (h : g.Descent a u k) (h' : g.Descent u v l) : g.Descent a v (k + l) := by
  induction h' with
  | here => exact h
  | down _ edge ih => exact down ih edge

theorem reachable (h : g.Descent a v k) : g.Reachable a v := by
  induction h with
  | here => exact Reachable.refl a
  | down _ edge ih => exact ih.tail edge

end Descent

private theorem Path.exists_descent {vs : List N} (h : g.Path a v vs) : ∃ k, g.Descent a v k := by
  induction h with
  | single v => exact ⟨0, Descent.here⟩
  | step edge _ ih =>
    obtain ⟨k, h⟩ := ih
    exact ⟨_, (Descent.down Descent.here edge).trans h⟩

theorem Reachable.exists_descent (h : g.Reachable a v) : ∃ k, g.Descent a v k := by
  obtain ⟨_, path⟩ := h
  exact path.exists_descent

theorem reachable_iff_successor :
    g.Reachable a v ↔ a = v ∨ ∃ c ∈ g.successors a, g.Reachable c v := by
  constructor
  · rintro ⟨_, path⟩
    cases path with
    | single _ => exact Or.inl rfl
    | step edge rest => exact Or.inr ⟨_, edge, _, rest⟩
  · rintro (rfl | ⟨c, edge, vs, path⟩)
    · exact Reachable.refl a
    · exact ⟨_, Path.step edge path⟩

/-- No edge leads to the root, no two lead to one vertex from different vertices, and none is
repeated. So what the root reaches is a tree. -/
structure Arborescence (g : Graph N) (root : N) : Prop where
  root_orphan : ∀ u, root ∉ g.successors u
  parent_unique : ∀ u u' v, v ∈ g.successors u → v ∈ g.successors u' → u = u'
  nodup : ∀ u, (g.successors u).Nodup

namespace Arborescence

variable (tree : g.Arborescence root)
include tree

theorem depth_unique (h : g.Descent root v k) (h' : g.Descent root v l) : k = l := by
  induction h generalizing l with
  | here =>
    cases h' with
    | here => rfl
    | down _ edge => exact absurd edge (tree.root_orphan _)
  | @down u v k _ edge ih =>
    cases h' with
    | here => exact absurd edge (tree.root_orphan _)
    | @down u' _ l h' edge' =>
      obtain rfl := tree.parent_unique u u' v edge edge'
      exact congrArg Nat.succ (ih h')

private theorem source_unique (h : g.Descent a v k) (h' : g.Descent b v k) : a = b := by
  induction h with
  | here =>
    cases h' with
    | here => rfl
  | @down u v k _ edge ih =>
    cases h' with
    | @down u' _ _ h' edge' =>
      obtain rfl := tree.parent_unique u u' v edge edge'
      exact ih h'

private theorem eq_of_reachable (ha : g.Descent root a k) (hb : g.Descent root b k)
    (h : g.Reachable a v) (h' : g.Reachable b v) : a = b := by
  obtain ⟨m, h⟩ := h.exists_descent
  obtain ⟨m', h'⟩ := h'.exists_descent
  have same := tree.depth_unique (ha.trans h) (hb.trans h')
  obtain rfl : m = m' := by omega
  exact tree.source_unique h h'

private theorem not_reachable_successor (ha : g.Descent root a k) (edge : u ∈ g.successors a) :
    ¬ g.Reachable u a := by
  intro h
  obtain ⟨m, h⟩ := h.exists_descent
  have same := tree.depth_unique ha ((ha.down edge).trans h)
  omega

theorem depth_lt {all : List N} (inside : ∀ v, g.Reachable root v → v ∈ all)
    (h : g.Descent root v k) : k < all.length := by
  have passed : ∃ vs : List N, vs.length = k + 1 ∧ vs.Nodup ∧
      ∀ x ∈ vs, ∃ l ≤ k, g.Descent root x l := by
    induction h with
    | here => exact ⟨[root], rfl, List.nodup_singleton root, by simpa using Descent.here⟩
    | @down u v k h edge ih =>
      obtain ⟨vs, hlength, nodup, depth⟩ := ih
      have hv := h.down edge
      refine ⟨v :: vs, by rw [List.length_cons, hlength], List.nodup_cons.2 ⟨?_, nodup⟩, ?_⟩
      · intro hmem
        obtain ⟨l, hle, hl⟩ := depth v hmem
        exact absurd (tree.depth_unique hv hl) (by omega)
      · refine List.forall_mem_cons.2 ⟨⟨k + 1, le_rfl, hv⟩, ?_⟩
        intro x hx
        obtain ⟨l, hle, hl⟩ := depth x hx
        exact ⟨l, Nat.le_succ_of_le hle, hl⟩
  obtain ⟨vs, hlength, nodup, depth⟩ := passed
  have subset : vs ⊆ all := by
    intro x hx
    obtain ⟨_, _, hl⟩ := depth x hx
    exact inside x hl.reachable
  have hle := (nodup.subperm subset).length_le
  omega

end Arborescence

/-- Going down from each of the vertices `pending` in turn writes out `order`: each vertex is
followed by all that going down from its successors writes out. -/
inductive Unfolds (g : Graph N) : List N → List N → Prop
  | nil : Unfolds g [] []
  | cons {v : N} {rest below after : List N} (down : Unfolds g (g.successors v) below)
      (next : Unfolds g rest after) : Unfolds g (v :: rest) (v :: (below ++ after))

namespace Unfolds

variable {pending order : List N}

theorem mem_iff (h : g.Unfolds pending order) : x ∈ order ↔ ∃ v ∈ pending, g.Reachable v x := by
  induction h with
  | nil => simp
  | @cons v rest below after _ _ ihDown ihNext =>
    rw [List.mem_cons, List.mem_append, ihDown, ihNext, List.exists_mem_cons_iff, ← or_assoc,
      reachable_iff_successor (a := v), eq_comm]

/-- The vertices below one stand side by side, and it is the first of them. -/
theorem exists_block (h : g.Unfolds pending order) (hx : x ∈ order) :
    ∃ before below after, order = before ++ (x :: below) ++ after ∧
      g.Unfolds (g.successors x) below := by
  induction h with
  | nil => cases hx
  | @cons v rest below after down _ ihDown ihNext =>
    rcases List.mem_cons.1 hx with rfl | hx
    · exact ⟨[], below, after, rfl, down⟩
    rcases List.mem_append.1 hx with hx | hx
    · obtain ⟨pre, block, post, rfl, h⟩ := ihDown hx
      exact ⟨v :: pre, block, post ++ after, by simp, h⟩
    · obtain ⟨pre, block, post, rfl, h⟩ := ihNext hx
      exact ⟨v :: (below ++ pre), block, post, by simp, h⟩

theorem pending_or_before (h : g.Unfolds pending order) {before after : List N}
    (split : order = before ++ x :: after) : x ∈ pending ∨ ∃ u ∈ before, x ∈ g.successors u := by
  induction h generalizing before after with
  | nil => simp at split
  | @cons v rest below next _ _ ihDown ihNext =>
    cases before with
    | nil =>
      obtain ⟨rfl, _⟩ := List.cons.inj split
      exact .inl List.mem_cons_self
    | cons w before =>
      obtain ⟨rfl, tail⟩ := List.cons.inj split
      have later : ∀ {pre post : List N}, next = pre ++ x :: post → (∀ u ∈ pre, u ∈ before) →
          x ∈ v :: rest ∨ ∃ u ∈ v :: before, x ∈ g.successors u := by
        intro pre post heq subset
        rcases ihNext heq with pending | ⟨u, hu, edge⟩
        · exact .inl (List.mem_cons_of_mem v pending)
        · exact .inr ⟨u, List.mem_cons_of_mem v (subset u hu), edge⟩
      rcases List.append_eq_append_iff.1 tail with ⟨mid, rfl, hmid⟩ | ⟨mid, hbelow, hmid⟩
      · exact later hmid fun u hu => List.mem_append_right below hu
      · cases mid with
        | nil => exact @later [] after hmid.symm nofun
        | cons y mid =>
          obtain ⟨rfl, _⟩ := List.cons.inj hmid
          rcases ihDown hbelow with pending | ⟨u, hu, edge⟩
          · exact .inr ⟨v, List.mem_cons_self, pending⟩
          · exact .inr ⟨u, List.mem_cons_of_mem v hu, edge⟩

theorem nodup (tree : g.Arborescence root) (h : g.Unfolds pending order)
    (level : ∀ v ∈ pending, g.Descent root v k) (distinct : pending.Nodup) : order.Nodup := by
  induction h generalizing k with
  | nil => exact List.nodup_nil
  | @cons v rest below after down next ihDown ihNext =>
    obtain ⟨hv, hrest⟩ := List.forall_mem_cons.1 level
    obtain ⟨notMem, distinct⟩ := List.nodup_cons.1 distinct
    have nodupBelow := ihDown (fun c edge => hv.down edge) (tree.nodup v)
    have nodupAfter := ihNext hrest distinct
    have apart : ∀ x, g.Reachable v x → x ∉ after := by
      intro x hx hmem
      obtain ⟨w, hw, hx'⟩ := next.mem_iff.1 hmem
      obtain rfl := tree.eq_of_reachable hv (hrest w hw) hx hx'
      exact notMem hw
    refine List.nodup_cons.2 ⟨?_, List.nodup_append.2 ⟨nodupBelow, nodupAfter, ?_⟩⟩
    · intro hmem
      rcases List.mem_append.1 hmem with hmem | hmem
      · obtain ⟨c, edge, back⟩ := down.mem_iff.1 hmem
        exact tree.not_reachable_successor hv edge back
      · exact apart v (Reachable.refl v) hmem
    · rintro x hx y hy rfl
      exact apart x (reachable_iff_successor.2 (Or.inr (down.mem_iff.1 hx))) hy

private theorem mem_block_iff_idxOf [DecidableEq N] {before below after : List N} {y : N}
    (nodup : (before ++ (x :: below) ++ after).Nodup)
    (hy : y ∈ before ++ (x :: below) ++ after) :
    y ∈ x :: below ↔
      (before ++ (x :: below) ++ after).idxOf x ≤ (before ++ (x :: below) ++ after).idxOf y ∧
      (before ++ (x :: below) ++ after).idxOf y <
        (before ++ (x :: below) ++ after).idxOf x + (x :: below).length := by
  rw [List.append_assoc] at nodup hy ⊢
  obtain ⟨_, rest, apart⟩ := List.nodup_append.1 nodup
  obtain ⟨_, _, apart'⟩ := List.nodup_append.1 rest
  have hx : x ∉ before := fun hmem => apart x hmem x (by simp) rfl
  have first : (before ++ ((x :: below) ++ after)).idxOf x = before.length := by
    rw [List.idxOf_append_of_notMem hx, List.cons_append, List.idxOf_cons_self, Nat.add_zero]
  rw [first]
  rcases List.mem_append.1 hy with hy | hy
  · have hblock : y ∉ x :: below :=
      fun hmem => apart y hy y (List.mem_append_left after hmem) rfl
    have hlt := List.idxOf_lt_length_of_mem hy
    rw [List.idxOf_append_of_mem hy]
    constructor
    · exact fun hmem => absurd hmem hblock
    · omega
  have hbefore : y ∉ before := fun hmem => apart y hmem y hy rfl
  rw [List.idxOf_append_of_notMem hbefore]
  rcases List.mem_append.1 hy with hy | hy
  · have hlt := List.idxOf_lt_length_of_mem hy
    rw [List.idxOf_append_of_mem hy]
    exact ⟨fun _ => by omega, fun _ => hy⟩
  · have hblock : y ∉ x :: below := fun hmem => apart' y hmem y hy rfl
    rw [List.idxOf_append_of_notMem hblock]
    constructor
    · exact fun hmem => absurd hmem hblock
    · omega

theorem reachable_iff_idxOf [DecidableEq N] {y : N} (h : g.Unfolds pending order)
    (nodup : order.Nodup) (hx : x ∈ order) (hy : y ∈ order) :
    g.Reachable x y ↔ order.idxOf x ≤ order.idxOf y ∧
      order.idxOf y < order.idxOf x + {z | g.Reachable x z}.ncard := by
  obtain ⟨before, below, after, rfl, block⟩ := h.exists_block hx
  have mem : ∀ z, g.Reachable x z ↔ z ∈ x :: below := by
    intro z
    rw [reachable_iff_successor, List.mem_cons, block.mem_iff, eq_comm]
  have count : {z | g.Reachable x z}.ncard = (x :: below).length := by
    have heq : {z | g.Reachable x z} = ((x :: below).toFinset : Set N) := by
      rw [List.coe_toFinset]
      exact Set.ext mem
    rw [heq, Set.ncard_coe_finset]
    exact List.toFinset_card_of_nodup (List.nodup_append.1 (List.nodup_append.1 nodup).1).2.1
  rw [count, mem]
  exact mem_block_iff_idxOf nodup hy

end Unfolds

theorem exists_unfolds {limit : Nat} (bounded : ∀ v k, g.Descent root v k → k < limit) (k : Nat)
    {pending : List N} (level : ∀ v ∈ pending, g.Descent root v k) :
    ∃ order, g.Unfolds pending order := by
  generalize hroom : limit - k = room
  induction room generalizing k pending with
  | zero =>
    cases pending with
    | nil => exact ⟨[], Unfolds.nil⟩
    | cons v rest =>
      have hlt := bounded v k (level v List.mem_cons_self)
      omega
  | succ room ih =>
    induction pending with
    | nil => exact ⟨[], Unfolds.nil⟩
    | cons v rest ihRest =>
      obtain ⟨hv, hrest⟩ := List.forall_mem_cons.1 level
      obtain ⟨below, down⟩ := ih (k + 1) (fun c edge => hv.down edge) (by omega)
      obtain ⟨after, next⟩ := ihRest hrest
      exact ⟨_, Unfolds.cons down next⟩

section Preorder

variable [Node N] {pending order : List N} {seen : BitSet} {met : Array N}

/-- A search has seen the indexes of the vertices it met, and no others. -/
def Marks (seen : BitSet) (met : Array N) : Prop :=
  ∀ i, seen.contains i = true ↔ i ∈ met.toList.map Node.index

theorem Marks.push (h : Marks seen met) (v : N) :
    Marks (seen.insert (Node.index v)) (met.push v) := by
  intro i
  rw [BitSet.contains_insert, Bool.or_eq_true, h i, Array.toList_push, List.map_append,
    List.mem_append, List.map_singleton, List.mem_singleton, beq_iff_eq, or_comm, eq_comm]

private theorem Unfolds.preorderFrom_eq (h : g.Unfolds pending order) {limit : Nat} (rest : List N)
    (marks : Marks seen met) (distinct : ((met.toList ++ order).map Node.index).Nodup)
    (room : met.size + order.length ≤ limit) :
    ∃ seen', Marks seen' (met ++ order.toArray) ∧
      g.preorderFrom limit (pending ++ rest) seen met =
        g.preorderFrom limit rest seen' (met ++ order.toArray) := by
  induction h generalizing rest seen met with
  | nil => exact ⟨seen, by simpa using marks, by simp⟩
  | @cons v pending below after _ _ ihDown ihNext =>
    have fresh : ¬ seen.contains (Node.index v) = true := by
      rw [marks]
      rw [List.map_append, List.map_cons] at distinct
      exact fun hmem => (List.nodup_append.1 distinct).2.2 _ hmem _ List.mem_cons_self rfl
    have split : met.toList ++ v :: (below ++ after) =
        (met.push v ++ below.toArray).toList ++ after := by simp
    rw [split] at distinct
    rw [List.length_cons, List.length_append] at room
    have distinctBelow : (((met.push v).toList ++ below).map Node.index).Nodup := by
      refine distinct.sublist (List.Sublist.map _ ?_)
      rw [Array.toList_append]
      exact List.sublist_append_left _ after
    have roomAfter : (met.push v ++ below.toArray).size + after.length ≤ limit := by
      simp only [Array.size_append, Array.size_push, List.size_toArray]
      omega
    obtain ⟨seen₁, marks₁, heq₁⟩ := ihDown (pending ++ rest) (marks.push v) distinctBelow
      (by rw [Array.size_push]; omega)
    obtain ⟨seen₂, marks₂, heq₂⟩ := ihNext rest marks₁ distinct roomAfter
    have regroup : met ++ (v :: (below ++ after)).toArray =
        met.push v ++ below.toArray ++ after.toArray := by
      refine Array.toList_inj.1 ?_
      simp
    rw [regroup]
    refine ⟨seen₂, marks₂, ?_⟩
    rw [List.cons_append, preorderFrom, if_neg fresh, if_pos (by omega), heq₁, heq₂]

theorem Unfolds.preorder_eq {limit : Nat} {start : N} (h : g.Unfolds [start] order)
    (distinct : (order.map Node.index).Nodup) (room : order.length ≤ limit) :
    (g.preorder limit start).toList = order := by
  have marks : Marks ∅ (#[] : Array N) := by
    intro i
    simp
  obtain ⟨_, _, heq⟩ := h.preorderFrom_eq [] marks distinct (by simpa using room)
  rw [List.append_nil] at heq
  rw [preorder, heq, preorderFrom]
  simp

end Preorder

end Graph

end FlowGraph

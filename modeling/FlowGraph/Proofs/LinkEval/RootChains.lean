import FlowGraph.Proofs.LinkEval.Depth
import Mathlib.Computability.StateTransition
/-!
What the tables of the forest balanced by size hold in legal use. The heads of a tree are a chain
that begins at its root and ends; their subtrees are the tree, cut in parts; the size at a head
counts its part and all later ones; and the labels of the later heads do not increase in value.
The loops of a link rely on it: they follow chains, so they come to an end, and every size that
they meet or write counts different nodes.
-/

set_option autoImplicit false

namespace FlowGraph

variable {n : Nat}

namespace BalancedLinks

variable {f f' g : BalancedLinks n} {links : Links n} {semi : Fin n → Nat}
  {best p w s c r v : Fin n} {rest kept later hung : List (Fin n)}

/-- What a link does between its two loops: it labels the head of the merged subtree, adds up the
sizes, and chooses the chain that is to be hung below the parent. -/
def settle (best p w s : Fin n) (f : BalancedLinks n) : Option (Fin n) × BalancedLinks n :=
  let f := { f with label := f.label.set s best s.isLt }
  let total := f.size.get p + f.size.get w
  let f := { f with size := f.size.set p total p.isLt }
  if f.size.get p < 2 * f.size.get w then
    (f.child.get p, { f with child := f.child.set p (some s) p.isLt })
  else (some s, f)

def hang (p s : Fin n) (f : BalancedLinks n) : BalancedLinks n :=
  { f with ancestor := f.ancestor.set s (some p) s.isLt }

/-- The states of the two loops of a link: the head at which merging stands, and the chain that is
still to be attached. -/
inductive LinkState (n : Nat) where
  | merge (s : Fin n) (f : BalancedLinks n)
  | attach (o : Option (Fin n)) (f : BalancedLinks n)

namespace LinkState

def sizes : LinkState n → Fin n → Nat
  | merge _ f => f.size.get
  | attach _ f => f.size.get

/-- One round of a loop in a link of `w` below `p`, where `best` is the label of `w`. Merging joins
two subtrees as long as the label of the second has a greater value; then the chain is attached head
by head, and the loops end with it. -/
def next (semi : Fin n → Nat) (best p w : Fin n) : LinkState n → Option (LinkState n)
  | merge s f =>
    let done := attach (f.settle best p w s).1 (f.settle best p w s).2
    match f.down s with
    | none => some done
    | some c =>
      if semi best < semi (f.label.get c) then
        if 2 * f.size.get c ≤ f.size.get s + f.sizeFrom (f.down c) then
          some (merge s (f.joinBelow s c))
        else some (merge c (f.joinAbove s c))
      else some done
  | attach (some s) f => some (attach (f.down s) (f.hang p s))
  | attach none _ => none

/-- What all states of a link of `w` below `p` have in common: the chain that is gone through has
an end, the chain of `p` is another, and no size is greater than there are nodes. -/
inductive Sound (p w : Fin n) : LinkState n → Prop
  | merging {s : Fin n} {f : BalancedLinks n} {rest kept : List (Fin n)} (row : RootChain f s rest)
      (old : Chain f.down (some p) (p :: kept)) (apart : ∀ a ∈ s :: rest, a ∉ p :: kept)
      (first : w ∉ rest) (bounded : ∀ v, f.size.get v ≤ n)
      (total : f.size.get p + f.size.get w ≤ n) : Sound p w (merge s f)
  | attaching {o : Option (Fin n)} {f : BalancedLinks n} {hung : List (Fin n)}
      (chain : Chain f.down o hung) (bounded : ∀ v, f.size.get v ≤ n) : Sound p w (attach o f)

variable {st st' : LinkState n}

private theorem bounded_settle (bounded : ∀ v, f.size.get v ≤ n)
    (total : f.size.get p + f.size.get w ≤ n) (v : Fin n) :
    (f.settle best p w s).2.size.get v ≤ n := by
  have size : (f.settle best p w s).2.size.get v =
      if v = p then f.size.get p + f.size.get w else f.size.get v := by
    unfold settle
    dsimp only
    split <;> exact get_set f.size p v _
  rw [size]
  split
  · exact total
  · exact bounded v

private theorem exists_chain_settle (row : RootChain f s rest)
    (old : Chain f.down (some p) (p :: kept)) (w : Fin n) :
    ∃ hung, Chain (f.settle best p w s).2.down (f.settle best p w s).1 hung := by
  obtain ⟨hp, -⟩ := List.nodup_cons.1 old.nodup
  unfold settle
  dsimp only
  split
  · refine ⟨kept, old.of_cons.2.congr fun x hx => ?_⟩
    have hne : x ≠ p := ne_of_mem_of_not_mem hx hp
    exact (get_set_child _ p x _).trans (Function.update_of_ne hne _ _)
  · exact ⟨s :: rest, Chain.next row.chain⟩

private theorem Sound.joinBelow (row : RootChain f s (c :: rest))
    (old : Chain f.down (some p) (p :: kept)) (apart : ∀ a ∈ s :: c :: rest, a ∉ p :: kept)
    (first : w ∉ c :: rest) (bounded : ∀ v, f.size.get v ≤ n)
    (total : f.size.get p + f.size.get w ≤ n)
    (larger : 2 * f.size.get c ≤ f.size.get s + f.sizeFrom (f.down c)) :
    Sound p w (merge s (f.joinBelow s c)) := by
  have joined := joinedBelow larger
  have hs : s ∉ p :: kept := apart s List.mem_cons_self
  refine .merging (row.below joined) (old.congr fun x hx => ?_) (fun a ha => apart a ?_)
    (fun hw => first (List.mem_cons_of_mem c hw)) ?_ ?_
  · rw [joined.down_eq, Function.update_of_ne (ne_of_mem_of_not_mem hx hs)]
  · exact List.cons_subset_cons s (List.subset_cons_self c rest) ha
  · rwa [joined.size_eq]
  · rwa [joined.size_eq]

private theorem Sound.joinAbove (row : RootChain f s (c :: rest))
    (old : Chain f.down (some p) (p :: kept)) (apart : ∀ a ∈ s :: c :: rest, a ∉ p :: kept)
    (first : w ∉ c :: rest) (bounded : ∀ v, f.size.get v ≤ n)
    (total : f.size.get p + f.size.get w ≤ n)
    (smaller : f.size.get s + f.sizeFrom (f.down c) < 2 * f.size.get c) :
    Sound p w (merge c (f.joinAbove s c)) := by
  have joined := joinedAbove smaller
  rw [List.mem_cons, not_or] at first
  have hp : p ≠ c := fun heq => apart c (by simp) (heq ▸ List.mem_cons_self)
  refine .merging (row.above joined) (old.congr fun x _ => by rw [joined.down_eq])
    (fun a ha => apart a (List.mem_cons_of_mem s ha)) first.2 (fun v => ?_) ?_
  · rw [joined.size_eq, Function.update_apply]
    split
    · exact bounded s
    · exact bounded v
  · rwa [joined.size_eq, Function.update_of_ne hp, Function.update_of_ne first.1]

private theorem Sound.step (h : Sound p w st) (round : st.next semi best p w = some st') :
    Sound p w st' := by
  cases h with
  | @merging s f rest kept row old apart first bounded total =>
    have settled : Sound p w (attach (f.settle best p w s).1 (f.settle best p w s).2) := by
      obtain ⟨hung, chain⟩ := exists_chain_settle row old w
      exact .attaching chain (bounded_settle bounded total)
    cases hc : f.down s with
    | none =>
      simp only [LinkState.next, hc, Option.some.injEq] at round
      rwa [← round]
    | some c =>
      obtain ⟨later, rfl⟩ : ∃ later, rest = c :: later := by
        have chain := row.chain
        rw [hc] at chain
        cases chain with
        | next _ => exact ⟨_, rfl⟩
      simp only [LinkState.next, hc] at round
      split at round
      · split at round
        next larger =>
          obtain rfl := Option.some.inj round
          exact .joinBelow row old apart first bounded total larger
        next smaller =>
          obtain rfl := Option.some.inj round
          exact .joinAbove row old apart first bounded total (Nat.lt_of_not_le smaller)
      · obtain rfl := Option.some.inj round
        exact settled
  | @attaching o f hung chain bounded =>
    cases chain with
    | done => cases round
    | @next v rest chain =>
      obtain rfl := Option.some.inj round
      exact .attaching (f := f.hang p v) chain bounded

open StateTransition

private theorem Sound.of_reaches (h : Sound p w st) (run : Reaches (next semi best p w) st st') :
    Sound p w st' := by
  induction run with
  | refl => exact h
  | tail _ round ih => exact ih.step round

private theorem Sound.sizes_le (h : Sound p w st) (v : Fin n) : st.sizes v ≤ n := by
  cases h with
  | merging _ _ _ _ bounded _ => exact bounded v
  | attaching _ bounded => exact bounded v

private theorem reaches_settle (row : RootChain f s rest) {steps : Nat}
    (hsteps : rest.length ≤ steps) :
    let m := BalancedLinks.merge semi best steps s f
    Reaches (next semi best p w) (merge s f)
      (attach (m.2.settle best p w m.1).1 (m.2.settle best p w m.1).2) := by
  induction rest generalizing s f steps with
  | nil =>
    have hdown := row.chain.of_nil
    rw [merge_of_none semi best hdown]
    refine Relation.ReflTransGen.single ?_
    simp [next, hdown]
  | cons c rest ih =>
    obtain ⟨hc, -⟩ := row.chain.of_cons
    obtain _ | steps := steps
    · exact absurd hsteps (Nat.not_succ_le_zero _)
    rw [List.length_cons, Nat.add_le_add_iff_right] at hsteps
    rw [merge_of_some semi best hc]
    by_cases hlt : semi best < semi (f.label.get c)
    · by_cases hle : 2 * f.size.get c ≤ f.size.get s + f.sizeFrom (f.down c)
      · rw [if_pos hlt, if_pos hle]
        refine Relation.ReflTransGen.head ?_ (ih (row.below (joinedBelow hle)) hsteps)
        simp [next, hc, hlt, hle]
      · rw [if_pos hlt, if_neg hle]
        have above := row.above (joinedAbove (Nat.lt_of_not_le hle))
        refine Relation.ReflTransGen.head ?_ (ih above hsteps)
        simp [next, hc, hlt, hle]
    · rw [if_neg hlt]
      refine Relation.ReflTransGen.single ?_
      simp [next, hc, hlt]

private theorem reaches_attached {o : Option (Fin n)} {down : Fin n → Option (Fin n)}
    (hdown : f.down = down) (chain : Chain down o hung) {steps : Nat}
    (hsteps : hung.length ≤ steps) : Reaches (next semi best p w) (attach o f)
      (attach none (BalancedLinks.attach p steps o f)) := by
  induction chain generalizing f steps with
  | done =>
    have same : BalancedLinks.attach p steps none f = f := by
      cases steps <;> rfl
    rw [same]
    exact Relation.ReflTransGen.refl
  | @next v rest _ ih =>
    obtain _ | steps := steps
    · exact absurd hsteps (Nat.not_succ_le_zero _)
    rw [List.length_cons, Nat.add_le_add_iff_right] at hsteps
    subst hdown
    exact Relation.ReflTransGen.head rfl (ih (f := f.hang p v) rfl hsteps)

private theorem link_eq (semi : Fin n → Nat) (f : BalancedLinks n) (p w : Fin n) :
    let m := BalancedLinks.merge semi (f.label.get w) n w f
    f.link semi p w = BalancedLinks.attach p n (m.2.settle (f.label.get w) p w m.1).1
      (m.2.settle (f.label.get w) p w m.1).2 := by
  simp only [link, settle]
  split <;> rfl

private theorem mem_eval (h : Sound p w (merge w f)) : attach none (f.link semi p w) ∈
    StateTransition.eval (next semi (f.label.get w) p w) (merge w f) := by
  refine StateTransition.mem_eval.2 ⟨?_, rfl⟩
  cases h with
  | @merging _ _ rest kept row old apart first bounded total =>
    let m := BalancedLinks.merge semi (f.label.get w) n w f
    have merged : Reaches (next semi (f.label.get w) p w) (merge w f)
        (attach (m.2.settle (f.label.get w) p w m.1).1 (m.2.settle (f.label.get w) p w m.1).2) :=
      reaches_settle row (Nat.le_of_succ_le (Chain.next row.chain).length_le)
    have sound := Sound.of_reaches (.merging row old apart first bounded total) merged
    rw [link_eq]
    cases sound with
    | attaching chain _ =>
      exact Relation.ReflTransGen.trans merged (reaches_attached rfl chain chain.length_le)

end LinkState

private theorem looseRun_of_legalRun (run : LegalRun BalancedLinks f links semi) :
    LooseRun f links := by
  induction run with
  | start _ => exact LooseRun.start
  | @link f links semi p w _ hp hw ne ih => exact ih.link semi hp hw ne
  | @eval f links semi v _ ih => exact ih.eval semi v
  | revalue _ _ ih => exact ih

private theorem Weighed.size_add_size_le {heads : Fin n → List (Fin n)} (h : f.Weighed links heads)
    (hp : links p = none) (hw : links w = none) (hne : p ≠ w) :
    f.size.get p + f.size.get w ≤ n := by
  have treep := h.tree p hp
  have treew := h.tree w hw
  have nodup : ((p :: heads p) ++ w :: heads w).Nodup := by
    refine List.nodup_append.2 ⟨treep.nodup, treew.nodup, ?_⟩
    rintro a ha _ ha' rfl
    exact h.notMem hp hw hne a ha ha'
  rw [treep.size_eq, treew.size_eq, ← totalWeight_append]
  exact totalWeight_le nodup

private theorem sound_merge (run : LegalRun BalancedLinks f links semi)
    (bounded : ∀ v, f.size.get v ≤ n) (hp : links p = none) (hw : links w = none) (hne : p ≠ w) :
    LinkState.Sound p w (.merge w f) := by
  obtain ⟨heads, h⟩ := exists_chained_of_legalRun run
  obtain ⟨_, weighed⟩ := exists_weighed_of_looseRun (looseRun_of_legalRun run)
  refine .merging (h.rootChain hw) (Chain.next (h.chain p hp)) ?_ ?_ bounded
    (weighed.size_add_size_le hp hw hne)
  · exact fun a ha ha' => hne (h.eq_of_mem hp hw ha' ha)
  · exact fun hmem => (h.head_way w hw w hmem).1 rfl

private theorem size_le_of_legalRun (run : LegalRun BalancedLinks f links semi) (v : Fin n) :
    f.size.get v ≤ n := by
  induction run generalizing v with
  | start _ =>
    have hpos : 1 ≤ n := v.pos
    have one : (singletons n).size.get v = 1 := by simp [singletons]
    exact one.trans_le hpos
  | @link f links semi p w run hp hw ne ih =>
    have sound := sound_merge run ih hp hw ne
    have ended : StateTransition.Reaches (LinkState.next semi (f.label.get w) p w) _
        (.attach none (f.link semi p w)) :=
      (StateTransition.mem_eval.1 (LinkState.mem_eval sound)).1
    exact (sound.of_reaches ended).sizes_le v
  | eval _ _ ih => exact ih v
  | revalue _ _ ih => exact ih v

/-- What the tables hold for the tree of a root `r`, whose later heads are `later`. -/
structure HeadsOf (f : BalancedLinks n) (links : Links n) (semi : Fin n → Nat) (r : Fin n)
    (later : List (Fin n)) : Prop where
  chain : Chain f.down (some r) (r :: later)
  nodup : (r :: later).Nodup
  tree_eq : subtree links r = {y | ∃ a ∈ r :: later, y ∈ subtree f.up a}
  apart : (r :: later).Pairwise fun a b => ∀ y ∈ subtree f.up a, y ∉ subtree f.up b
  size_eq : ∀ a after, a :: after <:+ r :: later →
    f.size.get a = {y | ∃ b ∈ a :: after, y ∈ subtree f.up b}.ncard
  label_root : f.label.get r = r
  label_le : later.Pairwise fun a b => semi (f.label.get b) ≤ semi (f.label.get a)

private theorem Represents.subtree_eq {heads : Fin n → List (Fin n)}
    (h : f.Represents links semi heads) (hr : links r = none) :
    subtree links r = {y | ∃ a ∈ r :: heads r, y ∈ subtree f.up a} := by
  ext y
  obtain ⟨path, s, path', a, way, way', ha, -⟩ := h.ways y
  constructor
  · rintro ⟨_, way''⟩
    obtain ⟨-, rfl⟩ := way''.unique way
    exact ⟨a, ha, path', way'⟩
  · rintro ⟨b, hb, _, way''⟩
    obtain ⟨-, rfl⟩ := way''.unique way'
    obtain rfl := h.eq_of_mem hr way.top hb ha
    exact ⟨path, way⟩

private theorem exists_headsOf (run : LegalRun BalancedLinks f links semi) (hr : links r = none) :
    ∃ later, f.HeadsOf links semi r later := by
  obtain ⟨heads, h⟩ := exists_chained_of_legalRun run
  obtain ⟨heads', weighed⟩ := exists_weighed_of_looseRun (looseRun_of_legalRun run)
  have tree := weighed.tree r hr
  -- both invariants are about the one chain that begins at the root
  have same : heads r = heads' r := (h.chain r hr).unique tree.of_cons
  rw [← same] at tree
  refine ⟨heads r, tree.chain, tree.nodup, h.subtree_eq hr, ?_, fun a after suffix => ?_,
    h.label_root r hr, h.sorted r hr⟩
  · exact tree.nodup.imp fun hne _ => notMem_subtree hne
  · rw [tree.sized a after suffix]
    exact totalWeight_eq_ncard (tree.nodup.sublist suffix.sublist)

/-- What holds of a forest in legal use. The tree of each root is represented by the chain of its
heads, no size is greater than there are nodes, and the loops of a link come to an end without
meeting a greater one. -/
structure KeepsChains (f : BalancedLinks n) (links : Links n) (semi : Fin n → Nat) : Prop where
  heads : ∀ r, links r = none → ∃ later, f.HeadsOf links semi r later
  size_le : ∀ v, f.size.get v ≤ n
  link_ends : ∀ p w, links p = none → links w = none → p ≠ w →
    .attach none (f.link semi p w) ∈
      StateTransition.eval (LinkState.next semi (f.label.get w) p w) (.merge w f)
  link_sizes_le : ∀ p w, links p = none → links w = none → p ≠ w → ∀ st,
    StateTransition.Reaches (LinkState.next semi (f.label.get w) p w) (.merge w f) st →
      ∀ v, st.sizes v ≤ n

theorem keepsChains_of_legalRun (run : LegalRun BalancedLinks f links semi) :
    f.KeepsChains links semi := by
  refine ⟨fun r => exists_headsOf run, size_le_of_legalRun run, fun p w hp hw hne => ?_,
    fun p w hp hw hne st reached => ?_⟩
  · exact LinkState.mem_eval (sound_merge run (size_le_of_legalRun run) hp hw hne)
  · exact ((sound_merge run (size_le_of_legalRun run) hp hw hne).of_reaches reached).sizes_le

theorem keepsChains_of_three_heads :
    let semi : Fin 7 → Nat := ![0, 1, 1, 1, 0, 2, 3]
    let lowered : Fin 7 → Nat := ![0, 0, 1, 1, 0, 2, 3]
    let f : BalancedLinks 7 := LinkEval.link semi 1 4 (LinkEval.link semi 1 2
      (LinkEval.link semi 2 3 (LinkEval.link semi 3 6 (LinkEval.link semi 3 5
        (LinkEval.singletons 7)))))
    let links : Links 7 := Function.update (Function.update (Function.update (Function.update
      (Function.update (fun _ => none) 5 (some 3)) 6 (some 3)) 3 (some 2)) 2 (some 1)) 4 (some 1)
    LegalRun BalancedLinks f links lowered ∧ f.child.toList.take 4 = [none, some 2, some 3, none] ∧
      f.size.toList.take 4 = [1, 6, 4, 3] ∧ f.KeepsChains links lowered := by
  intro semi lowered f links
  have linked : LegalRun BalancedLinks f links semi :=
    (((((LegalRun.start semi).link rfl rfl (by decide)).link (by decide) (by decide)
      (by decide)).link (by decide) (by decide) (by decide)).link (by decide) (by decide)
        (by decide)).link (by decide) (by decide) (by decide)
  have run : LegalRun BalancedLinks f links lowered := linked.revalue (by decide)
  exact ⟨run, by decide, by decide, keepsChains_of_legalRun run⟩

end BalancedLinks

end FlowGraph

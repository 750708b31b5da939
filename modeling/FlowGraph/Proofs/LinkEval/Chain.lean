import FlowGraph.LinkEval.Balanced
import FlowGraph.Proofs.LinkEval.Compression
/-!
Chains of subtrees. Merging takes from the front of a chain the heads whose labels are greater
than a bound and makes one subtree of them, whichever of two subtrees comes to stand above the
other; the rest of the chain follows it. Attaching hangs every head of a chain below one node.
-/

set_option autoImplicit false

namespace FlowGraph

inductive Chain {n : Nat} (down : Fin n → Option (Fin n)) : Option (Fin n) → List (Fin n) → Prop
  | done : Chain down none []
  | next {v : Fin n} {rest : List (Fin n)} (h : Chain down (down v) rest) :
      Chain down (some v) (v :: rest)

namespace Chain

variable {n : Nat} {down down' : Fin n → Option (Fin n)} {o : Option (Fin n)} {v : Fin n}
  {heads : List (Fin n)}

theorem of_nil (h : Chain down o []) : o = none := by
  cases h with
  | done => rfl

theorem of_cons (h : Chain down o (v :: heads)) : o = some v ∧ Chain down (down v) heads := by
  cases h with
  | next h => exact ⟨rfl, h⟩

theorem congr (h : Chain down o heads) (agree : ∀ x ∈ heads, down' x = down x) :
    Chain down' o heads := by
  induction h with
  | done => exact done
  | @next v rest _ ih =>
    apply next
    rw [agree v List.mem_cons_self]
    exact ih fun x hx => agree x (List.mem_cons_of_mem _ hx)

theorem unique {heads' : List (Fin n)} (h : Chain down o heads) (h' : Chain down o heads') :
    heads = heads' := by
  induction h generalizing heads' with
  | done =>
    cases h' with
    | done => rfl
  | @next v rest _ ih =>
    cases h' with
    | next h' => exact congrArg (v :: ·) (ih h')

private theorem exists_ascent (h : Chain down (some v) heads) :
    ∃ path last, Ascent down v path last ∧ heads = path ++ [last] := by
  generalize ho : some v = o at h
  induction h generalizing v with
  | done => cases ho
  | @next x rest h ih =>
    obtain rfl := Option.some.inj ho
    cases hx : down v with
    | none =>
      rw [hx] at h
      cases h with
      | done => exact ⟨[], v, Ascent.root hx, rfl⟩
    | some c =>
      obtain ⟨path, last, hway, rfl⟩ := ih hx.symm
      exact ⟨v :: path, last, Ascent.step hx hway, rfl⟩

theorem nodup (h : Chain down o heads) : heads.Nodup := by
  cases h with
  | done => exact List.nodup_nil
  | next h =>
    obtain ⟨path, last, hway, heq⟩ := (next h).exists_ascent
    rw [heq]
    exact hway.nodup

theorem length_le (h : Chain down o heads) : heads.length ≤ n := by
  have hle := h.nodup.length_le_card
  rwa [Fintype.card_fin] at hle

end Chain

namespace BalancedLinks

variable {n : Nat}

def down (f : BalancedLinks n) (v : Fin n) : Option (Fin n) := f.child.get v

private theorem up_set_ancestor (f : BalancedLinks n) (v : Fin n) (a : Option (Fin n)) :
    ({ f.toPathForest with ancestor := f.ancestor.set v a v.isLt } : PathForest n).up =
      Function.update f.up v a := by
  funext y
  simp only [PathForest.up, Function.update_apply, get_set]

theorem get_set_child (f : BalancedLinks n) (v y : Fin n) (c : Option (Fin n)) :
    (f.child.set v c v.isLt).get y = Function.update f.down v c y := by
  simp only [down, Function.update_apply, get_set]

/-- What merging makes of a chain that begins with `s`: the heads `merged` become one subtree
with `s`, headed by `t`, and `left` follows it. Nothing else changes but sizes. -/
structure Merged (s t : Fin n) (merged left : List (Fin n)) (f g : BalancedLinks n) : Prop where
  label_eq : g.label = f.label
  head_mem : t ∈ s :: merged
  head_up : g.up t = none
  ways : ∀ c ∈ s :: merged, ∃ path, Ascent g.up c path t ∧ ∀ y ∈ path, y ∈ s :: merged
  chain : Chain g.down (g.down t) left
  up_other : ∀ v, v ∉ s :: merged → g.up v = f.up v
  down_other : ∀ v, v ∉ s :: merged → g.down v = f.down v

private theorem merged_self {s : Fin n} {f : BalancedLinks n} {rest : List (Fin n)}
    (hs : f.up s = none) (hchain : Chain f.down (f.down s) rest) : Merged s s [] rest f f where
  label_eq := rfl
  head_mem := List.mem_singleton_self s
  head_up := hs
  ways c hc := by
    obtain rfl := List.mem_singleton.1 hc
    exact ⟨[], Ascent.root hs, by simp⟩
  chain := hchain
  up_other _ _ := rfl
  down_other _ _ := rfl

private theorem Merged.below {s t c : Fin n} {merged left : List (Fin n)}
    {f f' g : BalancedLinks n} (hlabel : f'.label = f.label)
    (hup : f'.up = Function.update f.up c (some s))
    (hdown : f'.down = Function.update f.down s (f.down c)) (hc : c ∉ s :: merged)
    (h : Merged s t merged left f' g) : Merged s t (c :: merged) left f g where
  label_eq := h.label_eq.trans hlabel
  head_mem := by
    rcases List.mem_cons.1 h.head_mem with ht | ht <;> simp [ht]
  head_up := h.head_up
  ways x hx := by
    have hways : ∀ x ∈ s :: merged, ∃ path, Ascent g.up x path t ∧
        ∀ y ∈ path, y ∈ s :: c :: merged := by
      intro x hx
      obtain ⟨path, hway, hpath⟩ := h.ways x hx
      refine ⟨path, hway, fun y hy => ?_⟩
      rcases List.mem_cons.1 (hpath y hy) with hy | hy <;> simp [hy]
    by_cases hxc : x = c
    · subst hxc
      obtain ⟨path, hway, hpath⟩ := hways s List.mem_cons_self
      refine ⟨x :: path, Ascent.step ?_ hway, ?_⟩
      · rw [h.up_other x hc, hup, Function.update_self]
      · intro y hy
        rcases List.mem_cons.1 hy with rfl | hy
        · simp
        · exact hpath y hy
    · apply hways
      simp only [List.mem_cons] at hx ⊢
      tauto
  chain := h.chain
  up_other v hv := by
    simp only [List.mem_cons, not_or] at hv
    rw [h.up_other v (by simp [hv]), hup, Function.update_of_ne hv.2.1]
  down_other v hv := by
    simp only [List.mem_cons, not_or] at hv
    rw [h.down_other v (by simp [hv]), hdown, Function.update_of_ne hv.1]

private theorem Merged.above {s t c : Fin n} {merged left : List (Fin n)}
    {f f' g : BalancedLinks n} (hlabel : f'.label = f.label)
    (hup : f'.up = Function.update f.up s (some c)) (hdown : f'.down = f.down)
    (hs : s ∉ c :: merged) (h : Merged c t merged left f' g) :
    Merged s t (c :: merged) left f g where
  label_eq := h.label_eq.trans hlabel
  head_mem := List.mem_cons_of_mem _ h.head_mem
  head_up := h.head_up
  ways x hx := by
    rcases List.mem_cons.1 hx with rfl | hx
    · obtain ⟨path, hway, hpath⟩ := h.ways c List.mem_cons_self
      refine ⟨x :: path, Ascent.step ?_ hway, ?_⟩
      · rw [h.up_other x hs, hup, Function.update_self]
      · intro y hy
        rcases List.mem_cons.1 hy with rfl | hy
        · exact List.mem_cons_self
        · exact List.mem_cons_of_mem _ (hpath y hy)
    · obtain ⟨path, hway, hpath⟩ := h.ways x hx
      exact ⟨path, hway, fun y hy => List.mem_cons_of_mem _ (hpath y hy)⟩
  chain := h.chain
  up_other v hv := by
    rw [List.mem_cons, not_or] at hv
    rw [h.up_other v hv.2, hup, Function.update_of_ne hv.1]
  down_other v hv := by
    rw [List.mem_cons, not_or] at hv
    rw [h.down_other v hv.2, hdown]

structure JoinedBelow (s c : Fin n) (f f' : BalancedLinks n) : Prop where
  larger : 2 * f.size.get c ≤ f.size.get s + f.sizeFrom (f.down c)
  label_eq : f'.label = f.label
  size_eq : f'.size = f.size
  up_eq : f'.up = Function.update f.up c (some s)
  down_eq : f'.down = Function.update f.down s (f.down c)

structure JoinedAbove (s c : Fin n) (f f' : BalancedLinks n) : Prop where
  smaller : f.size.get s + f.sizeFrom (f.down c) < 2 * f.size.get c
  label_eq : f'.label = f.label
  size_eq : f'.size.get = Function.update f.size.get c (f.size.get s)
  up_eq : f'.up = Function.update f.up s (some c)
  down_eq : f'.down = f.down

def joinBelow (f : BalancedLinks n) (s c : Fin n) : BalancedLinks n :=
  { f with
    ancestor := f.ancestor.set c (some s) c.isLt
    child := f.child.set s (f.child.get c) s.isLt }

def joinAbove (f : BalancedLinks n) (s c : Fin n) : BalancedLinks n :=
  { f with
    ancestor := f.ancestor.set s (some c) s.isLt
    size := f.size.set c (f.size.get s) c.isLt }

theorem joinedBelow {s c : Fin n} {f : BalancedLinks n}
    (larger : 2 * f.size.get c ≤ f.size.get s + f.sizeFrom (f.down c)) :
    JoinedBelow s c f (f.joinBelow s c) where
  larger := larger
  label_eq := rfl
  size_eq := rfl
  up_eq := up_set_ancestor f c (some s)
  down_eq := funext fun y => get_set_child f s y (f.down c)

theorem joinedAbove {s c : Fin n} {f : BalancedLinks n}
    (smaller : f.size.get s + f.sizeFrom (f.down c) < 2 * f.size.get c) :
    JoinedAbove s c f (f.joinAbove s c) where
  smaller := smaller
  label_eq := rfl
  size_eq := by
    funext y
    rw [joinAbove, Function.update_apply, get_set]
  up_eq := up_set_ancestor f s (some c)
  down_eq := rfl

theorem merge_of_some (semi : Fin n → Nat) (best : Fin n) {s c : Fin n} {f : BalancedLinks n}
    (hc : f.down s = some c) (steps : Nat) :
    merge semi best (steps + 1) s f =
      if semi best < semi (f.label.get c) then
        if 2 * f.size.get c ≤ f.size.get s + f.sizeFrom (f.down c) then
          merge semi best steps s (f.joinBelow s c)
        else merge semi best steps c (f.joinAbove s c)
      else (s, f) := by
  have hchild : f.child.get s = some c := hc
  simp only [merge, hchild]
  rfl

theorem merge_succ (semi : Fin n → Nat) (best : Fin n) {s c : Fin n} {f : BalancedLinks n}
    (hc : f.down s = some c) (steps : Nat) :
    (semi (f.label.get c) ≤ semi best ∧ merge semi best (steps + 1) s f = (s, f)) ∨
    (semi best < semi (f.label.get c) ∧ ∃ f' : BalancedLinks n,
      (JoinedBelow s c f f' ∧ merge semi best (steps + 1) s f = merge semi best steps s f') ∨
        (JoinedAbove s c f f' ∧
          merge semi best (steps + 1) s f = merge semi best steps c f')) := by
  rw [merge_of_some semi best hc]
  split
  · rename_i hlt
    refine Or.inr ⟨hlt, ?_⟩
    split
    · rename_i larger
      exact ⟨_, Or.inl ⟨joinedBelow larger, rfl⟩⟩
    · rename_i smaller
      exact ⟨_, Or.inr ⟨joinedAbove (Nat.lt_of_not_le smaller), rfl⟩⟩
  · rename_i hle
    exact Or.inl ⟨Nat.le_of_not_lt hle, rfl⟩

theorem merge_of_none (semi : Fin n → Nat) (best : Fin n) {s : Fin n}
    {f : BalancedLinks n} (h : f.down s = none) (steps : Nat) :
    merge semi best steps s f = (s, f) := by
  have hchild : f.child.get s = none := h
  cases steps with
  | zero => rfl
  | succ steps => simp only [merge, hchild]

structure RootChain (f : BalancedLinks n) (s : Fin n) (rest : List (Fin n)) : Prop where
  chain : Chain f.down (f.down s) rest
  roots : ∀ v ∈ s :: rest, f.up v = none

namespace RootChain

variable {s c : Fin n} {f f' : BalancedLinks n} {rest : List (Fin n)}

private theorem nodup (h : RootChain f s rest) : (s :: rest).Nodup := (Chain.next h.chain).nodup

theorem notMem (h : RootChain f s (c :: rest)) : s ≠ c ∧ s ∉ rest ∧ c ∉ rest := by
  obtain ⟨hs, hrest⟩ := List.nodup_cons.1 h.nodup
  rw [List.mem_cons, not_or] at hs
  exact ⟨hs.1, hs.2, (List.nodup_cons.1 hrest).1⟩

theorem below (h : RootChain f s (c :: rest)) (j : JoinedBelow s c f f') :
    RootChain f' s rest := by
  obtain ⟨hne, hs, hc⟩ := h.notMem
  obtain ⟨-, htail⟩ := h.chain.of_cons
  constructor
  · rw [j.down_eq, Function.update_self]
    exact htail.congr fun x hx => Function.update_of_ne (ne_of_mem_of_not_mem hx hs) _ _
  · intro v hv
    have hvc : v ≠ c := ne_of_mem_of_not_mem hv (by simp [hne.symm, hc])
    rw [j.up_eq, Function.update_of_ne hvc]
    apply h.roots
    simp only [List.mem_cons] at hv ⊢
    tauto

theorem above (h : RootChain f s (c :: rest)) (j : JoinedAbove s c f f') :
    RootChain f' c rest := by
  obtain ⟨hne, hs, -⟩ := h.notMem
  obtain ⟨-, htail⟩ := h.chain.of_cons
  constructor
  · rw [j.down_eq]
    exact htail
  · intro v hv
    have hvs : v ≠ s := ne_of_mem_of_not_mem hv (by simp [hne, hs])
    rw [j.up_eq, Function.update_of_ne hvs, h.roots v (List.mem_cons_of_mem s hv)]

end RootChain

theorem merged_merge (semi : Fin n → Nat) (best : Fin n) {s : Fin n} {f : BalancedLinks n}
    {rest : List (Fin n)} {steps : Nat} (h : RootChain f s rest) (hsteps : rest.length ≤ steps) :
    ∃ merged left, rest = merged ++ left ∧ (∀ c ∈ merged, semi best < semi (f.label.get c)) ∧
      (∀ c ∈ left.head?, semi (f.label.get c) ≤ semi best) ∧
      Merged s (merge semi best steps s f).1 merged left f (merge semi best steps s f).2 := by
  induction rest generalizing s f steps with
  | nil =>
    rw [merge_of_none semi best h.chain.of_nil]
    exact ⟨[], [], rfl, by simp, by simp, merged_self (h.roots s List.mem_cons_self) h.chain⟩
  | cons c rest ih =>
    obtain ⟨hc, -⟩ := h.chain.of_cons
    obtain ⟨hne, hs, hcrest⟩ := h.notMem
    obtain ⟨steps, rfl⟩ : ∃ k, steps = k + 1 := ⟨steps - 1, by
      rw [List.length_cons] at hsteps
      omega⟩
    rw [List.length_cons, Nat.add_le_add_iff_right] at hsteps
    rcases merge_succ semi best hc steps with ⟨hle, heq⟩ | ⟨hlt, f', ⟨j, heq⟩ | ⟨j, heq⟩⟩
    · rw [heq]
      refine ⟨[], c :: rest, rfl, by simp, ?_,
        merged_self (h.roots s List.mem_cons_self) h.chain⟩
      intro x hx
      obtain rfl : c = x := by simpa using hx
      exact hle
    · -- `c` goes below `s`
      obtain ⟨merged, left, rfl, hgt, hleft, hmerged⟩ := ih (h.below j) hsteps
      rw [heq]
      rw [j.label_eq] at hgt hleft
      refine ⟨c :: merged, left, rfl, List.forall_mem_cons.2 ⟨hlt, hgt⟩, hleft,
        hmerged.below j.label_eq j.up_eq j.down_eq ?_⟩
      simp only [List.mem_cons, List.mem_append, not_or] at hcrest ⊢
      exact ⟨hne.symm, hcrest.1⟩
    · -- `s` goes below `c`
      obtain ⟨merged, left, rfl, hgt, hleft, hmerged⟩ := ih (h.above j) hsteps
      rw [heq]
      rw [j.label_eq] at hgt hleft
      refine ⟨c :: merged, left, rfl, List.forall_mem_cons.2 ⟨hlt, hgt⟩, hleft,
        hmerged.above j.label_eq j.up_eq j.down_eq ?_⟩
      simp only [List.mem_cons, List.mem_append, not_or] at hs ⊢
      exact ⟨hne, hs.1⟩

theorem attach_succ (p v : Fin n) (steps : Nat) (f : BalancedLinks n) :
    ∃ f' : BalancedLinks n, f'.label = f.label ∧ f'.size = f.size ∧ f'.down = f.down ∧
      f'.up = Function.update f.up v (some p) ∧
      attach p (steps + 1) (some v) f = attach p steps (f.down v) f' := by
  refine ⟨{ f with ancestor := f.ancestor.set v (some p) v.isLt }, ?_, ?_, ?_, ?_, ?_⟩
  · rfl
  · rfl
  · rfl
  · exact up_set_ancestor f v (some p)
  · rfl

theorem attach_spec {p : Fin n} {f : BalancedLinks n} {down : Fin n → Option (Fin n)}
    {o : Option (Fin n)} {heads : List (Fin n)} {steps : Nat} (hdown : f.down = down)
    (hchain : Chain down o heads) (hsteps : heads.length ≤ steps) :
    (attach p steps o f).label = f.label ∧ (attach p steps o f).down = f.down ∧
      ∀ v, (attach p steps o f).up v = if v ∈ heads then some p else f.up v := by
  induction hchain generalizing f steps with
  | done => cases steps <;> simp [attach]
  | @next v rest h ih =>
    obtain ⟨steps, rfl⟩ : ∃ k, steps = k + 1 := ⟨steps - 1, by
      rw [List.length_cons] at hsteps
      omega⟩
    rw [List.length_cons, Nat.add_le_add_iff_right] at hsteps
    obtain ⟨f', hlabel, -, hdown', hup, heq⟩ := attach_succ p v steps f
    rw [heq, hdown]
    obtain ⟨ihlabel, ihdown, ihup⟩ := ih (hdown'.trans hdown) hsteps
    refine ⟨ihlabel.trans hlabel, ihdown.trans (hdown'.trans hdown), ?_⟩
    intro x
    rw [ihup, hup, Function.update_apply]
    by_cases hx : x = v <;> simp [hx]

end BalancedLinks

end FlowGraph

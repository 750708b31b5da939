import FlowGraph.Proofs.LinkEval.Balanced
import FlowGraph.Proofs.LinkEval.Weight
/-!
Trees of the forest balanced by size, as chains of shallow subtrees with their right sizes. Merging
joins two neighbours, the lighter below the heavier; attaching hangs a chain below the root of a
tree that is twice as heavy. Both leave such a tree, whatever values they compare.
-/

set_option autoImplicit false

namespace FlowGraph

namespace BalancedLinks

variable {n : Nat} {f f' f₂ g : BalancedLinks n} {p s c t a : Fin n}
  {rest left kept hung nodes nodes' : List (Fin n)}

/-- Each head of a chain has the weight of its subtree and of all later ones for its size. -/
def Sized (f : BalancedLinks n) (row : List (Fin n)) : Prop :=
  ∀ a rest, a :: rest <:+ row → f.size.get a = totalWeight f.up (a :: rest)

theorem sized_nil (f : BalancedLinks n) : f.Sized [] := by
  intro a rest h
  simp at h

theorem sized_cons : f.Sized (a :: rest) ↔
    f.size.get a = totalWeight f.up (a :: rest) ∧ f.Sized rest := by
  constructor
  · intro h
    have later : ∀ b more, b :: more <:+ rest → b :: more <:+ a :: rest := fun _ _ hb =>
      hb.trans (List.suffix_cons a rest)
    exact ⟨h a rest List.suffix_rfl, fun b more hb => h b more (later b more hb)⟩
  · rintro ⟨hsize, hrest⟩ b later hb
    rcases List.suffix_cons_iff.1 hb with heq | hb
    · obtain ⟨rfl, rfl⟩ := List.cons.inj heq
      exact hsize
    · exact hrest b later hb

private theorem sizeFrom_eq {o : Option (Fin n)} (chain : Chain f.down o rest)
    (sized : f.Sized rest) :
    f.sizeFrom o = totalWeight f.up rest := by
  cases chain with
  | done => rfl
  | next h => exact (sized_cons.1 sized).1

/-- A tree is a chain of subtrees with their right sizes, all of them shallow in the tree. -/
structure IsTree (f : BalancedLinks n) (row : List (Fin n)) : Prop where
  chain : Chain f.down row.head? row
  roots : ∀ a ∈ row, f.up a = none
  sized : f.Sized row
  shallow : ∀ a ∈ row, Shallow f.up a (totalWeight f.up row)

/-- Apart from the nodes of a list two forests are the same, with the same ways to all others. -/
structure Untouched (nodes : List (Fin n)) (f g : BalancedLinks n) : Prop where
  up_eq : ∀ v, v ∉ nodes → g.up v = f.up v
  down_eq : ∀ v, v ∉ nodes → g.down v = f.down v
  size_eq : ∀ v, v ∉ nodes → g.size.get v = f.size.get v
  ascent_iff : ∀ a, a ∉ nodes → ∀ y path, Ascent g.up y path a ↔ Ascent f.up y path a

namespace Untouched

private theorem refl (nodes : List (Fin n)) (f : BalancedLinks n) : Untouched nodes f f :=
  ⟨fun _ _ => rfl, fun _ _ => rfl, fun _ _ => rfl, fun _ _ _ _ => Iff.rfl⟩

theorem trans (h : Untouched nodes f f') (h' : Untouched nodes f' g) : Untouched nodes f g where
  up_eq v hv := (h'.up_eq v hv).trans (h.up_eq v hv)
  down_eq v hv := (h'.down_eq v hv).trans (h.down_eq v hv)
  size_eq v hv := (h'.size_eq v hv).trans (h.size_eq v hv)
  ascent_iff a ha y path := (h'.ascent_iff a ha y path).trans (h.ascent_iff a ha y path)

theorem mono (h : Untouched nodes f g) (sub : nodes ⊆ nodes') : Untouched nodes' f g where
  up_eq v hv := h.up_eq v fun hmem => hv (sub hmem)
  down_eq v hv := h.down_eq v fun hmem => hv (sub hmem)
  size_eq v hv := h.size_eq v fun hmem => hv (sub hmem)
  ascent_iff a ha := h.ascent_iff a fun hmem => ha (sub hmem)

theorem subtree_eq (h : Untouched nodes f g) (ha : a ∉ nodes) :
    subtree g.up a = subtree f.up a := by
  ext y
  exact exists_congr fun path => h.ascent_iff a ha y path

private theorem weight_eq (h : Untouched nodes f g) (ha : a ∉ nodes) :
    weight g.up a = weight f.up a :=
  congrArg Set.ncard (h.subtree_eq ha)

private theorem shallow (h : Untouched nodes f g) (ha : a ∉ nodes) {t : Nat}
    (hs : Shallow f.up a t) :
    Shallow g.up a t := by
  intro y path way
  rw [h.weight_eq ha]
  exact hs y path ((h.ascent_iff a ha y path).1 way)

private theorem totalWeight_eq (h : Untouched nodes f g) (apart : ∀ a ∈ rest, a ∉ nodes) :
    totalWeight g.up rest = totalWeight f.up rest :=
  congrArg List.sum (List.map_congr_left fun a ha => h.weight_eq (apart a ha))

private theorem sized (h : Untouched nodes f g) (apart : ∀ a ∈ rest, a ∉ nodes)
    (hs : f.Sized rest) :
    g.Sized rest := by
  intro a later hsuffix
  have hlater : ∀ b ∈ a :: later, b ∉ nodes := fun b hb => apart b (hsuffix.subset hb)
  rw [h.size_eq a (hlater a List.mem_cons_self), h.totalWeight_eq hlater]
  exact hs a later hsuffix

theorem isTree (h : Untouched nodes f g) (apart : ∀ a ∈ rest, a ∉ nodes) (tree : f.IsTree rest) :
    g.IsTree rest where
  chain := tree.chain.congr fun a ha => h.down_eq a (apart a ha)
  roots a ha := (h.up_eq a (apart a ha)).trans (tree.roots a ha)
  sized := h.sized apart tree.sized
  shallow a ha := by
    rw [h.totalWeight_eq apart]
    exact h.shallow (apart a ha) (tree.shallow a ha)

end Untouched

namespace IsTree

theorem nodup (h : f.IsTree rest) : rest.Nodup := h.chain.nodup

theorem of_cons (h : f.IsTree (s :: rest)) : Chain f.down (f.down s) rest := h.chain.of_cons.2

theorem size_eq (h : f.IsTree (s :: rest)) : f.size.get s = totalWeight f.up (s :: rest) :=
  (sized_cons.1 h.sized).1

private theorem sizes (h : f.IsTree (s :: c :: rest)) :
    f.size.get s = weight f.up s + (weight f.up c + totalWeight f.up rest) ∧
      f.size.get c = weight f.up c + totalWeight f.up rest ∧
      f.sizeFrom (f.down c) = totalWeight f.up rest := by
  obtain ⟨hs, hrest⟩ := sized_cons.1 h.sized
  obtain ⟨hc, hlater⟩ := sized_cons.1 hrest
  exact ⟨hs, hc, sizeFrom_eq h.of_cons.of_cons.2 hlater⟩

private theorem rootChain (h : f.IsTree (s :: rest)) : RootChain f s rest := ⟨h.of_cons, h.roots⟩

end IsTree

structure Joined (upper lower : Fin n) (rest : List (Fin n)) (f f' : BalancedLinks n) : Prop where
  up_eq : f'.up = Function.update f.up lower (some upper)
  down_eq : ∀ v, v ≠ upper → f'.down v = f.down v
  chain : Chain f'.down (f'.down upper) rest
  size_upper : f'.size.get upper =
    weight f.up upper + weight f.up lower + totalWeight f.up rest
  size_eq : ∀ v, v ≠ upper → f'.size.get v = f.size.get v
  lighter : weight f.up lower ≤ weight f.up upper
  ne : upper ≠ lower
  root_upper : f.up upper = none
  root_lower : f.up lower = none
  notMem : upper ∉ rest ∧ lower ∉ rest

private theorem JoinedBelow.joined (j : JoinedBelow s c f f') (h : f.IsTree (s :: c :: rest)) :
    Joined s c rest f f' := by
  obtain ⟨hsize, hc, hnext⟩ := h.sizes
  obtain ⟨hne, hsrest, hcrest⟩ := h.rootChain.notMem
  have hlarger := j.larger
  refine ⟨j.up_eq, ?_, (h.rootChain.below j).chain, ?_, ?_, by omega, hne, h.roots s (by simp),
    h.roots c (by simp), hsrest, hcrest⟩
  · intro v hv
    rw [j.down_eq, Function.update_of_ne hv]
  · rw [j.size_eq, hsize, Nat.add_assoc]
  · intro v _
    rw [j.size_eq]

private theorem JoinedAbove.joined (j : JoinedAbove s c f f') (h : f.IsTree (s :: c :: rest)) :
    Joined c s rest f f' := by
  obtain ⟨hsize, hc, hnext⟩ := h.sizes
  obtain ⟨hne, hsrest, hcrest⟩ := h.rootChain.notMem
  have hsmaller := j.smaller
  refine ⟨j.up_eq, ?_, (h.rootChain.above j).chain, ?_, ?_, by omega, hne.symm,
    h.roots c (by simp), h.roots s (by simp), hcrest, hsrest⟩
  · intro v _
    rw [j.down_eq]
  · rw [j.size_eq, Function.update_self, hsize]
    omega
  · intro v hv
    rw [j.size_eq, Function.update_of_ne hv]

namespace Joined

private theorem untouched (j : Joined s c rest f f') : Untouched [s, c] f f' where
  up_eq v hv := by
    rw [j.up_eq, Function.update_of_ne fun h => hv (by simp [h])]
  down_eq v hv := j.down_eq v fun h => hv (by simp [h])
  size_eq v hv := j.size_eq v fun h => hv (by simp [h])
  ascent_iff a ha y path := by
    have hs : a ≠ s := fun h => ha (by simp [h])
    have hc : a ≠ c := fun h => ha (by simp [h])
    rw [j.up_eq, Ascent.hang_iff j.root_lower j.root_upper j.ne]
    constructor
    · rintro (⟨-, way⟩ | ⟨heq, -⟩)
      · exact way
      · exact absurd heq hs
    · exact fun way => Or.inl ⟨hc, way⟩

private theorem apart (j : Joined s c rest f f') : ∀ a ∈ rest, a ∉ [s, c] := by
  intro a ha hmem
  rcases List.mem_pair.1 hmem with rfl | rfl
  · exact j.notMem.1 ha
  · exact j.notMem.2 ha

private theorem totalWeight_eq (j : Joined s c rest f f') :
    totalWeight f'.up (s :: rest) = weight f.up s + weight f.up c + totalWeight f.up rest := by
  rw [totalWeight_cons, j.untouched.totalWeight_eq j.apart, j.up_eq,
    weight_hang j.root_lower j.root_upper j.ne]

private theorem isTree (j : Joined s c rest f f') (sized : f.Sized rest)
    (roots : ∀ a ∈ rest, f.up a = none)
    (shallow : ∀ a, a = s ∨ a = c ∨ a ∈ rest →
      Shallow f.up a (weight f.up s + weight f.up c + totalWeight f.up rest)) :
    f'.IsTree (s :: rest) where
  chain := Chain.next j.chain
  roots := by
    refine List.forall_mem_cons.2 ⟨?_, fun a ha => ?_⟩
    · rw [j.up_eq, Function.update_of_ne j.ne, j.root_upper]
    · rw [j.untouched.up_eq a (j.apart a ha), roots a ha]
  sized := by
    refine sized_cons.2 ⟨?_, j.untouched.sized j.apart sized⟩
    rw [j.totalWeight_eq, j.size_upper]
  shallow := by
    rw [j.totalWeight_eq]
    refine List.forall_mem_cons.2 ⟨?_, fun a ha => ?_⟩
    · rw [j.up_eq]
      exact (shallow s (by simp)).hang_lighter j.root_lower j.root_upper j.ne
        (shallow c (by simp)) j.lighter
    · exact j.untouched.shallow (j.apart a ha) (shallow a (by simp [ha]))

private theorem subtree_subset (j : Joined s c rest f f') (ha : a = s ∨ a = c) :
    subtree f.up a ⊆ subtree f'.up s := by
  rw [j.up_eq, subtree_hang j.root_lower j.root_upper j.ne]
  rcases ha with rfl | rfl
  · exact Set.subset_union_left
  · exact Set.subset_union_right

end Joined

structure MergedTree (s t : Fin n) (rest left : List (Fin n)) (f g : BalancedLinks n) : Prop where
  tree : g.IsTree (t :: left)
  subset : t :: left ⊆ s :: rest
  total : totalWeight g.up (t :: left) = totalWeight f.up (s :: rest)
  size_first : g.size.get s = f.size.get s
  covers : ∀ a ∈ s :: rest, ∀ y ∈ subtree f.up a, ∃ b ∈ t :: left, y ∈ subtree g.up b
  untouched : Untouched (s :: rest) f g

private theorem mergedTree_self (h : f.IsTree (s :: rest)) : MergedTree s s rest rest f f where
  tree := h
  subset := List.Subset.refl _
  total := rfl
  size_first := rfl
  covers a ha _ hy := ⟨a, ha, hy⟩
  untouched := Untouched.refl _ f

private theorem MergedTree.of_joined {first upper lower : Fin n}
    (m : MergedTree upper t rest left f' g) (j : Joined upper lower rest f f')
    (hchain : (first :: nodes).Perm (upper :: lower :: rest))
    (hsize : g.size.get first = f.size.get first) : MergedTree first t nodes left f g where
  tree := m.tree
  subset := by
    intro a ha
    have hmem := m.subset ha
    rw [hchain.mem_iff]
    simp only [List.mem_cons] at hmem ⊢
    tauto
  total := by
    rw [m.total, j.totalWeight_eq, totalWeight_perm hchain, totalWeight_cons, totalWeight_cons,
      Nat.add_assoc]
  size_first := hsize
  covers := by
    intro a ha y hy
    rw [hchain.mem_iff, List.mem_cons, List.mem_cons, ← or_assoc] at ha
    rcases ha with ha | ha
    · exact m.covers upper List.mem_cons_self y (j.subtree_subset ha hy)
    · refine m.covers a (List.mem_cons_of_mem _ ha) y ?_
      rwa [j.untouched.subtree_eq (j.apart a ha)]
  untouched := by
    refine (j.untouched.mono ?_).trans (m.untouched.mono ?_)
    · intro a ha
      rw [hchain.mem_iff]
      rcases List.mem_pair.1 ha with rfl | rfl <;> simp
    · intro a ha
      rw [hchain.mem_iff]
      simp only [List.mem_cons] at ha ⊢
      tauto

theorem exists_mergedTree (semi : Fin n → Nat) (best : Fin n) (steps : Nat)
    (h : f.IsTree (s :: rest)) : ∃ left, MergedTree s (merge semi best steps s f).1 rest left f
      (merge semi best steps s f).2 := by
  induction steps generalizing s f rest with
  | zero => exact ⟨rest, mergedTree_self h⟩
  | succ steps ih =>
    cases hdown : f.down s with
    | none =>
      rw [merge_of_none semi best hdown]
      exact ⟨rest, mergedTree_self h⟩
    | some c =>
      obtain ⟨later, rfl⟩ : ∃ later, rest = c :: later := by
        have hchain := h.of_cons
        rw [hdown] at hchain
        cases hchain with
        | next _ => exact ⟨_, rfl⟩
      have hsized := (sized_cons.1 (sized_cons.1 h.sized).2).2
      have hroots : ∀ a ∈ later, f.up a = none := fun a ha => h.roots a (by simp [ha])
      have htotal : totalWeight f.up (s :: c :: later) =
          weight f.up s + weight f.up c + totalWeight f.up later := by
        rw [totalWeight_cons, totalWeight_cons, Nat.add_assoc]
      obtain ⟨hne, hslater, -⟩ := h.rootChain.notMem
      rcases merge_succ semi best hdown steps with ⟨-, heq⟩ | ⟨-, f', ⟨j, heq⟩ | ⟨j, heq⟩⟩
      · rw [heq]
        exact ⟨c :: later, mergedTree_self h⟩
      · have hj := j.joined h
        have tree := hj.isTree hsized hroots fun a ha => by
          rw [← htotal]
          exact h.shallow a (by simpa using ha)
        obtain ⟨left, m⟩ := ih tree
        rw [heq]
        refine ⟨left, m.of_joined hj (List.Perm.refl _) ?_⟩
        rw [m.size_first, j.size_eq]
      · have hj := j.joined h
        have tree := hj.isTree hsized hroots fun a ha => by
          rw [Nat.add_comm (weight f.up c), ← htotal]
          refine h.shallow a ?_
          simp only [List.mem_cons]
          tauto
        obtain ⟨left, m⟩ := ih tree
        rw [heq]
        refine ⟨left, m.of_joined hj (List.Perm.swap c s later) ?_⟩
        rw [m.untouched.size_eq s (by simp [hne, hslater]), hj.size_eq s hne]

structure HungBelow (p : Fin n) (hung : List (Fin n)) (f g : BalancedLinks n) : Prop where
  down_eq : g.down = f.down
  size_eq : g.size = f.size
  up_eq : ∀ v, v ∉ hung → g.up v = f.up v
  ascent_iff : ∀ a, a ∉ p :: hung → ∀ y path, Ascent g.up y path a ↔ Ascent f.up y path a
  weight_eq : weight g.up p = weight f.up p + totalWeight f.up hung
  subtree_subset : ∀ a ∈ p :: hung, subtree f.up a ⊆ subtree g.up p
  shallow : ∀ t t', 2 * t' ≤ t → Shallow f.up p t → (∀ a ∈ hung, Shallow f.up a t') →
    Shallow g.up p t

theorem HungBelow.untouched (h : HungBelow p hung f g) : Untouched (p :: hung) f g where
  up_eq v hv := h.up_eq v fun hmem => hv (List.mem_cons_of_mem p hmem)
  down_eq v _ := congrFun h.down_eq v
  size_eq v _ := by rw [h.size_eq]
  ascent_iff := h.ascent_iff

private theorem hungBelow_nil (p : Fin n) (f : BalancedLinks n) : HungBelow p [] f f where
  down_eq := rfl
  size_eq := rfl
  up_eq _ _ := rfl
  ascent_iff _ _ _ _ := Iff.rfl
  weight_eq := rfl
  subtree_subset a ha := by rw [List.mem_singleton.1 ha]
  shallow _ _ _ h _ := h

private theorem HungBelow.cons (h : HungBelow p hung f' g)
    (hup : f'.up = Function.update f.up c (some p)) (hdown : f'.down = f.down)
    (hsize : f'.size = f.size) (hp : f.up p = none) (hc : f.up c = none)
    (hnot : p ∉ c :: hung) (hfirst : c ∉ hung) : HungBelow p (c :: hung) f g := by
  rw [List.mem_cons, not_or] at hnot
  obtain ⟨hne, hnot⟩ := hnot
  have hways : ∀ a, a ≠ p → a ≠ c → ∀ y path, Ascent f'.up y path a ↔ Ascent f.up y path a := by
    intro a hap hac y path
    rw [hup, Ascent.hang_iff hc hp hne]
    constructor
    · rintro (⟨-, way⟩ | ⟨heq, -⟩)
      · exact way
      · exact absurd heq hap
    · exact fun way => Or.inl ⟨hac, way⟩
  have first : Untouched [p, c] f f' := by
    refine ⟨fun v hv => ?_, fun v _ => by rw [hdown], fun v _ => by rw [hsize], fun a ha => ?_⟩
    · rw [hup, Function.update_of_ne fun heq => hv (by simp [heq])]
    · exact hways a (fun heq => ha (by simp [heq])) fun heq => ha (by simp [heq])
  have apart : ∀ a ∈ hung, a ∉ [p, c] := by
    intro a ha hmem
    rcases List.mem_pair.1 hmem with rfl | rfl
    · exact hnot ha
    · exact hfirst ha
  have hweight : weight f'.up p = weight f.up p + weight f.up c := by
    rw [hup, weight_hang hc hp hne]
  have hsubtree : subtree f'.up p = subtree f.up p ∪ subtree f.up c := by
    rw [hup, subtree_hang hc hp hne]
  refine ⟨h.down_eq.trans hdown, h.size_eq.trans hsize, ?_, ?_, ?_, ?_, ?_⟩
  · intro v hv
    rw [List.mem_cons, not_or] at hv
    rw [h.up_eq v hv.2, hup, Function.update_of_ne hv.1]
  · intro a ha y path
    simp only [List.mem_cons, not_or] at ha
    rw [h.ascent_iff a (by simp [ha]), hways a ha.1 ha.2.1]
  · rw [h.weight_eq, hweight, first.totalWeight_eq apart, totalWeight_cons, Nat.add_assoc]
  · have hpc : subtree f.up p ∪ subtree f.up c ⊆ subtree g.up p :=
      hsubtree ▸ h.subtree_subset p List.mem_cons_self
    intro a ha
    simp only [List.mem_cons] at ha
    rcases ha with rfl | rfl | ha
    · exact Set.subset_union_left.trans hpc
    · exact Set.subset_union_right.trans hpc
    · rw [← first.subtree_eq (apart a ha)]
      exact h.subtree_subset a (List.mem_cons_of_mem p ha)
  · intro t t' hle hs hhung
    obtain ⟨hfirst', hothers⟩ := List.forall_mem_cons.1 hhung
    refine h.shallow t t' hle ?_ fun a ha => first.shallow (apart a ha) (hothers a ha)
    rw [hup]
    exact hs.hang_smaller hc hp hne hfirst' hle

theorem hungBelow_attach {down : Fin n → Option (Fin n)} {o : Option (Fin n)} {steps : Nat}
    (hdown : f.down = down) (chain : Chain down o hung) (hsteps : hung.length ≤ steps)
    (hp : f.up p = none) (roots : ∀ a ∈ hung, f.up a = none) (hnot : p ∉ hung) :
    HungBelow p hung f (attach p steps o f) := by
  induction chain generalizing f steps with
  | done =>
    have heq : attach p steps none f = f := by cases steps <;> rfl
    rw [heq]
    exact hungBelow_nil p f
  | @next v rest h ih =>
    obtain ⟨steps, rfl⟩ : ∃ k, steps = k + 1 := ⟨steps - 1, by
      rw [List.length_cons] at hsteps
      omega⟩
    rw [List.length_cons, Nat.add_le_add_iff_right] at hsteps
    obtain ⟨hv, hrest⟩ := List.forall_mem_cons.1 roots
    have hfirst : v ∉ rest := (List.nodup_cons.1 (Chain.next h).nodup).1
    have hne := hnot
    rw [List.mem_cons, not_or] at hne
    obtain ⟨f', -, hsize', hdown', hup', heq⟩ := attach_succ p v steps f
    rw [heq, hdown]
    refine HungBelow.cons (ih (hdown'.trans hdown) hsteps ?_ ?_ hne.2) hup' hdown' hsize' hp hv
      hnot hfirst
    · rw [hup', Function.update_of_ne hne.1, hp]
    · intro a ha
      rw [hup', Function.update_of_ne (ne_of_mem_of_not_mem ha hfirst), hrest a ha]

/-- When the chain of the smaller of two trees is hung below the root of the other, or below the
root of its own, the heads kept are a tree of both. -/
theorem HungBelow.isTree (h : HungBelow p hung f g) {t k : Nat}
    (chain : Chain f.down (f.down p) kept) (roots : ∀ a ∈ p :: kept, f.up a = none)
    (sized : f.Sized kept) (apart : ∀ a ∈ kept, a ∉ p :: hung) (hnot : p ∉ hung)
    (total : weight f.up p + totalWeight f.up kept + totalWeight f.up hung = t)
    (size : f.size.get p = t) (shallow : ∀ a ∈ p :: kept, Shallow f.up a t) (half : 2 * k ≤ t)
    (lower : ∀ a ∈ hung, Shallow f.up a k) : g.IsTree (p :: kept) := by
  have htotal : totalWeight g.up (p :: kept) = t := by
    rw [totalWeight_cons, h.weight_eq, h.untouched.totalWeight_eq apart, ← total]
    omega
  refine ⟨?_, ?_, ?_, ?_⟩
  · have hchain : Chain f.down (some p) (p :: kept) := Chain.next chain
    exact hchain.congr fun a _ => congrFun h.down_eq a
  · refine List.forall_mem_cons.2 ⟨?_, fun a ha => ?_⟩
    · rw [h.up_eq p hnot, roots p List.mem_cons_self]
    · rw [h.untouched.up_eq a (apart a ha), roots a (List.mem_cons_of_mem p ha)]
  · refine sized_cons.2 ⟨?_, h.untouched.sized apart sized⟩
    rw [htotal, h.size_eq, size]
  · rw [htotal]
    obtain ⟨hp, hkept⟩ := List.forall_mem_cons.1 shallow
    refine List.forall_mem_cons.2 ⟨h.shallow t k half hp lower, fun a ha => ?_⟩
    exact h.untouched.shallow (apart a ha) (hkept a ha)

end BalancedLinks

end FlowGraph

import FlowGraph.Proofs.LinkEval.Trees
/-!
The forest balanced by size is balanced. Whatever values the calls compare, merging hangs the
lighter of two neighbouring subtrees below the heavier, and a link hangs the chain of the smaller
of two trees below its new parent. So each step that makes ways up longer doubles the weight of a
subtree or that of a tree, and no way is longer than twice the logarithm of the number of nodes.
-/

set_option autoImplicit false

namespace FlowGraph

namespace BalancedLinks

variable {n : Nat} {f f' f₂ g : BalancedLinks n} {links : Links n} {heads : Fin n → List (Fin n)}
  {p w t : Fin n} {left kept hung : List (Fin n)}

/-- A forest each tree of which is a chain of shallow subtrees with their right sizes: the root
`r` and `heads r`. -/
structure Weighed (f : BalancedLinks n) (links : Links n) (heads : Fin n → List (Fin n)) :
    Prop where
  tree : ∀ r, links r = none → f.IsTree (r :: heads r)
  apart : ∀ r s, links r = none → links s = none → ∀ a ∈ r :: heads r, a ∈ s :: heads s → r = s
  covers : ∀ y, ∃ r a, links r = none ∧ a ∈ r :: heads r ∧ y ∈ subtree f.up a

private theorem weighed_singletons (n : Nat) :
    Weighed (LinkEval.singletons n : BalancedLinks n) (fun _ => none) fun _ => [] where
  tree r _ := by
    have hup : (PathForest.singletons n).up r = none := PathForest.up_singletons r
    have hdown : (singletons n).down r = none := by simp [down, singletons]
    have hsubtree : subtree (PathForest.singletons n).up r = {r} := by
      ext y
      constructor
      · rintro ⟨path, way⟩
        exact (way.of_root (PathForest.up_singletons y)).2.symm
      · rintro rfl
        exact self_mem_subtree hup
    have hweight : weight (PathForest.singletons n).up r = 1 := by
      rw [weight, hsubtree, Set.ncard_singleton]
    refine ⟨?_, ?_, ?_, ?_⟩
    · exact Chain.next (hdown ▸ Chain.done)
    · exact List.forall_mem_singleton.2 hup
    · refine sized_cons.2 ⟨?_, sized_nil _⟩
      change (singletons n).size.get r = weight (PathForest.singletons n).up r
      rw [hweight]
      simp [singletons]
    · refine List.forall_mem_singleton.2 fun y path way => ?_
      change Ascent (PathForest.singletons n).up y path r at way
      obtain ⟨rfl, -⟩ := way.of_root (PathForest.up_singletons y)
      change 2 ^ 0 ≤ weight (PathForest.singletons n).up r * (weight _ r + 0)
      rw [hweight, Nat.add_zero]
      exact Nat.mul_pos Nat.one_pos (hweight ▸ Nat.one_pos)
  apart r s _ _ a ha ha' := by
    rw [← List.mem_singleton.1 ha, List.mem_singleton.1 ha']
  covers y := ⟨y, y, rfl, List.mem_cons_self, self_mem_subtree (PathForest.up_singletons y)⟩

namespace Weighed

theorem notMem (h : f.Weighed links heads) {r s : Fin n} (hr : links r = none)
    (hs : links s = none) (hne : r ≠ s) : ∀ a ∈ r :: heads r, a ∉ s :: heads s :=
  fun a ha ha' => hne (h.apart r s hr hs a ha ha')

private theorem unite (h : f.Weighed links heads) (hp : links p = none) (hw : links w = none)
    (hne : p ≠ w) (tree : g.IsTree (p :: kept))
    (untouched : Untouched ((p :: heads p) ++ w :: heads w) f g)
    (subset : kept ⊆ heads p ++ w :: heads w)
    (covers : ∀ a ∈ (p :: heads p) ++ w :: heads w, ∀ y ∈ subtree f.up a,
      ∃ b ∈ p :: kept, y ∈ subtree g.up b) :
    g.Weighed (Function.update links w (some p)) (Function.update heads p kept) := by
  have others : ∀ r, links r = none → r ≠ w → r ≠ p →
      ∀ a ∈ r :: heads r, a ∉ (p :: heads p) ++ w :: heads w := by
    intro r hr hrw hrp a ha hmem
    rcases List.mem_append.1 hmem with hmem | hmem
    · exact h.notMem hr hp hrp a ha hmem
    · exact h.notMem hr hw hrw a ha hmem
  -- a head of a tree was a head of it before, or it is one of the tree of `w`, now that of `p`
  have origin : ∀ r, links r = none → ∀ a ∈ r :: Function.update heads p kept r,
      a ∈ r :: heads r ∨ r = p ∧ a ∈ w :: heads w := by
    intro r _ a ha
    by_cases hrp : r = p
    · subst hrp
      rw [Function.update_self] at ha
      rcases List.mem_cons.1 ha with rfl | ha
      · exact Or.inl List.mem_cons_self
      · rcases List.mem_append.1 (subset ha) with ha | ha
        · exact Or.inl (List.mem_cons_of_mem _ ha)
        · exact Or.inr ⟨rfl, ha⟩
    · rw [Function.update_of_ne hrp] at ha
      exact Or.inl ha
  refine ⟨?_, ?_, ?_⟩
  · intro r hr
    obtain ⟨hrw, hr⟩ := Links.update_eq_none.1 hr
    by_cases hrp : r = p
    · subst hrp
      rwa [Function.update_self]
    · rw [Function.update_of_ne hrp]
      exact untouched.isTree (others r hr hrw hrp) (h.tree r hr)
  · intro r s hr hs a har has
    obtain ⟨hrw, hr⟩ := Links.update_eq_none.1 hr
    obtain ⟨hsw, hs⟩ := Links.update_eq_none.1 hs
    rcases origin r hr a har with har | ⟨hrp, har⟩ <;>
      rcases origin s hs a has with has | ⟨hsp, has⟩
    · exact h.apart r s hr hs a har has
    · exact absurd has (h.notMem hr hw hrw a har)
    · exact absurd har (h.notMem hs hw hsw a has)
    · exact hrp.trans hsp.symm
  · intro y
    obtain ⟨r, a, hr, ha, hy⟩ := h.covers y
    have hroot : Function.update links w (some p) p = none :=
      Links.update_eq_none.2 ⟨hne, hp⟩
    by_cases hmem : a ∈ (p :: heads p) ++ w :: heads w
    · obtain ⟨b, hb, hyb⟩ := covers a hmem y hy
      exact ⟨p, b, hroot, by rwa [Function.update_self], hyb⟩
    · have hrw : r ≠ w := by
        rintro rfl
        exact hmem (List.mem_append_right _ ha)
      have hrp : r ≠ p := by
        rintro rfl
        exact hmem (List.mem_append_left _ ha)
      refine ⟨r, a, Links.update_eq_none.2 ⟨hrw, hr⟩, ?_, ?_⟩
      · rwa [Function.update_of_ne hrp]
      · rwa [untouched.subtree_eq hmem]

private theorem hang (h : f.Weighed links heads) (hp : links p = none) (hw : links w = none)
    (hne : p ≠ w) (m : MergedTree w t (heads w) left f f') (hup : f₂.up = f'.up)
    (hdown : ∀ v, v ≠ p → f₂.down v = f'.down v)
    (hsize : ∀ v, v ≠ p → f₂.size.get v = f'.size.get v)
    (split : ∀ b, b ∈ kept ∨ b ∈ hung ↔ b ∈ heads p ∨ b ∈ t :: left)
    (apart : ∀ b ∈ kept, b ∉ p :: hung) (attached : HungBelow p hung f₂ g)
    (tree : g.IsTree (p :: kept)) :
    g.Weighed (Function.update links w (some p)) (Function.update heads p kept) := by
  have part : ∀ b, b ∈ kept ∨ b ∈ hung → b ∈ heads p ++ w :: heads w := by
    intro b hb
    rcases (split b).1 hb with hb | hb
    · exact List.mem_append_left _ hb
    · exact List.mem_append_right _ (m.subset hb)
  have middle : Untouched [p] f' f₂ := by
    refine ⟨fun v _ => by rw [hup], fun v hv => ?_, fun v hv => ?_, fun a _ y path => by rw [hup]⟩
    · exact hdown v fun heq => hv (by simp [heq])
    · exact hsize v fun heq => hv (by simp [heq])
  refine h.unite hp hw hne tree ?_ (fun b hb => part b (Or.inl hb)) ?_
  · refine ((m.untouched.mono ?_).trans (middle.mono ?_)).trans (attached.untouched.mono ?_)
    · exact List.subset_append_right _ _
    · simp
    · refine List.cons_subset.2 ⟨by simp, fun b hb => ?_⟩
      exact List.mem_cons_of_mem p (part b (Or.inr hb))
  · intro a ha y hy
    have before : ∃ b, b ∈ p :: heads p ++ t :: left ∧ y ∈ subtree f₂.up b := by
      rw [hup]
      rcases List.mem_append.1 ha with ha | ha
      · refine ⟨a, List.mem_append_left _ ha, ?_⟩
        rwa [m.untouched.subtree_eq (h.notMem hp hw hne a ha)]
      · obtain ⟨b, hb, hyb⟩ := m.covers a ha y hy
        exact ⟨b, List.mem_append_right _ hb, hyb⟩
    obtain ⟨b, hb, hyb⟩ := before
    rw [List.cons_append, List.mem_cons, List.mem_append, ← split] at hb
    rcases hb with rfl | hb | hb
    · exact ⟨b, List.mem_cons_self, attached.subtree_subset b List.mem_cons_self hyb⟩
    · refine ⟨b, List.mem_cons_of_mem p hb, ?_⟩
      rwa [attached.untouched.subtree_eq (apart b hb)]
    · exact ⟨p, List.mem_cons_self,
        attached.subtree_subset b (List.mem_cons_of_mem p hb) hyb⟩

private theorem link (h : f.Weighed links heads) (semi : Fin n → Nat) (hp : links p = none)
    (hw : links w = none) (hne : p ≠ w) :
    ∃ heads', (f.link semi p w).Weighed (Function.update links w (some p)) heads' := by
  obtain ⟨left, m⟩ := exists_mergedTree semi (f.label.get w) n (h.tree w hw)
  obtain ⟨f₂, -, hup, hsize, hcases⟩ := link_cases semi f hne
  generalize BalancedLinks.merge semi (f.label.get w) n w f = result at *
  obtain ⟨t, f'⟩ := result
  dsimp only at m hup hsize hcases
  have apart : ∀ a ∈ p :: heads p, a ∉ w :: heads w := h.notMem hp hw hne
  have hpw : p ∉ t :: left := fun hmem => apart p List.mem_cons_self (m.subset hmem)
  have treep : f'.IsTree (p :: heads p) := m.untouched.isTree apart (h.tree p hp)
  have treew : f'.IsTree (t :: left) := m.tree
  have hsizew : f'.size.get w = totalWeight f'.up (t :: left) := by
    rw [m.size_first, m.total, (h.tree w hw).size_eq]
  obtain ⟨hpheads, -⟩ := List.nodup_cons.1 treep.nodup
  have disjoint : ∀ b ∈ heads p, b ∉ p :: t :: left := by
    intro b hb hmem
    rcases List.mem_cons.1 hmem with rfl | hmem
    · exact hpheads hb
    · exact apart b (List.mem_cons_of_mem p hb) (m.subset hmem)
  have disjoint' : ∀ b ∈ t :: left, b ∉ p :: heads p :=
    fun b hb hmem => apart b hmem (m.subset hb)
  have hsizep : f₂.size.get p =
      totalWeight f'.up (p :: heads p) + totalWeight f'.up (t :: left) := by
    rw [hsize, Function.update_self, treep.size_eq, hsizew]
  have hsizes : ∀ v, v ≠ p → f₂.size.get v = f'.size.get v := by
    intro v hv
    rw [hsize, Function.update_of_ne hv]
  have sized : ∀ row : List (Fin n), p ∉ row → f'.Sized row → f₂.Sized row := by
    intro row hrow hs a rest ha
    rw [hup, hsizes a (ne_of_mem_of_not_mem (ha.subset List.mem_cons_self) hrow)]
    exact hs a rest ha
  have hsplit : totalWeight f'.up (p :: heads p) = weight f'.up p + totalWeight f'.up (heads p) :=
    rfl
  rcases hcases with ⟨hle, hdown, heq⟩ | ⟨hlt, hdown, heq⟩
  · rw [treep.size_eq, hsizew] at hle
    have attached : HungBelow p (t :: left) f₂ (f.link semi p w) := by
      rw [heq]
      refine hungBelow_attach hdown treew.chain treew.chain.length_le ?_ ?_ hpw
      · rw [hup, treep.roots p List.mem_cons_self]
      · rw [hup]
        exact treew.roots
    refine ⟨_, h.hang hp hw hne m hup (fun v _ => by rw [hdown]) hsizes (fun b => Iff.rfl) disjoint
      attached (attached.isTree ?_ ?_ ?_ disjoint hpw ?_ hsizep ?_
        (k := totalWeight f'.up (t :: left)) ?_ ?_)⟩
    · rw [hdown]
      exact treep.of_cons
    · rw [hup]
      exact treep.roots
    · exact sized _ hpheads (sized_cons.1 treep.sized).2
    · rw [hup, hsplit]
    · rw [hup]
      exact fun a ha => (treep.shallow a ha).mono (by omega)
    · omega
    · rw [hup]
      exact treew.shallow
  · rw [treep.size_eq, hsizew] at hlt
    have chain : Chain f₂.down (f'.down p) (heads p) :=
      treep.of_cons.congr fun a ha => by
        rw [hdown, Function.update_of_ne (ne_of_mem_of_not_mem ha hpheads)]
    have attached : HungBelow p (heads p) f₂ (f.link semi p w) := by
      rw [heq]
      refine hungBelow_attach rfl chain chain.length_le ?_ ?_ hpheads
      · rw [hup, treep.roots p List.mem_cons_self]
      · rw [hup]
        exact fun a ha => treep.roots a (List.mem_cons_of_mem p ha)
    refine ⟨_, h.hang hp hw hne m hup (fun v hv => by rw [hdown, Function.update_of_ne hv]) hsizes
      (fun b => or_comm) disjoint' attached (attached.isTree ?_ ?_ ?_ disjoint' hpheads ?_ hsizep ?_
        (k := totalWeight f'.up (p :: heads p)) ?_ ?_)⟩
    · rw [hdown, Function.update_self, ← hdown]
      refine treew.chain.congr fun a ha => ?_
      rw [hdown, Function.update_of_ne (ne_of_mem_of_not_mem ha hpw)]
    · rw [hup]
      exact List.forall_mem_cons.2 ⟨treep.roots p List.mem_cons_self, treew.roots⟩
    · exact sized _ hpw treew.sized
    · rw [hup, hsplit]
      omega
    · rw [hup]
      refine List.forall_mem_cons.2 ⟨?_, fun a ha => (treew.shallow a ha).mono (by omega)⟩
      exact (treep.shallow p List.mem_cons_self).mono (by omega)
    · omega
    · rw [hup]
      exact fun a ha => treep.shallow a (List.mem_cons_of_mem p ha)

private theorem eval (h : f.Weighed links heads) (semi : Fin n → Nat) (v : Fin n) :
    (f.eval semi v).2.Weighed links heads := by
  have ways : ∀ y, ∃ path a, Ascent f.up y path a := by
    intro y
    obtain ⟨r, a, -, -, path, way⟩ := h.covers y
    exact ⟨path, a, way⟩
  obtain ⟨path, a, way⟩ := ways v
  have flat : Flattened f.up (f.eval semi v).2.up := flattened_compress semi way
  refine ⟨fun r hr => ?_, h.apart, fun y => ?_⟩
  · have tree := h.tree r hr
    refine ⟨tree.chain, fun a ha => flat.up_eq_none (tree.roots a ha), ?_, fun a ha => ?_⟩
    · intro a rest ha
      rw [flat.totalWeight_eq ways]
      exact tree.sized a rest ha
    · rw [flat.totalWeight_eq ways]
      exact flat.shallow ways (tree.shallow a ha)
  · obtain ⟨r, a, hr, ha, hy⟩ := h.covers y
    refine ⟨r, a, hr, ha, ?_⟩
    rwa [flat.subtree_eq ways]

end Weighed

/-- The forests that links of roots below roots of other trees and queries lead to, where each
call may compare other values. -/
inductive LooseRun : BalancedLinks n → Links n → Prop
  | start : LooseRun (LinkEval.singletons n) (fun _ => none)
  | link {f : BalancedLinks n} {links : Links n} {p w : Fin n} (semi : Fin n → Nat)
      (run : LooseRun f links) (hp : links p = none) (hw : links w = none) (ne : p ≠ w) :
      LooseRun (LinkEval.link semi p w f) (Function.update links w (some p))
  | eval {f : BalancedLinks n} {links : Links n} (semi : Fin n → Nat) (v : Fin n)
      (run : LooseRun f links) : LooseRun (LinkEval.eval semi v f).2 links

theorem exists_weighed_of_looseRun (run : LooseRun f links) :
    ∃ heads, f.Weighed links heads := by
  induction run with
  | start => exact ⟨_, weighed_singletons n⟩
  | link semi _ hp hw ne ih =>
    obtain ⟨heads, h⟩ := ih
    exact h.link semi hp hw ne
  | eval semi v _ ih =>
    obtain ⟨heads, h⟩ := ih
    exact ⟨heads, h.eval semi v⟩

/-- After any run, whatever values its calls compare and whether or not it queries, every node has
a way up the ancestors to a node that has none, and the length of that way is at most twice the
logarithm of the number of nodes. -/
theorem two_pow_depth_le (run : LooseRun f links) (v : Fin n) :
    ∃ path a, Ascent f.up v path a ∧ 2 ^ path.length ≤ n ^ 2 := by
  obtain ⟨heads, h⟩ := exists_weighed_of_looseRun run
  obtain ⟨r, a, hr, ha, path, way⟩ := h.covers v
  have tree := h.tree r hr
  refine ⟨path, a, way, ?_⟩
  calc 2 ^ path.length ≤ weight f.up a * totalWeight f.up (r :: heads r) :=
        tree.shallow a ha v path way
    _ ≤ n * n := Nat.mul_le_mul (weight_le f.up a) (totalWeight_le tree.nodup)
    _ = n ^ 2 := (Nat.pow_two n).symm

theorem two_pow_depth_le_pairs :
    let flat : Fin 4 → Nat := fun _ => 0
    let rising : Fin 4 → Nat := Fin.val
    let f : BalancedLinks 4 := LinkEval.link rising 0 2 (LinkEval.eval flat 3
      (LinkEval.link flat 0 1 (LinkEval.link rising 2 3 (LinkEval.singletons 4)))).2
    let links : Links 4 := Function.update (Function.update (Function.update (fun _ => none)
      3 (some 2)) 1 (some 0)) 2 (some 0)
    LooseRun f links ∧ Ascent f.up 3 [3, 2] 0 ∧
      ∃ path a, Ascent f.up 3 path a ∧ 2 ^ path.length ≤ 4 ^ 2 := by
  intro flat rising f links
  have run : LooseRun f links :=
    (((LooseRun.start.link rising rfl rfl (by decide)).link flat (by decide) (by decide)
      (by decide)).eval flat 3).link rising (by decide) (by decide) (by decide)
  have way : Ascent f.up 3 [3, 2] 0 :=
    Ascent.step (a := 2) (by decide) (Ascent.step (a := 0) (by decide) (Ascent.root (by decide)))
  exact ⟨run, way, two_pow_depth_le run 3⟩

end BalancedLinks

end FlowGraph

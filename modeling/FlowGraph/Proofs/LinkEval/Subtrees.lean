import FlowGraph.Proofs.LinkEval.Chain
import FlowGraph.Proofs.LinkEval.Contract
/-!
The forest balanced by size answers as it should. Its subtrees are not those of the links made:
a node can stand below one that is not above it in the links, and so meet labels that say nothing
about its own way up. The invariant is on the stem of a node, its way up within its subtree with
the head, unless that is the root: the first least label there is a least node of the way up the
links. Foreign labels are kept out because labels do not increase along a chain, so that a label
merged into a subtree is greater than that of the root being linked, which then stands above it.
-/

set_option autoImplicit false

namespace FlowGraph

variable {n : Nat} {semi semi' : Fin n → Nat}

/-- A node of a list whose value no other node of the list is below. -/
def LeastOf (semi : Fin n → Nat) (u : Fin n) (path : List (Fin n)) : Prop :=
  u ∈ path ∧ ∀ y ∈ path, semi u ≤ semi y

theorem argmin_eq_some_of_lt {w : Fin n} {xs : List (Fin n)} (hw : w ∈ xs)
    (hlt : ∀ x ∈ xs, x ≠ w → semi w < semi x) : xs.argmin semi = some w := by
  cases h : xs.argmin semi with
  | none =>
    rw [List.argmin_eq_none] at h
    simp [h] at hw
  | some b =>
    have hle : semi b ≤ semi w := List.le_of_mem_argmin hw h
    by_cases hb : b = w
    · rw [hb]
    · have := hlt b (List.argmin_mem h) hb
      omega

/-- Replacing labels greater than that of `w` by others whose least is `w` gives `w`, where it is
less than the least before, and that one otherwise. -/
theorem argmin_replace {w u : Fin n} {xs ys zs : List (Fin n)}
    (hold : (xs ++ ys).argmin semi = some u) (hys : ∀ y ∈ ys, semi w < semi y)
    (hzs : zs.argmin semi = some w) : (xs ++ zs).argmin semi = some w ∧ semi w < semi u ∨
      (xs ++ zs).argmin semi = some u ∧ semi u ≤ semi w := by
  rw [argmin_append] at hold ⊢
  rw [hzs]
  cases hxs : xs.argmin semi with
  | none =>
    rw [hxs, Option.merge_none_left] at hold
    exact Or.inl ⟨rfl, hys u (List.argmin_mem hold)⟩
  | some a =>
    rw [hxs] at hold
    -- the least before is `a`, or else one of the labels replaced
    have hu : semi a ≤ semi w → u = a := by
      intro hle
      cases hy : ys.argmin semi with
      | none => simpa [hy, Option.merge, eq_comm] using hold
      | some c =>
        have hc := hys c (List.argmin_mem hy)
        have hac : ¬ semi c < semi a := by omega
        simpa [hy, Option.merge, PathForest.lesser, hac, eq_comm] using hold
    have hu' : semi w < semi a → semi w < semi u := by
      intro hlt
      cases hy : ys.argmin semi with
      | none =>
        obtain rfl : a = u := by simpa [hy, Option.merge] using hold
        exact hlt
      | some c =>
        have hc := hys c (List.argmin_mem hy)
        have hmin : PathForest.lesser semi c a = u := by simpa [hy, Option.merge] using hold
        rw [← hmin, PathForest.lesser]
        split <;> omega
    by_cases hlt : semi w < semi a
    · left
      exact ⟨congrArg some (if_pos hlt), hu' hlt⟩
    · right
      rw [hu (Nat.le_of_not_lt hlt)]
      exact ⟨congrArg some (if_neg hlt), Nat.le_of_not_lt hlt⟩

theorem LeastOf.concat {u w : Fin n} {path : List (Fin n)} (h : LeastOf semi u path)
    {o : Option (Fin n)} (ho : o = some w ∧ semi w < semi u ∨ o = some u ∧ semi u ≤ semi w) :
    ∃ u', o = some u' ∧ LeastOf semi u' (path ++ [w]) := by
  obtain ⟨hmem, hle⟩ := h
  rcases ho with ⟨rfl, hlt⟩ | ⟨rfl, hle'⟩
  · refine ⟨w, rfl, by simp, ?_⟩
    intro y hy
    rcases List.mem_append.1 hy with hy | hy
    · have := hle y hy
      omega
    · rw [List.mem_singleton.1 hy]
  · refine ⟨u, rfl, List.mem_append_left _ hmem, ?_⟩
    intro y hy
    rcases List.mem_append.1 hy with hy | hy
    · exact hle y hy
    · rw [List.mem_singleton.1 hy]
      exact hle'

namespace BalancedLinks

variable {f f' g : BalancedLinks n} {links : Links n} {heads : Fin n → List (Fin n)}

/-- The nodes of a way up a subtree that a query for its lowest node looks at, but for the root
of the tree. -/
def stem (r : Fin n) (path : List (Fin n)) (a : Fin n) : List (Fin n) :=
  if a = r then path else path ++ [a]

/-- A forest stands for the links made, when the tree of each root `r` consists of the subtrees
headed by `r` and by `heads r`. -/
structure Represents (f : BalancedLinks n) (links : Links n) (semi : Fin n → Nat)
    (heads : Fin n → List (Fin n)) : Prop where
  label_root : ∀ y, links y = none → f.label.get y = y
  label_linked : ∀ y, links y ≠ none → links (f.label.get y) ≠ none
  root_up : ∀ r, links r = none → f.up r = none
  head_up : ∀ r, links r = none → ∀ a ∈ heads r, f.up a = none
  head_way : ∀ r, links r = none → ∀ a ∈ heads r, a ≠ r ∧ ∃ path, Ascent links a path r
  ways : ∀ y, ∃ path r path' a, Ascent links y path r ∧ Ascent f.up y path' a ∧
    a ∈ r :: heads r ∧
    (y ≠ r → ∃ u, (f.labels (stem r path' a)).argmin semi = some u ∧ LeastOf semi u path)

/-- The heads besides the root are a chain that begins at the root, and their labels do not
increase. -/
structure Chained (f : BalancedLinks n) (links : Links n) (semi : Fin n → Nat)
    (heads : Fin n → List (Fin n)) : Prop extends Represents f links semi heads where
  chain : ∀ r, links r = none → Chain f.down (f.down r) (heads r)
  sorted : ∀ r, links r = none →
    (heads r).Pairwise fun a b => semi (f.label.get b) ≤ semi (f.label.get a)

namespace Represents

theorem head_linked (h : f.Represents links semi heads) {r a : Fin n} (hr : links r = none)
    (ha : a ∈ heads r) : links a ≠ none := by
  obtain ⟨hne, path, way⟩ := h.head_way r hr a ha
  exact way.linked a (way.start_mem hne)

theorem way_of_mem (h : f.Represents links semi heads) {r a : Fin n} (hr : links r = none)
    (ha : a ∈ r :: heads r) : ∃ path, Ascent links a path r := by
  rcases List.mem_cons.1 ha with rfl | ha
  · exact ⟨[], Ascent.root hr⟩
  · exact (h.head_way r hr a ha).2

theorem eq_of_mem (h : f.Represents links semi heads) {r s a : Fin n} (hr : links r = none)
    (hs : links s = none) (ha : a ∈ r :: heads r) (ha' : a ∈ s :: heads s) : r = s := by
  obtain ⟨_, way⟩ := h.way_of_mem hr ha
  obtain ⟨_, way'⟩ := h.way_of_mem hs ha'
  exact (way.unique way').2

private theorem stem_linked (h : f.Represents links semi heads) {y r a : Fin n}
    {path : List (Fin n)} (hr : links r = none) (way : Ascent f.up y path a)
    (ha : a ∈ r :: heads r) :
    ∀ x ∈ stem r path a, links x ≠ none := by
  intro x hx
  have hpath : x ∈ path → links x ≠ none := fun hx hnone => way.linked x hx (h.root_up x hnone)
  unfold stem at hx
  split at hx
  · exact hpath hx
  · rename_i hne
    rcases List.mem_append.1 hx with hx | hx
    · exact hpath hx
    · obtain rfl := List.mem_singleton.1 hx
      exact h.head_linked hr (List.mem_of_ne_of_mem hne ha)

end Represents

theorem chained_singletons (semi : Fin n → Nat) :
    Chained (LinkEval.singletons n : BalancedLinks n) (fun _ => none) semi fun _ => [] where
  label_root y _ := PathForest.label_singletons y
  label_linked y hy := absurd rfl hy
  root_up r _ := PathForest.up_singletons r
  head_up _ _ a ha := by simp at ha
  head_way _ _ a ha := by simp at ha
  ways y := ⟨[], y, [], y, Ascent.root rfl, Ascent.root (PathForest.up_singletons y),
    List.mem_cons_self, fun hne => absurd rfl hne⟩
  chain r _ := by
    have hnone : down (singletons n) r = none := by simp [down, singletons]
    change Chain (singletons n).down (down (singletons n) r) []
    rw [hnone]
    exact Chain.done
  sorted _ _ := List.Pairwise.nil

theorem Chained.revalue (h : f.Chained links semi heads)
    (keep : ∀ v, links v ≠ none → semi' v = semi v) : f.Chained links semi' heads where
  label_root := h.label_root
  label_linked := h.label_linked
  root_up := h.root_up
  head_up := h.head_up
  head_way := h.head_way
  ways y := by
    obtain ⟨path, r, path', a, way, way', ha, hleast⟩ := h.ways y
    refine ⟨path, r, path', a, way, way', ha, fun hne => ?_⟩
    obtain ⟨u, hu, hmem, hle⟩ := hleast hne
    refine ⟨u, ?_, hmem, ?_⟩
    · rw [← hu]
      apply argmin_congr_values
      intro x hx
      obtain ⟨z, hz, rfl⟩ := PathForest.mem_labels.1 hx
      exact keep _ (h.label_linked z (h.stem_linked way.top way' ha z hz))
    · intro y hy
      rw [keep u (way.linked u hmem), keep y (way.linked y hy)]
      exact hle y hy
  chain := h.chain
  sorted r hr := by
    refine (h.sorted r hr).imp_of_mem ?_
    intro a b ha hb hle
    rw [keep _ (h.label_linked b (h.head_linked hr hb)),
      keep _ (h.label_linked a (h.head_linked hr ha))]
    exact hle

theorem argmin_labels_eval (semi : Fin n → Nat) {v a : Fin n} {path : List (Fin n)}
    (way : Ascent f.up v path a) :
    (f.labels (path ++ [a])).argmin semi = some (f.eval semi v).1 := by
  have hsame := PathForest.reshaped_compress semi way
  have hlabel : (f.compress semi v).label.get a = f.label.get a := hsame.label_root a way.top
  rw [PathForest.labels_append, argmin_append]
  by_cases hne : v = a
  · subst hne
    obtain rfl := way.nil_of_self
    have hnone : (f.compress semi v).ancestor.get v = none := (hsame.root_iff v).2 way.top
    simp only [eval, hnone, Option.getD_none, hlabel, PathForest.labels_nil,
      PathForest.labels_cons, List.argmin_nil, Option.merge_none_left, List.argmin_singleton,
      PathForest.lesser, lt_irrefl, if_false]
  · have hsome : (f.compress semi v).ancestor.get v = some a := PathForest.up_compress semi way hne
    rw [PathForest.argmin_labels_compress semi way hne]
    simp only [eval, hsome, Option.getD_some, hlabel, PathForest.labels_nil,
      PathForest.labels_cons, List.argmin_singleton, Option.merge]

theorem Chained.eval (h : f.Chained links semi heads) (v : Fin n) :
    (f.eval semi v).2.Chained links semi heads := by
  obtain ⟨_, _, path, a, _, way, _, _⟩ := h.ways v
  have hsame := PathForest.reshaped_compress semi way
  have hlabel : ∀ r, links r = none → ∀ b ∈ r :: heads r,
      (f.compress semi v).label.get b = f.label.get b := by
    intro r hr b hb
    apply hsame.label_root
    rcases List.mem_cons.1 hb with rfl | hb
    · exact h.root_up b hr
    · exact h.head_up r hr b hb
  refine ⟨⟨?_, ?_, ?_, ?_, h.head_way, ?_⟩, h.chain, ?_⟩
  · intro y hy
    exact (hlabel y hy y List.mem_cons_self).trans (h.label_root y hy)
  · intro y hy
    change links ((f.compress semi v).label.get y) ≠ none
    by_cases hup : f.up y = none
    · rw [hsame.label_root y hup]
      exact h.label_linked y hy
    · obtain ⟨z, hz, heq⟩ := hsame.label_old y hup
      rw [heq]
      exact h.label_linked z (mt (h.root_up z) hz)
  · exact fun r hr => (hsame.root_iff r).2 (h.root_up r hr)
  · exact fun r hr b hb => (hsame.root_iff b).2 (h.head_up r hr b hb)
  · intro y
    obtain ⟨path, r, path', b, way, way', hb, hleast⟩ := h.ways y
    obtain ⟨path'', way'', hmin⟩ := hsame.ascent way'
    refine ⟨path, r, path'', b, way, way'', hb, fun hne => ?_⟩
    obtain ⟨u, hu, hle⟩ := hleast hne
    refine ⟨u, ?_, hle⟩
    rw [← hu]
    change ((f.compress semi v).labels _).argmin semi = _
    unfold stem
    split
    · exact hmin
    · have hhead : (f.compress semi v).labels [b] = f.labels [b] :=
        congrArg (· :: []) (hlabel r way.top b hb)
      rw [PathForest.labels_append, PathForest.labels_append, argmin_append, argmin_append, hmin,
        hhead]
  · intro r hr
    refine (h.sorted r hr).imp_of_mem ?_
    intro x y hx hy hle
    change semi ((f.compress semi v).label.get y) ≤ semi ((f.compress semi v).label.get x)
    rw [hlabel r hr x (List.mem_cons_of_mem _ hx), hlabel r hr y (List.mem_cons_of_mem _ hy)]
    exact hle

/-- The answer to a root is the root; any other answer is a least node of the way up without the
root, or the root if its value is less than all of those. -/
theorem Represents.eval_spec (h : f.Represents links semi heads) {v r : Fin n}
    {path : List (Fin n)} (way : Ascent links v path r) :
    (v = r → (f.eval semi v).1 = v) ∧
      (v ≠ r → LeastOf semi (f.eval semi v).1 path ∨
        (f.eval semi v).1 = r ∧ ∀ y ∈ path, semi r < semi y) := by
  obtain ⟨path₁, r₁, path', a, hway, way', ha, hleast⟩ := h.ways v
  obtain ⟨rfl, rfl⟩ := way.unique hway
  have hmin := argmin_labels_eval semi way'
  constructor
  · rintro rfl
    obtain ⟨rfl, rfl⟩ := way'.of_root (h.root_up v way.top)
    rw [List.nil_append, PathForest.labels_cons, h.label_root a way.top] at hmin
    exact (Option.some.inj hmin).symm
  · intro hne
    obtain ⟨u, hu, hmem, hle⟩ := hleast hne
    unfold stem at hu
    split at hu
    · -- the head is the root, whose own value joins in
      rename_i har
      rw [PathForest.labels_append, argmin_append, hu, har, PathForest.labels_cons,
        h.label_root r way.top] at hmin
      have hlesser : PathForest.lesser semi r u = (f.eval semi v).1 := Option.some.inj hmin
      rw [← hlesser, PathForest.lesser]
      split
      · rename_i hlt
        exact Or.inr ⟨rfl, fun y hy => Nat.lt_of_lt_of_le hlt (hle y hy)⟩
      · exact Or.inl ⟨hmem, hle⟩
    · obtain rfl := Option.some.inj (hu.symm.trans hmin)
      exact Or.inl ⟨hmem, hle⟩

end BalancedLinks

end FlowGraph

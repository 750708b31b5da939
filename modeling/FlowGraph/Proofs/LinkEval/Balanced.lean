import FlowGraph.Proofs.LinkEval.Subtrees
import Mathlib.Data.Fin.VecNotation
/-!
Links of the forest balanced by size. A link first merges subtrees of the root it hangs up, so
that the chain can be followed by others, and then hangs one of two chains directly below the
parent. Both steps keep the invariant of subtrees, and with it every legal run has it.
-/

set_option autoImplicit false

namespace FlowGraph

namespace BalancedLinks

variable {n : Nat} {semi : Fin n → Nat} {f f' g : BalancedLinks n} {links : Links n}
  {heads : Fin n → List (Fin n)} {p w t : Fin n} {merged hung left : List (Fin n)}

/-- The heads `hung` of the tree of `p` are hung directly below `p`; those left are heads as
before. -/
structure Attached (f f' : BalancedLinks n) (heads : Fin n → List (Fin n)) (p : Fin n)
    (hung left : List (Fin n)) : Prop where
  mem_heads : ∀ a, a ∈ heads p ↔ a ∈ hung ∨ a ∈ left
  disjoint : hung.Disjoint left
  label_eq : f'.label = f.label
  up_eq : ∀ v, f'.up v = if v ∈ hung then some p else f.up v

namespace Attached

private theorem up_of_notMem (m : Attached f f' heads p hung left) {v : Fin n} (hv : v ∉ hung) :
    f'.up v = f.up v := by
  rw [m.up_eq, if_neg hv]

private theorem labels_eq (m : Attached f f' heads p hung left) (xs : List (Fin n)) :
    f'.labels xs = f.labels xs := by
  rw [PathForest.labels, PathForest.labels, m.label_eq]

private theorem head_of_hung (m : Attached f f' heads p hung left) {a : Fin n} (ha : a ∈ hung) :
    a ∈ heads p :=
  (m.mem_heads a).2 (Or.inl ha)

private theorem mem_update (m : Attached f f' heads p hung left) {r a : Fin n} :
    a ∈ Function.update heads p left r ↔ a ∈ heads r ∧ (r = p → a ∉ hung) := by
  by_cases hr : r = p
  · subst hr
    rw [Function.update_self, m.mem_heads]
    constructor
    · exact fun ha => ⟨Or.inr ha, fun _ hhung => m.disjoint hhung ha⟩
    · exact fun ⟨ha, hnot⟩ => ha.resolve_left (hnot rfl)
  · rw [Function.update_of_ne hr]
    exact ⟨fun ha => ⟨ha, fun heq => absurd heq hr⟩, And.left⟩

private theorem root_notMem (m : Attached f f' heads p hung left)
    (h : f.Represents links semi heads) (hp : links p = none) {r : Fin n} (hr : links r = none) :
    r ∉ hung :=
  fun hhung => h.head_linked hp (m.head_of_hung hhung) hr

private theorem head_notMem (m : Attached f f' heads p hung left)
    (h : f.Represents links semi heads) (hp : links p = none) {r a : Fin n}
    (hr : links r = none) (ha : a ∈ Function.update heads p left r) : a ∉ hung := by
  intro hhung
  obtain ⟨har, hnot⟩ := m.mem_update.1 ha
  have hrp : r = p := h.eq_of_mem hr hp (List.mem_cons_of_mem _ har)
    (List.mem_cons_of_mem _ (m.head_of_hung hhung))
  exact hnot hrp hhung

private theorem up_of_way (m : Attached f f' heads p hung left) (h : f.Represents links semi heads)
    (hp : links p = none) {y a : Fin n} {path : List (Fin n)} (way : Ascent f.up y path a) :
    ∀ x ∈ path, f'.up x = f.up x := by
  intro x hx
  refine m.up_of_notMem fun hhung => way.linked x hx ?_
  exact h.head_up p hp x (m.head_of_hung hhung)

private theorem exists_way_of_hung (m : Attached f f' heads p hung left)
    (h : f.Represents links semi heads) (hp : links p = none) {y a : Fin n}
    {path : List (Fin n)} (way : Ascent f.up y path a) (ha : a ∈ hung) :
    ∃ path', Ascent f'.up y path' p ∧ f'.labels (stem p path' p) = f.labels (stem p path a) := by
  have hne : a ≠ p := (h.head_way p hp a (m.head_of_hung ha)).1
  have hup : f'.up a = some p := by rw [m.up_eq, if_pos ha]
  have htop : f'.up p = none := by rw [m.up_of_notMem (m.root_notMem h hp hp), h.root_up p hp]
  refine ⟨path ++ [a], ?_, ?_⟩
  · exact way.append (m.up_of_way h hp way) (Ascent.step hup (Ascent.root htop))
  · rw [m.labels_eq, stem, if_pos rfl, stem, if_neg hne]

end Attached

private theorem Represents.attach (h : f.Represents links semi heads) (hp : links p = none)
    (m : Attached f f' heads p hung left) :
    f'.Represents links semi (Function.update heads p left) := by
  refine ⟨?_, ?_, ?_, ?_, ?_, ?_⟩
  · rw [m.label_eq]
    exact h.label_root
  · rw [m.label_eq]
    exact h.label_linked
  · intro r hr
    rw [m.up_of_notMem (m.root_notMem h hp hr), h.root_up r hr]
  · intro r hr a ha
    rw [m.up_of_notMem (m.head_notMem h hp hr ha), h.head_up r hr a (m.mem_update.1 ha).1]
  · exact fun r hr a ha => h.head_way r hr a (m.mem_update.1 ha).1
  · intro y
    obtain ⟨path, r, path', a, way, way', ha, hleast⟩ := h.ways y
    by_cases hhung : a ∈ hung
    · obtain rfl := h.eq_of_mem way.top hp ha (List.mem_cons_of_mem _ (m.head_of_hung hhung))
      obtain ⟨path'', way'', hlabels⟩ := m.exists_way_of_hung h hp way' hhung
      exact ⟨path, r, path'', r, way, way'', List.mem_cons_self, hlabels ▸ hleast⟩
    · refine ⟨path, r, path', a, way, way'.congr (m.up_of_way h hp way') ?_, ?_, ?_⟩
      · rw [m.up_of_notMem hhung, way'.top]
      · rcases List.mem_cons.1 ha with rfl | ha
        · exact List.mem_cons_self
        · exact List.mem_cons_of_mem _ (m.mem_update.2 ⟨ha, fun _ => hhung⟩)
      · rw [m.labels_eq]
        exact hleast

/-- What becomes of the tree of a root `w` before its heads are attached: the front of its chain
is one subtree headed by `t`, whose label is `w`; the labels left are not greater than `w`. -/
structure Fused (f f' : BalancedLinks n) (links : Links n) (semi : Fin n → Nat)
    (heads : Fin n → List (Fin n)) (w t : Fin n) (merged left : List (Fin n)) : Prop where
  root : links w = none
  heads_eq : heads w = merged ++ left
  nodup : (heads w).Nodup
  gt : ∀ c ∈ merged, semi w < semi (f.label.get c)
  le : ∀ c ∈ left, semi (f.label.get c) ≤ semi w
  head_mem : t ∈ w :: merged
  head_up : f'.up t = none
  ways : ∀ c ∈ w :: merged, ∃ path, Ascent f'.up c path t ∧ ∀ y ∈ path, y ∈ w :: merged
  up_other : ∀ v, v ∉ w :: merged → f'.up v = f.up v
  label_eq : ∀ y : Fin n, f'.label.get y = if y = t then w else f.label.get y

namespace Fused

private theorem mem_heads (m : Fused f f' links semi heads w t merged left) {x : Fin n}
    (hx : x ∈ w :: merged) : x ∈ w :: heads w := by
  rw [m.heads_eq]
  exact List.cons_subset_cons w (List.subset_append_left merged left) hx

private theorem left_notMem (m : Fused f f' links semi heads w t merged left)
    (h : f.Represents links semi heads) {x : Fin n} (hx : x ∈ left) : x ∉ w :: merged := by
  have hxw : x ∈ heads w := m.heads_eq ▸ List.mem_append_right merged hx
  have hnodup := m.nodup
  rw [m.heads_eq] at hnodup
  intro hmem
  rcases List.mem_cons.1 hmem with rfl | hmem
  · exact (h.head_way x m.root x hxw).1 rfl
  · exact (List.nodup_append.1 hnodup).2.2 x hmem x hx rfl

private theorem ne_head (m : Fused f f' links semi heads w t merged left) {x : Fin n}
    (hx : x ∉ w :: merged) : x ≠ t :=
  (ne_of_mem_of_not_mem m.head_mem hx).symm

private theorem other_notMem (m : Fused f f' links semi heads w t merged left)
    (h : f.Represents links semi heads) {r x : Fin n} (hr : links r = none) (hrw : r ≠ w)
    (hx : x ∈ r :: heads r) : x ∉ w :: merged :=
  fun hmem => hrw (h.eq_of_mem hr m.root hx (m.mem_heads hmem))

private theorem linked_notMem (m : Fused f f' links semi heads w t merged left)
    (h : f.Represents links semi heads) {x : Fin n} (hx : f.up x ≠ none) : x ∉ w :: merged := by
  intro hmem
  rcases List.mem_cons.1 (m.mem_heads hmem) with rfl | hmem
  · exact hx (h.root_up x m.root)
  · exact hx (h.head_up w m.root x hmem)

private theorem up_of_way (m : Fused f f' links semi heads w t merged left)
    (h : f.Represents links semi heads) {y a : Fin n} {path : List (Fin n)}
    (way : Ascent f.up y path a) : ∀ x ∈ path, f'.up x = f.up x :=
  fun x hx => m.up_other x (m.linked_notMem h (way.linked x hx))

private theorem labels_of_way (m : Fused f f' links semi heads w t merged left)
    (h : f.Represents links semi heads) {y a : Fin n} {path : List (Fin n)}
    (way : Ascent f.up y path a) : f'.labels path = f.labels path := by
  apply PathForest.labels_congr
  intro x hx
  rw [m.label_eq, if_neg (m.ne_head (m.linked_notMem h (way.linked x hx)))]

private theorem labels_stem (m : Fused f f' links semi heads w t merged left)
    (h : f.Represents links semi heads) {y r a : Fin n} {path : List (Fin n)}
    (way : Ascent f.up y path a) (ha : a ∉ w :: merged) :
    f'.labels (stem r path a) = f.labels (stem r path a) := by
  unfold stem
  split
  · exact m.labels_of_way h way
  · rw [PathForest.labels_append, PathForest.labels_append, m.labels_of_way h way,
      PathForest.labels_cons, PathForest.labels_cons, m.label_eq, if_neg (m.ne_head ha)]
    rfl

private theorem argmin_labels (m : Fused f f' links semi heads w t merged left)
    (h : f.Represents links semi heads) {path : List (Fin n)}
    (hpath : ∀ y ∈ path, y ∈ w :: merged) :
    (f'.labels (path ++ [t])).argmin semi = some w := by
  apply argmin_eq_some_of_lt
  · refine PathForest.mem_labels.2 ⟨t, by simp, ?_⟩
    rw [m.label_eq, if_pos rfl]
  · intro x hx hne
    obtain ⟨y, hy, rfl⟩ := PathForest.mem_labels.1 hx
    rw [m.label_eq] at hne ⊢
    split at hne
    · exact absurd rfl hne
    · rename_i hyt
      have hy' : y ∈ w :: merged := by
        rcases List.mem_append.1 hy with hy | hy
        · exact hpath y hy
        · exact absurd (List.mem_singleton.1 hy) hyt
      rcases List.mem_cons.1 hy' with rfl | hy'
      · exact absurd (h.label_root y m.root) hne
      · rw [if_neg hyt]
        exact m.gt y hy'

private theorem exists_way_of_merged (m : Fused f f' links semi heads w t merged left)
    (h : f.Represents links semi heads) {y a : Fin n} {path path' : List (Fin n)}
    (way : Ascent links y path w) (way' : Ascent f.up y path' a) (ha : a ∈ w :: merged)
    (hleast : y ≠ w → ∃ u, (f.labels (stem w path' a)).argmin semi = some u ∧
      LeastOf semi u path) :
    ∃ path'', Ascent f'.up y path'' t ∧
      ∃ u, (f'.labels (path'' ++ [t])).argmin semi = some u ∧ LeastOf semi u (path ++ [w]) := by
  obtain ⟨above, hway', habove⟩ := m.ways a ha
  have hmin := m.argmin_labels h habove
  refine ⟨path' ++ above, way'.append (m.up_of_way h way') hway', ?_⟩
  rw [List.append_assoc, PathForest.labels_append, m.labels_of_way h way']
  by_cases hyw : y = w
  · subst hyw
    obtain ⟨rfl, rfl⟩ := way'.of_root (h.root_up y m.root)
    obtain rfl := way.nil_of_self
    exact ⟨a, by simpa using hmin, by simp [LeastOf]⟩
  · -- labels greater than that of `w` are replaced by others whose least is `w`
    obtain ⟨u, hu, hle⟩ := hleast hyw
    apply hle.concat
    have hold : (f.labels path' ++ f.labels (if a = w then [] else [a])).argmin semi =
        some u := by
      rw [← hu, ← PathForest.labels_append, stem]
      split <;> simp
    refine (argmin_replace hold ?_ hmin).imp id id
    intro x hx
    obtain ⟨z, hz, rfl⟩ := PathForest.mem_labels.1 hx
    split at hz
    · simp at hz
    · rename_i haw
      obtain rfl := List.mem_singleton.1 hz
      exact m.gt z (List.mem_of_ne_of_mem haw ha)

private theorem exists_way_of_left (m : Fused f f' links semi heads w t merged left)
    (h : f.Represents links semi heads) {y a : Fin n} {path path' : List (Fin n)}
    (way' : Ascent f.up y path' a) (ha : a ∈ left)
    (hleast : y ≠ w → ∃ u, (f.labels (stem w path' a)).argmin semi = some u ∧
      LeastOf semi u path) :
    Ascent f'.up y path' a ∧
      ∃ u, (f'.labels (path' ++ [a])).argmin semi = some u ∧ LeastOf semi u (path ++ [w]) := by
  have hnot : a ∉ w :: merged := m.left_notMem h ha
  have haw : a ≠ w := fun heq => hnot (heq ▸ List.mem_cons_self)
  have hyw : y ≠ w := by
    rintro rfl
    obtain ⟨-, rfl⟩ := way'.of_root (h.root_up y m.root)
    exact haw rfl
  constructor
  · apply way'.congr (m.up_of_way h way')
    rw [m.up_other a hnot, way'.top]
  · obtain ⟨u, hu, hle⟩ := hleast hyw
    have hlabels := m.labels_stem h (r := w) way' hnot
    rw [stem, if_neg haw] at hlabels hu
    have hlast : semi u ≤ semi (f.label.get a) :=
      List.le_of_mem_argmin (PathForest.mem_labels.2 ⟨a, by simp, rfl⟩) hu
    apply hle.concat
    rw [hlabels, hu]
    exact Or.inr ⟨rfl, hlast.trans (m.le a ha)⟩

private theorem exists_way (m : Fused f f' links semi heads w t merged left)
    (h : f.Represents links semi heads) {y : Fin n} {path : List (Fin n)}
    (way : Ascent links y path w) : ∃ path' a, Ascent f'.up y path' a ∧ a ∈ t :: left ∧
      ∃ u, (f'.labels (path' ++ [a])).argmin semi = some u ∧ LeastOf semi u (path ++ [w]) := by
  obtain ⟨path₁, r₁, path', a, hway, way', ha, hleast⟩ := h.ways y
  obtain ⟨rfl, rfl⟩ := way.unique hway
  rw [m.heads_eq, ← List.cons_append] at ha
  rcases List.mem_append.1 ha with ha | ha
  · obtain ⟨path'', way'', hleast'⟩ := m.exists_way_of_merged h way way' ha hleast
    exact ⟨path'', t, way'', List.mem_cons_self, hleast'⟩
  · obtain ⟨way'', hleast'⟩ := m.exists_way_of_left h way' ha hleast
    exact ⟨path', a, way'', List.mem_cons_of_mem _ ha, hleast'⟩

private theorem way_of_mem (m : Fused f f' links semi heads w t merged left)
    (h : f.Represents links semi heads) {a : Fin n} (ha : a ∈ t :: left) :
    ∃ path, Ascent links a path w := by
  apply h.way_of_mem m.root
  rcases List.mem_cons.1 ha with rfl | ha
  · exact m.mem_heads m.head_mem
  · exact List.mem_cons_of_mem _ (m.heads_eq ▸ List.mem_append_right merged ha)

theorem ne_of_mem (m : Fused f f' links semi heads w t merged left)
    (h : f.Represents links semi heads) (hp : links p = none) (hne : p ≠ w) {a : Fin n}
    (ha : a ∈ t :: left) : a ≠ p := by
  rintro rfl
  obtain ⟨path, way⟩ := m.way_of_mem h ha
  exact hne (way.of_root hp).2.symm

theorem up_eq_none (m : Fused f f' links semi heads w t merged left)
    (h : f.Represents links semi heads) {a : Fin n} (ha : a ∈ t :: left) : f'.up a = none := by
  rcases List.mem_cons.1 ha with rfl | ha
  · exact m.head_up
  · rw [m.up_other a (m.left_notMem h ha)]
    exact h.head_up w m.root a (m.heads_eq ▸ List.mem_append_right merged ha)

theorem up_of_other (m : Fused f f' links semi heads w t merged left)
    (h : f.Represents links semi heads) {r a : Fin n} (hr : links r = none) (hrw : r ≠ w)
    (ha : a ∈ r :: heads r) : f'.up a = none := by
  rw [m.up_other a (m.other_notMem h hr hrw ha)]
  rcases List.mem_cons.1 ha with rfl | ha
  · exact h.root_up a hr
  · exact h.head_up r hr a ha

end Fused

private theorem mem_update_append {x r : Fin n} :
    x ∈ Function.update heads p (heads p ++ t :: left) r ↔
      x ∈ heads r ∨ r = p ∧ x ∈ t :: left := by
  by_cases hr : r = p
  · subst hr
    rw [Function.update_self, List.mem_append, and_iff_right rfl]
  · rw [Function.update_of_ne hr]
    exact (or_iff_left fun hx => hr hx.1).symm

/-- When the chain of a root is fused, the root can count as linked below another one, whose tree
then has the subtrees of both. -/
private theorem Represents.fuse (h : f.Represents links semi heads)
    (m : Fused f f' links semi heads w t merged left) (hp : links p = none) (hne : p ≠ w) :
    f'.Represents (Function.update links w (some p)) semi
      (Function.update heads p (heads p ++ t :: left)) := by
  refine ⟨?_, ?_, ?_, ?_, ?_, ?_⟩
  · intro y hy
    obtain ⟨hyw, hy⟩ := Links.update_eq_none.1 hy
    have hnot := m.other_notMem h hy hyw List.mem_cons_self
    rw [m.label_eq, if_neg (m.ne_head hnot), h.label_root y hy]
  · intro y hy hlabel
    obtain ⟨hlw, hlabel⟩ := Links.update_eq_none.1 hlabel
    rw [m.label_eq] at hlw hlabel
    split at hlw
    · exact hlw rfl
    · rename_i hyt
      rw [if_neg hyt] at hlabel
      have hroot : links y = none := by_contra fun hy' => h.label_linked y hy' hlabel
      rw [h.label_root y hroot] at hlw
      exact hy (Links.update_eq_none.2 ⟨hlw, hroot⟩)
  · intro r hr
    obtain ⟨hrw, hr⟩ := Links.update_eq_none.1 hr
    exact m.up_of_other h hr hrw List.mem_cons_self
  · intro r hr a ha
    obtain ⟨hrw, hr⟩ := Links.update_eq_none.1 hr
    rcases mem_update_append.1 ha with ha | ⟨-, ha⟩
    · exact m.up_of_other h hr hrw (List.mem_cons_of_mem _ ha)
    · exact m.up_eq_none h ha
  · intro r hr a ha
    obtain ⟨hrw, hr⟩ := Links.update_eq_none.1 hr
    rcases mem_update_append.1 ha with hold | ⟨rfl, hnew⟩
    · obtain ⟨har, path, way⟩ := h.head_way r hr a hold
      exact ⟨har, path, way.update_of_ne m.root hrw⟩
    · obtain ⟨path, way⟩ := m.way_of_mem h hnew
      exact ⟨m.ne_of_mem h hp hne hnew, _, way.update_self (Ascent.root hp) hne⟩
  · intro y
    obtain ⟨path, r, path', a, way, way', ha, hleast⟩ := h.ways y
    by_cases hrw : r = w
    · subst hrw
      obtain ⟨path'', b, way'', hb, hleast'⟩ := m.exists_way h way
      refine ⟨path ++ [r], p, path'', b, way.update_self (Ascent.root hp) hne, way'', ?_, ?_⟩
      · exact List.mem_cons_of_mem _ (mem_update_append.2 (Or.inr ⟨rfl, hb⟩))
      · intro _
        rwa [stem, if_neg (m.ne_of_mem h hp hne hb)]
    · have hnot := m.other_notMem h way.top hrw ha
      refine ⟨path, r, path', a, way.update_of_ne m.root hrw,
        way'.congr (m.up_of_way h way') (m.up_of_other h way.top hrw ha), ?_, ?_⟩
      · rcases List.mem_cons.1 ha with rfl | ha
        · exact List.mem_cons_self
        · exact List.mem_cons_of_mem _ (mem_update_append.2 (Or.inl ha))
      · rw [m.labels_stem h way' hnot]
        exact hleast

theorem link_cases (semi : Fin n → Nat) (f : BalancedLinks n) {p w : Fin n} (hne : p ≠ w) :
    ∃ f₂ : BalancedLinks n,
      let m := BalancedLinks.merge semi (f.label.get w) n w f
      (∀ y : Fin n, f₂.label.get y = if y = m.1 then f.label.get w else m.2.label.get y) ∧
      f₂.up = m.2.up ∧
      f₂.size.get = Function.update m.2.size.get p (m.2.size.get p + m.2.size.get w) ∧
      ((m.2.size.get w ≤ m.2.size.get p ∧ f₂.down = m.2.down ∧
          f.link semi p w = attach p n (some m.1) f₂) ∨
        (m.2.size.get p < m.2.size.get w ∧ f₂.down = Function.update m.2.down p (some m.1) ∧
          f.link semi p w = attach p n (m.2.down p) f₂)) := by
  have hlabel : ∀ (m : Fin n × BalancedLinks n) (y : Fin n),
      (m.2.label.set m.1 (f.label.get w) m.1.isLt).get y =
        if y = m.1 then f.label.get w else m.2.label.get y := by
    intro m y
    rw [get_set]
  have hsize : ∀ m : BalancedLinks n, (m.size.set p (m.size.get p + m.size.get w) p.isLt).get =
      Function.update m.size.get p (m.size.get p + m.size.get w) := by
    intro m
    funext y
    rw [get_set, Function.update_apply]
  simp only [link, get_set, if_neg hne.symm, if_true]
  split
  · rename_i hlt
    refine ⟨_, ?_, ?_, ?_, Or.inr ⟨by omega, ?_, rfl⟩⟩
    · exact hlabel _
    · rfl
    · exact hsize _
    · exact funext fun y => get_set_child _ p y _
  · rename_i hle
    refine ⟨_, ?_, ?_, ?_, Or.inl ⟨by omega, ?_, rfl⟩⟩
    · exact hlabel _
    · rfl
    · exact hsize _
    · rfl

private theorem fused_of_merged (h : f.Chained links semi heads) (hw : links w = none)
    (hheads : heads w = merged ++ left) (hgt : ∀ c ∈ merged, semi w < semi (f.label.get c))
    (hle : ∀ c ∈ left.head?, semi (f.label.get c) ≤ semi w) (hmerged : Merged w t merged left f g)
    (hlabel : ∀ y : Fin n, f'.label.get y = if y = t then w else g.label.get y)
    (hup : f'.up = g.up) :
    Fused f f' links semi heads w t merged left where
  root := hw
  heads_eq := hheads
  nodup := (h.chain w hw).nodup
  gt := hgt
  le := by
    have hsorted := h.sorted w hw
    rw [hheads] at hsorted
    have hleft := (List.pairwise_append.1 hsorted).2.1
    cases left with
    | nil => simp
    | cons c rest =>
      have hc : semi (f.label.get c) ≤ semi w := hle c rfl
      intro x hx
      rcases List.mem_cons.1 hx with rfl | hx
      · exact hc
      · exact ((List.pairwise_cons.1 hleft).1 x hx).trans hc
  head_mem := hmerged.head_mem
  head_up := hup ▸ hmerged.head_up
  ways := hup ▸ hmerged.ways
  up_other := hup ▸ hmerged.up_other
  label_eq y := by rw [hlabel, hmerged.label_eq]

private theorem chained_update {tail : List (Fin n)}
    (hrep : f.Represents links semi (Function.update heads p tail))
    (hchain : Chain f.down (f.down p) tail)
    (hsorted : tail.Pairwise fun a b => semi (f.label.get b) ≤ semi (f.label.get a))
    (hother : ∀ r, links r = none → r ≠ p → Chain f.down (f.down r) (heads r) ∧
      (heads r).Pairwise fun a b => semi (f.label.get b) ≤ semi (f.label.get a)) :
    f.Chained links semi (Function.update heads p tail) := by
  refine ⟨hrep, ?_, ?_⟩
  · intro r hr
    by_cases hrp : r = p
    · subst hrp
      rwa [Function.update_self]
    · rw [Function.update_of_ne hrp]
      exact (hother r hr hrp).1
  · intro r hr
    by_cases hrp : r = p
    · subst hrp
      rwa [Function.update_self]
    · rw [Function.update_of_ne hrp]
      exact (hother r hr hrp).2

namespace Fused

private theorem chained_other (m : Fused f f' links semi heads w t merged left)
    (h : f.Chained links semi heads)
    (hdown : ∀ v, v ∉ w :: merged → g.down v = f.down v) {r : Fin n} (hr : links r = none)
    (hrw : r ≠ w) : Chain g.down (g.down r) (heads r) ∧
      (heads r).Pairwise fun a b => semi (f'.label.get b) ≤ semi (f'.label.get a) := by
  have hnot : ∀ x ∈ r :: heads r, x ∉ w :: merged := fun x => m.other_notMem h.1 hr hrw
  constructor
  · rw [hdown r (hnot r List.mem_cons_self)]
    exact (h.chain r hr).congr fun x hx => hdown x (hnot x (List.mem_cons_of_mem _ hx))
  · refine (h.sorted r hr).imp_of_mem fun {a b} ha hb hab => ?_
    rwa [m.label_eq, if_neg (m.ne_head (hnot b (List.mem_cons_of_mem _ hb))), m.label_eq,
      if_neg (m.ne_head (hnot a (List.mem_cons_of_mem _ ha)))]

private theorem sorted_new (m : Fused f f' links semi heads w t merged left)
    (h : f.Chained links semi heads) :
    (t :: left).Pairwise fun a b => semi (f'.label.get b) ≤ semi (f'.label.get a) := by
  have hold := h.sorted w m.root
  rw [m.heads_eq] at hold
  have hlabels : ∀ x ∈ left, f'.label.get x = f.label.get x := fun x hx => by
    rw [m.label_eq, if_neg (m.ne_head (m.left_notMem h.1 hx))]
  refine List.pairwise_cons.2 ⟨fun x hx => ?_, ?_⟩
  · rw [hlabels x hx, m.label_eq, if_pos rfl]
    exact m.le x hx
  · refine (List.pairwise_append.1 hold).2.1.imp_of_mem fun {a b} ha hb hab => ?_
    rwa [hlabels a ha, hlabels b hb]

private theorem new_notMem (m : Fused f f' links semi heads w t merged left)
    (h : f.Represents links semi heads) (hp : links p = none) (hne : p ≠ w) {x : Fin n}
    (hx : x ∈ t :: left) : x ∉ p :: heads p := by
  intro hmem
  obtain ⟨path, way⟩ := m.way_of_mem h hx
  obtain ⟨path', way'⟩ := h.way_of_mem hp hmem
  exact hne (way'.unique way).2

private theorem chained_attach_new (m : Fused f f' links semi heads w t merged left)
    (h : f.Chained links semi heads) (hp : links p = none) (hne : p ≠ w)
    (hother : ∀ v, v ∉ w :: merged → g.down v = f.down v) (hnew : Chain g.down (some t) (t :: left))
    (hdown : f'.down = g.down) :
    (attach p n (some t) f').Chained (Function.update links w (some p)) semi
      (Function.update heads p (heads p)) := by
  obtain ⟨hlabel', hdown', hup'⟩ := attach_spec (p := p) hdown hnew hnew.length_le
  have hold := fun {r : Fin n} => m.chained_other h (r := r) hother
  have hattach := (h.toRepresents.fuse m hp hne).attach (Links.update_eq_none.2 ⟨hne, hp⟩)
    ⟨fun a => by rw [Function.update_self, List.mem_append, or_comm],
      fun x hx hxp => m.new_notMem h.1 hp hne hx (List.mem_cons_of_mem _ hxp), hlabel', hup'⟩
  rw [Function.update_idem] at hattach
  refine chained_update hattach ?_ ?_ ?_
  · rw [hdown', hdown]
    exact (hold hp hne).1
  · rw [hlabel']
    exact (hold hp hne).2
  · intro r hr _
    obtain ⟨hrw, hr⟩ := Links.update_eq_none.1 hr
    rw [hdown', hdown, hlabel']
    exact hold hr hrw

theorem chain_old (m : Fused f f' links semi heads w t merged left)
    (h : f.Chained links semi heads) (hp : links p = none) (hne : p ≠ w)
    (hother : ∀ v, v ∉ w :: merged → g.down v = f.down v)
    {down : Fin n → Option (Fin n)} (hdown : down = Function.update g.down p (some t)) :
    Chain down (g.down p) (heads p) := by
  have hpheads : p ∉ heads p := fun hmem => (h.head_way p hp p hmem).1 rfl
  refine (m.chained_other h hother hp hne).1.congr fun x hx => ?_
  rw [hdown, Function.update_of_ne (ne_of_mem_of_not_mem hx hpheads)]

private theorem chained_attach_old (m : Fused f f' links semi heads w t merged left)
    (h : f.Chained links semi heads) (hp : links p = none) (hne : p ≠ w)
    (hother : ∀ v, v ∉ w :: merged → g.down v = f.down v) (hnew : Chain g.down (some t) (t :: left))
    (hdown : f'.down = Function.update g.down p (some t)) :
    (attach p n (g.down p) f').Chained (Function.update links w (some p)) semi
      (Function.update heads p (t :: left)) := by
  have hswap : ∀ x, x ≠ p → f'.down x = g.down x := fun x hx => by
    rw [hdown, Function.update_of_ne hx]
  have hhung := m.chain_old h hp hne hother hdown
  obtain ⟨hlabel', hdown', hup'⟩ := attach_spec (p := p) rfl hhung hhung.length_le
  have hattach := (h.toRepresents.fuse m hp hne).attach (Links.update_eq_none.2 ⟨hne, hp⟩)
    ⟨fun a => by rw [Function.update_self, List.mem_append],
      fun x hxp hx => m.new_notMem h.1 hp hne hx (List.mem_cons_of_mem _ hxp), hlabel', hup'⟩
  rw [Function.update_idem] at hattach
  refine chained_update hattach ?_ ?_ ?_
  · rw [hdown', hdown, Function.update_self, ← hdown]
    exact hnew.congr fun x hx => hswap x (m.ne_of_mem h.1 hp hne hx)
  · rw [hlabel']
    exact m.sorted_new h
  · intro r hr hrp
    obtain ⟨hrw, hr⟩ := Links.update_eq_none.1 hr
    have hpr : p ∉ heads r := fun hmem =>
      hrp (h.eq_of_mem hr hp (List.mem_cons_of_mem _ hmem) List.mem_cons_self)
    have hold := m.chained_other h hother hr hrw
    rw [hdown', hlabel', hswap r hrp]
    exact ⟨hold.1.congr fun x hx => hswap x (ne_of_mem_of_not_mem hx hpr), hold.2⟩

end Fused

theorem Chained.rootChain (h : f.Chained links semi heads) (hw : links w = none) :
    RootChain f w (heads w) where
  chain := h.chain w hw
  roots := List.forall_mem_cons.2 ⟨h.root_up w hw, h.head_up w hw⟩

theorem Chained.exists_fused (h : f.Chained links semi heads) (hw : links w = none) :
    ∃ merged left, let m := BalancedLinks.merge semi (f.label.get w) n w f
      Merged w m.1 merged left f m.2 ∧ ∀ f₂ : BalancedLinks n, f₂.up = m.2.up →
        (∀ y : Fin n, f₂.label.get y = if y = m.1 then f.label.get w else m.2.label.get y) →
        Fused f f₂ links semi heads w m.1 merged left := by
  have hbest : f.label.get w = w := h.label_root w hw
  obtain ⟨merged, left, hheads, hgt, hle, hmerged⟩ :=
    merged_merge semi w (h.rootChain hw) (h.chain w hw).length_le
  rw [hbest]
  exact ⟨merged, left, hmerged, fun f₂ hup hlabel =>
    fused_of_merged h hw hheads hgt hle hmerged hlabel hup⟩

/-- A link between two roots keeps the invariant. -/
theorem Chained.link (h : f.Chained links semi heads) (hp : links p = none) (hw : links w = none)
    (hne : p ≠ w) : ∃ heads', (f.link semi p w).Chained (Function.update links w (some p)) semi
      heads' := by
  obtain ⟨merged, left, hmerged, fused⟩ := h.exists_fused hw
  obtain ⟨f₂, hlabel, hup, -, hcases⟩ := link_cases semi f hne
  have m := fused f₂ hup hlabel
  have hnew : Chain _ _ _ := Chain.next hmerged.chain
  rcases hcases with ⟨-, hdown, heq⟩ | ⟨-, hdown, heq⟩
  · exact ⟨_, heq ▸ m.chained_attach_new h hp hne hmerged.down_other hnew hdown⟩
  · exact ⟨_, heq ▸ m.chained_attach_old h hp hne hmerged.down_other hnew hdown⟩

theorem exists_chained_of_legalRun (run : LegalRun BalancedLinks f links semi) :
    ∃ heads, f.Chained links semi heads := by
  induction run with
  | start semi => exact ⟨_, chained_singletons semi⟩
  | link _ hp hw ne ih =>
    obtain ⟨heads, h⟩ := ih
    exact h.link hp hw ne
  | eval v _ ih =>
    obtain ⟨heads, h⟩ := ih
    exact ⟨heads, h.eval v⟩
  | revalue _ keep ih =>
    obtain ⟨heads, h⟩ := ih
    exact ⟨heads, h.revalue keep⟩

instance : LawfulLinkEval BalancedLinks where
  answers {n f links semi} run v := by
    obtain ⟨heads, h⟩ := exists_chained_of_legalRun run
    obtain ⟨path, r, _, _, way, _⟩ := h.ways v
    change Answers links semi v (f.eval semi v).1
    obtain ⟨hroot, hother⟩ := h.eval_spec way
    by_cases hne : v = r
    · rw [hroot hne]
      exact Answers.root (hne ▸ way.top)
    · rcases hother hne with ⟨hmem, hle⟩ | ⟨heq, hlt⟩
      · exact Answers.least way hmem hle
      · rw [heq]
        exact Answers.above way hne hlt

/-- After any legal run, the answer to a root is the root. The answer to any other node stands on
its way up: it is a least node there without the root, or else the root, whose value is then less
than all others of the way. -/
theorem eval_least_or_root (run : LegalRun BalancedLinks f links semi) (v : Fin n) :
    ∃ path r, Ascent links v path r ∧ (v = r → (f.eval semi v).1 = v) ∧
      (v ≠ r →
        ((f.eval semi v).1 ≠ r ∧ (f.eval semi v).1 ∈ path ∧
          ∀ y ∈ path, semi (f.eval semi v).1 ≤ semi y) ∨
        ((f.eval semi v).1 = r ∧ ∀ y ∈ path, semi r < semi y)) := by
  obtain ⟨heads, h⟩ := exists_chained_of_legalRun run
  obtain ⟨path, r, _, _, way, _⟩ := h.ways v
  obtain ⟨hroot, hother⟩ := h.eval_spec way
  refine ⟨path, r, way, hroot, fun hne => (hother hne).imp ?_ id⟩
  rintro ⟨hmem, hle⟩
  refine ⟨?_, hmem, hle⟩
  intro heq
  exact way.linked r (heq ▸ hmem) way.top

theorem eval_least_or_root_row :
    let semi : Fin 3 → Nat := ![0, 0, 1]
    let f : BalancedLinks 3 := LinkEval.link semi 0 1 (LinkEval.link semi 1 2
      (LinkEval.singletons 3))
    let links : Links 3 := Function.update (Function.update (fun _ => none) 2 (some 1)) 1 (some 0)
    LegalRun BalancedLinks f links semi ∧ (f.eval semi 2).1 = 1 ∧
      ∃ path r, Ascent links 2 path r ∧ (2 = r → (f.eval semi 2).1 = 2) ∧
        (2 ≠ r →
          ((f.eval semi 2).1 ≠ r ∧ (f.eval semi 2).1 ∈ path ∧
            ∀ y ∈ path, semi (f.eval semi 2).1 ≤ semi y) ∨
          ((f.eval semi 2).1 = r ∧ ∀ y ∈ path, semi r < semi y)) := by
  intro semi f links
  have run : LegalRun BalancedLinks f links semi :=
    ((LegalRun.start semi).link rfl rfl (by decide)).link (by decide) (by decide) (by decide)
  exact ⟨run, by decide, eval_least_or_root run 2⟩

end BalancedLinks

end FlowGraph

import FlowGraph.LinkEval.Simple
import FlowGraph.Proofs.LinkEval.Compression
import FlowGraph.Proofs.LinkEval.Contract
import Mathlib.Data.Fin.VecNotation
/-!
Plain links answer with the nearest least node. However compressed, the forest has for each way
up the links made one to the same root whose least label is the least node of the way, the first
of several. Links and queries keep this, so the forest is lawful.
-/

set_option autoImplicit false

namespace FlowGraph

namespace SimpleLinks

variable {n : Nat} {f : SimpleLinks n} {links : Links n} {semi semi' : Fin n → Nat}

/-- A forest stands for the links made: it has their roots, each its own label, and its ways up
end at the same roots and have the same least nodes. -/
structure Represents (f : SimpleLinks n) (links : Links n) (semi : Fin n → Nat) : Prop where
  root_iff : ∀ y, f.up y = none ↔ links y = none
  label_root : ∀ y, links y = none → f.label.get y = y
  label_linked : ∀ y, links y ≠ none → links (f.label.get y) ≠ none
  ways : ∀ y, ∃ path path' r, Ascent links y path r ∧ Ascent f.up y path' r ∧
    (f.labels path').argmin semi = path.argmin semi

theorem represents_singletons (semi : Fin n → Nat) :
    Represents (LinkEval.singletons n : SimpleLinks n) (fun _ => none) semi where
  root_iff y := by
    change (PathForest.singletons n).up y = none ↔ _
    simp
  label_root y _ := PathForest.label_singletons y
  label_linked y hy := absurd rfl hy
  ways y := ⟨[], [], y, Ascent.root rfl, Ascent.root (PathForest.up_singletons y), rfl⟩

private theorem up_link (f : SimpleLinks n) (p w : Fin n) :
    (f.link p w).up = Function.update f.up w (some p) := by
  funext y
  simp only [PathForest.up, link, Function.update_apply, get_set]

theorem Represents.link (h : f.Represents links semi) {p w r : Fin n} {rest : List (Fin n)}
    (hw : links w = none) (hp : Ascent links p rest r) (hne : r ≠ w) :
    (f.link p w).Represents (Function.update links w (some p)) semi where
  root_iff y := by
    rw [up_link, Function.update_apply, Function.update_apply]
    split
    · simp
    · exact h.root_iff y
  label_root y hy := h.label_root y (Links.update_eq_none.1 hy).2
  label_linked y hy hlabel := by
    obtain ⟨hne, hroot⟩ := Links.update_eq_none.1 hlabel
    by_cases hy' : links y = none
    · -- the label of a root is the root, which is then not `w`
      change f.label.get y ≠ w at hne
      rw [h.label_root y hy'] at hne
      exact hy (Links.update_eq_none.2 ⟨hne, hy'⟩)
    · exact h.label_linked y hy' hroot
  ways y := by
    obtain ⟨rest₁, rest', r', hrest, hrest', hmin'⟩ := h.ways p
    obtain ⟨rfl, rfl⟩ := hp.unique hrest
    obtain ⟨path, path', s, hway, hway', hmin⟩ := h.ways y
    rw [up_link]
    by_cases hs : s = w
    · subst hs
      refine ⟨_, _, r, hway.update_self hp hne, hway'.update_self hrest' hne, ?_⟩
      change (f.labels (path' ++ s :: rest')).argmin semi = _
      rw [PathForest.labels_append, PathForest.labels_cons, h.label_root s hw, argmin_append,
        argmin_append, hmin, argmin_cons_congr s hmin']
    · exact ⟨path, path', s, hway.update_of_ne hw hs,
        hway'.update_of_ne ((h.root_iff w).2 hw) hs, hmin⟩

theorem Represents.eval_of_root (h : f.Represents links semi) {v : Fin n} (hv : links v = none) :
    f.eval semi v = (v, f) := by
  rw [eval, if_pos ((f.isRoot_iff v).2 ((h.root_iff v).2 hv))]

private theorem eval_of_linked (h : f.Represents links semi) {v : Fin n} (hv : links v ≠ none) :
    f.eval semi v = ((f.compress semi v).label.get v, { toPathForest := f.compress semi v }) := by
  have hroot : ¬ f.isRoot v = true := fun hroot =>
    hv ((h.root_iff v).1 ((f.isRoot_iff v).1 hroot))
  rw [eval, if_neg hroot]

theorem Represents.argmin_eq_eval (h : f.Represents links semi) {v r : Fin n}
    {path : List (Fin n)} (way : Ascent links v path r) (hne : v ≠ r) :
    path.argmin semi = some (f.eval semi v).1 := by
  have hv : links v ≠ none := way.linked v (way.start_mem hne)
  obtain ⟨path₁, path', r₁, hway, hway', hmin⟩ := h.ways v
  obtain ⟨rfl, rfl⟩ := way.unique hway
  rw [eval_of_linked h hv, ← hmin]
  exact PathForest.argmin_labels_compress semi hway' hne

theorem Represents.eval (h : f.Represents links semi) (v : Fin n) :
    (f.eval semi v).2.Represents links semi := by
  by_cases hv : links v = none
  · rw [h.eval_of_root hv]
    exact h
  · rw [eval_of_linked h hv]
    obtain ⟨path, path', r, _, hway', _⟩ := h.ways v
    have hsame := PathForest.reshaped_compress semi hway'
    refine ⟨?_, ?_, ?_, ?_⟩
    · exact fun y => (hsame.root_iff y).trans (h.root_iff y)
    · intro y hy
      exact (hsame.label_root y ((h.root_iff y).2 hy)).trans (h.label_root y hy)
    · intro y hy
      obtain ⟨z, hz, hlabel⟩ := hsame.label_old y (mt (h.root_iff y).1 hy)
      change links ((f.compress semi v).label.get y) ≠ none
      rw [hlabel]
      exact h.label_linked z (mt (h.root_iff z).2 hz)
    · intro y
      obtain ⟨path, path', r, hway, hway', hmin⟩ := h.ways y
      obtain ⟨path'', hway'', hmin'⟩ := hsame.ascent hway'
      exact ⟨path, path'', r, hway, hway'', hmin'.trans hmin⟩

theorem Represents.revalue (h : f.Represents links semi)
    (keep : ∀ v, links v ≠ none → semi' v = semi v) : f.Represents links semi' where
  root_iff := h.root_iff
  label_root := h.label_root
  label_linked := h.label_linked
  ways y := by
    obtain ⟨path, path', r, hway, hway', hmin⟩ := h.ways y
    refine ⟨path, path', r, hway, hway', ?_⟩
    rw [argmin_congr_values fun x hx => keep x (hway.linked x hx), ← hmin]
    apply argmin_congr_values
    intro x hx
    obtain ⟨z, hz, rfl⟩ := PathForest.mem_labels.1 hx
    exact keep _ (h.label_linked z (mt (h.root_iff z).2 (hway'.linked z hz)))

/-- The forests that plain links and queries lead to, with the links made and the values at the
time. Beyond what the contract allows, a root may be hung below any node of another tree. -/
inductive GraftRun : SimpleLinks n → Links n → (Fin n → Nat) → Prop
  | start (semi : Fin n → Nat) : GraftRun (LinkEval.singletons n) (fun _ => none) semi
  | link {f : SimpleLinks n} {links : Links n} {semi : Fin n → Nat} {p w r : Fin n}
      {rest : List (Fin n)} (run : GraftRun f links semi) (hw : links w = none)
      (way : Ascent links p rest r) (ne : r ≠ w) :
      GraftRun (LinkEval.link semi p w f) (Function.update links w (some p)) semi
  | eval {f : SimpleLinks n} {links : Links n} {semi : Fin n → Nat} (v : Fin n)
      (run : GraftRun f links semi) : GraftRun (LinkEval.eval semi v f).2 links semi
  | revalue {f : SimpleLinks n} {links : Links n} {semi semi' : Fin n → Nat}
      (run : GraftRun f links semi) (keep : ∀ v, links v ≠ none → semi' v = semi v) :
      GraftRun f links semi'

theorem represents_of_graftRun (run : GraftRun f links semi) : f.Represents links semi := by
  induction run with
  | start semi => exact represents_singletons semi
  | link _ hw way ne ih => exact ih.link hw way ne
  | eval v _ ih => exact ih.eval v
  | revalue _ keep ih => exact ih.revalue keep

theorem graftRun_of_legalRun (run : LegalRun SimpleLinks f links semi) :
    GraftRun f links semi := by
  induction run with
  | start semi => exact GraftRun.start semi
  | link _ hp hw ne ih => exact ih.link hw (Ascent.root hp) ne
  | eval v _ ih => exact ih.eval v
  | revalue _ keep ih => exact ih.revalue keep

instance : LawfulLinkEval SimpleLinks where
  answers {n f links semi} run v := by
    have h := represents_of_graftRun (graftRun_of_legalRun run)
    obtain ⟨path, _, r, way, _, _⟩ := h.ways v
    change Answers links semi v (f.eval semi v).1
    by_cases hne : v = r
    · subst hne
      rw [h.eval_of_root way.top]
      exact Answers.root way.top
    · have hmin := h.argmin_eq_eval way hne
      exact Answers.least way (List.argmin_mem hmin) fun y hy => List.le_of_mem_argmin hy hmin

/-- After any run, the answer to a root is the root. The answer to any other node is the nearest
of the least nodes on its way up the links made, the root left out. -/
theorem eval_nearest_least (run : GraftRun f links semi) (v : Fin n) :
    ∃ path r, Ascent links v path r ∧ (v = r → (f.eval semi v).1 = v) ∧
      (v ≠ r → ∃ before after, path = before ++ (f.eval semi v).1 :: after ∧
        (∀ y ∈ before, semi (f.eval semi v).1 < semi y) ∧
        ∀ y ∈ after, semi (f.eval semi v).1 ≤ semi y) := by
  have h := represents_of_graftRun run
  obtain ⟨path, _, r, way, _, _⟩ := h.ways v
  refine ⟨path, r, way, ?_, fun hne => exists_split_of_argmin (h.argmin_eq_eval way hne)⟩
  rintro rfl
  rw [h.eval_of_root way.top]

theorem eval_nearest_least_row :
    let semi : Fin 5 → Nat := ![0, 2, 1, 1, 3]
    let below : SimpleLinks 5 := LinkEval.link semi 3 4 (LinkEval.link semi 2 3
      (LinkEval.singletons 5))
    let f : SimpleLinks 5 := LinkEval.link semi 0 1 (LinkEval.link semi 1 2
      (LinkEval.eval semi 4 below).2)
    let links : Links 5 := Function.update (Function.update (Function.update (Function.update
      (fun _ => none) 3 (some 2)) 4 (some 3)) 2 (some 1)) 1 (some 0)
    GraftRun f links semi ∧ (f.eval semi 4).1 = 3 ∧
      ∃ path r, Ascent links 4 path r ∧ (4 = r → (f.eval semi 4).1 = 4) ∧
        (4 ≠ r → ∃ before after, path = before ++ (f.eval semi 4).1 :: after ∧
          (∀ y ∈ before, semi (f.eval semi 4).1 < semi y) ∧
          ∀ y ∈ after, semi (f.eval semi 4).1 ≤ semi y) := by
  intro semi below f links
  have grafted : GraftRun below _ semi :=
    ((GraftRun.start semi).link rfl (Ascent.root (v := 2) rfl) (by decide)).link (by decide)
      (Ascent.step (v := 3) (a := 2) (by decide) (Ascent.root (by decide))) (by decide)
  have run : GraftRun f links semi :=
    ((grafted.eval 4).link (by decide) (Ascent.root (by decide)) (by decide)).link (by decide)
      (Ascent.root (by decide)) (by decide)
  exact ⟨run, by decide, eval_nearest_least run 4⟩

end SimpleLinks

end FlowGraph

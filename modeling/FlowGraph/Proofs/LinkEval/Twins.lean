import FlowGraph.Proofs.LinkEval.Balanced
import FlowGraph.Proofs.LinkEval.Calls
import FlowGraph.Proofs.LinkEval.Simple
/-!
Queries are not observed. Compression moves labels and ancestors, but leaves the root of every way
up, the labels of roots and the first least label on each way. Two forests balanced by size that
agree in this, and in their chains and sizes, are twins: a link takes the same decisions in both,
hangs the same heads below the same nodes, and leaves twins. Plain links need no such relation,
since their answers are determined by the links made and the values.
-/

set_option autoImplicit false

namespace FlowGraph

namespace BalancedLinks

variable {n : Nat} {semi semi' : Fin n → Nat} {f f' g g' : BalancedLinks n} {links : Links n}
  {heads heads' : Fin n → List (Fin n)} {p w s c t : Fin n} {rest hung : List (Fin n)}

/-- Forests with the same chains, sizes and labels of roots, in which every node has ways up to the
same root with the same first least label. -/
structure Twins (semi : Fin n → Nat) (f g : BalancedLinks n) : Prop where
  down_eq : g.down = f.down
  size_eq : g.size.get = f.size.get
  label_root : ∀ r, f.up r = none → g.label.get r = f.label.get r
  ways : ∀ y, ∃ path path' r, Ascent f.up y path r ∧ Ascent g.up y path' r ∧
    (g.labels path').argmin semi = (f.labels path).argmin semi

private theorem labels_relabel {x y r : Fin n} {path : List (Fin n)}
    (hlabel : ∀ y : Fin n, f'.label.get y = if y = t then x else f.label.get y)
    (ht : f.up t = none) (way : Ascent f.up y path r) : f'.labels path = f.labels path := by
  apply PathForest.labels_congr
  intro z hz
  have hne : z ≠ t := by
    rintro rfl
    exact way.linked z hz ht
  rw [hlabel, if_neg hne]

private theorem Chained.argmin_labels_revalue (h : f.Chained links semi heads)
    (keep : ∀ v, links v ≠ none → semi' v = semi v) {y r : Fin n} {path : List (Fin n)}
    (way : Ascent f.up y path r) :
    (f.labels path).argmin semi' = (f.labels path).argmin semi := by
  apply argmin_congr_values
  intro x hx
  obtain ⟨z, hz, rfl⟩ := PathForest.mem_labels.1 hx
  exact keep _ (h.label_linked z fun hroot => way.linked z hz (h.root_up z hroot))

namespace Twins

private theorem up_eq_none (h : Twins semi f g) {r : Fin n} (hr : f.up r = none) :
    g.up r = none := by
  obtain ⟨path, path', s, way, way', -⟩ := h.ways r
  obtain ⟨-, rfl⟩ := way.of_root hr
  exact way'.top

private theorem symm (h : Twins semi f g) : Twins semi g f where
  down_eq := h.down_eq.symm
  size_eq := h.size_eq.symm
  label_root r hr := by
    obtain ⟨path, path', s, way, way', -⟩ := h.ways r
    obtain ⟨-, rfl⟩ := way'.of_root hr
    exact (h.label_root s way.top).symm
  ways y := by
    obtain ⟨path, path', r, way, way', hmin⟩ := h.ways y
    exact ⟨path', path, r, way', way, hmin.symm⟩

private theorem eval_eq (h : Twins semi f g) (v : Fin n) :
    (f.eval semi v).1 = (g.eval semi v).1 := by
  obtain ⟨path, path', r, way, way', hmin⟩ := h.ways v
  have hleft := argmin_labels_eval semi way
  have hright := argmin_labels_eval semi way'
  have htop : g.labels [r] = f.labels [r] := congrArg (· :: []) (h.label_root r way.top)
  rw [PathForest.labels_append, argmin_append] at hleft hright
  rw [hmin, htop] at hright
  exact Option.some.inj (hleft.symm.trans hright)

private theorem eval (h : Twins semi f g) (v : Fin n) : Twins semi (f.eval semi v).2 g := by
  obtain ⟨path, -, r, way, -, -⟩ := h.ways v
  have hsame := PathForest.reshaped_compress semi way
  refine ⟨h.down_eq, h.size_eq, ?_, ?_⟩
  · intro r hr
    have hr : f.up r = none := (hsame.root_iff r).1 hr
    exact (h.label_root r hr).trans (hsame.label_root r hr).symm
  · intro y
    obtain ⟨path, path', r, way, way', hmin⟩ := h.ways y
    obtain ⟨path'', way'', hmin''⟩ := hsame.ascent way
    exact ⟨path'', path', r, way'', way', hmin.trans hmin''.symm⟩

private theorem relabel (h : Twins semi f g) (ht : f.up t = none) {x : Fin n}
    (hup : f'.up = f.up) (hup' : g'.up = g.up)
    (hlabel : ∀ y : Fin n, f'.label.get y = if y = t then x else f.label.get y)
    (hlabel' : ∀ y : Fin n, g'.label.get y = if y = t then x else g.label.get y)
    (hdown : g'.down = f'.down) (hsize : g'.size.get = f'.size.get) : Twins semi f' g' := by
  refine ⟨hdown, hsize, ?_, ?_⟩
  · intro r hr
    rw [hup] at hr
    rw [hlabel, hlabel', h.label_root r hr]
  · intro y
    obtain ⟨path, path', r, way, way', hmin⟩ := h.ways y
    refine ⟨path, path', r, hup ▸ way, hup' ▸ way', ?_⟩
    rw [labels_relabel hlabel ht way, labels_relabel hlabel' (h.up_eq_none ht) way', hmin]

private theorem hang (h : Twins semi f g) (hp : f.up p = none) (hw : f.up w = none) (hne : p ≠ w)
    (hlabel : f'.label = f.label) (hlabel' : g'.label = g.label)
    (hup : f'.up = Function.update f.up w (some p))
    (hup' : g'.up = Function.update g.up w (some p)) (hdown : g'.down = f'.down)
    (hsize : g'.size.get = f'.size.get) : Twins semi f' g' := by
  have labels : ∀ path, f'.labels path = f.labels path :=
    fun path => PathForest.labels_congr fun z _ => by rw [hlabel]
  have labels' : ∀ path, g'.labels path = g.labels path :=
    fun path => PathForest.labels_congr fun z _ => by rw [hlabel']
  refine ⟨hdown, hsize, ?_, ?_⟩
  · intro r hr
    rw [hup] at hr
    have hrw : r ≠ w := by
      rintro rfl
      simp at hr
    rw [Function.update_of_ne hrw] at hr
    rw [hlabel, hlabel', h.label_root r hr]
  · intro y
    obtain ⟨path, path', r, way, way', hmin⟩ := h.ways y
    by_cases hrw : r = w
    · subst hrw
      have htop : g.labels [r] = f.labels [r] := congrArg (· :: []) (h.label_root r hw)
      refine ⟨path ++ [r], path' ++ [r], p, ?_, ?_, ?_⟩
      · rw [hup]
        exact way.update_self (Ascent.root hp) hne
      · rw [hup']
        exact way'.update_self (Ascent.root (h.up_eq_none hp)) hne
      · rw [labels, labels', PathForest.labels_append, PathForest.labels_append, argmin_append,
          argmin_append, hmin, htop]
    · refine ⟨path, path', r, ?_, ?_, ?_⟩
      · rw [hup]
        exact way.update_of_ne hw hrw
      · rw [hup']
        exact way'.update_of_ne (h.up_eq_none hw) hrw
      · rw [labels, labels', hmin]

private theorem sizeFrom_eq (h : Twins semi f g) (o : Option (Fin n)) :
    g.sizeFrom o = f.sizeFrom o := by
  cases o with
  | none => rfl
  | some v => exact congrFun h.size_eq v

private theorem merge (h : Twins semi f g) (best : Fin n) (steps : Nat) (row : RootChain f s rest) :
    (BalancedLinks.merge semi best steps s g).1 = (BalancedLinks.merge semi best steps s f).1 ∧
      Twins semi (BalancedLinks.merge semi best steps s f).2
        (BalancedLinks.merge semi best steps s g).2 := by
  induction rest generalizing s f g steps with
  | nil =>
    have hdown := row.chain.of_nil
    rw [merge_of_none semi best hdown, merge_of_none semi best (h.down_eq ▸ hdown)]
    exact ⟨rfl, h⟩
  | cons c rest ih =>
    cases steps with
    | zero => exact ⟨rfl, h⟩
    | succ steps =>
      obtain ⟨hc, -⟩ := row.chain.of_cons
      have hc' : g.down s = some c := h.down_eq ▸ hc
      have hs := row.roots s List.mem_cons_self
      have hroot := row.roots c (by simp)
      obtain ⟨hne, -⟩ := row.notMem
      rw [merge_of_some semi best hc, merge_of_some semi best hc', h.label_root c hroot,
        h.sizeFrom_eq, h.down_eq, h.size_eq]
      split
      · split
        · rename_i larger
          have j := joinedBelow larger
          have j' : JoinedBelow s c g (g.joinBelow s c) := joinedBelow (by
            rwa [h.sizeFrom_eq, h.down_eq, h.size_eq])
          refine ih (h.hang hs hroot hne j.label_eq j'.label_eq j.up_eq j'.up_eq ?_ ?_) steps
            (row.below j)
          · rw [j.down_eq, j'.down_eq, h.down_eq]
          · rw [j.size_eq, j'.size_eq, h.size_eq]
        · rename_i smaller
          have j := joinedAbove (Nat.lt_of_not_le smaller)
          have j' : JoinedAbove s c g (g.joinAbove s c) := joinedAbove (by
            rw [h.sizeFrom_eq, h.down_eq, h.size_eq]
            exact Nat.lt_of_not_le smaller)
          refine ih (h.hang hroot hs hne.symm j.label_eq j'.label_eq j.up_eq j'.up_eq ?_ ?_) steps
            (row.above j)
          · rw [j.down_eq, j'.down_eq, h.down_eq]
          · rw [j.size_eq, j'.size_eq, h.size_eq]
      · exact ⟨rfl, h⟩

private theorem attach (h : Twins semi f g) {down : Fin n → Option (Fin n)} {o : Option (Fin n)}
    (steps : Nat) (hdown : f.down = down) (chain : Chain down o hung) (hp : f.up p = none)
    (roots : ∀ a ∈ hung, f.up a = none) (hnot : p ∉ hung) :
    Twins semi (BalancedLinks.attach p steps o f) (BalancedLinks.attach p steps o g) := by
  induction chain generalizing f g steps with
  | done =>
    cases steps with
    | zero => exact h
    | succ steps => exact h
  | @next v rest chain ih =>
    cases steps with
    | zero => exact h
    | succ steps =>
      obtain ⟨hv, hrest⟩ := List.forall_mem_cons.1 roots
      have hfirst : v ∉ rest := (List.nodup_cons.1 (Chain.next chain).nodup).1
      rw [List.mem_cons, not_or] at hnot
      obtain ⟨f', hlabel, hsize, hdown', hup, heq⟩ := attach_succ p v steps f
      obtain ⟨g', hlabel', hsize', hdown'', hup', heq'⟩ := attach_succ p v steps g
      rw [heq, heq', h.down_eq, hdown]
      refine ih (h.hang hp hv hnot.1 hlabel hlabel' hup hup' ?_ ?_) steps (hdown'.trans hdown)
        ?_ ?_ hnot.2
      · rw [hdown', hdown'', h.down_eq]
      · rw [hsize, hsize', h.size_eq]
      · rw [hup, Function.update_of_ne hnot.1, hp]
      · intro a ha
        rw [hup, Function.update_of_ne (ne_of_mem_of_not_mem ha hfirst), hrest a ha]

private theorem link (h : Twins semi f g) (inv : f.Chained links semi heads) (hp : links p = none)
    (hw : links w = none) (hne : p ≠ w) : Twins semi (f.link semi p w) (g.link semi p w) := by
  obtain ⟨merged, left, hmerged, fused⟩ := inv.exists_fused hw
  obtain ⟨f₂, hlabel, hup, hsize, hcases⟩ := link_cases semi f hne
  obtain ⟨g₂, hlabel', hup', hsize', hcases'⟩ := link_cases semi g hne
  obtain ⟨hhead, htwins⟩ := h.merge (f.label.get w) n (inv.rootChain hw)
  have m := fused f₂ hup hlabel
  rw [h.label_root w (inv.root_up w hw)] at hlabel' hup' hsize' hcases'
  rw [hhead] at hlabel' hcases'
  generalize BalancedLinks.merge semi (f.label.get w) n w f = result at *
  obtain ⟨t, f'⟩ := result
  generalize (BalancedLinks.merge semi (f.label.get w) n w g).2 = g' at *
  dsimp only at *
  have hsizes : g₂.size.get = f₂.size.get := by rw [hsize, hsize', htwins.size_eq]
  have htop : f'.up t = none := hmerged.head_up
  have hroots : ∀ a ∈ p :: heads p, f₂.up a = none := fun a => m.up_of_other inv.1 hp hne
  obtain ⟨hpup, hpheads⟩ := List.forall_mem_cons.1 hroots
  rw [htwins.size_eq, htwins.down_eq] at hcases'
  rcases hcases with ⟨hle, hdown, heq⟩ | ⟨hlt, hdown, heq⟩ <;>
    rcases hcases' with ⟨hle', hdown', heq'⟩ | ⟨hlt', hdown', heq'⟩
  · -- the merged chain of `w` is hung below `p`
    have both : Twins semi f₂ g₂ :=
      htwins.relabel htop hup hup' hlabel hlabel' (hdown'.trans hdown.symm) hsizes
    rw [heq, heq']
    exact both.attach n hdown (Chain.next hmerged.chain) hpup (fun a => m.up_eq_none inv.1)
      fun hmem => m.ne_of_mem inv.1 hp hne hmem rfl
  · omega
  · omega
  · -- the chain of `p` is hung below it, and that of `w` takes its place
    have both : Twins semi f₂ g₂ :=
      htwins.relabel htop hup hup' hlabel hlabel' (hdown'.trans hdown.symm) hsizes
    have hold := m.chain_old inv hp hne hmerged.down_other hdown
    have hnot : p ∉ heads p := fun hmem => (inv.head_way p hp p hmem).1 rfl
    rw [heq, heq']
    exact both.attach n rfl hold hpup hpheads hnot

private theorem revalue (h : Twins semi f g) (inv : f.Chained links semi heads)
    (inv' : g.Chained links semi heads') (keep : ∀ v, links v ≠ none → semi' v = semi v) :
    Twins semi' f g := by
  refine ⟨h.down_eq, h.size_eq, h.label_root, fun y => ?_⟩
  obtain ⟨path, path', r, way, way', hmin⟩ := h.ways y
  refine ⟨path, path', r, way, way', ?_⟩
  rw [inv.argmin_labels_revalue keep way, inv'.argmin_labels_revalue keep way', hmin]

end Twins

private theorem indistinct_twins (n : Nat) :
    Indistinct BalancedLinks fun links semi (f g : BalancedLinks n) =>
      (∃ heads, f.Chained links semi heads) ∧ (∃ heads, g.Chained links semi heads) ∧
        Twins semi f g where
  start semi := by
    refine ⟨⟨_, chained_singletons semi⟩, ⟨_, chained_singletons semi⟩, rfl, rfl, ?_, ?_⟩
    · exact fun _ _ => rfl
    · intro y
      have way := Ascent.root (PathForest.up_singletons y)
      exact ⟨[], [], y, way, way, rfl⟩
  symm h := ⟨h.2.1, h.1, h.2.2.symm⟩
  link := by
    rintro links semi f g p w ⟨⟨heads, inv⟩, ⟨heads', inv'⟩, twins⟩ hp hw hne
    exact ⟨inv.link hp hw hne, inv'.link hp hw hne, twins.link inv hp hw hne⟩
  eval := by
    rintro links semi f g v ⟨⟨heads, inv⟩, inv', twins⟩
    exact ⟨⟨heads, inv.eval v⟩, inv', twins.eval v⟩
  revalue := by
    rintro links semi semi' f g ⟨⟨heads, inv⟩, ⟨heads', inv'⟩, twins⟩ keep
    exact ⟨⟨heads, inv.revalue keep⟩, ⟨heads', inv'.revalue keep⟩, twins.revalue inv inv' keep⟩
  answer v h := h.2.2.eval_eq v

end BalancedLinks

namespace SimpleLinks

private theorem indistinct_represents (n : Nat) : Indistinct SimpleLinks
    fun links semi (f g : SimpleLinks n) => f.Represents links semi ∧ g.Represents links semi where
  start semi := ⟨represents_singletons semi, represents_singletons semi⟩
  symm h := h.symm
  link h hp hw hne :=
    ⟨h.1.link hw (Ascent.root hp) hne, h.2.link hw (Ascent.root hp) hne⟩
  eval v h := ⟨h.1.eval v, h.2⟩
  revalue h keep := ⟨h.1.revalue keep, h.2.revalue keep⟩
  answer := by
    rintro links semi f g v ⟨h, h'⟩
    obtain ⟨path, -, r, way, -, -⟩ := h.ways v
    change (f.eval semi v).1 = (g.eval semi v).1
    by_cases hne : v = r
    · subst hne
      rw [h.eval_of_root way.top, h'.eval_of_root way.top]
    · have hmin := h.argmin_eq_eval way hne
      exact Option.some.inj (hmin.symm.trans (h'.argmin_eq_eval way hne))

end SimpleLinks

namespace Call

/-- Compression is not observed. If queries are left out of a legal run, wherever they stand and
however many they are, the run stays legal, and in either forest all other queries are answered
with the nodes that they were answered with. -/
theorem answers_without_queries {n : Nat} {semi : Fin n → Nat} {calls : List (Call n)}
    {keep : List Bool} (legal : Legal (fun _ => none) semi calls)
    (queries : ∀ c ∈ keep.zip calls, c.1 = false → c.2.isEval) :
    Legal (fun _ => none) semi (kept keep calls) ∧
      kept keep (answers (LinkEval.singletons n : SimpleLinks n) calls) =
        answers (LinkEval.singletons n : SimpleLinks n) (kept keep calls) ∧
      kept keep (answers (LinkEval.singletons n : BalancedLinks n) calls) =
        answers (LinkEval.singletons n : BalancedLinks n) (kept keep calls) := by
  have simple := SimpleLinks.indistinct_represents n
  have balanced := BalancedLinks.indistinct_twins n
  refine ⟨legal_kept legal (fun _ _ => rfl) queries, ?_, ?_⟩
  · exact simple.answers_kept (simple.start semi) legal queries
  · exact balanced.answers_kept (balanced.start semi) legal queries

theorem answers_without_queries_row :
    let early : Fin 4 → Nat := ![0, 1, 1, 2]
    let late : Fin 4 → Nat := ![0, 0, 1, 2]
    let calls : List (Call 4) := [link early 2 3, eval early 3, link early 1 2, eval late 3,
      eval late 3, link late 0 1, eval late 3]
    let keep : List Bool := [true, false, true, false, true, true, true]
    Legal (fun _ => none) early calls ∧ (∀ c ∈ keep.zip calls, c.1 = false → c.2.isEval) ∧
      answers (LinkEval.singletons 4 : SimpleLinks 4) (kept keep calls) =
        [none, none, some 2, none, some 1] ∧
      Legal (fun _ => none) early (kept keep calls) ∧
        kept keep (answers (LinkEval.singletons 4 : SimpleLinks 4) calls) =
          answers (LinkEval.singletons 4 : SimpleLinks 4) (kept keep calls) ∧
        kept keep (answers (LinkEval.singletons 4 : BalancedLinks 4) calls) =
          answers (LinkEval.singletons 4 : BalancedLinks 4) (kept keep calls) := by
  intro early late calls keep
  have legal : Legal (fun _ => none) early calls := by decide
  have queries : ∀ c ∈ keep.zip calls, c.1 = false → c.2.isEval := by decide
  exact ⟨legal, queries, by decide, answers_without_queries legal queries⟩

end Call

end FlowGraph

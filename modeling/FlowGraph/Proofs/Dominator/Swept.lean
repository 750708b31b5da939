import FlowGraph.Proofs.Dominator.FreeSweep
import FlowGraph.Proofs.Dominator.Semidominator
/-!
What every free sweep has computed when it has come down to a number. The semidominators of the
numbers taken are right whatever the answers were, and they decide which numbers wait. Only the
candidates for immediate dominators depend on the answers, and each of them is fit for the last
pass.
-/

set_option autoImplicit false

namespace FlowGraph

variable {n : Nat}

theorem mem_drop_finRange {k : Nat} {v : Fin n} : v ∈ (List.finRange n).drop k ↔ k ≤ v.val := by
  rw [List.mem_drop_iff_getElem]
  constructor
  · rintro ⟨i, hi, rfl⟩
    simp
  · intro h
    exact ⟨v.val - k, by simp; omega, by ext; simp; omega⟩

theorem drop_finRange (w : Fin n) :
    (List.finRange n).drop w.val = w :: (List.finRange n).drop (w.val + 1) := by
  rw [List.drop_eq_getElem_cons (by simp)]
  simp

namespace Flow

/-- What a settled number may hold: its semidominator, if that is the immediate dominator, or
else a number of least semidominator on the tree path below. -/
inductive Candidate (flow : Flow n) (v : Fin n) : Fin n → Prop
  | semi {s : Fin n} (hs : flow.IsSemi v s) (guards : flow.Guards s s v) : Candidate flow v s
  | relative {s u m : Fin n} (hs : flow.IsSemi v s) (lt : s < u) (hu : Ancestor flow.parent u v)
      (hm : flow.IsSemi u m) (lt' : m < s) (guards : flow.Guards m s v) : Candidate flow v u

namespace DepthFirst

variable [HasEntry n] {flow : Flow n} {k : Nat} {p r u v w y : Fin n} {path : List (Fin n)}

private theorem mem_ascent_links (df : flow.DepthFirst) (way : Ascent (flow.links k) v path r) :
    y ∈ path ↔ Ancestor flow.parent y v ∧ k ≤ y.val := by
  induction way with
  | @root v h =>
    have hv := Flow.links_eq_none_iff.1 h
    constructor
    · simp
    · rintro ⟨hy, hle⟩
      have hyv : y.val ≤ v.val := df.le_of_ancestor hy
      omega
  | @step v a r path h _ ih =>
    have hv : k ≤ v.val := by
      by_contra hv
      simp [Flow.links_eq_none_iff.2 (Nat.lt_of_not_le hv)] at h
    obtain rfl := Option.some.inj ((Flow.links_of_le hv).symm.trans h)
    rw [List.mem_cons, ih]
    constructor
    · rintro (rfl | ⟨hy, hle⟩)
      · exact ⟨Ancestor.refl, hv⟩
      · exact ⟨Ancestor.up hy, hle⟩
    · rintro ⟨hy, hle⟩
      by_cases hyv : y = v
      · exact Or.inl hyv
      · exact Or.inr ⟨hy.parent_of_ne hyv, hle⟩

/-- What an allowed answer for `v` can be when the numbers from `k` up are linked and have their
semidominators: `v` itself, a number of least semidominator, or a root that was lowered. A root
with its own value is no answer, as the number below it has no greater value. -/
private theorem answers_cases (df : flow.DepthFirst) {semi : Fin n → Fin n} (hk : 0 < k)
    (hsemi : ∀ y : Fin n, k ≤ y.val → flow.IsSemi y (semi y))
    (h : Answers (flow.links k) (fun x => (semi x).val) v u) :
    (v.val < k ∧ u = v) ∨
      (k ≤ u.val ∧ Ancestor flow.parent u v ∧
        ∀ y, Ancestor flow.parent y v → k ≤ y.val → semi u ≤ semi y) ∨
      (u.val < k ∧ k ≤ v.val ∧ semi u < u ∧
        ∀ y, Ancestor flow.parent y v → k ≤ y.val → semi u < semi y) := by
  cases h with
  | root h => exact Or.inl ⟨Flow.links_eq_none_iff.1 h, rfl⟩
  | least way mem le =>
    obtain ⟨hu, hku⟩ := (df.mem_ascent_links way).1 mem
    refine Or.inr (Or.inl ⟨hku, hu, ?_⟩)
    intro y hy hky
    exact le y ((df.mem_ascent_links way).2 ⟨hy, hky⟩)
  | @above path u way ne lt =>
    obtain ⟨z, hz, hzu⟩ := exists_parent_eq_root way ne
    have hkz := ((df.mem_ascent_links way).1 hz).2
    have hkv := ((df.mem_ascent_links way).1 (way.start_mem ne)).2
    have hz0 : z ≠ 0 := by
      rintro rfl
      simp at hkz
      omega
    have hle : semi z ≤ u := hzu ▸ df.le_parent_of_isSemi (hsemi z hkz) hz0
    have hlt : semi u < semi z := lt z hz
    refine Or.inr (Or.inr ⟨Flow.links_eq_none_iff.1 way.top, hkv, hlt.trans_le hle, ?_⟩)
    intro y hy hky
    exact lt y ((df.mem_ascent_links way).2 ⟨hy, hky⟩)

end DepthFirst

end Flow

namespace Sweep

variable [HasEntry n] {flow : Flow n} {s s' : Sweep Links n} {p u v w x : Fin n}
  {vs ps : List (Fin n)}

/-- What holds while the number `w` is taken: all larger ones are linked and have their
semidominators, no smaller one has been looked at, and `w` has its own number still, or the start
of a detour. -/
structure Taking (flow : Flow n) (w : Fin n) (s : Sweep Links n) : Prop where
  forest : s.forest = flow.links (w.val + 1)
  before : ∀ v, v < w → s.semi.get v = v
  after : ∀ v, w < v → flow.IsSemi v (s.semi.get v)
  le : s.semi.get w ≤ w
  source : s.semi.get w = w ∨ flow.Detour w (s.semi.get w)

private theorem Taking.answers_cases (h : Taking flow w s) (df : flow.DepthFirst)
    (answer : Answers s.forest s.values v u) :
    (v ≤ w ∧ u = v) ∨
      (w < u ∧ Ancestor flow.parent u v ∧
        ∀ y, Ancestor flow.parent y v → w < y → s.semi.get u ≤ s.semi.get y) ∨
      (u = w ∧ w < v ∧ s.semi.get w < w ∧
        ∀ y, Ancestor flow.parent y v → w < y → s.semi.get w < s.semi.get y) := by
  rw [h.forest] at answer
  rcases df.answers_cases w.val.succ_pos h.after answer with
    ⟨hv, rfl⟩ | ⟨hu, huv, hle⟩ | ⟨hu, hv, hlt, hle⟩
  · exact Or.inl ⟨Nat.le_of_lt_succ hv, rfl⟩
  · exact Or.inr (Or.inl ⟨hu, huv, hle⟩)
  · have huw : u = w := by
      rcases (show u ≤ w from Nat.le_of_lt_succ hu).eq_or_lt with huw | huw
      · exact huw
      · rw [h.before u huw] at hlt
        exact absurd hlt (lt_irrefl u)
    subst huw
    exact Or.inr (Or.inr ⟨rfl, hv, hlt, hle⟩)

private theorem Taking.candidate (h : Taking flow w s) (df : flow.DepthFirst)
    (hw : s.semi.get w = w) (hv : w < v) (wait : s.semi.get v = w)
    (answer : Answers s.forest s.values v u) :
    flow.Candidate v (if s.semi.get u < s.semi.get v then u else w) := by
  have hs : flow.IsSemi v w := wait ▸ h.after v hv
  rcases h.answers_cases df answer with ⟨hvw, _⟩ | ⟨hu, huv, hle⟩ | ⟨_, _, hlt, _⟩
  · exact absurd hv (not_lt_of_ge hvw)
  · by_cases hlt : s.semi.get u < s.semi.get v
    · rw [if_pos hlt]
      rw [wait] at hlt
      refine Flow.Candidate.relative hs hu huv (h.after u hu) hlt ?_
      intro y x hy hwy detour
      exact (hle y hy hwy).trans ((h.after y hwy).least x detour)
    · rw [if_neg hlt]
      rw [wait] at hlt
      refine Flow.Candidate.semi hs ?_
      intro y x hy hwy detour
      exact (le_of_not_gt hlt).trans ((hle y hy hwy).trans ((h.after y hwy).least x detour))
  · exact absurd hw hlt.ne

private theorem Taking.settled (h : Taking flow w s) (df : flow.DepthFirst) (hw : s.semi.get w = w)
    (waited : ∀ v ∈ vs, w < v ∧ s.semi.get v = w) (settled : Settled w vs s s') :
    s'.semi = s.semi ∧ s'.forest = s.forest ∧ s'.waiting = s.waiting ∧
      (∀ v ∈ vs, flow.Candidate v (s'.idom.get v)) ∧
      ∀ v, v ∉ vs → s'.idom.get v = s.idom.get v := by
  induction settled with
  | done s => simp
  | @next v u vs s s' _ answer ih =>
    obtain ⟨hsemi, hforest, hwaiting, fit, keep⟩ :=
      ih h hw fun v hv => waited v (List.mem_cons_of_mem _ hv)
    obtain ⟨hv, wait⟩ := waited v List.mem_cons_self
    refine ⟨hsemi, hforest, hwaiting, ?_, ?_⟩
    · intro x hx
      simp only [record, get_set]
      by_cases hxv : x = v
      · subst hxv
        have hvalues : s'.values = s.values := by
          funext x
          simp only [values, hsemi]
        rw [hforest, hvalues] at answer
        rw [if_pos rfl, hsemi]
        exact h.candidate df hw hv wait answer
      · rw [if_neg hxv]
        exact fit x ((List.mem_cons.1 hx).resolve_left hxv)
    · intro x hx
      simp only [record, get_set]
      rw [if_neg (List.ne_of_not_mem_cons hx)]
      exact keep x (List.not_mem_of_not_mem_cons hx)

/-- What any answer for a predecessor has: the start of a detour, or the number taken itself; for a
predecessor not larger its own number bounds it; and with the old number it bounds all those above
the predecessor. -/
private theorem Taking.of_answer (h : Taking flow w s) (df : flow.DepthFirst)
    (hp : p ∈ flow.preds w) (answer : Answers s.forest s.values p u) :
    (s.semi.get u = w ∨ flow.Detour w (s.semi.get u)) ∧ (p ≤ w → s.semi.get u ≤ p) ∧
      ∀ y, Ancestor flow.parent y p → w < y → min (s.semi.get w) (s.semi.get u) ≤ s.semi.get y := by
  rcases h.answers_cases df answer with ⟨hpw, rfl⟩ | ⟨hu, hup, hle⟩ | ⟨rfl, hwp, _, hlt⟩
  · have hvalue : s.semi.get u ≤ u ∧ (s.semi.get u = w ∨ flow.Detour w (s.semi.get u)) := by
      rcases hpw.eq_or_lt with rfl | hlt
      · exact ⟨h.le, h.source⟩
      · rw [h.before u hlt]
        exact ⟨le_rfl, Or.inr (Flow.Detour.edge hp)⟩
    refine ⟨hvalue.2, fun _ => hvalue.1, ?_⟩
    intro y hy hwy
    exact absurd (hwy.trans_le (df.le_of_ancestor hy)) (not_lt_of_ge hpw)
  · have detour : flow.Detour w (s.semi.get u) :=
      (Flow.Detour.iff_preds df).2 (Or.inr ⟨p, hp, u, hup, hu, (h.after u hu).detour⟩)
    refine ⟨Or.inr detour, ?_, ?_⟩
    · intro hpw
      exact absurd (hu.trans_le (df.le_of_ancestor hup)) (not_lt_of_ge hpw)
    · intro y hy hwy
      exact (min_le_right _ _).trans (hle y hy hwy)
  · refine ⟨h.source, ?_, ?_⟩
    · intro hpw
      exact absurd hwp (not_lt_of_ge hpw)
    · intro y hy hwy
      exact (min_le_left _ _).trans (hlt y hy hwy).le

/-- One predecessor: whatever the answer, the number goes down as far as the least value above
the predecessor, and to the start of a detour if at all. -/
private theorem Taking.improve (h : Taking flow w s) (df : flow.DepthFirst) (hp : p ∈ flow.preds w)
    (answer : Answers s.forest s.values p u) :
    Taking flow w (s.improve w u) ∧ (p ≤ w → (s.improve w u).semi.get w ≤ p) ∧
      ∀ y, Ancestor flow.parent y p → w < y → (s.improve w u).semi.get w ≤ s.semi.get y := by
  obtain ⟨hsource, hself, habove⟩ := h.of_answer df hp answer
  have hsemi : (s.improve w u).semi.get w = min (s.semi.get w) (s.semi.get u) := by
    rw [improve_semi, if_pos rfl]
  refine ⟨⟨?_, ?_, ?_, ?_, ?_⟩, ?_, ?_⟩
  · rw [improve_forest, h.forest]
  · intro v hv
    rw [improve_semi, if_neg hv.ne, h.before v hv]
  · intro v hv
    rw [improve_semi, if_neg hv.ne']
    exact h.after v hv
  · rw [hsemi]
    exact (min_le_left _ _).trans h.le
  · rw [hsemi]
    rcases min_choice (s.semi.get w) (s.semi.get u) with hmin | hmin
    · rw [hmin]
      exact h.source
    · rw [hmin]
      exact hsource
  · intro hpw
    rw [hsemi]
    exact (min_le_right _ _).trans (hself hpw)
  · intro y hy hwy
    rw [hsemi]
    exact habove y hy hwy

private theorem Taking.lowered (h : Taking flow w s) (df : flow.DepthFirst)
    (hps : ∀ p ∈ ps, p ∈ flow.preds w) (lowered : Lowered w ps s s') :
    Taking flow w s' ∧ s'.idom = s.idom ∧ s'.waiting = s.waiting ∧
      (∀ v, v ≠ w → s'.semi.get v = s.semi.get v) ∧ s'.semi.get w ≤ s.semi.get w ∧
      ∀ p ∈ ps, (p ≤ w → s'.semi.get w ≤ p) ∧
        ∀ y, Ancestor flow.parent y p → w < y → s'.semi.get w ≤ s'.semi.get y := by
  induction lowered with
  | done s => exact ⟨h, rfl, rfl, fun _ _ => rfl, le_rfl, by simp⟩
  | @next p u ps s s' answer _ ih =>
    obtain ⟨taking, hself, habove⟩ := h.improve df (hps p List.mem_cons_self) answer
    obtain ⟨taking', hidom, hwaiting, hsemi, hle, hall⟩ :=
      ih taking fun q hq => hps q (List.mem_cons_of_mem p hq)
    have keep : ∀ v, v ≠ w → s'.semi.get v = s.semi.get v := by
      intro v hv
      rw [hsemi v hv, improve_semi, if_neg hv]
    refine ⟨taking', ?_, ?_, keep, ?_, ?_⟩
    · rw [hidom, improve_idom]
    · rw [hwaiting, improve_waiting]
    · refine hle.trans ?_
      rw [improve_semi, if_pos rfl]
      exact min_le_left _ _
    · intro q hq
      rcases List.mem_cons.1 hq with rfl | hq
      · refine ⟨fun hqw => hle.trans (hself hqw), ?_⟩
        intro y hy hwy
        rw [keep y hwy.ne']
        exact hle.trans (habove y hy hwy)
      · exact hall q hq

private theorem Taking.isSemi (h : Taking flow w s) (df : flow.DepthFirst) (hw : w ≠ 0)
    (all : ∀ p ∈ flow.preds w, (p ≤ w → s.semi.get w ≤ p) ∧
      ∀ y, Ancestor flow.parent y p → w < y → s.semi.get w ≤ s.semi.get y) :
    flow.IsSemi w (s.semi.get w) where
  detour := by
    have hlt := df.parent_lt w hw
    have hle := (all _ (df.parent_mem w hw)).1 hlt.le
    exact h.source.resolve_left (hle.trans_lt hlt).ne
  least := by
    intro x detour
    rcases (Flow.Detour.iff_preds df).1 detour with hx | ⟨p, hp, y, hy, hwy, detour⟩
    · rcases le_or_gt x w with hxw | hwx
      · exact (all x hx).1 hxw
      · exact h.le.trans hwx.le
    · exact ((all p hp).2 y hy hwy).trans ((h.after y hwy).least x detour)

/-- What holds when the numbers from `k` up are taken. The tables of semidominators and of
waiting numbers are determined; the candidates of settled numbers are fit, and all others are the
entry still. -/
structure Swept (flow : Flow n) (k : Nat) (s : Sweep Links n) : Prop where
  forest : s.forest = flow.links k
  before : ∀ v : Fin n, v.val < k → s.semi.get v = v
  after : ∀ v : Fin n, k ≤ v.val → flow.IsSemi v (s.semi.get v)
  waiting : ∀ d : Fin n, s.waiting.get d =
    if d.val < k then ((List.finRange n).drop k).filter fun v => (s.semi.get v) = d else []
  settled : ∀ v : Fin n, k ≤ (s.semi.get v).val → flow.Candidate v (s.idom.get v)
  unsettled : ∀ v : Fin n, (s.semi.get v).val < k → s.idom.get v = 0

private theorem Swept.taking (h : Swept flow (w.val + 1) s) :
    Taking flow w { s with waiting := s.waiting.set w [] w.isLt } where
  forest := h.forest
  before v hv := h.before v (Nat.lt_succ_of_lt hv)
  after v hv := h.after v hv
  le := le_of_eq (h.before w w.val.lt_succ_self)
  source := Or.inl (h.before w w.val.lt_succ_self)

theorem Swept.mem_waiting (h : Swept flow (w.val + 1) s) :
    v ∈ (s.waiting.get w) ↔ w < v ∧ s.semi.get v = w := by
  rw [h.waiting w, if_pos w.val.lt_succ_self, List.mem_filter, mem_drop_finRange,
    decide_eq_true_iff]
  rfl

private theorem Swept.waiting_wait {s'' : Sweep Links n} (h : Swept flow (w.val + 1) s)
    (hwaiting : s''.waiting = s.waiting.set w [] w.isLt)
    (hsemi : ∀ v, v ≠ w → s''.semi.get v = s.semi.get v)
    (hlt : s''.semi.get w < w) (d : Fin n) :
    (s''.wait w).waiting.get d =
      if d.val < w.val then ((List.finRange n).drop w.val).filter fun v => (s''.semi.get v) = d
      else [] := by
  have rows : ∀ e : Fin n, s''.waiting.get e = if e = w then [] else s.waiting.get e := by
    intro e
    rw [hwaiting, get_set]
  have later : ((List.finRange n).drop (w.val + 1)).filter (fun v => (s.semi.get v) = d) =
      ((List.finRange n).drop (w.val + 1)).filter fun v => (s''.semi.get v) = d := by
    refine List.filter_congr ?_
    intro v hv
    have hwv : v ≠ w := by
      rintro rfl
      exact absurd (mem_drop_finRange.1 hv) (Nat.not_succ_le_self _)
    rw [hsemi v hwv]
  simp only [wait, get_set, rows]
  by_cases hd : d < w
  · rw [if_pos (show d.val < w.val from hd), drop_finRange, List.filter_cons, ← later]
    have row : s.waiting.get d =
        ((List.finRange n).drop (w.val + 1)).filter fun v => (s.semi.get v) = d := by
      rw [h.waiting d, if_pos (Nat.lt_succ_of_lt hd)]
    by_cases hwd : d = s''.semi.get w
    · rw [if_pos hwd, if_neg (hwd ▸ hd.ne), ← hwd, row]
      simp
    · rw [if_neg hwd, if_neg hd.ne, row, if_neg (by simpa using Ne.symm hwd)]
  · have hwd : d ≠ s''.semi.get w := fun heq => hd (heq ▸ hlt)
    rw [if_neg (show ¬ d.val < w.val from hd), if_neg hwd]
    by_cases hdw : d = w
    · rw [if_pos hdw]
    · rw [if_neg hdw, h.waiting d, if_neg]
      have hne : d.val ≠ w.val := fun h => hdw (Fin.ext h)
      have hle : ¬ d.val < w.val := hd
      omega

private theorem Swept.candidates {semi idom : Vector (Fin n) n} (h : Swept flow (w.val + 1) s)
    (hsemi : ∀ v, v ≠ w → semi.get v = s.semi.get v) (hlt : semi.get w < w)
    (fit : ∀ v ∈ s.waiting.get w, flow.Candidate v (idom.get v))
    (keep : ∀ v, v ∉ s.waiting.get w → idom.get v = s.idom.get v) :
    (∀ v, w ≤ semi.get v → flow.Candidate v (idom.get v)) ∧
      ∀ v, semi.get v < w → idom.get v = 0 := by
  constructor
  · intro v hv
    have hvw : v ≠ w := by
      rintro rfl
      exact absurd hlt (not_lt_of_ge hv)
    rw [hsemi v hvw] at hv
    rcases hv.eq_or_lt with heq | hgt
    · have hwv : w < v := by
        by_contra hle
        have hlt' : v < w := lt_of_le_of_ne (le_of_not_gt hle) hvw
        rw [h.before v (Nat.lt_succ_of_lt hlt')] at heq
        exact hvw heq.symm
      exact fit v (h.mem_waiting.2 ⟨hwv, heq.symm⟩)
    · rw [keep v fun hmem => hgt.ne' (h.mem_waiting.1 hmem).2]
      exact h.settled v hgt
  · intro v hv
    have hle : (s.semi.get v).val < w.val + 1 := by
      by_cases hvw : v = w
      · rw [hvw, h.before w w.val.lt_succ_self]
        exact w.val.lt_succ_self
      · rw [hsemi v hvw] at hv
        exact Nat.lt_succ_of_lt hv
    have hnot : v ∉ s.waiting.get w := by
      intro hmem
      obtain ⟨hwv, hv'⟩ := h.mem_waiting.1 hmem
      rw [hsemi v hwv.ne', hv'] at hv
      exact lt_irrefl w hv
    rw [keep v hnot]
    exact h.unsettled v hle

/-- Taking one number keeps what holds, whatever the answers are. -/
private theorem Swept.take {s'' : Sweep Links n} (h : Swept flow (w.val + 1) s)
    (df : flow.DepthFirst) (hw : w ≠ 0)
    (settled : Settled w (s.waiting.get w) { s with waiting := s.waiting.set w [] w.isLt } s')
    (lowered : Lowered w (flow.preds w) s' s'') :
    Swept flow w.val ((s''.wait w).hang (flow.parent w) w) := by
  obtain ⟨semi₁, forest₁, waiting₁, fit, keep⟩ :=
    h.taking.settled df (h.before w w.val.lt_succ_self) (fun v hv => h.mem_waiting.1 hv) settled
  have taking₁ : Taking flow w s' := by
    obtain ⟨hforest, hbefore, hafter, hle, hsource⟩ := h.taking
    constructor <;> simp only [semi₁, forest₁] <;> assumption
  obtain ⟨taking₂, idom₂, waiting₂, semi₂, -, all⟩ :=
    taking₁.lowered df (fun _ hp => hp) lowered
  have isSemi := taking₂.isSemi df hw all
  have hlt : s''.semi.get w < w := df.lt_of_isSemi isSemi hw
  have hsemi : ∀ v, v ≠ w → s''.semi.get v = s.semi.get v := by
    intro v hv
    rw [semi₂ v hv, semi₁]
  rw [← idom₂] at fit keep
  obtain ⟨fit', unsettled⟩ := h.candidates hsemi hlt fit keep
  refine ⟨?_, taking₂.before, ?_, ?_, fit', unsettled⟩
  · change Function.update s''.forest w _ = _
    rw [taking₂.forest, flow.update_links]
  · intro v hv
    rcases (show w ≤ v from hv).eq_or_lt with rfl | hwv
    · exact isSemi
    · exact taking₂.after v hwv
  · exact h.waiting_wait (waiting₂.trans waiting₁) hsemi hlt

/-- Every free sweep has computed what it should at every number. -/
theorem FreeRun.swept {k : Nat} (run : FreeRun flow k s) (df : flow.DepthFirst) :
    Swept flow k s := by
  induction run with
  | start =>
    refine ⟨flow.links_length.symm, ?_, ?_, ?_, ?_, ?_⟩
    · intro v _
      simp
    · intro v hv
      exact absurd v.isLt (Nat.not_lt_of_le hv)
    · intro d
      have hnil : (List.finRange n).drop n = [] := List.drop_eq_nil_of_le (by simp)
      simp [hnil]
    · intro v hv
      exact absurd (Fin.isLt _) (Nat.not_lt_of_le hv)
    · intro v _
      simp
  | take hw _ settled lowered ih => exact ih.take df hw settled lowered

end Sweep

end FlowGraph

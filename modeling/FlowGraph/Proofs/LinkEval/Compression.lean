import FlowGraph.Proofs.Index.Rows
import FlowGraph.Proofs.LinkEval.Ascent
/-!
What compression leaves alone. A shortcut drops one node from the ways up that pass through it
and puts the lesser of two labels in its place, so every way up keeps its root and the least label
on it. Compression is a run of shortcuts from the root down; afterwards the node asked for stands
directly below its root, and its label is the least of its former way up.
-/

set_option autoImplicit false

namespace FlowGraph

namespace PathForest

variable {n : Nat}

def up (f : PathForest n) (v : Fin n) : Option (Fin n) := f.ancestor.get v

def labels (f : PathForest n) (path : List (Fin n)) : List (Fin n) := path.map f.label.get

@[simp] theorem labels_nil (f : PathForest n) : f.labels [] = [] := rfl

@[simp] theorem labels_cons (f : PathForest n) (v : Fin n) (path : List (Fin n)) :
    f.labels (v :: path) = (f.label.get v) :: f.labels path := rfl

@[simp] theorem labels_append (f : PathForest n) (path rest : List (Fin n)) :
    f.labels (path ++ rest) = f.labels path ++ f.labels rest := List.map_append

theorem mem_labels {f : PathForest n} {path : List (Fin n)} {x : Fin n} :
    x ∈ f.labels path ↔ ∃ y ∈ path, f.label.get y = x := List.mem_map

theorem labels_congr {f g : PathForest n} {path : List (Fin n)}
    (h : ∀ y ∈ path, g.label.get y = f.label.get y) : g.labels path = f.labels path :=
  List.map_congr_left h

@[simp] theorem up_singletons (v : Fin n) : (singletons n).up v = none := by
  simp [up, singletons]

@[simp] theorem label_singletons (v : Fin n) : (singletons n).label.get v = v := by
  simp [singletons]

theorem isRoot_iff (f : PathForest n) (v : Fin n) : f.isRoot v = true ↔ f.up v = none := by
  simp [isRoot, up]

theorem up_shortcut (semi : Fin n → Nat) {f : PathForest n} {v a : Fin n} (h : f.up v = some a) :
    (f.shortcut semi v).up = Function.update f.up v (f.up a) := by
  have h' : f.ancestor.get v = some a := h
  funext y
  simp only [up, shortcut, h', Function.update_apply, get_set]

theorem label_shortcut (semi : Fin n → Nat) {f : PathForest n} {v a : Fin n} (h : f.up v = some a)
    (y : Fin n) : (f.shortcut semi v).label.get y =
      if y = v then lesser semi (f.label.get a) (f.label.get v) else f.label.get y := by
  have h' : f.ancestor.get v = some a := h
  simp only [shortcut, h', get_set]

/-- Another form of a forest: the same roots with the same labels, and for every way up one to
the same root with the same least label, the first of several. No label is new. -/
structure Reshaped (semi : Fin n → Nat) (f g : PathForest n) : Prop where
  root_iff : ∀ y, g.up y = none ↔ f.up y = none
  ascent : ∀ {y r : Fin n} {path : List (Fin n)}, Ascent f.up y path r → ∃ path',
    Ascent g.up y path' r ∧ (g.labels path').argmin semi = (f.labels path).argmin semi
  label_root : ∀ r, f.up r = none → g.label.get r = f.label.get r
  label_old : ∀ y, f.up y ≠ none → ∃ z, f.up z ≠ none ∧ g.label.get y = f.label.get z

private theorem Reshaped.refl (semi : Fin n → Nat) (f : PathForest n) : Reshaped semi f f where
  root_iff _ := Iff.rfl
  ascent h := ⟨_, h, rfl⟩
  label_root _ _ := rfl
  label_old y hy := ⟨y, hy, rfl⟩

private theorem Reshaped.trans {semi : Fin n → Nat} {f g k : PathForest n} (h : Reshaped semi f g)
    (h' : Reshaped semi g k) : Reshaped semi f k where
  root_iff y := (h'.root_iff y).trans (h.root_iff y)
  ascent way := by
    obtain ⟨path', way', hmin⟩ := h.ascent way
    obtain ⟨path'', way'', hmin'⟩ := h'.ascent way'
    exact ⟨path'', way'', hmin'.trans hmin⟩
  label_root r hr := (h'.label_root r ((h.root_iff r).2 hr)).trans (h.label_root r hr)
  label_old y hy := by
    obtain ⟨z, hz, hzy⟩ := h'.label_old y (mt (h.root_iff y).1 hy)
    obtain ⟨x, hx, hxz⟩ := h.label_old z (mt (h.root_iff z).2 hz)
    exact ⟨x, hx, hzy.trans hxz⟩

theorem ascent_shortcut (semi : Fin n → Nat) {f : PathForest n} {v a b : Fin n}
    (hv : f.up v = some a) (ha : f.up a = some b) {y r : Fin n} {path : List (Fin n)}
    (way : Ascent f.up y path r) : ∃ path', Ascent (f.shortcut semi v).up y path' r ∧
      path'.length ≤ path.length ∧
      ((f.shortcut semi v).labels path').argmin semi = (f.labels path).argmin semi := by
  have hup := up_shortcut semi hv
  have hlabel := label_shortcut semi hv
  induction way with
  | @root y h =>
    have hne : y ≠ v := by
      rintro rfl
      simp [h] at hv
    refine ⟨[], Ascent.root ?_, le_rfl, rfl⟩
    rw [hup, Function.update_of_ne hne, h]
  | @step y c r path h rest ih =>
    obtain ⟨path', way', hle, hmin⟩ := ih
    by_cases hyv : y = v
    · -- the way up from `v` leaves out `a`
      subst hyv
      obtain rfl := Option.some.inj (hv.symm.trans h)
      have hne : a ≠ y := by
        rintro rfl
        exact absurd (rest.unique (Ascent.step h rest)).1 (by simp)
      rw [hup, ha] at way'
      cases way' with
      | root h' => simp [Function.update_of_ne hne, ha] at h'
      | @step _ c _ path' h' rest' =>
        rw [Function.update_of_ne hne, ha] at h'
        obtain rfl := Option.some.inj h'
        rw [List.length_cons] at hle
        refine ⟨y :: path', Ascent.step (a := b) ?_ ?_, ?_, ?_⟩
        · rw [hup, Function.update_self, ha]
        · rw [hup, ha]
          exact rest'
        · rw [List.length_cons, List.length_cons]
          omega
        · rw [labels_cons, hlabel a, if_neg hne] at hmin
          rw [labels_cons, hlabel y, if_pos rfl, argmin_lesser_cons, labels_cons]
          exact argmin_cons_congr _ hmin
    · refine ⟨y :: path', Ascent.step ?_ way', ?_, ?_⟩
      · rw [hup, Function.update_of_ne hyv, h]
      · exact Nat.succ_le_succ hle
      · rw [labels_cons, labels_cons, hlabel y, if_neg hyv]
        exact argmin_cons_congr _ hmin

private theorem reshaped_shortcut (semi : Fin n → Nat) {f : PathForest n} {v a b : Fin n}
    (hv : f.up v = some a) (ha : f.up a = some b) : Reshaped semi f (f.shortcut semi v) where
  root_iff y := by
    rw [up_shortcut semi hv]
    by_cases hy : y = v
    · subst hy
      simp [hv, ha]
    · rw [Function.update_of_ne hy]
  ascent way := by
    obtain ⟨path', way', -, hmin⟩ := ascent_shortcut semi hv ha way
    exact ⟨path', way', hmin⟩
  label_root r hr := by
    have hne : r ≠ v := by
      rintro rfl
      simp [hr] at hv
    rw [label_shortcut semi hv, if_neg hne]
  label_old y hy := by
    rw [label_shortcut semi hv]
    split
    · unfold lesser
      split
      · exact ⟨a, by simp [ha], rfl⟩
      · exact ⟨v, by simp [hv], rfl⟩
    · exact ⟨y, hy, rfl⟩

theorem climb_eq {f : PathForest n} {v r : Fin n} {path : List (Fin n)}
    (way : Ascent f.up v path r) {steps : Nat} (hsteps : path.length ≤ steps)
    (below : List (Fin n)) : f.climb steps v below = path.dropLast.reverse ++ below := by
  induction way generalizing steps below with
  | @root v h =>
    have h' : f.ancestor.get v = none := h
    cases steps with
    | zero => rfl
    | succ steps => simp only [climb, h', List.dropLast_nil, List.reverse_nil, List.nil_append]
  | @step v a r path h rest ih =>
    have h' : f.ancestor.get v = some a := h
    cases steps with
    | zero => simp at hsteps
    | succ steps =>
      have hle : path.length ≤ steps := by
        rw [List.length_cons] at hsteps
        omega
      simp only [climb, h']
      cases rest with
      | root ha => simp [(f.isRoot_iff a).2 ha]
      | @step _ b _ path ha rest =>
        have hroot : ¬ f.isRoot a = true := by simp [isRoot_iff, ha]
        rw [if_neg hroot, ih hle, List.dropLast_cons_of_ne_nil (List.cons_ne_nil a path)]
        simp

theorem compress_eq (semi : Fin n → Nat) {f : PathForest n} {v r : Fin n} {path : List (Fin n)}
    (way : Ascent f.up v path r) : f.compress semi v =
      path.dropLast.foldr (fun x g => g.shortcut semi x) f := by
  rw [compress, climb_eq way way.length_lt.le, List.append_nil, List.foldl_reverse]

private theorem compress_spec (semi : Fin n → Nat) {f : PathForest n} {v r : Fin n}
    {path : List (Fin n)} (way : Ascent f.up v path r) :
    Reshaped semi f (f.compress semi v) ∧
      (∀ y ∉ path.dropLast, (f.compress semi v).up y = f.up y) ∧
      (path ≠ [] → (f.compress semi v).up v = some r) := by
  rw [compress_eq semi way]
  induction way with
  | root _ => exact ⟨Reshaped.refl semi f, fun _ _ => rfl, fun h => absurd rfl h⟩
  | @step v a r path h rest ih =>
    obtain ⟨hsame, hkeep, htop⟩ := ih
    cases rest with
    | root _ => exact ⟨Reshaped.refl semi f, fun _ _ => rfl, fun _ => h⟩
    | @step _ b _ path ha rest =>
      -- first the rest of the way is compressed, then `v` is cut short
      rw [List.dropLast_cons_of_ne_nil (List.cons_ne_nil a path), List.foldr_cons]
      generalize (a :: path).dropLast.foldr (fun x g => g.shortcut semi x) f = g at *
      have hnodup := (Ascent.step h (Ascent.step ha rest)).nodup
      have hv : g.up v = some a := by
        rw [hkeep v, h]
        intro hmem
        refine (List.nodup_cons.1 hnodup).1 ?_
        exact List.mem_append_left _ (List.dropLast_subset _ hmem)
      have hr : g.up a = some r := htop (List.cons_ne_nil a path)
      have hup := up_shortcut semi hv
      refine ⟨hsame.trans (reshaped_shortcut semi hv hr), ?_, ?_⟩
      · intro y hy
        rw [List.mem_cons, not_or] at hy
        rw [hup, Function.update_of_ne hy.1, hkeep y hy.2]
      · intro _
        rw [hup, Function.update_self, hr]

theorem reshaped_compress (semi : Fin n → Nat) {f : PathForest n} {v r : Fin n}
    {path : List (Fin n)} (way : Ascent f.up v path r) : Reshaped semi f (f.compress semi v) :=
  (compress_spec semi way).1

theorem up_compress (semi : Fin n → Nat) {f : PathForest n} {v r : Fin n} {path : List (Fin n)}
    (way : Ascent f.up v path r) (hne : v ≠ r) : (f.compress semi v).up v = some r :=
  (compress_spec semi way).2.2 (List.ne_nil_of_mem (way.start_mem hne))

private theorem up_compress_of_notMem (semi : Fin n → Nat) {f : PathForest n} {v r y : Fin n}
    {path : List (Fin n)} (way : Ascent f.up v path r) (hy : y ∉ path) :
    (f.compress semi v).up y = f.up y :=
  (compress_spec semi way).2.1 y fun hmem => hy (List.dropLast_subset _ hmem)

theorem compress_of_root (semi : Fin n → Nat) {f : PathForest n} {v : Fin n}
    (hv : f.up v = none) : f.compress semi v = f := by
  rw [compress_eq semi (Ascent.root hv), List.dropLast_nil, List.foldr_nil]

theorem compress_below_root (semi : Fin n → Nat) {f : PathForest n} {v a : Fin n}
    (hv : f.up v = some a) (ha : f.up a = none) : f.compress semi v = f := by
  rw [compress_eq semi (Ascent.step hv (Ascent.root ha)), List.dropLast_singleton,
    List.foldr_nil]

/-- Compression is a recursion on the way up: first the way of the ancestor is compressed. -/
theorem compress_step (semi : Fin n → Nat) {f : PathForest n} {v a b r : Fin n}
    {path : List (Fin n)} (hv : f.up v = some a) (ha : f.up a = some b)
    (rest : Ascent f.up b path r) :
    f.compress semi v = (f.compress semi a).shortcut semi v ∧
      (f.compress semi a).up v = some a ∧ (f.compress semi a).up a = some r := by
  have way := Ascent.step ha rest
  have hne : a ≠ r := by
    rintro rfl
    simp [way.top] at ha
  have hnot : v ∉ a :: path := by
    have hnodup := (Ascent.step hv way).nodup
    rw [List.cons_append] at hnodup
    exact fun hmem => (List.nodup_cons.1 hnodup).1 (List.mem_append_left _ hmem)
  refine ⟨?_, (up_compress_of_notMem semi way hnot).trans hv, up_compress semi way hne⟩
  rw [compress_eq semi (Ascent.step hv way), compress_eq semi way,
    List.dropLast_cons_of_ne_nil (List.cons_ne_nil a path), List.foldr_cons]

/-- What holds of a forest and is kept by every shortcut past a node that is no root holds of the
forest after compression. -/
theorem compress_induction {P : PathForest n → Prop} (semi : Fin n → Nat) {f : PathForest n}
    {v r : Fin n} {path : List (Fin n)} (way : Ascent f.up v path r) (start : P f)
    (step : ∀ (g : PathForest n) (x a b : Fin n), g.up x = some a → g.up a = some b → P g →
      P (g.shortcut semi x)) : P (f.compress semi v) := by
  induction way with
  | root hv => rwa [compress_of_root semi hv]
  | @step v a r path hv rest ih =>
    cases rest with
    | root ha => rwa [compress_below_root semi hv ha]
    | @step _ b _ path ha rest =>
      obtain ⟨heq, hva, har⟩ := compress_step semi hv ha rest
      rw [heq]
      exact step _ v a r hva har ih

theorem argmin_labels_compress (semi : Fin n → Nat) {f : PathForest n} {v r : Fin n}
    {path : List (Fin n)} (way : Ascent f.up v path r) (hne : v ≠ r) :
    (f.labels path).argmin semi = some ((f.compress semi v).label.get v) := by
  have hsame := reshaped_compress semi way
  obtain ⟨path', way', hmin⟩ := hsame.ascent way
  have htop : (f.compress semi v).up r = none := (hsame.root_iff r).2 way.top
  have hway := Ascent.step (up_compress semi way hne) (Ascent.root htop)
  obtain ⟨rfl, -⟩ := way'.unique hway
  rw [← hmin]
  rfl

end PathForest

end FlowGraph

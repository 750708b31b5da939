import FlowGraph.Text.Blank
/-!
Cutting text. `pieces` cuts at every character of a class, so that a text with `n` of them has
`n + 1` pieces, some perhaps empty. Lines and tokens are pieces.
-/

set_option autoImplicit false

namespace FlowGraph.Text

/-- A character in front of pieces: it ends a piece if it cuts, and else begins the first. -/
def addFront (cuts : Char → Bool) (c : Char) : List (List Char) → List (List Char)
  | [] => [[c]]
  | p :: ps => if cuts c then [] :: p :: ps else (c :: p) :: ps

/-- The pieces of a text, cut at every character of a class. -/
def pieces (cuts : Char → Bool) (text : List Char) : List (List Char) :=
  text.foldr (addFront cuts) [[]]

/-- The lines of a text, which only the line feed ends. -/
def lines (text : List Char) : List (List Char) := pieces (· == '\n') text

/-- The runs of characters that are not blank. -/
def tokens (text : List Char) : List (List Char) :=
  (pieces isBlank text).filter fun token => !token.isEmpty

def trimmed (text : List Char) : List Char :=
  ((text.dropWhile isBlank).reverse.dropWhile isBlank).reverse

@[simp] theorem pieces_nil (cuts : Char → Bool) : pieces cuts [] = [[]] := rfl

private theorem pieces_ne_nil (cuts : Char → Bool) (text : List Char) : pieces cuts text ≠ [] := by
  cases text with
  | nil => simp
  | cons c cs =>
    rw [pieces, List.foldr_cons]
    unfold addFront
    split
    · simp
    · split <;> simp

theorem pieces_cons_cut {cuts : Char → Bool} {c : Char} (h : cuts c = true) (cs : List Char) :
    pieces cuts (c :: cs) = [] :: pieces cuts cs := by
  have hne := pieces_ne_nil cuts cs
  unfold pieces at hne ⊢
  rw [List.foldr_cons]
  cases hp : cs.foldr (addFront cuts) [[]] with
  | nil => exact absurd hp hne
  | cons p ps => simp [addFront, h]

theorem pieces_cons_keep {cuts : Char → Bool} {c : Char} (h : cuts c = false) (cs : List Char) :
    ∃ p ps, pieces cuts cs = p :: ps ∧ pieces cuts (c :: cs) = (c :: p) :: ps := by
  have hne := pieces_ne_nil cuts cs
  unfold pieces at hne ⊢
  cases hp : cs.foldr (addFront cuts) [[]] with
  | nil => exact absurd hp hne
  | cons p ps => exact ⟨p, ps, rfl, by simp [addFront, h, hp]⟩

theorem not_cuts_of_mem_pieces (cuts : Char → Bool) (text : List Char) :
    ∀ p ∈ pieces cuts text, ∀ c ∈ p, cuts c = false := by
  induction text with
  | nil => simp
  | cons c cs ih =>
    cases h : cuts c with
    | true =>
      rw [pieces_cons_cut h]
      intro p hp
      rcases List.mem_cons.1 hp with rfl | hp
      · simp
      · exact ih p hp
    | false =>
      obtain ⟨p, ps, hps, hcons⟩ := pieces_cons_keep h cs
      rw [hcons]
      rw [hps] at ih
      intro q hq
      rcases List.mem_cons.1 hq with rfl | hq
      · intro d hd
        rcases List.mem_cons.1 hd with rfl | hd
        · exact h
        · exact ih p List.mem_cons_self d hd
      · exact ih q (List.mem_cons_of_mem _ hq)

end FlowGraph.Text

import FlowGraph.Proofs.Source.Denotation
import Mathlib.Order.Bounds.Basic
/-!
The grammar of source texts. It is said of the tokens of each line, apart from how a line is read:
which lines there may be, that no two may declare the entry, and what is wrong with each other
line. The reader accepts exactly these texts, and else reports the first line at fault.
-/

set_option autoImplicit false

namespace FlowGraph

namespace Text

theorem pieces_eq_splitOnP (cuts : Char → Bool) (text : List Char) :
    pieces cuts text = text.splitOnP cuts := by
  induction text with
  | nil => rfl
  | cons c cs ih =>
    rw [List.splitOnP_cons_eq_if_modifyHead, ← ih]
    cases h : cuts c with
    | true => exact pieces_cons_cut h cs
    | false =>
      obtain ⟨p, ps, hps, hcons⟩ := pieces_cons_keep h cs
      rw [hcons, hps]
      rfl

/-- The tokens of a line, which stand apart by white space, up to the first number sign. -/
def row (line : List Char) : List String :=
  (((line.takeWhile (· != '#')).splitOnP isBlank).filter (· ≠ [])).map String.ofList

/-- The tokens of the lines of a source text, which line feeds separate. -/
def rows (source : String) : List (List String) := (source.toList.splitOn '\n').map row

theorem map_row_lines (source : String) : (lines source.toList).map row = rows source := by
  rw [lines, pieces_eq_splitOnP, rows, List.splitOn]

end Text

namespace Statement

inductive Good : List String → Prop
  | blank : Good []
  | edges {tail : String} {heads : List String} (htail : tail ≠ "->") (hheads : "->" ∉ heads) :
      Good (tail :: "->" :: heads)
  | entry (name : String) : Good ["entry", name]
  | vertex {name : String} (hname : name ≠ "->") : Good [name]

inductive Declares : List String → Prop
  | entry {name : String} (hname : name ≠ "->") : Declares ["entry", name]

inductive FaultOf : List String → Fault → Prop
  | arrow {name : String} (hname : name = "->") : FaultOf [name] (.invalidName name)
  | arrows {tail : String} {heads : List String} (again : tail = "->" ∨ "->" ∈ heads) :
      FaultOf (tail :: "->" :: heads) (.invalidName "->")
  | malformed {second third : String} {rest : List String} (hsecond : second ≠ "->") :
      FaultOf ("entry" :: second :: third :: rest) .malformedEntry
  | duplicate {name : String} (hname : name ≠ "->") : FaultOf ["entry", name] .duplicateEntry
  | other {first second : String} {rest : List String} (hfirst : first ≠ "entry")
      (hsecond : second ≠ "->") : FaultOf (first :: second :: rest) (.expectedArrow first second)

variable {row : List String} {before after : List (List String)}

private theorem FaultOf.unique {fault fault' : Fault} (h : FaultOf row fault)
    (h' : FaultOf row fault') :
    fault = fault' := by
  cases h <;> cases h' <;> first | rfl | contradiction

private theorem Declares.fault (h : Declares row) : FaultOf row .duplicateEntry := by
  cases h with
  | entry hname => exact FaultOf.duplicate hname

private theorem FaultOf.not_good {fault : Fault} (h : FaultOf row fault)
    (own : fault ≠ .duplicateEntry) : ¬ Good row := by
  intro good
  cases h with
  | arrow hname =>
    cases good with
    | vertex hgood => exact hgood hname
  | arrows again =>
    cases good with
    | edges htail hheads => exact again.elim htail hheads
    | entry => simp at again
  | malformed hsecond =>
    cases good with
    | edges => exact hsecond rfl
  | duplicate => exact own rfl
  | other hfirst hsecond =>
    cases good with
    | edges => exact hsecond rfl
    | entry => exact hfirst rfl

theorem ofLine_eq (line : List Char) : ofLine line = ofTokens (Text.row line) := by
  have tokens : Text.tokens (line.takeWhile (· != '#')) =
      ((line.takeWhile (· != '#')).splitOnP Text.isBlank).filter (· ≠ []) := by
    rw [Text.tokens, Text.pieces_eq_splitOnP]
    congr 1
    funext token
    cases token <;> rfl
  rw [ofLine, tokens, Text.row]

/-- The tokens of a line make a statement of the grammar, or show the fault of the line. -/
private theorem ofTokens_spec (row : List String) :
    (∃ s, ofTokens row = .ok s ∧ Good row ∧ (s.declared?.isSome = true ↔ Declares row)) ∨
      ∃ fault, ofTokens row = .error fault ∧ FaultOf row fault ∧ fault ≠ .duplicateEntry := by
  match row with
  | [] => exact .inl ⟨.blank, rfl, Good.blank, nofun, nofun⟩
  | [name] =>
    by_cases hname : name = "->"
    · exact .inr ⟨_, if_pos hname, FaultOf.arrow hname, nofun⟩
    · exact .inl ⟨_, if_neg hname, Good.vertex hname, nofun, nofun⟩
  | first :: second :: rest =>
    rw [ofTokens, arrow, entryWord]
    by_cases hsecond : second = "->"
    · subst hsecond
      rw [if_pos rfl]
      by_cases again : first = "->" ∨ "->" ∈ rest
      · exact .inr ⟨_, if_pos again, FaultOf.arrows again, nofun⟩
      · have good : Good (first :: "->" :: rest) :=
          Good.edges (fun h => again (.inl h)) fun h => again (.inr h)
        refine .inl ⟨_, if_neg again, good, nofun, ?_⟩
        rintro ⟨hname⟩
        exact absurd rfl hname
    · rw [if_neg hsecond]
      by_cases hfirst : first = "entry"
      · subst hfirst
        rw [if_pos rfl]
        cases rest with
        | nil =>
          have declares := Declares.entry hsecond
          exact .inl ⟨_, if_pos rfl, Good.entry second, fun _ => declares, fun _ => rfl⟩
        | cons third rest =>
          exact .inr ⟨_, if_neg (List.cons_ne_nil third rest), FaultOf.malformed hsecond, nofun⟩
      · rw [if_neg hfirst]
        exact .inr ⟨_, rfl, FaultOf.other hfirst hsecond, nofun⟩

/-- The texts of the grammar: each line is good, and at most one declares the entry. -/
structure Accepted (rows : List (List String)) : Prop where
  good : ∀ row ∈ rows, Good row
  once : rows.Pairwise fun row row' => ¬ (Declares row ∧ Declares row')

/-- A line that may not follow the lines before it. -/
def Refused (before : List (List String)) (row : List String) : Prop :=
  ¬ Good row ∨ Declares row ∧ ∃ r ∈ before, Declares r

/-- A line at fault, by its number from 0: it is not good, or declares the entry again. -/
def Offends (rows : List (List String)) (i : Nat) : Prop :=
  ∃ row, rows[i]? = some row ∧ Refused (rows.take i) row

private theorem accepted_nil : Accepted [] := ⟨nofun, List.Pairwise.nil⟩

private theorem Accepted.of_append (h : Accepted (before ++ after)) : Accepted before where
  good row hrow := h.good row (List.mem_append_left after hrow)
  once := (List.pairwise_append.1 h.once).1

private theorem accepted_concat :
    Accepted (before ++ [row]) ↔ Accepted before ∧ ¬ Refused before row := by
  constructor
  · intro h
    refine ⟨h.of_append, ?_⟩
    rintro (bad | ⟨again, r, hr, first⟩)
    · exact bad (h.good row (List.mem_append_right before (List.mem_singleton_self row)))
    · have new := List.mem_singleton_self row
      exact (List.pairwise_append.1 h.once).2.2 r hr row new ⟨first, again⟩
  · rintro ⟨h, notRefused⟩
    refine ⟨fun r hr => ?_, List.pairwise_append.2 ⟨h.once, List.pairwise_singleton _ row, ?_⟩⟩
    · rcases List.mem_append.1 hr with hr | hr
      · exact h.good r hr
      · obtain rfl := List.mem_singleton.1 hr
        exact of_not_not fun bad => notRefused (.inl bad)
    · intro r hr r' hr' ⟨first, again⟩
      obtain rfl := List.mem_singleton.1 hr'
      exact notRefused (.inr ⟨again, r, hr, first⟩)

private theorem offends_append {i : Nat} (hlt : i < before.length) :
    Offends (before ++ after) i ↔ Offends before i := by
  rw [Offends, List.getElem?_append_left hlt, List.take_append_of_le_length (Nat.le_of_lt hlt),
    Offends]

private theorem offends_append_cons :
    Offends (before ++ row :: after) before.length ↔ Refused before row := by
  simp [Offends]

theorem Accepted.not_offends (h : Accepted before) (i : Nat) : ¬ Offends before i := by
  rintro ⟨row, hrow, refused⟩
  rw [← List.take_append_drop (i + 1) before, List.take_add_one, hrow] at h
  exact (accepted_concat.1 h.of_append).2 refused

private theorem isLeast_offends (h : Accepted before) (refused : Refused before row) :
    IsLeast {i | Offends (before ++ row :: after) i} before.length := by
  refine ⟨offends_append_cons.2 refused, fun i offends => Nat.le_of_not_lt fun hlt => ?_⟩
  exact h.not_offends i ((offends_append hlt).1 offends)

end Statement

namespace NamedGraph

open Statement

variable {g : NamedGraph} {before : List (List String)}

private theorem apply_spec (g : NamedGraph) (s : Statement) :
    (∃ g', g.apply s = .ok g' ∧ ¬ (g.declared.isSome = true ∧ s.declared?.isSome = true) ∧
      (g'.declared.isSome = true ↔ g.declared.isSome = true ∨ s.declared?.isSome = true)) ∨
    g.apply s = .error .duplicateEntry ∧ g.declared.isSome = true ∧ s.declared?.isSome = true := by
  cases s with
  | blank => exact .inl ⟨g, rfl, by simp [declared?], by simp [declared?]⟩
  | vertex name =>
    refine .inl ⟨_, rfl, by simp [declared?], ?_⟩
    rw [(grows_ensure g name).declared_eq]
    simp [declared?]
  | edges tail heads =>
    refine .inl ⟨_, rfl, by simp [declared?], ?_⟩
    change ((g.ensure tail).2.ensureAll heads).2.declared.isSome = true ↔ _
    rw [((grows_ensure g tail).trans (grows_ensureAll _ heads)).declared_eq]
    simp [declared?]
  | entry name =>
    by_cases hdeclared : g.declared.isSome = true
    · exact .inr ⟨if_pos hdeclared, hdeclared, rfl⟩
    · exact .inl ⟨_, if_neg hdeclared, fun both => hdeclared both.1, by simp [declared?]⟩

structure Reads (g : NamedGraph) (before : List (List String)) : Prop where
  accepted : Accepted before
  declared : g.declared.isSome = true ↔ ∃ row ∈ before, Declares row

private theorem reads_empty : ({} : NamedGraph).Reads [] := ⟨accepted_nil, nofun, nofun⟩

private theorem Reads.line (h : g.Reads before) (text : List Char) :
    (∃ g', (ofLine text >>= g.apply) = .ok g' ∧ g'.Reads (before ++ [Text.row text])) ∨
      ∃ fault, (ofLine text >>= g.apply) = .error fault ∧ Refused before (Text.row text) ∧
        FaultOf (Text.row text) fault := by
  rw [ofLine_eq]
  obtain ⟨s, hs, good, declares⟩ | ⟨fault, hfault, isFault, own⟩ := ofTokens_spec (Text.row text)
  · obtain ⟨g', hg', notTwice, declared⟩ | ⟨twice, old, new⟩ := g.apply_spec s
    · refine .inl ⟨g', by rw [hs]; exact hg', accepted_concat.2 ⟨h.accepted, ?_⟩, ?_⟩
      · rintro (bad | ⟨again, first⟩)
        · exact bad good
        · exact notTwice ⟨h.declared.2 first, declares.2 again⟩
      · rw [declared, h.declared, declares]
        simp [or_and_right, exists_or]
    · have again := declares.1 new
      exact .inr ⟨_, by rw [hs]; exact twice, .inr ⟨again, h.declared.1 old⟩, again.fault⟩
  · exact .inr ⟨fault, by rw [hfault]; rfl, .inl (isFault.not_good own), isFault⟩

private theorem Reads.applyLines (h : g.Reads before) (texts : List (List Char)) :
    (∃ g', g.applyLines before.length texts = .ok g' ∧
      g'.Reads (before ++ texts.map Text.row)) ∨
    ∃ mid row after fault, texts.map Text.row = mid ++ row :: after ∧
      g.applyLines before.length texts = .error { fault, line := (before ++ mid).length } ∧
      Accepted (before ++ mid) ∧ Refused (before ++ mid) row ∧ FaultOf row fault := by
  induction texts generalizing g before with
  | nil => exact .inl ⟨g, rfl, by rwa [List.map_nil, List.append_nil]⟩
  | cons text texts ih =>
    rw [NamedGraph.applyLines, List.map_cons]
    obtain ⟨g', hg', next⟩ | ⟨fault, hfault, refused, isFault⟩ := h.line text
    · rw [hg']
      have rest := ih next
      rw [List.length_append, List.length_singleton] at rest
      obtain ⟨g'', hg'', reads⟩ | ⟨mid, row, after, fault, hsplit, herror, stopped⟩ := rest
      · rw [List.append_assoc, List.singleton_append] at reads
        exact .inl ⟨g'', hg'', reads⟩
      · rw [List.append_assoc, List.singleton_append] at herror stopped
        refine .inr ⟨Text.row text :: mid, row, after, fault, ?_, herror, stopped⟩
        rw [hsplit, List.cons_append]
    · rw [hfault]
      refine .inr ⟨[], Text.row text, texts.map Text.row, fault, rfl, ?_⟩
      rw [List.append_nil]
      exact ⟨rfl, h.accepted, refused, isFault⟩

theorem parse_spec (source : String) :
    (∃ g, parse source = .ok g ∧ Accepted (Text.rows source)) ∨
      ∃ e, parse source = .error e ∧ IsLeast {i | Offends (Text.rows source) i} e.line ∧
        ∃ row, (Text.rows source)[e.line]? = some row ∧ FaultOf row e.fault := by
  have run := reads_empty.applyLines (Text.lines source.toList)
  rw [Text.map_row_lines] at run
  obtain ⟨g, ok, reads⟩ | ⟨before, row, after, fault, hsplit, failed, accepted, refused, isFault⟩ :=
    run
  · exact .inl ⟨g, ok, reads.accepted⟩
  · rw [hsplit]
    exact .inr ⟨_, failed, isLeast_offends accepted refused, row, by simp, isFault⟩

/-- The reader accepts the texts of the grammar, and no others. It fails with the number of the
first line at fault, and with what is wrong with that line. -/
theorem parse_grammar (source : String) :
    ((∃ g, parse source = .ok g) ↔ Accepted (Text.rows source)) ∧
      ∀ e, parse source = .error e ↔
        IsLeast {i | Offends (Text.rows source) i} e.line ∧
          ∃ row, (Text.rows source)[e.line]? = some row ∧ FaultOf row e.fault := by
  obtain ⟨g, ok, accepted⟩ | ⟨e₀, failed, first, row, found, isFault⟩ := parse_spec source
  · refine ⟨⟨fun _ => accepted, fun _ => ⟨g, ok⟩⟩, fun e => ⟨fun failed => ?_, fun h => ?_⟩⟩
    · cases ok.symm.trans failed
    · exact absurd h.1.1 (accepted.not_offends e.line)
  · refine ⟨⟨?_, fun accepted => ?_⟩, fun e => ⟨fun h => ?_, ?_⟩⟩
    · rintro ⟨g, ok⟩
      cases ok.symm.trans failed
    · exact absurd first.1 (accepted.not_offends e₀.line)
    · obtain rfl := Except.error.inj (failed.symm.trans h)
      exact ⟨first, row, found, isFault⟩
    · -- a text has one first line at fault, and a line has one fault
      rintro ⟨first', row', found', isFault'⟩
      obtain ⟨fault', line'⟩ := e
      obtain rfl := first.unique first'
      obtain rfl := Option.some.inj (found.symm.trans found')
      obtain rfl := isFault.unique isFault'
      exact failed

/-- No-break, em and ideographic spaces are white space, and so is a next-line character, which
ends no line. -/
example : Text.rows "a\u00a0->\u2003b\u0085c\n\u3000d" = [["a", "->", "b", "c"], ["d"]] ∧
    parse "a\u00a0->\u2003b\u0085c\n\u3000d" = .ok
      { names := #["a", "b", "c", "d"], successors := #[[1, 2], [], [], []] } := by
  decide +kernel

/-- A thin space cuts a name in two, and a zero-width space does not. -/
example : Text.rows "a\u200bb\na\u2009b" = [["a\u200bb"], ["a", "b"]] ∧
    parse "a\u200bb\na\u2009b" = .error { line := 1, fault := .expectedArrow "a" "b" } := by
  decide +kernel

end NamedGraph

end FlowGraph

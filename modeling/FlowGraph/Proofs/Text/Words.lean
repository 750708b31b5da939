import FlowGraph.Proofs.Source.Grammar
import Mathlib.Data.List.TakeWhile
/-!
Words and lines. Words that are written side by side, with a space between any two, are read back
from their line, and lines that are written one below the other are read back from their text.
-/

set_option autoImplicit false

namespace FlowGraph.Text

structure IsWord (s : String) : Prop where
  ne_empty : s ≠ ""
  solid : ∀ c ∈ s.toList, isBlank c = false

instance (s : String) : Decidable (IsWord s) :=
  decidable_of_iff (s ≠ "" ∧ (s.toList.all fun c => !isBlank c) = true)
    ⟨fun h => ⟨h.1, by simpa using h.2⟩, fun h => ⟨h.1, by simpa using h.2⟩⟩

def words (line : List Char) : List String :=
  ((line.splitOnP isBlank).filter (· ≠ [])).map String.ofList

/-- The lines of a text, each of which is ended by a line feed. Nothing may stand behind the last
line feed. -/
def endedLines? (text : String) : Option (List (List Char)) :=
  if (text.toList.splitOn '\n').getLast? = some [] then some (text.toList.splitOn '\n').dropLast
  else none

variable {line : List Char} {ws : List String} {ls : List (List Char)} {s : String} {c : Char}

theorem IsWord.toList_ne_nil (h : IsWord s) : s.toList ≠ [] := by
  simpa using h.ne_empty

theorem IsWord.notMem (h : IsWord s) (blank : isBlank c = true) : c ∉ s.toList := by
  intro hc
  rw [h.solid c hc] at blank
  exact Bool.false_ne_true blank

private theorem sublist_of_mem_pieces (cuts : Char → Bool) (text : List Char) :
    ∀ p ∈ pieces cuts text, p.Sublist text := by
  induction text with
  | nil => simp
  | cons c cs ih =>
    cases h : cuts c with
    | true =>
      rw [pieces_cons_cut h]
      refine List.forall_mem_cons.2 ⟨List.nil_sublist _, fun p hp => ?_⟩
      exact (ih p hp).cons c
    | false =>
      obtain ⟨p, ps, hps, hcons⟩ := pieces_cons_keep h cs
      rw [hps] at ih
      rw [hcons]
      obtain ⟨first, others⟩ := List.forall_mem_cons.1 ih
      exact List.forall_mem_cons.2 ⟨first.cons_cons c, fun q hq => (others q hq).cons c⟩

theorem mem_of_mem_words (h : s ∈ words line) (hc : c ∈ s.toList) : c ∈ line := by
  obtain ⟨piece, hpiece, rfl⟩ := List.mem_map.1 h
  rw [String.toList_ofList] at hc
  have hcut := (List.mem_filter.1 hpiece).1
  rw [← pieces_eq_splitOnP] at hcut
  exact (sublist_of_mem_pieces isBlank line piece hcut).mem hc

theorem isWord_of_mem_words (h : s ∈ words line) : IsWord s := by
  obtain ⟨piece, hpiece, rfl⟩ := List.mem_map.1 h
  obtain ⟨hcut, hne⟩ := List.mem_filter.1 hpiece
  rw [← pieces_eq_splitOnP] at hcut
  refine ⟨by simpa using hne, fun c hc => ?_⟩
  rw [String.toList_ofList] at hc
  exact not_cuts_of_mem_pieces isBlank line piece hcut c hc

private theorem words_append_blank (blank : isBlank c = true) (before after : List Char) :
    words (before ++ c :: after) = words before ++ words after := by
  unfold words
  rw [List.splitOnP_append_cons before after blank, List.filter_append, List.map_append]

private theorem IsWord.words_eq (h : IsWord s) : words s.toList = [s] := by
  rw [words, List.splitOnP_eq_singleton h.solid]
  simp [h.toList_ne_nil]

theorem words_intercalate (h : ∀ w ∈ ws, IsWord w) :
    words (String.intercalate " " ws).toList = ws := by
  induction ws with
  | nil => rfl
  | cons w ws ih =>
    obtain ⟨hw, hws⟩ := List.forall_mem_cons.1 h
    by_cases hnil : ws = []
    · subst hnil
      rw [String.intercalate_singleton, hw.words_eq]
    · have space : isBlank ' ' = true := by decide
      have spread : (String.intercalate " " (w :: ws)).toList =
          w.toList ++ ' ' :: (String.intercalate " " ws).toList := by
        rw [String.intercalate_cons_of_ne_nil hnil]
        simp
      rw [spread, words_append_blank space, hw.words_eq, ih hws, List.singleton_append]

private theorem mem_intercalate (h : c ∈ (String.intercalate " " ws).toList) :
    c = ' ' ∨ ∃ w ∈ ws, c ∈ w.toList := by
  induction ws with
  | nil => simp at h
  | cons w ws ih =>
    by_cases hnil : ws = []
    · subst hnil
      rw [String.intercalate_singleton] at h
      exact .inr ⟨w, List.mem_cons_self, h⟩
    · rw [String.intercalate_cons_of_ne_nil hnil] at h
      simp only [String.toList_append, List.mem_append] at h
      rcases h with (h | h) | h
      · exact .inr ⟨w, List.mem_cons_self, h⟩
      · exact .inl (List.mem_singleton.1 h)
      · rcases ih h with space | ⟨w', hw', hc⟩
        · exact .inl space
        · exact .inr ⟨w', List.mem_cons_of_mem w hw', hc⟩

theorem splitOn_join (h : ∀ l ∈ ls, '\n' ∉ l) :
    (ls.flatMap (· ++ ['\n'])).splitOn '\n' = ls ++ [[]] := by
  induction ls with
  | nil => rfl
  | cons l ls ih =>
    obtain ⟨hl, hls⟩ := List.forall_mem_cons.1 h
    rw [List.flatMap_cons, List.append_assoc, List.singleton_append,
      List.splitOn_append_cons_self_of_not_mem hl, ih hls, List.cons_append]

theorem toList_join_lines (ss : List String) :
    (String.join (ss.map fun s => s ++ "\n")).toList =
      (ss.map String.toList).flatMap (· ++ ['\n']) := by
  rw [String.toList_join, List.flatMap_map, List.flatMap_map]
  simp

theorem endedLines?_eq_some_iff {text : String} :
    endedLines? text = some ls ↔ text.toList.splitOn '\n' = ls ++ [[]] := by
  unfold endedLines?
  constructor
  · intro h
    split at h
    next last =>
      obtain ⟨before, cut⟩ := List.getLast?_eq_some_iff.1 last
      rw [cut, List.dropLast_concat] at h
      rw [cut, Option.some.inj h]
    next => cases h
  · intro cut
    rw [cut, List.getLast?_concat, if_pos rfl, List.dropLast_concat]

theorem endedLines?_join {ss : List String} (h : ∀ s ∈ ss, '\n' ∉ s.toList) :
    endedLines? (String.join (ss.map fun s => s ++ "\n")) = some (ss.map String.toList) := by
  rw [endedLines?_eq_some_iff, toList_join_lines, splitOn_join (by simpa using h)]

theorem newline_notMem_intercalate (h : ∀ w ∈ ws, IsWord w) :
    '\n' ∉ (String.intercalate " " ws).toList := by
  intro hmem
  rcases mem_intercalate hmem with heq | ⟨w, hw, hc⟩
  · cases heq
  · exact (h w hw).notMem (by decide) hc

private theorem row_eq_words (line : List Char) :
    row line = words (line.takeWhile (· != '#')) := rfl

private theorem row_of_notMem (h : '#' ∉ line) : row line = words line := by
  rw [row_eq_words, List.takeWhile_eq_self_iff.2]
  intro c hc
  simpa using ne_of_mem_of_not_mem hc h

theorem rows_join {lines : List (List String)}
    (h : ∀ ws ∈ lines, ∀ w ∈ ws, IsWord w ∧ '#' ∉ w.toList) :
    rows (String.join (lines.map fun ws => String.intercalate " " ws ++ "\n")) =
      lines ++ [[]] := by
  have breaks : ∀ l ∈ lines.map fun ws => (String.intercalate " " ws).toList, '\n' ∉ l := by
    refine List.forall_mem_map.2 fun ws hws => ?_
    exact newline_notMem_intercalate fun w hw => (h ws hws w hw).1
  have back : ∀ ws ∈ lines, row (String.intercalate " " ws).toList = ws := by
    intro ws hws
    rw [row_of_notMem, words_intercalate fun w hw => (h ws hws w hw).1]
    intro hmem
    rcases mem_intercalate hmem with heq | ⟨w, hw, hc⟩
    · cases heq
    · exact (h ws hws w hw).2 hc
  have lists := toList_join_lines (lines.map (String.intercalate " "))
  rw [List.map_map, List.map_map] at lists
  change (String.join (lines.map fun ws => String.intercalate " " ws ++ "\n")).toList =
    (lines.map fun ws => (String.intercalate " " ws).toList).flatMap (· ++ ['\n']) at lists
  rw [rows, lists, splitOn_join breaks, List.map_append, List.map_map]
  congr 1
  exact (List.map_congr_left back).trans (List.map_id lines)

end FlowGraph.Text

import FlowGraph.LinkEval.Basic
import FlowGraph.Proofs.LinkEval.Ascent
/-!
What a forest with link and eval promises. The links made so far give each linked node the node
it was hung below; `Answers` says which nodes a query may be answered with, and `LegalRun` how a
forest may be used. A forest is lawful if every answer in every legal run is one that is allowed.
-/

set_option autoImplicit false

namespace FlowGraph

variable {n : Nat}

/-- The node that each linked node was hung below, and none for the nodes not linked yet. -/
abbrev Links (n : Nat) : Type := Fin n → Option (Fin n)

theorem Links.update_eq_none {links : Links n} {p w y : Fin n} :
    Function.update links w (some p) y = none ↔ y ≠ w ∧ links y = none := by
  rw [Function.update_apply]
  split <;> simp [*]

/-- The answers that a query for `v` may have: itself for a root; else a node of least value on
the way up without the root, or the root if its value is less than all of those. -/
inductive Answers (links : Links n) (semi : Fin n → Nat) (v : Fin n) : Fin n → Prop
  | root (h : links v = none) : Answers links semi v v
  | least {path : List (Fin n)} {r u : Fin n} (way : Ascent links v path r) (mem : u ∈ path)
      (le : ∀ y ∈ path, semi u ≤ semi y) : Answers links semi v u
  | above {path : List (Fin n)} {r : Fin n} (way : Ascent links v path r) (ne : v ≠ r)
      (lt : ∀ y ∈ path, semi r < semi y) : Answers links semi v r

/-- The forests that legal use can lead to, with the links made and the values at the time. Only
a root is linked, below the root of another tree; a query changes the forest but no link; and
between calls the value of a node may change in any way until it is linked. -/
inductive LegalRun (F : Nat → Type) [LinkEval F] : F n → Links n → (Fin n → Nat) → Prop
  | start (semi : Fin n → Nat) : LegalRun F (LinkEval.singletons n) (fun _ => none) semi
  | link {f : F n} {links : Links n} {semi : Fin n → Nat} {p w : Fin n}
      (run : LegalRun F f links semi) (hp : links p = none) (hw : links w = none) (ne : p ≠ w) :
      LegalRun F (LinkEval.link semi p w f) (Function.update links w (some p)) semi
  | eval {f : F n} {links : Links n} {semi : Fin n → Nat} (v : Fin n)
      (run : LegalRun F f links semi) : LegalRun F (LinkEval.eval semi v f).2 links semi
  | revalue {f : F n} {links : Links n} {semi semi' : Fin n → Nat}
      (run : LegalRun F f links semi) (keep : ∀ v, links v ≠ none → semi' v = semi v) :
      LegalRun F f links semi'

/-- In every legal run every query has an allowed answer. -/
class LawfulLinkEval (F : Nat → Type) [LinkEval F] : Prop where
  answers {n : Nat} {f : F n} {links : Links n} {semi : Fin n → Nat}
    (run : LegalRun F f links semi) (v : Fin n) : Answers links semi v (LinkEval.eval semi v f).1

end FlowGraph

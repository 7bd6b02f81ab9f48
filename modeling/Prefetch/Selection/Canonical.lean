import Prefetch.Selection.Basic

/-!
# Canonical — the one way a selection is written

A path is written with dots, two or more siblings stand in brackets with `, ` between them, and the
marks close their path: `a.b`, `[a, b.[c, d]]`, `a.^`, `a.^3`, `a.*`, and `*` for the marked root.

* `spellLevel_cons` — siblings are written in brackets exactly when there are two of them or more.
-/

namespace Prefetch.Selection

/-- The mark `^` with its bound. -/
def spellLimit (limit : Option Nat) : List Char :=
  '^' :: match limit with
    | none => []
    | some n => Nat.toDigits 10 n

mutual

/-- The characters of a node and of all it selects. -/
def spell : Selection → List Char
  | ⟨none, children, _, _, wildcard⟩ =>
    if wildcard then ['*'] else spellLevel children
  | ⟨some name, children, recursive, limit, wildcard⟩ =>
    name.toList ++
      if wildcard then ['.', '*']
      else if recursive then '.' :: spellLimit limit
      else if children.isEmpty then []
      else '.' :: spellLevel children

/-- Siblings: one as it is, several in brackets. -/
def spellLevel : List Selection → List Char
  | [] => []
  | c :: cs =>
    if cs.isEmpty then spell c
    else '[' :: (spell c ++ (spellOthers cs ++ [']']))

/-- The siblings after the first, each with its separator. -/
def spellOthers : List Selection → List Char
  | [] => []
  | c :: cs => ',' :: ' ' :: (spell c ++ spellOthers cs)

end

/-- The canonical text. -/
def text (s : Selection) : String :=
  String.ofList (spell s)

theorem spellLevel_single (c : Selection) : spellLevel [c] = spell c := by
  simp [spellLevel]

theorem spellLevel_cons (c d : Selection) (cs : List Selection) :
    spellLevel (c :: d :: cs) = '[' :: (spell c ++ (spellOthers (d :: cs) ++ [']'])) := by
  rw [spellLevel]
  simp

end Prefetch.Selection

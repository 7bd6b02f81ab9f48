import Prefetch.Selection.Basic

/-!
# Merge — one selection for two

The merge of two selections asks for what either asks for.  A `*` absorbs everything below it, the
larger bound of a recursive relation wins, and no bound is larger than every bound.  What is recursive
cannot have nested relations, so merging the two is refused.

* `merge_root_right` — merging the empty selection changes nothing.
-/

namespace Prefetch.Selection

/-- Why a selection has no meaning: marks and nested relations that do not go together. -/
inductive ShapeFault where
  /-- A child is put under a marked node. -/
  | closed (name : String) (wildcard : Bool)
  /-- A recursive relation is merged with one that has nested relations. -/
  | nestedRecursive (name : String)
  /-- A marked node has nested relations. -/
  | nestedMarked (name : String)
  /-- The root is recursive. -/
  | recursiveRoot
  deriving DecidableEq

/-- A fault in words. -/
def ShapeFault.message : ShapeFault → String
  | closed name wildcard =>
    String.join ["relation '", name, "' is marked with '", if wildcard then "*" else "^",
      "' and cannot have nested relations"]
  | nestedRecursive name =>
    String.join ["recursive relation '", name, "' cannot have nested relations"]
  | nestedMarked name =>
    String.join ["relation '", name,
      "' is marked with '*' or '^' and cannot have nested relations"]
  | recursiveRoot => "the root of a relation expression cannot be recursive"

/-- The bound of a recursive node that another recursive one, bounded by `other`, is merged into. -/
def mergeLimit (s : Selection) (other : Option Nat) : Option Nat :=
  if s.recursive then
    match s.limit, other with
    | some a, some b => some (max a b)
    | _, _ => none
  else other

/-- A node with the marks of another added to its own. -/
def mergeMarks (s : Selection) (recursive : Bool) (limit : Option Nat) (wildcard : Bool) :
    Selection :=
  { s with
    wildcard := s.wildcard || wildcard
    recursive := s.recursive || recursive
    limit := if recursive then s.mergeLimit limit else s.limit }

/-- Puts marks and nested relations in order once all have been brought together. -/
def settle (s : Selection) : Except ShapeFault Selection :=
  if s.wildcard then .ok s.everything
  else if s.recursive && !s.children.isEmpty then .error (.nestedRecursive s.label)
  else .ok s

/-- Replaces the first of some siblings that has the name. -/
def replace (name : String) (node : Selection) : List Selection → List Selection
  | [] => []
  | c :: cs => if c.name == some name then node :: cs else c :: replace name node cs

mutual

/-- Merges the second selection into the first. -/
def merge (s : Selection) : Selection → Except ShapeFault Selection
  | ⟨_, children, recursive, limit, wildcard⟩ =>
    match mergeAll s.children children with
    | .error fault => .error fault
    | .ok merged => settle { s.mergeMarks recursive limit wildcard with children := merged }

/-- Merges siblings into siblings: one with a name that is there is merged with the first of that
name, the others go to the end. -/
def mergeAll (siblings : List Selection) : List Selection → Except ShapeFault (List Selection)
  | [] => .ok siblings
  | c :: cs =>
    match find? siblings c.label with
    | none => mergeAll (siblings ++ [c]) cs
    | some known =>
      match merge known c with
      | .error fault => .error fault
      | .ok node => mergeAll (replace c.label node siblings) cs

end

theorem merge_root_right {s : Selection} (h : settle s = .ok s) : s.merge root = .ok s := by
  have hm : { s.mergeMarks false none false with children := s.children } = s := by
    cases s
    simp [mergeMarks]
  unfold root merge
  simp only [mergeAll, hm, h]

end Prefetch.Selection

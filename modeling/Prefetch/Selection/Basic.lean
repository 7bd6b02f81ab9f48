/-!
# Selection — which relations to prefetch, as a tree

A selection is a tree of relation names.  Its unnamed root stands for the rows at hand; a child asks
for the rows that a relation leads to from there.  Two marks may stand on a node: `recursive` follows
the relation from its own rows again (`limit` bounds how often it is used), `wildcard` follows every
relation there is.  The type admits trees that the notation cannot write, such as a marked node with
children: whoever builds a tree by hand may do so, and every function here answers on them.

* `child?_eq_some` — what a lookup by name finds is a child of that name.
-/

namespace Prefetch

/-- A route of relation names, outermost first. -/
abbrev Path := List String

/-- One node of a selection. -/
structure Selection where
  /-- The relation's name; the root has none. -/
  name : Option String := none
  /-- What is selected below, in the order written. -/
  children : List Selection := []
  /-- Whether the relation is followed from its own rows again. -/
  recursive : Bool := false
  /-- How often a recursive relation is used in a row, at most. -/
  limit : Option Nat := none
  /-- Whether every relation is followed from here on. -/
  wildcard : Bool := false
  deriving Inhabited

/-- A path in dotted form. -/
def Path.dotted (path : Path) : String :=
  ".".intercalate path

namespace Selection

/-- The root that selects nothing. -/
def root : Selection := {}

/-- A named node that selects nothing below itself. -/
def named (name : String) : Selection := { name := some name }

/-- The name as text, empty on the root. -/
def label (s : Selection) : String := s.name.getD ""

/-- Whether the node is a root. -/
def isRoot (s : Selection) : Bool := s.name.isNone

/-- Whether the node asks for nothing. -/
def isEmpty (s : Selection) : Bool :=
  s.children.isEmpty && !s.wildcard && !s.recursive

/-- The first of some siblings that has the name. -/
def find? (siblings : List Selection) (name : String) : Option Selection :=
  siblings.find? fun c => c.name == some name

/-- The first child that has the name. -/
def child? (s : Selection) (name : String) : Option Selection :=
  find? s.children name

theorem child?_eq_some {s c : Selection} {name : String} (h : s.child? name = some c) :
    c ∈ s.children ∧ c.name = some name := by
  unfold child? find? at h
  exact ⟨List.mem_of_find?_eq_some h, by simpa using List.find?_some h⟩

/-- Marks the node as recursive, with an optional bound. -/
def follow (s : Selection) (limit : Option Nat) : Selection :=
  { s with recursive := true, limit := limit }

/-- Marks the node with `*`; whatever it selected before is part of that. -/
def everything (s : Selection) : Selection :=
  { s with wildcard := true, recursive := false, limit := none, children := [] }

/-! ### Depth and paths -/

mutual

/-- How many levels of relations the tree spells out. -/
def depth : Selection → Nat
  | ⟨name, children, _, _, _⟩ =>
    if name.isNone then depthOfAll children else depthOfAll children + 1

/-- The greatest depth among siblings. -/
def depthOfAll : List Selection → Nat
  | [] => 0
  | c :: cs => max (depth c) (depthOfAll cs)

end

mutual

/-- The paths of the nodes below a node that is reached by `above`, each before those under it. -/
def pathsBelow (above : Path) : Selection → List Path
  | ⟨_, children, _, _, _⟩ => pathsOfAll above children

/-- The paths of siblings below `above` and of all under them. -/
def pathsOfAll (above : Path) : List Selection → List Path
  | [] => []
  | c :: cs =>
    (above ++ [c.label]) :: (pathsBelow (above ++ [c.label]) c ++ pathsOfAll above cs)

end

/-- The path of every node below the root, each before those under it. -/
def paths (s : Selection) : List Path :=
  pathsBelow [] s

mutual

/-- How many nodes lie below a node. -/
def size : Selection → Nat
  | ⟨_, children, _, _, _⟩ => sizeOfAll children

/-- How many nodes some siblings hold, themselves included. -/
def sizeOfAll : List Selection → Nat
  | [] => 0
  | c :: cs => 1 + size c + sizeOfAll cs

end

end Selection

end Prefetch

import Prefetch.Association.Basic
import Prefetch.Selection.Basic

/-!
# Plan — the fetches that a selection needs

A plan is a list of steps.  Each step fetches one relation for all rows of its parent step, or for the
base rows when it has no parent.  A step may grow: once it has returned rows, further steps are put
below it.
-/

namespace Prefetch

/-- What is put below a step that has returned rows. -/
inductive Growth where
  /-- Nothing. -/
  | none
  /-- The same relation again, which has been used `level` times in a row. -/
  | again (limit : Option Nat) (level : Nat)
  /-- Every relation of the rows' model. -/
  | everything
  deriving DecidableEq

/-- One fetch. -/
structure Step where
  /-- Its place in the plan. -/
  index : Nat
  /-- The step whose rows it starts from; the base rows if there is none. -/
  parent : Option Nat
  /-- The relations from the base rows down to this one. -/
  path : Path
  /-- The model that the relation is declared on. -/
  owner : String
  association : Association
  /-- How far from the base rows it is, starting at one. -/
  depth : Nat
  growth : Growth
  deriving DecidableEq

/-- The relation that a step fetches. -/
def Step.relation (s : Step) : String :=
  s.path.getLast?.getD ""

/-- The path of a relation below a step. -/
def Step.below (s : Step) (relation : String) : Path :=
  s.path ++ [relation]

/-- The fetches for rows of a model, parents before children. -/
structure Plan where
  model : String
  steps : List Step := []
  deriving DecidableEq

namespace Plan

/-- Appends a step, which gets the next index. -/
def push (p : Plan) (parent : Option Nat) (path : Path) (owner : String) (a : Association)
    (depth : Nat) (growth : Growth) : Plan :=
  { p with steps := p.steps ++ [⟨p.steps.length, parent, path, owner, a, depth, growth⟩] }

/-- The greatest depth of a step; zero without steps. -/
def maxDepth (p : Plan) : Nat :=
  p.steps.foldl (fun most s => max most s.depth) 0

end Plan

end Prefetch

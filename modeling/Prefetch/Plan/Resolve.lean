import Prefetch.Error
import Prefetch.Plan.Basic
import Prefetch.Selection.Allowance

/-!
# Resolve — from a selection to a plan

A selection is resolved level by level.  Every node becomes a step once its relation is found on the
model that its parent leads to; the steps of a level stand in the order of the selection, and those
of the next level follow.  Before that the selection has to be allowed and must not be too deep.  A
`*` at the root stands for every relation of the model.

* `checkDepth_eq_ok_iff` — the depth guard refuses exactly what has too many levels.
-/

namespace Prefetch

namespace Selection

/-- Refuses a selection that the allowed one, if there is one, does not cover. -/
def checkAllowed (s : Selection) (allowed : Option Selection) : Except Error Unit :=
  match allowed with
  | none => .ok ()
  | some a =>
    match a.firstDenied s with
    | none => .ok ()
    | some path => .error (.disallowed path)

/-- Refuses a selection with more levels than `most`, naming the first path that is too long. -/
def checkDepth (s : Selection) (most : Nat) : Except Error Unit :=
  if s.depth ≤ most then .ok ()
  else .error (.tooDeep ((s.paths.find? fun path => path.length > most).getD []) most)

theorem checkDepth_eq_ok_iff {s : Selection} {most : Nat} :
    s.checkDepth most = .ok () ↔ s.depth ≤ most := by
  unfold checkDepth
  split <;> simp_all

end Selection

namespace Plan

/-- A node that is still to be resolved. -/
structure Pending where
  node : Selection
  /-- The step that its parent became. -/
  parent : Option Nat
  /-- The model that its relation has to be declared on. -/
  owner : String
  /-- The path of its parent. -/
  path : Path

/-- How the step of a node grows.  A recursive relation has to be declared again on the model that it
leads to. -/
def growthOf (schema : Schema) (a : Association) (node : Selection) : Except Error Growth :=
  if node.wildcard then .ok .everything
  else if node.recursive then
    match schema.require a.target node.label with
    | .error e => .error e
    | .ok _ => .ok (.again node.limit 1)
  else .ok .none

/-- The step of a node. -/
def resolveNode (schema : Schema) (index : Nat) (p : Pending) : Except Error Step :=
  if (p.node.wildcard || p.node.recursive) && !p.node.children.isEmpty then
    .error (.configuration (.shape (.nestedMarked p.node.label)))
  else match schema.require p.owner p.node.label with
    | .error e => .error e
    | .ok a =>
      match growthOf schema a p.node with
      | .error e => .error e
      | .ok growth =>
        .ok ⟨index, p.parent, p.path ++ [p.node.label], p.owner, a, p.path.length + 1, growth⟩

/-- The nodes below a node that became a step. -/
def pendingBelow (step : Step) (node : Selection) : List Pending :=
  node.children.map fun c => ⟨c, some step.index, step.association.target, step.path⟩

/-- The steps of a level, from an index on, and the nodes of the next level. -/
def resolveLevel (schema : Schema) : Nat → List Pending → Except Error (List Step × List Pending)
  | _, [] => .ok ([], [])
  | index, p :: ps =>
    match resolveNode schema index p with
    | .error e => .error e
    | .ok step =>
      match resolveLevel schema (index + 1) ps with
      | .error e => .error e
      | .ok (steps, below) => .ok (step :: steps, pendingBelow step p.node ++ below)

/-- The steps of so many levels, from an index on. -/
def resolveLevels (schema : Schema) : Nat → Nat → List Pending → Except Error (List Step)
  | 0, _, _ => .ok []
  | levels + 1, index, pending =>
    match resolveLevel schema index pending with
    | .error e => .error e
    | .ok (steps, below) =>
      match resolveLevels schema levels (index + steps.length) below with
      | .error e => .error e
      | .ok more => .ok (steps ++ more)

/-- The nodes below the root, which start from rows of a model. -/
def pendingRoot (model : String) (s : Selection) : List Pending :=
  s.children.map fun c => ⟨c, none, model, []⟩

/-- One step for every relation of a model. -/
def everyRelation (schema : Schema) (model : String) : List Step :=
  (schema.relationsOf model).mapIdx fun i r => ⟨i, none, [r.1], model, r.2, 1, .everything⟩

/-- The steps of a selection that starts from rows of a model; it has no more levels than nodes. -/
def resolve (schema : Schema) (model : String) (s : Selection) : Except Error (List Step) :=
  if s.recursive then .error (.configuration (.shape .recursiveRoot))
  else if s.wildcard then .ok (everyRelation schema model)
  else resolveLevels schema s.size 0 (pendingRoot model s)

/-- The plan for a selection. -/
def ofSelection (schema : Schema) (settings : Settings) (model : String) (s : Selection)
    (allowed : Option Selection) : Except Error Plan :=
  match s.checkAllowed allowed with
  | .error e => .error e
  | .ok () =>
    match s.checkDepth settings.maxDepth with
    | .error e => .error e
    | .ok () =>
      match resolve schema model s with
      | .error e => .error e
      | .ok steps => .ok ⟨model, steps⟩

end Plan

end Prefetch

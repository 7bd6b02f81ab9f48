import Prefetch.Load.Wave
import Prefetch.Stitch

/-!
# Attach — putting the fetched rows of a board together

From the last step to the first, the rows of each step are attached to those of its parent, so that
rows have everything below them when they are attached themselves.

* `attachAll_append` — the steps at the end of a board are attached before those in front.
-/

namespace Prefetch

/-- Base rows, and the rows of every step, as far as they have been put together. -/
structure Assembly where
  base : List Value
  rows : List (List Value)

namespace Assembly

/-- The rows of a board before anything is attached. -/
def ofBoard (base : List Value) (b : Board) : Assembly :=
  ⟨base, b.slots.map (·.rows)⟩

/-- The rows of a step, by its index. -/
def rowsOf (a : Assembly) (index : Nat) : List Value :=
  a.rows[index]?.getD []

/-- The rows that a step's rows are attached to. -/
def parents (a : Assembly) (step : Step) : List Value :=
  match step.parent with
  | none => a.base
  | some p => a.rowsOf p

/-- Other rows in the place of those. -/
def withParents (a : Assembly) (step : Step) (parents : List Value) : Assembly :=
  match step.parent with
  | none => { a with base := parents }
  | some p => { a with rows := a.rows.set p parents }

/-- Attaches the rows of a step, which are then used up. -/
def attachStep (a : Assembly) (step : Step) : Except RowFault Assembly :=
  let children := a.rowsOf step.index
  let a : Assembly := { a with rows := a.rows.set step.index [] }
  let attached := step.association.attach step.relation (a.parents step) children
  match attached.fault with
  | some fault => .error fault
  | none => .ok (a.withParents step attached.parents)

/-- Attaches the rows of all steps, the last one first. -/
def attachAll (a : Assembly) : List Step → Except RowFault Assembly
  | [] => .ok a
  | step :: steps =>
    match attachAll a steps with
    | .error fault => .error fault
    | .ok a => a.attachStep step

theorem attachAll_cons_eq_ok {a a' : Assembly} {step : Step} {steps : List Step}
    (h : a.attachAll (step :: steps) = .ok a') :
    ∃ a₁, a.attachAll steps = .ok a₁ ∧ a₁.attachStep step = .ok a' := by
  rw [attachAll] at h
  split at h
  · cases h
  · rename_i a₁ ha₁
    exact ⟨a₁, ha₁, h⟩

theorem attachAll_append (a : Assembly) (front back : List Step) :
    a.attachAll (front ++ back) =
      match a.attachAll back with
      | .error fault => .error fault
      | .ok a => a.attachAll front := by
  induction front with
  | nil => cases h : a.attachAll back <;> simp [attachAll, h]
  | cons step front ih =>
    simp only [List.cons_append, attachAll, ih]
    cases a.attachAll back <;> rfl

end Assembly

end Prefetch

import Prefetch.Value

/-!
# Row — values that will do as rows

A row is a record.  Anything else is refused where rows come in: among the base rows, among the rows
that a source returns, and among the rows that relations are attached to.

* `checkBase_eq_ok_iff` — base rows pass when all are records.
-/

namespace Prefetch

/-- Why a value will not do as a row. -/
inductive RowFault where
  /-- A base row, by its index. -/
  | base (index : Nat)
  /-- A row returned from a table. -/
  | related (table : String)
  /-- A row that a relation is to be attached to. -/
  | parent (relation : String)
  /-- A fault found elsewhere, in words. -/
  | other (text : String)
  deriving DecidableEq

/-- A fault in words. -/
def RowFault.message : RowFault → String
  | base index => String.join ["base row ", toString index, " is not an object"]
  | related table => String.join ["related row from '", table, "' is not an object"]
  | parent relation =>
    String.join ["cannot attach relation '", relation, "' to a non-object row"]
  | other text => text

/-- Accepts base rows, or names the first that is no record. -/
def checkBase (rows : List Value) : Except RowFault Unit :=
  match rows.findIdx? fun v => !v.isObject with
  | none => .ok ()
  | some index => .error (.base index)

theorem checkBase_eq_ok_iff {rows : List Value} :
    checkBase rows = .ok () ↔ ∀ v ∈ rows, v.isObject = true := by
  unfold checkBase
  cases h : rows.findIdx? fun v => !v.isObject with
  | none =>
    simp only [true_iff]
    intro v hv
    simpa using List.findIdx?_eq_none_iff.1 h v hv
  | some index =>
    simp only [reduceCtorEq, false_iff]
    intro hall
    have hno : rows.findIdx? (fun v => !v.isObject) = none :=
      List.findIdx?_eq_none_iff.2 fun v hv => by simp [hall v hv]
    rw [hno] at h
    cases h

end Prefetch

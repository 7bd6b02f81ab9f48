import Prefetch.Association.Basic

/-!
# Schema — the associations declared on each model

A schema lists its declarations in the order they were made.  A name is declared once per model:
declaring the same association again changes nothing, declaring another one under the name is
refused, and so is an association that does not pass its own check.

* `register_eq_ok` — what a successful declaration leaves behind.
* `lookup_append` — a look-up finds the earliest declaration.
-/

namespace Prefetch

/-- One declaration. -/
structure Schema.Entry where
  model : String
  relation : String
  association : Association
  deriving DecidableEq

/-- All declarations, in the order they were made. -/
structure Schema where
  entries : List Schema.Entry := []
  deriving DecidableEq

namespace Schema

/-- Nothing declared. -/
def empty : Schema := {}

/-- Why a declaration is refused. -/
inductive Fault where
  /-- Model or relation have no name. -/
  | blankName
  /-- The association does not pass its check. -/
  | invalid (relation model : String) (fault : Association.Fault)
  /-- Another association has the name. -/
  | conflict (relation model : String)
  deriving DecidableEq

/-- A fault in words. -/
def Fault.message : Fault → String
  | blankName => "Model and relation names cannot be empty"
  | invalid relation model fault =>
    String.join ["Invalid relation '", relation, "' on model '", model,
      "': Configuration error: ", fault.message]
  | conflict relation model =>
    String.join ["Relation '", relation, "' is already registered on model '", model,
      "' with a different mapping"]

/-- The association of a relation, if it is declared. -/
def lookup (s : Schema) (model relation : String) : Option Association :=
  (s.entries.find? fun e => e.model == model && e.relation == relation).map (·.association)

/-- Whether a relation is declared. -/
def has (s : Schema) (model relation : String) : Bool :=
  (s.lookup model relation).isSome

/-- The relations of a model with their associations, in the order they were declared. -/
def relationsOf (s : Schema) (model : String) : List (String × Association) :=
  s.entries.filterMap fun e => if e.model == model then some (e.relation, e.association) else none

/-- The names of a model's relations. -/
def namesOf (s : Schema) (model : String) : List String :=
  (s.relationsOf model).map (·.1)

/-- Declares a relation on a model. -/
def register (s : Schema) (model relation : String) (a : Association) : Except Fault Schema :=
  if Text.allBlank model || Text.allBlank relation then .error .blankName
  else match a.check with
    | .error fault => .error (.invalid relation model fault)
    | .ok () =>
      match s.lookup model relation with
      | none => .ok ⟨s.entries ++ [⟨model, relation, a⟩]⟩
      | some known => if known = a then .ok s else .error (.conflict relation model)

/-- The models that have a relation, in the order of their first. -/
def models (s : Schema) : List String :=
  (s.entries.map (·.model)).eraseDups

/-- How many relations are of a kind. -/
def countOf (s : Schema) (kind : Association.Kind) : Nat :=
  s.entries.countP fun e => e.association.kind == kind

/-! ### What a declaration changes -/

theorem register_eq_ok {s t : Schema} {model relation : String} {a : Association}
    (h : s.register model relation a = .ok t) :
    (s.lookup model relation = none ∧ t = ⟨s.entries ++ [⟨model, relation, a⟩]⟩) ∨
      (s.lookup model relation = some a ∧ t = s) := by
  unfold register at h
  split at h
  · cases h
  · split at h
    · cases h
    · split at h
      · rename_i hl
        exact .inl ⟨hl, (Except.ok.inj h).symm⟩
      · rename_i known hl
        split at h
        · rename_i hk
          exact .inr ⟨hk ▸ hl, (Except.ok.inj h).symm⟩
        · cases h

theorem lookup_append (s : Schema) (e : Entry) (model relation : String) :
    lookup ⟨s.entries ++ [e]⟩ model relation =
      (s.lookup model relation).or
        (if e.model = model ∧ e.relation = relation then some e.association else none) := by
  unfold lookup
  rw [List.find?_append]
  cases h : s.entries.find? fun e => e.model == model && e.relation == relation with
  | some f => simp
  | none =>
    by_cases he : e.model = model ∧ e.relation = relation
    · simp [he]
    · simp only [Option.none_or, Option.map_none, if_neg he]
      rw [List.find?_singleton]
      simp only [Bool.and_eq_true, beq_iff_eq, if_neg he, Option.map_none]

end Schema

end Prefetch

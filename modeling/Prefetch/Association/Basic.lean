import Prefetch.Identifier
import Prefetch.Text.Blank

/-!
# Association — how the rows of one model lead to the rows of another

An association names the model it leads to, that model's table and the pair of columns that have to
agree.  One that links many to many goes through a join table, and only that kind does.

* `check_joinTable` — an accepted association has a join table exactly when its kind needs one.
-/

namespace Prefetch

/-- How many rows an association leads to. -/
inductive Association.Kind where
  /-- At most one. -/
  | oneToOne
  /-- Any number. -/
  | oneToMany
  /-- Any number, linked by a join table. -/
  | manyToMany
  deriving DecidableEq

/-- A table that links the rows of two others. -/
structure JoinTable where
  table : String
  /-- The column with the key of the row we come from. -/
  ownerColumn : String
  /-- The column with the key of the row we go to. -/
  relatedColumn : String
  deriving DecidableEq

/-- A declared association. -/
structure Association where
  kind : Association.Kind
  /-- The model it leads to. -/
  target : String
  /-- That model's table. -/
  table : String
  /-- The column read from the rows we come from. -/
  ownerColumn : String
  /-- The column that the rows we go to are matched or joined by. -/
  relatedColumn : String
  joinTable : Option JoinTable := none
  deriving DecidableEq

namespace Association

/-- The name of a kind. -/
def Kind.name : Kind → String
  | oneToOne => "OneToOne"
  | oneToMany => "OneToMany"
  | manyToMany => "ManyToMany"

/-- Whether a row may lead to several. -/
def Kind.isMany : Kind → Bool
  | oneToOne => false
  | oneToMany => true
  | manyToMany => true

/-- Whether the rows are linked by a join table. -/
def Kind.isLinked : Kind → Bool
  | manyToMany => true
  | _ => false

/-- The field in which a row fetched through a join table carries the key of its owner. -/
def ownerKeyField : String := "__eager_owner_key"

/-- The field of a fetched row that holds the key of its owner. -/
def matchField (a : Association) : String :=
  match a.joinTable with
  | some _ => ownerKeyField
  | none => a.relatedColumn

/-- Why an association is not accepted. -/
inductive Fault where
  /-- A kind that needs a join table has none. -/
  | missingJoinTable (target : String) (kind : Kind)
  /-- A kind that has no use for a join table has one. -/
  | needlessJoinTable (target : String) (kind : Kind) (table : String)
  /-- The model it leads to has no name. -/
  | blankTarget
  /-- A table or column has a bad name. -/
  | identifier (fault : Identifier.Fault)
  /-- Both columns of the join table are the same. -/
  | sameColumns (table : String)
  deriving DecidableEq

/-- A fault in words. -/
def Fault.message : Fault → String
  | missingJoinTable target kind =>
    String.join ["Relation to '", target, "' of kind ", kind.name, " requires a through table"]
  | needlessJoinTable target kind table =>
    String.join ["Relation to '", target, "' of kind ", kind.name, " cannot use through table '",
      table, "'"]
  | blankTarget => "Related model name cannot be empty"
  | identifier fault => fault.message
  | sameColumns table =>
    String.join ["Through table '", table, "' must use different owner and related columns"]

/-- Checks some names, in order. -/
def checkNames : List String → Except Fault Unit
  | [] => .ok ()
  | name :: names =>
    match Identifier.check name with
    | .error fault => .error (.identifier fault)
    | .ok () => checkNames names

/-- Checks the join table by itself. -/
def checkJoinTable (j : JoinTable) : Except Fault Unit :=
  match checkNames [j.table, j.ownerColumn, j.relatedColumn] with
  | .error fault => .error fault
  | .ok () => if j.ownerColumn = j.relatedColumn then .error (.sameColumns j.table) else .ok ()

/-- Whether the join table is there when the kind needs it and only then. -/
def checkKind (a : Association) : Except Fault Unit :=
  match a.kind.isLinked, a.joinTable with
  | true, none => .error (.missingJoinTable a.target a.kind)
  | false, some j => .error (.needlessJoinTable a.target a.kind j.table)
  | _, _ => .ok ()

/-- Accepts an association, or says what is wrong with it first. -/
def check (a : Association) : Except Fault Unit :=
  match checkKind a with
  | .error fault => .error fault
  | .ok () =>
    if Text.allBlank a.target then .error .blankTarget
    else match checkNames [a.table, a.ownerColumn, a.relatedColumn] with
      | .error fault => .error fault
      | .ok () =>
        match a.joinTable with
        | none => .ok ()
        | some j => checkJoinTable j

theorem check_joinTable {a : Association} (h : a.check = .ok ()) :
    a.joinTable.isSome = a.kind.isLinked := by
  have hk : checkKind a = .ok () := by
    unfold check at h
    split at h
    · cases h
    · assumption
  unfold checkKind at hk
  split at hk <;> simp_all
  rename_i h1 h2
  cases hj : a.joinTable <;> cases hl : a.kind.isLinked <;> simp_all

end Association

end Prefetch

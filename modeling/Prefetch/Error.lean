import Prefetch.Row
import Prefetch.Schema.Basic
import Prefetch.Selection.Merge
import Prefetch.Selection.Parse
import Prefetch.Settings.Basic
import Prefetch.Source.Basic
import Prefetch.Text.Duration

/-!
# Error — everything that can end an operation

The causes, with one text for each.  A selection that cannot be read, settings or declarations that
are refused, a relation that is not declared and a path that is not allowed are found before any
query is issued; all else comes up while rows are loaded or, for depth, may come up either way.
-/

namespace Prefetch

/-- What is wrong with settings, declarations or the shape of a selection. -/
inductive ConfigurationFault where
  | shape (fault : Selection.ShapeFault)
  | identifier (fault : Identifier.Fault)
  | association (fault : Association.Fault)
  | schema (fault : Schema.Fault)
  | settings (fault : Settings.Fault)
  | other (text : String)
  deriving DecidableEq

/-- A fault in words. -/
def ConfigurationFault.message : ConfigurationFault → String
  | shape fault => fault.message
  | identifier fault => fault.message
  | association fault => fault.message
  | schema fault => fault.message
  | settings fault => fault.message
  | other text => text

/-- The cause that ended an operation. -/
inductive Error where
  /-- A text is no selection. -/
  | parse (error : Selection.ReadError)
  /-- Settings, declarations or the shape of a selection are refused. -/
  | configuration (fault : ConfigurationFault)
  /-- A relation is not declared on a model. -/
  | unknownRelation (model relation : String)
  /-- A path is not allowed. -/
  | disallowed (path : Path)
  /-- A path is too deep. -/
  | tooDeep (path : Path) (maxDepth : Nat)
  /-- A query failed. -/
  | queryFailed (relation : String) (fault : Source.Fault)
  /-- A query or a whole load took too long. -/
  | timeout (relation : String) (after : Nat)
  /-- A value will not do as a row. -/
  | invalidRow (fault : RowFault)
  deriving DecidableEq

namespace Error

/-- An error in words. -/
def message : Error → String
  | parse error =>
    String.join ["Parse error at position ", toString error.position, ": ", error.fault.message]
  | configuration fault => String.join ["Configuration error: ", fault.message]
  | unknownRelation model relation =>
    String.join ["Relation '", relation, "' is not defined for model '", model, "'"]
  | disallowed path => String.join ["Relation path '", path.dotted, "' is not allowed"]
  | tooDeep path maxDepth =>
    String.join ["Relation path '", path.dotted, "' exceeds the maximum depth of ",
      toString maxDepth]
  | queryFailed relation fault =>
    String.join ["Query for relation '", relation, "' failed: ", fault.message]
  | timeout relation after =>
    String.join ["Loading '", relation, "' timed out after ", Text.duration after]
  | invalidRow fault => String.join ["Invalid row: ", fault.message]

/-- Whether an error comes up before any query is issued. -/
def isPreExecution : Error → Bool
  | parse _ => true
  | configuration _ => true
  | unknownRelation .. => true
  | disallowed _ => true
  | tooDeep .. => false
  | queryFailed .. => false
  | timeout .. => false
  | invalidRow _ => false

end Error

/-- The association of a relation, which has to be declared. -/
def Schema.require (s : Schema) (model relation : String) : Except Error Association :=
  match s.lookup model relation with
  | none => .error (.unknownRelation model relation)
  | some a => .ok a

/-- A node with one more child, whose name must be new; a marked node takes none.  A name that is
taken is reported at the first position of a text. -/
def Selection.withChild (s child : Selection) : Except Error Selection :=
  if s.wildcard || s.recursive then .error (.configuration (.shape (.closed s.label s.wildcard)))
  else match Selection.place s.children child 0 with
    | .error e => .error (.parse e)
    | .ok children => .ok { s with children := children }

end Prefetch

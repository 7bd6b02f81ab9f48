import Prefetch.Schema.Basic
import Prefetch.Selection.Basic
import Prefetch.Source.Memory
import Prefetch.Stitch

/-!
# RowByRow — what a selection loads onto one row

The plain account of loading.  Each row is visited by itself: the field of a relation gets the rows
that join this one row, and each of them is loaded in the same way with what is selected below.
There are no batches, no steps and no waves, and no key is looked up for two rows at once.

An unbounded recursion over rows in a circle has no end, so levels are counted down, and nothing
comes of a row that needs more of them than there are.

* `wanted` — the nodes that the rows below a node are loaded with.
* `joined` — the rows that one row leads to.
* `loadRow` — sets the field of each wanted relation on a row.
-/

namespace Prefetch

namespace Value

/-- What a row joins by in a column. -/
def keyIn (v : Value) (column : String) : Option JoinKey :=
  (v.field? column).bind joinKey?

/-- The record with the field set; any other value as it is. -/
def setField (v : Value) (name : String) (field : Value) : Value :=
  match v with
  | object fields => object (Fields.set fields name field)
  | v => v

end Value

namespace Tables

/-- The rows of a table; a table that is not there has none. -/
def rowsOf (t : Tables) (table : String) : List Value :=
  (t.table? table).getD []

/-- The rows of a table that hold the key in a column, in table order. -/
def matching (t : Tables) (table column : String) (k : JoinKey) : List Value :=
  (t.rowsOf table).filter fun row => row.keyIn column == some k

/-- The rows that a row of a join table leads on to, in table order. -/
def linked (t : Tables) (a : Association) (j : JoinTable) (link : Value) : List Value :=
  match link.keyIn j.relatedColumn with
  | none => []
  | some k => t.matching a.table a.relatedColumn k

/-- The rows that a key leads to, in table order; through a join table, in the order of its rows
first. -/
def joinedTo (t : Tables) (a : Association) (k : JoinKey) : List Value :=
  match a.joinTable with
  | none => t.matching a.table a.relatedColumn k
  | some j => (t.matching j.table j.ownerColumn k).flatMap (t.linked a j)

/-- The rows that a row leads to. -/
def joined (t : Tables) (a : Association) (row : Value) : List Value :=
  match row.keyIn a.ownerColumn with
  | none => []
  | some k => t.joinedTo a k

end Tables

/-- The nodes that rows of a model are loaded with below a node: every relation of the model under
`*`, the relation once more under `^` as long as its bound allows, and else the children. -/
def Selection.wanted (schema : Schema) (model : String) (s : Selection) : List Selection :=
  if s.wildcard then (schema.namesOf model).map fun name => (named name).everything
  else if s.recursive then
    match s.limit with
    | none => [s]
    | some most => if most ≤ 1 then [] else [s.follow (some (most - 1))]
  else s.children

namespace Tables

/-- Sets the fields of some relations on a row, the last relation first; `load` loads the rows that
go into a field. -/
def loadFields (t : Tables) (schema : Schema) (load : String → Selection → Value → Option Value)
    (model : String) (row : Value) : List Selection → Option Value
  | [] => some row
  | node :: nodes => do
    let done ← loadFields t schema load model row nodes
    let a ← schema.lookup model node.label
    let rows ← (t.joined a row).mapM (load a.target node)
    return done.setField node.label (a.related rows)

/-- Loads onto a row of a model what is selected below a node, through so many levels. -/
def loadRow (t : Tables) (schema : Schema) : Nat → String → Selection → Value → Option Value
  | 0, _, _, _ => none
  | levels + 1, model, s, row =>
    loadFields t schema (loadRow t schema levels) model row (s.wanted schema model)

/-- Loads a selection onto rows of a model, one by one. -/
def loadRows (t : Tables) (schema : Schema) (levels : Nat) (model : String) (s : Selection)
    (rows : List Value) : Option (List Value) :=
  rows.mapM (t.loadRow schema levels model s)

end Tables

end Prefetch

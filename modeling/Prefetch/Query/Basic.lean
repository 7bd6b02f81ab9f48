import Prefetch.Association.Basic
import Prefetch.JoinKey

/-!
# Query — one fetch of related rows for a batch of owner keys

A query asks for the rows of a table whose key column joins one of the keys.  Through a join table
the key column is on that table, whose rows then lead on to the rows asked for.
-/

namespace Prefetch

/-- The way through a join table. -/
structure Query.Link where
  table : String
  /-- The column of the join table that is compared with the keys. -/
  ownerColumn : String
  /-- The column of the join table that leads on. -/
  relatedColumn : String
  /-- The column of the rows asked for that it leads to. -/
  targetColumn : String
  deriving DecidableEq

/-- A fetch of related rows. -/
structure Query where
  /-- The relation that is loaded. -/
  relation : String
  /-- The table of the rows asked for. -/
  table : String
  /-- The column that is compared with the keys, on the table or on the join table. -/
  keyColumn : String
  keys : List Value
  link : Option Query.Link

namespace Query

/-- The query that an association needs. -/
def ofAssociation (relation : String) (a : Association) (keys : List Value) : Query :=
  match a.joinTable with
  | none => ⟨relation, a.table, a.relatedColumn, keys, none⟩
  | some j =>
    ⟨relation, a.table, j.ownerColumn, keys,
      some ⟨j.table, j.ownerColumn, j.relatedColumn, a.relatedColumn⟩⟩

/-- The same query for other keys. -/
def withKeys (q : Query) (keys : List Value) : Query :=
  { q with keys := keys }

/-- What the keys join by; a key that does not join is left out. -/
def joinKeys (q : Query) : List JoinKey :=
  q.keys.filterMap Value.joinKey?

/-- Whether a value has the key of one of the keys. -/
def matchesKey (q : Query) (v : Value) : Bool :=
  match v.joinKey? with
  | none => false
  | some k => decide (k ∈ q.joinKeys)

end Query

end Prefetch

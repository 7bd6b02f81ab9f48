import Prefetch.Source.Basic

/-!
# Memory — a source that reads tables of rows

A direct query gives the rows of its table whose key column joins one of the keys, in table order.
Through a join table, every link whose owner column joins one of the keys leads to the rows that
join its related column; the rows come in the order of the links, and each carries the owner's key.
-/

namespace Prefetch

/-- Some tables by name, and the names of those that cannot be read. -/
structure Tables where
  rows : List (String × List Value) := []
  failing : List String := []

namespace Tables

/-- The rows of a table. -/
def table? (t : Tables) (name : String) : Option (List Value) :=
  (t.rows.find? fun r => r.1 == name).map (·.2)

/-- Whether a row's column holds a value with the property. -/
def holds (row : Value) (column : String) (p : Value → Bool) : Bool :=
  match row.field? column with
  | none => false
  | some v => p v

/-- Whether a value joins by the key. -/
def joins (k : JoinKey) (v : Value) : Bool :=
  v.joinKey? == some k

/-- A row with the key of its owner; only a record can carry one. -/
def withOwner (owner : Value) : Value → Value
  | .object fields => .object (Fields.set fields Association.ownerKeyField owner)
  | v => v

/-- The rows that one row of a join table leads to. -/
def follow (q : Query) (link : Query.Link) (related : List Value) (row : Value) : List Value :=
  match row.field? link.ownerColumn, row.field? link.relatedColumn with
  | some owner, some target =>
    match q.matchesKey owner, target.joinKey? with
    | true, some k => (related.filter (holds · link.targetColumn (joins k))).map (withOwner owner)
    | _, _ => []
  | _, _ => []

/-- The rows that a query asks for. -/
def select (t : Tables) (q : Query) : Except Source.Fault (List Value) :=
  match t.table? q.table with
  | none => .error (.missing q.table)
  | some related =>
    match q.link with
    | none => .ok (related.filter (holds · q.keyColumn q.matchesKey))
    | some link =>
      match t.table? link.table with
      | none => .error (.missing link.table)
      | some links => .ok (links.flatMap (follow q link related))

/-- The answer to a query. -/
def answer (t : Tables) (q : Query) : Except Source.Fault (List Value) :=
  if q.table ∈ t.failing then .error (.unavailable q.table) else t.select q

/-- The tables as a source. -/
def source (t : Tables) (latency : Nat) : Source :=
  ⟨latency, fun _ issued => t.answer issued.query⟩

end Tables

end Prefetch

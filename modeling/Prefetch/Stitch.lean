import Prefetch.Association.Basic
import Prefetch.JoinKey
import Prefetch.Row

/-!
# Stitch — attaching fetched rows to the rows they belong to

Fetched rows are grouped by the key of their owner.  A parent then gets the group of its own key in
the relation's field: the whole group as a list, or its first row, or null where there is none, for
an association that leads to at most one row.  A row that came through a join table loses the field
with its owner's key.

* `get_add` — adding a row to the groups adds it to the group of its key and to no other.
-/

namespace Prefetch

/-- Rows by the key of their owner; the rows of a key are in the order fetched. -/
abbrev Groups := List (JoinKey × List Value)

namespace Groups

/-- The rows of a key. -/
def get (groups : Groups) (k : JoinKey) : List Value :=
  match groups.find? fun g => g.1 == k with
  | none => []
  | some g => g.2

/-- A row more for a key. -/
def add : Groups → JoinKey → Value → Groups
  | [], k, v => [(k, [v])]
  | g :: gs, k, v => if g.1 == k then (k, g.2 ++ [v]) :: gs else g :: add gs k v

theorem get_cons (g : JoinKey × List Value) (gs : Groups) (k : JoinKey) :
    get (g :: gs) k = if g.1 == k then g.2 else get gs k := by
  by_cases h : g.1 == k <;> simp [get, h]

theorem get_add (groups : Groups) (k k' : JoinKey) (v : Value) :
    get (add groups k v) k' = if k = k' then get groups k' ++ [v] else get groups k' := by
  induction groups with
  | nil => by_cases h : k = k' <;> simp [add, get, h]
  | cons g gs ih =>
    by_cases hg : g.1 = k
    · by_cases h : k = k'
      · subst h
        simp [add, get_cons, hg]
      · simp [add, get_cons, hg, h]
    · by_cases h : g.1 = k'
      · have hk : ¬ k = k' := fun e => hg (h.trans e.symm)
        have hk' : ¬ k' = k := fun e => hk e.symm
        simp [add, get_cons, h, hk, hk']
      · simp [add, get_cons, hg, h, ih]

end Groups

namespace Association

/-- The key of a fetched row's owner. -/
def ownerKey? (a : Association) (child : Value) : Option JoinKey :=
  (child.field? a.matchField).bind Value.joinKey?

/-- A fetched row as it is attached. -/
def stripped (a : Association) (child : Value) : Value :=
  if a.joinTable.isSome then child.eraseField a.matchField else child

/-- Adds fetched rows to their groups; a row without owner is dropped. -/
def groupInto (a : Association) : Groups → List Value → Except RowFault Groups
  | groups, [] => .ok groups
  | groups, child :: children =>
    if child.isObject then
      match a.ownerKey? child with
      | none => groupInto a groups children
      | some k => groupInto a (groups.add k (a.stripped child)) children
    else .error (.related a.table)

/-- Fetched rows by their owners. -/
def groupByOwner (a : Association) (children : List Value) : Except RowFault Groups :=
  groupInto a [] children

/-- What a relation's field holds for the rows that belong there. -/
def related (a : Association) (rows : List Value) : Value :=
  if a.kind.isMany then .array rows else rows.head?.getD .null

/-- The rows that belong to a parent. -/
def rowsOf (a : Association) (groups : Groups) (parent : Value) : List Value :=
  match (parent.field? a.ownerColumn).bind Value.joinKey? with
  | none => []
  | some k => groups.get k

/-- A parent with its rows in the relation's field. -/
def attachTo (a : Association) (relation : String) (groups : Groups) (parent : Value) :
    Except RowFault Value :=
  match parent with
  | .object fields => .ok (.object (Fields.set fields relation (a.related (a.rowsOf groups parent))))
  | _ => .error (.parent relation)

/-- Parents after attaching, and what ended it early if anything did. -/
structure Attached where
  parents : List Value
  fault : Option RowFault

/-- Attaches groups to parents in order, up to the first that is no record. -/
def attachAll (a : Association) (relation : String) (groups : Groups) : List Value → Attached
  | [] => ⟨[], none⟩
  | parent :: parents =>
    match a.attachTo relation groups parent with
    | .error fault => ⟨parent :: parents, some fault⟩
    | .ok changed =>
      let rest := attachAll a relation groups parents
      ⟨changed :: rest.parents, rest.fault⟩

/-- Attaches fetched rows to their parents. -/
def attach (a : Association) (relation : String) (parents children : List Value) : Attached :=
  match a.groupByOwner children with
  | .error fault => ⟨parents, some fault⟩
  | .ok groups => a.attachAll relation groups parents

end Association

end Prefetch

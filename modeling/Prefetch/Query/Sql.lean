import Prefetch.Query.Basic

/-!
# Sql — a query as a statement with placeholders

A statement is a row of fragments: fixed text, names and placeholders.  Every name stands quoted,
every key is a numbered placeholder, and the key column is compared as text, so that a key finds
what it joins with whatever the column's type is.  The keys' texts are given beside the statement,
in the order of the placeholders.

* `fragments_eq_of_parameters` — the keys have no part in the statement but their number.
-/

namespace Prefetch.Query

/-- What a statement is made of. -/
inductive Fragment where
  /-- Text that is the same in every statement. -/
  | text (s : String)
  /-- The name of a table or column. -/
  | name (s : String)
  /-- The place of a key, counted from one. -/
  | placeholder (n : Nat)
  deriving DecidableEq

/-- A fragment as it is written. -/
def Fragment.chars : Fragment → List Char
  | text s => s.toList
  | name s => Identifier.quoteChars s
  | placeholder n => '$' :: Nat.toDigits 10 n

/-- A column with its table. -/
def columnOf (table column : String) : List Fragment :=
  [.name table, .text ".", .name column]

/-- The places of keys from the `n`-th on, each after a separator. -/
def furtherPlaces : Nat → Nat → List Fragment
  | _, 0 => []
  | n, count + 1 => .text ", " :: .placeholder n :: furtherPlaces (n + 1) count

/-- The places of so many keys. -/
def places : Nat → List Fragment
  | 0 => []
  | count + 1 => .placeholder 1 :: furtherPlaces 2 count

/-- The texts of the keys. -/
def parameters (q : Query) : List String :=
  q.joinKeys.map (·.text)

/-- The statement for so many keys. -/
def statement (q : Query) (count : Nat) : List Fragment :=
  match q.link with
  | none =>
    [.text "SELECT ", .name q.table, .text ".* FROM ", .name q.table, .text " WHERE "] ++
      columnOf q.table q.keyColumn ++ [.text "::text IN ("] ++ places count ++ [.text ")"]
  | some link =>
    [.text "SELECT ", .name q.table, .text ".*, "] ++ columnOf link.table link.ownerColumn ++
      [.text " AS ", .name Association.ownerKeyField, .text " FROM ", .name q.table,
        .text " INNER JOIN ", .name link.table, .text " ON "] ++
      columnOf link.table link.relatedColumn ++ [.text " = "] ++
      columnOf q.table link.targetColumn ++ [.text " WHERE "] ++
      columnOf link.table link.ownerColumn ++ [.text "::text IN ("] ++ places count ++ [.text ")"]

/-- The statement of a query. -/
def fragments (q : Query) : List Fragment :=
  q.statement q.parameters.length

/-- The statement as text. -/
def sql (q : Query) : String :=
  String.ofList (q.fragments.flatMap Fragment.chars)

theorem fragments_eq_of_parameters {q : Query} {keys : List Value}
    (h : (q.withKeys keys).parameters.length = q.parameters.length) :
    (q.withKeys keys).fragments = q.fragments := by
  unfold fragments
  rw [h]
  rfl

end Prefetch.Query

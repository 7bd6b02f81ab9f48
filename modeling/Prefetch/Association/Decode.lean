import Prefetch.Association.Basic
import Prefetch.Value

/-!
# Decode — an association given as a value

An association is given as a record with one text per part, or as the list of its parts in order.
The join table may be null, and in a record it may be missing.  A kind is given by its name, or as a
record of that name with null in it.  Fields that no part is called are passed over.

* `ofValue?_toValue` — what `toValue` writes is read back.
-/

namespace Prefetch

/-- A text. -/
def Value.text? : Value → Option String
  | string s => some s
  | _ => none

namespace Association

/-- A kind by its name. -/
def Kind.ofName? (name : String) : Option Kind :=
  if name = "OneToOne" then some .oneToOne
  else if name = "OneToMany" then some .oneToMany
  else if name = "ManyToMany" then some .manyToMany
  else none

/-- A kind given as a value. -/
def Kind.ofValue? : Value → Option Kind
  | .string name => ofName? name
  | .object [(name, .null)] => ofName? name
  | _ => none

/-- A join table by its parts. -/
def joinTableOfParts? (table owner related : Value) : Option JoinTable :=
  match table.text?, owner.text?, related.text? with
  | some table, some owner, some related => some ⟨table, owner, related⟩
  | _, _, _ => none

/-- A join table given as a value. -/
def joinTableOfValue? : Value → Option JoinTable
  | .object fields =>
    match Fields.get? fields "table", Fields.get? fields "owner_column",
      Fields.get? fields "related_column" with
    | some table, some owner, some related => joinTableOfParts? table owner related
    | _, _, _ => none
  | .array [table, owner, related] => joinTableOfParts? table owner related
  | _ => none

/-- An optional join table given as a value: the inner nothing stands for null. -/
def linkOfValue? : Value → Option (Option JoinTable)
  | .null => some none
  | v => (joinTableOfValue? v).map some

/-- An association by its parts. -/
def ofParts? (kind target table owner related link : Value) : Option Association :=
  match Kind.ofValue? kind, target.text?, table.text?, owner.text?, related.text?,
    linkOfValue? link with
  | some kind, some target, some table, some owner, some related, some link =>
    some ⟨kind, target, table, owner, related, link⟩
  | _, _, _, _, _, _ => none

/-- An association given as a value. -/
def ofValue? : Value → Option Association
  | .object fields =>
    match Fields.get? fields "kind", Fields.get? fields "related_model",
      Fields.get? fields "related_table", Fields.get? fields "owner_column",
      Fields.get? fields "related_column" with
    | some kind, some target, some table, some owner, some related =>
      ofParts? kind target table owner related ((Fields.get? fields "through").getD .null)
    | _, _, _, _, _ => none
  | .array [kind, target, table, owner, related, link] =>
    ofParts? kind target table owner related link
  | _ => none

/-- A join table as a record. -/
def joinTableToValue (j : JoinTable) : Value :=
  .object [("table", .string j.table), ("owner_column", .string j.ownerColumn),
    ("related_column", .string j.relatedColumn)]

/-- An association as a record; a missing join table is null. -/
def toValue (a : Association) : Value :=
  .object [("kind", .string a.kind.name), ("related_model", .string a.target),
    ("related_table", .string a.table), ("owner_column", .string a.ownerColumn),
    ("related_column", .string a.relatedColumn),
    ("through", match a.joinTable with
      | none => .null
      | some j => joinTableToValue j)]

theorem Kind.ofName?_name (k : Kind) : ofName? k.name = some k := by
  cases k <;> decide

theorem ofValue?_toValue (a : Association) : ofValue? a.toValue = some a := by
  obtain ⟨kind, target, table, owner, related, link⟩ := a
  cases link with
  | none =>
    simp [toValue, ofValue?, ofParts?, linkOfValue?, Fields.get?_cons, Value.text?,
      Kind.ofValue?, Kind.ofName?_name]
  | some j =>
    simp [toValue, ofValue?, ofParts?, linkOfValue?, joinTableToValue, joinTableOfValue?,
      joinTableOfParts?, Fields.get?_cons, Value.text?, Kind.ofValue?, Kind.ofName?_name]

end Association

end Prefetch

import Prefetch.Decimal.Layout

/-!
# Value — the data that rows are made of

A value is null, a truth value, a number, a text, a list or a record of named fields.  Whole numbers
and binary doubles are different numbers: `1` is not `1.0`.  A record keeps its fields in the order
in which they were first set.

* `get?_set_self`, `get?_set_of_ne` — setting a field changes that field and no other.
* `get?_erase_self` — an erased field is gone.
-/

namespace Prefetch

/-- A number: a whole one, or a double by its sixty-four bits. -/
inductive Number where
  | whole (n : Int)
  | double (bits : UInt64)
  deriving DecidableEq, Inhabited

/-- The text of a number. -/
def Number.text : Number → String
  | whole n => toString n
  | double bits => String.ofList (Decimal.textOfBits bits.toNat)

/-- A value as rows hold it. -/
inductive Value where
  | null
  | bool (b : Bool)
  | number (n : Number)
  | string (s : String)
  | array (items : List Value)
  | object (fields : List (String × Value))
  deriving Inhabited

/-- The named fields of a record. -/
abbrev Fields := List (String × Value)

namespace Fields

/-- The value of a field. -/
def get? (fields : Fields) (name : String) : Option Value :=
  (fields.find? fun f => f.1 == name).map (·.2)

/-- Sets a field: a new one goes to the end, one that is there keeps its place. -/
def set : Fields → String → Value → Fields
  | [], name, v => [(name, v)]
  | f :: fs, name, v => if f.1 == name then (name, v) :: fs else f :: set fs name v

/-- Removes a field. -/
def erase (fields : Fields) (name : String) : Fields :=
  fields.filter fun f => f.1 != name

theorem get?_nil (name : String) : get? [] name = none := rfl

theorem get?_cons (f : String × Value) (fs : Fields) (name : String) :
    get? (f :: fs) name = if f.1 == name then some f.2 else get? fs name := by
  by_cases h : f.1 == name <;> simp [get?, h]

theorem get?_set_self (fields : Fields) (name : String) (v : Value) :
    get? (set fields name v) name = some v := by
  induction fields with
  | nil => simp [set, get?_cons]
  | cons f fs ih =>
    by_cases h : f.1 == name
    · simp [set, h, get?_cons]
    · simp [set, h, get?_cons, ih]

theorem get?_set_of_ne {name other : String} (h : other ≠ name) (fields : Fields) (v : Value) :
    get? (set fields name v) other = get? fields other := by
  have hne : (name == other) = false := by simpa using fun e => h e.symm
  induction fields with
  | nil => simp [set, get?_cons, get?_nil, hne]
  | cons f fs ih =>
    by_cases hf : f.1 == name
    · have : f.1 = name := by simpa using hf
      simp [set, get?_cons, this, hne]
    · simp [set, hf, get?_cons, ih]

theorem get?_erase_self (fields : Fields) (name : String) : get? (erase fields name) name = none := by
  simp [get?, erase]

end Fields

namespace Value

/-- A field of a record; nothing else has fields. -/
def field? (v : Value) (name : String) : Option Value :=
  match v with
  | object fields => Fields.get? fields name
  | _ => none

/-- Whether the value is a record. -/
def isObject : Value → Bool
  | object _ => true
  | _ => false

/-- The record without the field; any other value as it is. -/
def eraseField (name : String) : Value → Value
  | object fields => object (Fields.erase fields name)
  | v => v

end Value

end Prefetch

import Prefetch.Settings.Basic
import Prefetch.Text.Numeral
import Prefetch.Value

/-!
# Decode — settings given as a value

Settings are given as a record of some of them by name, or as a list of the first few in order;
whatever is not given keeps its default.  Numbers are whole, not negative and fit in 64 bits.  Only
the two optional limits may be null.
-/

namespace Prefetch

/-- A number that fits in 64 bits. -/
def Value.word? : Value → Option Nat
  | number (.whole n) => if 0 ≤ n ∧ n ≤ (Text.maxWord : Int) then some n.toNat else none
  | _ => none

/-- A number that fits in 64 bits, or null for none. -/
def Value.optionalWord? : Value → Option (Option Nat)
  | null => some none
  | v => v.word?.map some

/-- A truth value. -/
def Value.bool? : Value → Option Bool
  | bool b => some b
  | _ => none

namespace Settings

/-- The default when nothing is given, else what the value given is read as. -/
def orDefault (default : α) (read : Value → Option α) : Option Value → Option α
  | none => some default
  | some v => read v

/-- Settings by their parts, in order. -/
def ofParts? (depth recursion batch parallel queries query load : Option Value) :
    Option Settings :=
  let d : Settings := {}
  match orDefault d.maxDepth Value.word? depth, orDefault d.maxRecursion Value.word? recursion,
    orDefault d.batchSize Value.optionalWord? batch, orDefault d.parallel Value.bool? parallel,
    orDefault d.maxQueries Value.word? queries, orDefault d.queryTimeout Value.word? query,
    orDefault d.loadTimeout Value.optionalWord? load with
  | some depth, some recursion, some batch, some parallel, some queries, some query, some load =>
    some ⟨depth, recursion, batch, parallel, queries, query, load⟩
  | _, _, _, _, _, _, _ => none

/-- Settings given as a value. -/
def ofValue? : Value → Option Settings
  | .object fields =>
    let get := Fields.get? fields
    ofParts? (get "max_depth") (get "max_recursion_depth") (get "max_batch_size")
      (get "parallel_siblings") (get "max_parallel_queries") (get "query_timeout")
      (get "load_timeout")
  | .array items =>
    if items.length ≤ 7 then
      ofParts? items[0]? items[1]? items[2]? items[3]? items[4]? items[5]? items[6]?
    else none
  | _ => none

end Settings

end Prefetch

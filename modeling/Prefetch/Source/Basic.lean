import Prefetch.Query.Basic

/-!
# Source — where related rows come from

A source answers queries with rows or with a fault.  What it answers may depend on the queries it
has received before.  Every answer takes the same time.
-/

namespace Prefetch

/-- Why a source gives no rows. -/
inductive Source.Fault where
  /-- The table cannot be read. -/
  | unavailable (table : String)
  /-- There is no such table. -/
  | missing (table : String)
  /-- A fault in the source's own words. -/
  | other (text : String)
  deriving DecidableEq

/-- A fault in words. -/
def Source.Fault.message : Source.Fault → String
  | unavailable table => String.join ["table \"", table, "\" is unavailable"]
  | missing table => String.join ["relation \"", table, "\" does not exist"]
  | other text => text

/-- A query as a source receives it. -/
structure Issued where
  query : Query
  /-- The scope that the whole load runs in. -/
  scope : Option String
  /-- When it was issued, counted from the start of the load. -/
  time : Nat

/-- A source of rows. -/
structure Source where
  /-- How long an answer takes. -/
  latency : Nat
  /-- The answer to a query, after those received before. -/
  answer : List Issued → Issued → Except Source.Fault (List Value)

end Prefetch

/-!
# Settings — the limits of a load

Times are in milliseconds.

* `check_eq_ok_iff` — settings pass when no limit that has to be positive is zero.
-/

namespace Prefetch

/-- The limits of a load. -/
structure Settings where
  /-- The deepest level of a selection, and of what a `*` unfolds to. -/
  maxDepth : Nat := 10
  /-- How often an unbounded recursive relation is used in a row, at most. -/
  maxRecursion : Nat := 100
  /-- The most keys in one query. -/
  batchSize : Option Nat := none
  /-- Whether the queries of a wave may run side by side. -/
  parallel : Bool := true
  /-- How many queries run side by side, at most. -/
  maxQueries : Nat := 10
  /-- How long one query may take. -/
  queryTimeout : Nat := 30000
  /-- How long a load may take. -/
  loadTimeout : Option Nat := none
  deriving DecidableEq

namespace Settings

/-- The limits that have to be positive. -/
inductive Limit where
  | maxDepth
  | maxRecursion
  | batchSize
  | maxQueries
  | queryTimeout
  deriving DecidableEq

/-- Why settings are refused. -/
inductive Fault where
  /-- A limit is zero. -/
  | zero (limit : Limit)
  /-- A variable does not hold a value of its kind. -/
  | badVariable (name raw : String)
  deriving DecidableEq

/-- A fault in words. -/
def Fault.message : Fault → String
  | zero .maxDepth => "max_depth must be at least 1"
  | zero .maxRecursion => "max_recursion_depth must be at least 1"
  | zero .batchSize => "max_batch_size must be greater than 0"
  | zero .maxQueries => "max_parallel_queries must be at least 1"
  | zero .queryTimeout => "query_timeout must be greater than 0"
  | badVariable name raw => String.join ["Invalid value '", raw, "' for ", name]

/-- Accepts settings, or says which limit is zero first. -/
def check (s : Settings) : Except Fault Unit :=
  if s.maxDepth = 0 then .error (.zero .maxDepth)
  else if s.maxRecursion = 0 then .error (.zero .maxRecursion)
  else if s.batchSize = some 0 then .error (.zero .batchSize)
  else if s.maxQueries = 0 then .error (.zero .maxQueries)
  else if s.queryTimeout = 0 then .error (.zero .queryTimeout)
  else .ok ()

theorem check_eq_ok_iff {s : Settings} :
    s.check = .ok () ↔
      0 < s.maxDepth ∧ 0 < s.maxRecursion ∧ s.batchSize ≠ some 0 ∧ 0 < s.maxQueries ∧
        0 < s.queryTimeout := by
  unfold check
  repeat' split
  all_goals simp_all <;> omega

/-- How many queries run side by side; never none. -/
def parallelism (s : Settings) : Nat :=
  if s.parallel then max s.maxQueries 1 else 1

theorem parallelism_pos (s : Settings) : 0 < s.parallelism := by
  unfold parallelism
  split <;> omega

end Settings

end Prefetch

import Prefetch.Settings.Basic
import Prefetch.Text.Blank
import Prefetch.Text.Numeral

/-!
# Environment — settings given by environment variables

Seven variables override the defaults, one setting each.  Blanks around a value do not count.  A
number may carry one `+`; a truth value is `true` or `false`.  The variables are read in a fixed
order, the first bad one is reported, and the whole is checked at the end.

* `check_of_ofEnvironment` — what an environment gives is accepted.
-/

namespace Prefetch.Settings

/-- What the variables hold. -/
abbrev Environment := String → Option String

/-- The text of a variable as a number. -/
def numberOf? (raw : String) : Option Nat :=
  Text.signedWord? (Text.trim raw.toList)

/-- The text of a variable as a truth value. -/
def truthOf? (raw : String) : Option Bool :=
  let cs := Text.trim raw.toList
  if cs = "true".toList then some true
  else if cs = "false".toList then some false
  else none

/-- Changes the settings as a variable says, if it is set. -/
def override (env : Environment) (name : String) (read : String → Option α)
    (change : Settings → α → Settings) (s : Settings) : Except Fault Settings :=
  match env name with
  | none => .ok s
  | some raw =>
    match read raw with
    | none => .error (.badVariable name raw)
    | some a => .ok (change s a)

/-- The overrides, in the order in which they are made. -/
def overrides (env : Environment) : List (Settings → Except Fault Settings) :=
  [override env "ELIF_EAGER_MAX_DEPTH" numberOf? fun s n => { s with maxDepth := n },
    override env "ELIF_EAGER_MAX_RECURSION_DEPTH" numberOf? fun s n => { s with maxRecursion := n },
    override env "ELIF_EAGER_MAX_BATCH_SIZE" numberOf? fun s n => { s with batchSize := some n },
    override env "ELIF_EAGER_PARALLEL" truthOf? fun s b => { s with parallel := b },
    override env "ELIF_EAGER_MAX_PARALLEL_QUERIES" numberOf? fun s n => { s with maxQueries := n },
    override env "ELIF_EAGER_QUERY_TIMEOUT_MS" numberOf? fun s n => { s with queryTimeout := n },
    override env "ELIF_EAGER_LOAD_TIMEOUT_MS" numberOf? fun s n => { s with loadTimeout := some n }]

/-- Makes some overrides, one after the other. -/
def applyAll : List (Settings → Except Fault Settings) → Settings → Except Fault Settings
  | [], s => .ok s
  | f :: fs, s =>
    match f s with
    | .error fault => .error fault
    | .ok s => applyAll fs s

/-- The settings of an environment. -/
def ofEnvironment (env : Environment) : Except Fault Settings :=
  match applyAll (overrides env) {} with
  | .error fault => .error fault
  | .ok s =>
    match s.check with
    | .error fault => .error fault
    | .ok () => .ok s

theorem check_of_ofEnvironment {env : Environment} {s : Settings}
    (h : ofEnvironment env = .ok s) : s.check = .ok () := by
  unfold ofEnvironment at h
  split at h
  · cases h
  · split at h
    · cases h
    · rename_i hcheck
      obtain rfl := Except.ok.inj h
      exact hcheck

example : ofEnvironment (fun _ => none) = .ok {} := rfl

end Prefetch.Settings

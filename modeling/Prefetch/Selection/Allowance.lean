import Prefetch.Selection.Basic
import Prefetch.Text.Numeral

/-!
# Allowance — a selection as the bound of others

An allowed selection bounds what may be requested.  The request is walked along it: a `*` in the
allowed selection covers everything below, a child covers the relation of its name, and a recursive
node covers its own relation again as often as its bound says.  A requested `*` needs an allowed one,
and a requested `^` needs an allowed `^` whose bound has room for it.

* `denied_of_wildcard` — nothing is denied below an allowed `*`.
* `descend?_child` — away from recursion a walk goes from a node to its child of the name.
-/

namespace Prefetch.Selection

/-- One step of the walk: the allowed node for a relation of the name and how often it has been used
in a row then, after `used` uses of the node at hand. -/
def descend? (allowed : Selection) (used : Nat) (name : String) : Option (Selection × Nat) :=
  if allowed.recursive && name == allowed.label then
    match allowed.limit with
    | none => some (allowed, used + 1)
    | some most => if used + 1 > most then none else some (allowed, used + 1)
  else (allowed.child? name).map (·, 1)

/-- Whether a requested `^` fits at an allowed node that has been used `used` times in a row.  The
sum is taken in 64 bits. -/
def coversRecursion (allowed : Selection) (used : Nat) (wanted : Option Nat) : Bool :=
  allowed.recursive &&
    match allowed.limit, wanted with
    | none, _ => true
    | some most, some n => decide ((used + n - 1) % (Text.maxWord + 1) ≤ most)
    | some _, none => false

mutual

/-- The first path that a requested node and what lies below it need and the allowed node does not
cover; `path` leads to the requested node. -/
def denied (allowed : Selection) (used : Nat) (path : Path) : Selection → Option Path
  | ⟨_, children, recursive, limit, wildcard⟩ =>
    if allowed.wildcard then none
    else if wildcard then some (path ++ ["*"])
    else if recursive && !coversRecursion allowed used limit then some (path ++ ["^"])
    else deniedAll allowed used path children

/-- The same for siblings, in order. -/
def deniedAll (allowed : Selection) (used : Nat) (path : Path) : List Selection → Option Path
  | [] => none
  | c :: cs =>
    match descend? allowed used c.label with
    | none => some (path ++ [c.label])
    | some (next, used') =>
      match denied next used' (path ++ [c.label]) c with
      | some found => some found
      | none => deniedAll allowed used path cs

end

/-- The first path of a request that the allowed selection does not cover. -/
def firstDenied (allowed requested : Selection) : Option Path :=
  denied allowed 1 [] requested

/-- Whether the allowed selection covers a request. -/
def allows (allowed requested : Selection) : Bool :=
  (firstDenied allowed requested).isNone

theorem denied_of_wildcard {allowed : Selection} (h : allowed.wildcard = true) (used : Nat)
    (path : Path) (requested : Selection) : denied allowed used path requested = none := by
  obtain ⟨_, _, _, _, _⟩ := requested
  simp [denied, h]

theorem descend?_child {allowed : Selection} (h : allowed.recursive = false) (used : Nat)
    (name : String) : descend? allowed used name = (allowed.child? name).map (·, 1) := by
  simp [descend?, h]

end Prefetch.Selection

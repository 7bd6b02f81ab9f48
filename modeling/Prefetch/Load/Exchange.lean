import Prefetch.Error
import Prefetch.Load.Batch

/-!
# Exchange — sending queries to a source

Queries go out in rounds.  When answers take time, a round holds as many queries as may run side by
side; when they take none, every query is a round of its own.  All queries of a round are received
before the first answer is there, and all its answers are there at once.  The first query without
rows, in order, ends the exchange, and so does a source that takes longer than a query may.

* `received_round` — a round is received as a whole, whatever comes of it.
-/

namespace Prefetch

/-- A query on behalf of a step. -/
structure Request where
  step : Nat
  query : Query

/-- Rows for a step. -/
structure Reply where
  step : Nat
  rows : List Value

/-- The queries received so far, and the time that has passed. -/
structure Traffic where
  issued : List Issued := []
  time : Nat := 0

/-- What a load runs with: the source, what it received before, and the limits and the scope of the
load. -/
structure Context where
  schema : Schema
  settings : Settings
  source : Source
  past : List Issued
  scope : Option String

namespace Context

/-- Sends some queries at the same time; the answers are in order. -/
def issue (c : Context) : Traffic → List Request →
    Traffic × List (Request × Except Source.Fault (List Value))
  | t, [] => (t, [])
  | t, r :: rs =>
    let entry : Issued := ⟨r.query, c.scope, t.time⟩
    let answer := c.source.answer (c.past ++ t.issued) entry
    let rest := issue c { t with issued := t.issued ++ [entry] } rs
    (rest.1, (r, answer) :: rest.2)

/-- The rows of the answers, or the first fault. -/
def gather : List (Request × Except Source.Fault (List Value)) → Except Error (List Reply)
  | [] => .ok []
  | (r, .error fault) :: _ => .error (.queryFailed r.query.relation fault)
  | (r, .ok rows) :: answers =>
    match gather answers with
    | .error e => .error e
    | .ok replies => .ok (⟨r.step, rows⟩ :: replies)

/-- The most queries in a round. -/
def width (c : Context) : Nat :=
  if c.source.latency = 0 then 1 else c.settings.parallelism

/-- Sends one round and waits for it. -/
def round (c : Context) (t : Traffic) (rs : List Request) : Traffic × Except Error (List Reply) :=
  let sent := c.issue t rs
  if c.source.latency > c.settings.queryTimeout then
    ({ sent.1 with time := t.time + c.settings.queryTimeout },
      match rs with
      | [] => .ok []
      | r :: _ => .error (.timeout r.query.relation c.settings.queryTimeout))
  else ({ sent.1 with time := t.time + c.source.latency }, gather sent.2)

/-- Sends rounds one after the other. -/
def rounds (c : Context) : Traffic → List (List Request) → Traffic × Except Error (List Reply)
  | t, [] => (t, .ok [])
  | t, rs :: more =>
    match c.round t rs with
    | (t, .error e) => (t, .error e)
    | (t, .ok replies) =>
      match rounds c t more with
      | (t, .error e) => (t, .error e)
      | (t, .ok others) => (t, .ok (replies ++ others))

/-- Sends all queries of a wave. -/
def fetch (c : Context) (t : Traffic) (rs : List Request) : Traffic × Except Error (List Reply) :=
  c.rounds t (chunks c.width rs)

/-! ### What is received -/

theorem issued_issue (c : Context) (t : Traffic) (rs : List Request) :
    (c.issue t rs).1.issued = t.issued ++ rs.map fun r => ⟨r.query, c.scope, t.time⟩ := by
  induction rs generalizing t with
  | nil => simp [issue]
  | cons r rs ih => simp [issue, ih]

theorem received_round (c : Context) (t : Traffic) (rs : List Request) :
    (c.round t rs).1.issued = t.issued ++ rs.map fun r => ⟨r.query, c.scope, t.time⟩ := by
  unfold round
  split <;> exact issued_issue c t rs

end Context

end Prefetch

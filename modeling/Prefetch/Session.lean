import Prefetch.Loader

/-!
# Session — several loads over one source

A source is told apart from a fresh one by the queries it has received.  A session carries them from
one load to the next, and keeps a log of them that can be cleared; clearing the log does not make
the source forget.
-/

namespace Prefetch

/-- A loader in use. -/
structure Session where
  loader : Loader
  /-- All queries that the source has received. -/
  received : List Issued := []
  /-- How many of them were received before the log was cleared. -/
  cleared : Nat := 0

namespace Session

/-- The session after a source has received more queries. -/
def after (s : Session) (issued : List Issued) : Session :=
  { s with received := s.received ++ issued }

/-- Loads a selection given in text. -/
def load (s : Session) (model text : String) (allowed scope : Option String) (base : List Value) :
    Run × Session :=
  let r := s.loader.load s.received model text allowed scope base
  (r, s.after r.issued)

/-- Loads what a request asks for. -/
def loadRequest (s : Session) (model : String) (request : LoadRequest) (scope : Option String)
    (base : List Value) : Run × Session :=
  let r := s.loader.loadRequest s.received model request scope base
  (r, s.after r.issued)

/-- Sends one query straight to the source. -/
def ask (s : Session) (q : Query) (scope : Option String) :
    Except Source.Fault (List Value) × Session :=
  let entry : Issued := ⟨q, scope, 0⟩
  (s.loader.source.answer s.received entry, s.after [entry])

/-- The queries received since the log was cleared. -/
def logged (s : Session) : List Issued :=
  s.received.drop s.cleared

/-- Clears the log. -/
def clearLog (s : Session) : Session :=
  { s with cleared := s.received.length }

/-- The queries received since an earlier state of the session. -/
def since (s earlier : Session) : List Issued :=
  s.received.drop earlier.received.length

end Session

end Prefetch

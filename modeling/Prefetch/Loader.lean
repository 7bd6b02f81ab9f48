import Prefetch.Load.Run
import Prefetch.Plan.Resolve
import Prefetch.Selection.Canonical

/-!
# Loader — loading what a selection asks for

A loader is a schema, settings and a source.  It loads a selection onto base rows: plan first, then
run under the time limit of the settings.  A request gathers what to load bit by bit: its parts are
merged, the last allowed selection counts, and the first error is kept and returned by the load
before anything is issued.

* `select_of_error` — once a request has failed, further parts change nothing.
-/

namespace Prefetch

namespace Selection

/-- Reads a selection. -/
def read (text : String) : Except Error Selection :=
  match parse text with
  | .error e => .error (.parse e)
  | .ok s => .ok s

/-- Reads a selection if there is a text. -/
def readOptional : Option String → Except Error (Option Selection)
  | none => .ok none
  | some text =>
    match read text with
    | .error e => .error e
    | .ok s => .ok (some s)

/-- Merges two selections. -/
def mergeWith (s other : Selection) : Except Error Selection :=
  match s.merge other with
  | .error fault => .error (.configuration (.shape fault))
  | .ok merged => .ok merged

end Selection

/-- What loads are made with. -/
structure Loader where
  schema : Schema
  settings : Settings
  source : Source

/-- What one load asks for, as far as it has been said. -/
structure LoadRequest where
  selection : Selection := .root
  allowed : Option Selection := none
  error : Option Error := none

namespace LoadRequest

/-- Keeps an error, unless there is one already. -/
def fail (r : LoadRequest) (e : Error) : LoadRequest :=
  { r with error := some (r.error.getD e) }

/-- Asks for more. -/
def addSelection (r : LoadRequest) (s : Selection) : LoadRequest :=
  if r.error.isSome then r
  else match r.selection.mergeWith s with
    | .error e => r.fail e
    | .ok merged => { r with selection := merged }

/-- Asks for more, in text. -/
def select (r : LoadRequest) (text : String) : LoadRequest :=
  if r.error.isSome then r
  else match Selection.read text with
    | .error e => r.fail e
    | .ok s => r.addSelection s

/-- Sets what is allowed. -/
def allowSelection (r : LoadRequest) (s : Selection) : LoadRequest :=
  { r with allowed := some s }

/-- Sets what is allowed, in text. -/
def allow (r : LoadRequest) (text : String) : LoadRequest :=
  match Selection.read text with
  | .error e => r.fail e
  | .ok s => r.allowSelection s

theorem select_of_error {r : LoadRequest} (h : r.error.isSome = true) (text : String) :
    r.select text = r := by
  simp [select, h]

end LoadRequest

namespace Loader

/-- The plan for a selection. -/
def planSelection (l : Loader) (model : String) (s : Selection) (allowed : Option Selection) :
    Except Error Plan :=
  Plan.ofSelection l.schema l.settings model s allowed

/-- The plan for a selection given in text. -/
def plan (l : Loader) (model text : String) (allowed : Option String) : Except Error Plan :=
  match Selection.read text with
  | .error e => .error e
  | .ok s =>
    match Selection.readOptional allowed with
    | .error e => .error e
    | .ok allowed => l.planSelection model s allowed

/-- What a load runs with. -/
def context (l : Loader) (past : List Issued) (scope : Option String) : Context :=
  ⟨l.schema, l.settings, l.source, past, scope⟩

/-- Loads a selection onto base rows; the source has received `past` before. -/
def loadSelection (l : Loader) (past : List Issued) (model : String) (s : Selection)
    (allowed : Option Selection) (scope : Option String) (base : List Value) : Run :=
  match l.planSelection model s allowed with
  | .error e => .refused e
  | .ok p => ((l.context past scope).execute base p).within l.settings.loadTimeout s.text

/-- Loads what a request asks for. -/
def loadRequest (l : Loader) (past : List Issued) (model : String) (r : LoadRequest)
    (scope : Option String) (base : List Value) : Run :=
  match r.error with
  | some e => .refused e
  | none => l.loadSelection past model r.selection r.allowed scope base

/-- Loads a selection given in text. -/
def load (l : Loader) (past : List Issued) (model text : String) (allowed scope : Option String)
    (base : List Value) : Run :=
  let request := LoadRequest.select {} text
  let request := match allowed with
    | none => request
    | some text => request.allow text
  l.loadRequest past model request scope base

end Loader

end Prefetch

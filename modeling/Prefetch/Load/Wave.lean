import Prefetch.Load.Exchange
import Prefetch.Plan.Basic

/-!
# Wave — fetching all steps whose parents have been fetched

A board holds every step with the rows it has fetched.  A wave is every step that has not run and
whose parent has.  A wave asks for the rows of all its steps, step by step in the order of the board;
a step whose owners have no key asks for nothing.  Then the steps with rows grow: what is put below
them goes to the end of the board and runs in a later wave.

* `slots_store` — answers change rows and nothing else.
-/

namespace Prefetch

/-- A step with the rows it has fetched so far. -/
structure Slot where
  step : Step
  rows : List Value := []
  ran : Bool := false

/-- What a load has done. -/
structure Stats where
  /-- Queries that were answered. -/
  queries : Nat := 0
  /-- Rows they returned. -/
  records : Nat := 0
  /-- The greatest depth of a step with rows. -/
  depth : Nat := 0
  /-- Steps that asked for nothing. -/
  skipped : Nat := 0
  /-- Steps that ran. -/
  ran : Nat := 0
  waves : Nat := 0
  deriving DecidableEq

/-- What has been done after a wave. -/
def Stats.afterWave (s : Stats) (wave fruitful skipped : List Step) (replies : List Reply) :
    Stats :=
  { queries := s.queries + replies.length
    records := s.records + (replies.flatMap (·.rows)).length
    depth := fruitful.foldl (fun most step => max most step.depth) s.depth
    skipped := s.skipped + skipped.length
    ran := s.ran + wave.length
    waves := s.waves + 1 }

/-- Every step with its rows, and what has been done. -/
structure Board where
  slots : List Slot
  stats : Stats := {}

namespace Board

/-- A plan that nothing has been done for. -/
def ofPlan (p : Plan) : Board :=
  ⟨p.steps.map fun s => ⟨s, [], false⟩, {}⟩

/-- Whether a step, by its index, has run. -/
def hasRun (b : Board) (index : Nat) : Bool :=
  match b.slots[index]? with
  | none => false
  | some slot => slot.ran

/-- Whether a slot's step can run now. -/
def isReady (b : Board) (slot : Slot) : Bool :=
  !slot.ran &&
    match slot.step.parent with
    | none => true
    | some p => b.hasRun p

/-- The steps of the next wave. -/
def ready (b : Board) : List Step :=
  (b.slots.filter b.isReady).map (·.step)

/-- The rows that a step starts from. -/
def owners (b : Board) (base : List Value) (step : Step) : List Value :=
  match step.parent with
  | none => base
  | some p =>
    match b.slots[p]? with
    | none => []
    | some slot => slot.rows

/-- The distinct keys of the rows that a step starts from. -/
def keys (b : Board) (base : List Value) (step : Step) : List Value :=
  JoinKey.collect (b.owners base step) step.association.ownerColumn

/-- Keys in batches; no keys make no batch. -/
def batches (size : Option Nat) (keys : List Value) : List (List Value) :=
  chunks (size.getD 0) keys

/-- The queries of a step. -/
def requestsOf (b : Board) (base : List Value) (size : Option Nat) (step : Step) : List Request :=
  (batches size (b.keys base step)).map fun keys =>
    ⟨step.index, Query.ofAssociation step.relation step.association keys⟩

/-- The queries of a wave. -/
def requests (b : Board) (base : List Value) (size : Option Nat) (wave : List Step) :
    List Request :=
  wave.flatMap (b.requestsOf base size)

/-- The rows that replies hold for a step. -/
def rowsFor (replies : List Reply) (index : Nat) : List Value :=
  (replies.filter fun r => r.step == index).flatMap (·.rows)

/-- A slot with its replies, marked if its step was in the wave. -/
def receive (wave : List Step) (replies : List Reply) (slot : Slot) : Slot :=
  { slot with
    rows := slot.rows ++ rowsFor replies slot.step.index
    ran := slot.ran || wave.any fun s => s.index == slot.step.index }

/-- The board with the replies of a wave. -/
def store (b : Board) (wave : List Step) (replies : List Reply) : List Slot :=
  b.slots.map (receive wave replies)

/-- Whether a step has fetched rows. -/
def hasRows (slots : List Slot) (step : Step) : Bool :=
  match slots[step.index]? with
  | none => false
  | some slot => !slot.rows.isEmpty

end Board

/-! ### Growth -/

namespace Context

/-- The step that uses a recursive relation once more. -/
def again (c : Context) (step : Step) (index : Nat) (limit : Option Nat) (level : Nat) :
    Except Error (List Step) :=
  match c.schema.require step.association.target step.relation with
  | .error e => .error e
  | .ok a =>
    .ok [⟨index, some step.index, step.below step.relation, step.association.target, a,
      step.depth + 1, .again limit (level + 1)⟩]

/-- The steps for every relation of the model that a step leads to. -/
def everyBelow (c : Context) (step : Step) (index : Nat) : List Step :=
  (c.schema.relationsOf step.association.target).mapIdx fun i r =>
    ⟨index + i, some step.index, step.below r.1, step.association.target, r.2, step.depth + 1,
      .everything⟩

/-- The steps below a step that has returned rows, from an index on.  A bounded recursion ends at its
bound; an unbounded one, and a `*`, must not get deeper than the settings allow. -/
def grow (c : Context) (step : Step) (index : Nat) : Except Error (List Step) :=
  match step.growth with
  | .none => .ok []
  | .again (some most) level =>
    if level ≥ most then .ok [] else c.again step index (some most) level
  | .again none level =>
    if level ≥ c.settings.maxRecursion then
      .error (.tooDeep (step.below step.relation) c.settings.maxRecursion)
    else c.again step index none level
  | .everything =>
    match c.schema.relationsOf step.association.target with
    | [] => .ok []
    | (relation, _) :: _ =>
      if step.depth ≥ c.settings.maxDepth then
        .error (.tooDeep (step.below relation) c.settings.maxDepth)
      else .ok (c.everyBelow step index)

/-- The steps below some steps that have returned rows, from an index on. -/
def growAll (c : Context) : Nat → List Step → Except Error (List Step)
  | _, [] => .ok []
  | index, step :: steps =>
    match c.grow step index with
    | .error e => .error e
    | .ok below =>
      match growAll c (index + below.length) steps with
      | .error e => .error e
      | .ok more => .ok (below ++ more)

/-- The board after a wave whose replies have come in. -/
def settleWave (c : Context) (base : List Value) (b : Board) (wave : List Step)
    (replies : List Reply) : Except Error Board :=
  let slots := b.store wave replies
  let fruitful := wave.filter (Board.hasRows slots)
  let skipped := wave.filter fun step => (b.keys base step).isEmpty
  match c.growAll slots.length fruitful with
  | .error e => .error e
  | .ok more =>
    .ok ⟨slots ++ more.map fun s => ⟨s, [], false⟩,
      b.stats.afterWave wave fruitful skipped replies⟩

/-- Runs one wave. -/
def runWave (c : Context) (base : List Value) (t : Traffic) (b : Board) (wave : List Step) :
    Traffic × Except Error Board :=
  match c.fetch t (b.requests base c.settings.batchSize wave) with
  | (t, .error e) => (t, .error e)
  | (t, .ok replies) => (t, c.settleWave base b wave replies)

/-- Runs waves until no step is ready, but at most so many. -/
def runWaves (c : Context) (base : List Value) : Nat → Traffic → Board →
    Traffic × Except Error Board
  | 0, t, b => (t, .ok b)
  | waves + 1, t, b =>
    if b.ready.isEmpty then (t, .ok b)
    else match c.runWave base t b b.ready with
      | (t, .error e) => (t, .error e)
      | (t, .ok b) => runWaves c base waves t b

/-- How many waves a step's growth may take after the step itself. -/
def room (c : Context) (step : Step) : Nat :=
  match step.growth with
  | .none => 0
  | .again (some most) level => most - level
  | .again none level => c.settings.maxRecursion - level
  | .everything => c.settings.maxDepth - step.depth

/-- More waves than a plan can need: one for each of its steps, and then those of the step that grows
longest. -/
def waveBound (c : Context) (p : Plan) : Nat :=
  p.steps.length + p.steps.foldl (fun most step => max most (c.room step)) 0

end Context

/-! ### Answers -/

theorem Board.slots_store (b : Board) (wave : List Step) (replies : List Reply) :
    (b.store wave replies).map (·.step) = b.slots.map (·.step) := by
  simp [Board.store, Board.receive, Function.comp_def]

end Prefetch

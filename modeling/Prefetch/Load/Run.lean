import Prefetch.Load.Attach

/-!
# Run — loading a plan onto base rows

A run gives the base rows with everything attached, or the error that ended it; nothing partial is
returned.  It also tells which queries were issued and how long it took.  A time limit cuts a run
short: what was issued up to the limit stays issued, and the outcome is lost.

* `within_of_le` — a run that ends in time is not changed by the limit.
-/

namespace Prefetch

/-- What came of a load. -/
structure Run where
  issued : List Issued
  time : Nat
  outcome : Except Error (List Value × Stats)

namespace Run

/-- A load that failed before any query. -/
def refused (e : Error) : Run := ⟨[], 0, .error e⟩

/-- The run under a time limit; `label` stands for the load in the error. -/
def within (r : Run) (limit : Option Nat) (label : String) : Run :=
  match limit with
  | none => r
  | some most =>
    if r.time ≤ most then r
    else ⟨r.issued.filter fun i => i.time ≤ most, most, .error (.timeout label most)⟩

theorem within_of_le {r : Run} {most : Nat} (h : r.time ≤ most) (label : String) :
    r.within (some most) label = r := by
  simp [within, h]

end Run

namespace Context

/-- What comes of a board once no step is ready. -/
def conclude (base : List Value) (b : Board) : Except Error (List Value × Stats) :=
  match (Assembly.ofBoard base b).attachAll (b.slots.map (·.step)) with
  | .error fault => .error (.invalidRow fault)
  | .ok a => .ok (a.base, b.stats)

theorem conclude_eq_ok {base rows : List Value} {b : Board} {stats : Stats}
    (h : conclude base b = .ok (rows, stats)) :
    ∃ a, (Assembly.ofBoard base b).attachAll (b.slots.map (·.step)) = .ok a ∧ rows = a.base ∧
      stats = b.stats := by
  unfold conclude at h
  split at h
  · cases h
  · rename_i a ha
    obtain ⟨rfl, rfl⟩ := Prod.mk.inj (Except.ok.inj h)
    exact ⟨a, ha, rfl, rfl⟩

/-- Loads a plan onto base rows. -/
def execute (c : Context) (base : List Value) (p : Plan) : Run :=
  match checkBase base with
  | .error fault => .refused (.invalidRow fault)
  | .ok () =>
    match c.runWaves base (c.waveBound p) {} (Board.ofPlan p) with
    | (t, .error e) => ⟨t.issued, t.time, .error e⟩
    | (t, .ok b) => ⟨t.issued, t.time, conclude base b⟩

end Context

end Prefetch

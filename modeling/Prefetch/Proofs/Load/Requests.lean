import Prefetch.Loader
import Prefetch.Proofs.Selection.Merging

/-!
# Requests — loads of a selection given in text

A request starts with the empty selection and merges what is asked for into it.  Merging a
well-formed selection into the empty one gives that selection, so a load that succeeds is a run of
the plan for what was read.

* `load_of_plan` — a text that can be read and planned is loaded as its plan is run.
* `load_eq_ok` — what a load that succeeds has read and planned.
-/

namespace Prefetch

namespace LoadRequest

theorem select_of_parse {text : String} {s : Selection} (h : Selection.parse text = .ok s) :
    select {} text = { selection := s } := by
  have hwritable := Selection.writable_of_parse h
  have hmerge := Selection.merge_root_left hwritable.wellFormed hwritable.unnamed
  have hread : Selection.read text = .ok s := by rw [Selection.read, h]
  have hsame : Selection.mergeWith Selection.root s = .ok s := by rw [Selection.mergeWith, hmerge]
  unfold select addSelection
  simp only [hread, hsame, Option.isSome_none, Bool.false_eq_true, if_false]

/-- A request in text that has not failed has been read. -/
theorem exists_parse_of_select {text : String} (h : (select {} text).error = none) :
    ∃ s, Selection.parse text = .ok s ∧ select {} text = { selection := s } := by
  cases hparse : Selection.parse text with
  | error e =>
    have hread : Selection.read text = .error (.parse e) := by rw [Selection.read, hparse]
    unfold select at h
    simp only [hread] at h
    cases h
  | ok s => exact ⟨s, rfl, select_of_parse hparse⟩

/-- What is allowed has been read, if the request has not failed. -/
theorem exists_read_of_allow {r : LoadRequest} {text : String} (h : (r.allow text).error = none) :
    ∃ a, Selection.read text = .ok a ∧ r.allow text = { r with allowed := some a } := by
  unfold allow at h ⊢
  cases hread : Selection.read text with
  | error e =>
    simp only [hread] at h
    cases h
  | ok a => exact ⟨a, rfl, rfl⟩

end LoadRequest

namespace Run

variable {run : Run} {limit : Option Nat}

theorem within_of_forall_le (h : ∀ most ∈ limit, run.time ≤ most) (label : String) :
    run.within limit label = run := by
  cases limit with
  | none => rfl
  | some most => exact within_of_le (h most rfl) label

/-- A run that is not cut short by a time limit has ended in time. -/
theorem time_le_of_within {label : String} {result : List Value × Stats}
    (h : (run.within limit label).outcome = .ok result) : ∀ most ∈ limit, run.time ≤ most := by
  rintro most rfl
  by_contra hlate
  rw [within, if_neg hlate] at h
  cases h

/-- A time limit that does not cut a run short leaves it alone. -/
theorem within_eq_self {label : String} {result : List Value × Stats}
    (h : (run.within limit label).outcome = .ok result) : run.within limit label = run :=
  within_of_forall_le (time_le_of_within h) label

end Run

namespace Loader

variable {l : Loader} {past : List Issued} {model text : String} {r : LoadRequest}
  {allowed scope : Option String} {base rows : List Value} {stats : Stats}

/-- A request that has not failed is loaded as its plan is run. -/
theorem loadRequest_of_plan {p : Plan} (herror : r.error = none)
    (hplan : Plan.ofSelection l.schema l.settings model r.selection r.allowed = .ok p)
    (past : List Issued) (base : List Value) : l.loadRequest past model r scope base =
      ((l.context past scope).execute base p).within l.settings.loadTimeout r.selection.text := by
  rw [loadRequest, herror]
  simp only [loadSelection, planSelection, hplan]

/-- Without a time limit a selection in text that can be read and planned is loaded as its plan is
run. -/
theorem load_of_plan {s : Selection} {p : Plan} (hread : Selection.parse text = .ok s)
    (hplan : Plan.ofSelection l.schema l.settings model s none = .ok p)
    (hlimit : l.settings.loadTimeout = none) (past : List Issued) (base : List Value) :
    l.load past model text none scope base = (l.context past scope).execute base p := by
  have hload : l.loadRequest past model { selection := s } scope base =
      ((l.context past scope).execute base p).within l.settings.loadTimeout s.text :=
    loadRequest_of_plan rfl hplan past base
  rw [hlimit] at hload
  rw [load, LoadRequest.select_of_parse hread]
  exact hload

/-- A load that succeeds has not failed before, and it is the run of its plan; so is a load of the
same onto other rows or after other queries. -/
theorem loadRequest_eq_ok
    (h : (l.loadRequest past model r scope base).outcome = .ok (rows, stats)) :
    r.error = none ∧ ∃ p,
      Plan.ofSelection l.schema l.settings model r.selection r.allowed = .ok p ∧
      ∀ past base, l.loadRequest past model r scope base =
        ((l.context past scope).execute base p).within l.settings.loadTimeout r.selection.text := by
  cases herror : r.error with
  | some e =>
    rw [loadRequest, herror] at h
    cases h
  | none =>
    refine ⟨rfl, ?_⟩
    cases hp : Plan.ofSelection l.schema l.settings model r.selection r.allowed with
    | error e =>
      rw [loadRequest, herror] at h
      simp only [loadSelection, planSelection, hp] at h
      cases h
    | ok p => exact ⟨p, rfl, loadRequest_of_plan herror hp⟩

/-- A load in text that succeeds has read its selection and planned it. -/
theorem load_eq_ok (h : (l.load past model text allowed scope base).outcome = .ok (rows, stats)) :
    ∃ s permitted p, Selection.parse text = .ok s ∧ l.plan model text allowed = .ok p ∧
      Plan.ofSelection l.schema l.settings model s permitted = .ok p ∧
      ∀ past base, l.load past model text allowed scope base =
        ((l.context past scope).execute base p).within l.settings.loadTimeout s.text := by
  obtain ⟨herror, p, hplan, hload⟩ := loadRequest_eq_ok h
  cases allowed with
  | none =>
    obtain ⟨s, hparse, hselect⟩ := LoadRequest.exists_parse_of_select herror
    simp only [hselect] at hplan hload
    refine ⟨s, none, p, hparse, ?_, hplan, fun past base => ?_⟩
    · rw [plan, Selection.read, hparse]
      exact hplan
    · rw [← hload, load, hselect]
  | some a =>
    obtain ⟨permitted, hread, hallow⟩ := LoadRequest.exists_read_of_allow herror
    simp only [hallow] at herror hplan hload
    obtain ⟨s, hparse, hselect⟩ := LoadRequest.exists_parse_of_select herror
    rw [hselect] at hallow
    simp only [hselect] at hplan hload
    refine ⟨s, some permitted, p, hparse, ?_, hplan, fun past base => ?_⟩
    · rw [plan, Selection.read, hparse, Selection.readOptional, hread]
      exact hplan
    · rw [← hload, ← hallow, load, hselect]

end Loader

end Prefetch

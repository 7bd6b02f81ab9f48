import Prefetch.Load.Attach
import Prefetch.Proofs.Load.Stitching
import Prefetch.Proofs.Plan.Order

/-!
# Dressing — the single pass over the board, seen from one row

The rows of a board are put together from the last step to the first.  `dress` says what becomes of
one row on the way: it gets the fields of the steps that hang on its own step, each filled with
fetched rows that were dressed before.

* `keyIn_dress` — a dressed row has the keys it had before.
* `dressed_of_attachAll` — the pass over the board dresses every row by itself.
-/

namespace Prefetch

/-- A row with the fields of all steps that hang on its step, the last field first; `rows` are the
rows of each step as they were fetched. -/
def dress (rows : Nat → List Value) : List Step → Option Nat → Value → Value
  | [], _, row => row
  | s :: later, parent, row =>
    if s.parent = parent then
      (dress rows later parent row).setField s.relation (s.association.related
        (s.association.belonging ((rows s.index).map (dress rows later (some s.index))) row))
    else dress rows later parent row

section Dress

variable {rows : Nat → List Value} {steps : List Step} {parent : Option Nat}

/-- A field that is no key leaves the keys alone. -/
theorem keyIn_dress {column : String} (h : ∀ s ∈ steps, s.relation ≠ column) (row : Value) :
    (dress rows steps parent row).keyIn column = row.keyIn column := by
  induction steps with
  | nil => rfl
  | cons s later ih =>
    have hlater := ih fun s' hs' => h s' (List.mem_cons_of_mem s hs')
    rw [dress]
    split
    · rw [Value.keyIn_setField_of_ne (h s List.mem_cons_self).symm, hlater]
    · exact hlater

/-- Steps that hang elsewhere change nothing. -/
theorem dress_append {front : List Step} (h : ∀ s ∈ front, s.parent ≠ parent) (back : List Step)
    (row : Value) : dress rows (front ++ back) parent row = dress rows back parent row := by
  induction front with
  | nil => rfl
  | cons s front ih =>
    rw [List.cons_append, dress, if_neg (h s List.mem_cons_self)]
    exact ih fun s' hs' => h s' (List.mem_cons_of_mem s hs')

/-- A field that is neither set nor read can be erased before or after. -/
theorem dress_eraseField {name : String}
    (h : ∀ s ∈ steps, s.relation ≠ name ∧ s.association.ownerColumn ≠ name) (row : Value) :
    dress rows steps parent (row.eraseField name) =
      (dress rows steps parent row).eraseField name := by
  induction steps with
  | nil => rfl
  | cons s later ih =>
    have hlater := ih fun s' hs' => h s' (List.mem_cons_of_mem s hs')
    obtain ⟨hrelation, hcolumn⟩ := h s List.mem_cons_self
    rw [dress, dress]
    split
    · rw [hlater, Value.eraseField_setField hrelation, Association.belonging,
        Association.belonging, Value.keyIn_eraseField_of_ne hcolumn]
    · exact hlater

end Dress

namespace Assembly

theorem rowsOf_set_self {i : Nat} {rows : List (List Value)} (hi : i < rows.length)
    (base part : List Value) : rowsOf ⟨base, rows.set i part⟩ i = part := by
  simp [rowsOf, hi]

theorem rowsOf_set_of_ne {i j : Nat} (h : i ≠ j) (base part : List Value)
    (rows : List (List Value)) : rowsOf ⟨base, rows.set i part⟩ j = rowsOf ⟨base, rows⟩ j := by
  simp [rowsOf, List.getElem?_set_ne h]

/-- All rows in front of some steps are dressed with these steps. -/
structure Dressed (rows : Nat → List Value) (base : List Value) (count : Nat) (steps : List Step)
    (a : Assembly) : Prop where
  base : a.base = base.map (dress rows steps none)
  length : count ≤ a.rows.length
  rows : ∀ i < count, a.rowsOf i = (rows i).map (dress rows steps (some i))

variable {rows : Nat → List Value} {base : List Value} {a a' : Assembly} {s : Step}
  {steps : List Step}

/-- One more field on rows that later steps have dressed. -/
theorem attach_dress {parents xs : List Value}
    (hparents : parents = xs.map (dress rows steps s.parent))
    (hnames : ∀ s' ∈ steps, s'.relation ≠ s.association.ownerColumn)
    (hok : (s.association.attach s.relation parents
      ((rows s.index).map (dress rows steps (some s.index)))).fault = none) :
    (s.association.attach s.relation parents
      ((rows s.index).map (dress rows steps (some s.index)))).parents =
      xs.map (dress rows (s :: steps) s.parent) := by
  rw [Association.attach_parents hok, hparents, List.map_map]
  refine List.map_congr_left fun row _ => ?_
  rw [dress, if_pos rfl, Function.comp_apply, Association.belonging, keyIn_dress hnames]
  rfl

/-- Attaching one more step dresses the rows that it hangs on. -/
theorem Dressed.attachStep (h : Dressed rows base (s.index + 1) steps a)
    (hbefore : ∀ i, s.parent = some i → i < s.index)
    (hnames : ∀ s' ∈ steps, s'.relation ≠ s.association.ownerColumn)
    (hok : a.attachStep s = .ok a') : Dressed rows base s.index (s :: steps) a' := by
  unfold Assembly.attachStep at hok
  simp only at hok
  split at hok
  · cases hok
  · rename_i hfault
    obtain rfl := Except.ok.inj hok
    have hlength := h.length
    have hother : ∀ {i : Nat} {xs : List Value}, s.parent ≠ some i →
        xs.map (dress rows (s :: steps) (some i)) = xs.map (dress rows steps (some i)) := by
      intro i xs hne
      exact List.map_congr_left fun row _ => by rw [dress, if_neg hne]
    rw [h.rows s.index (Nat.lt_succ_self _)] at hfault ⊢
    cases hp : s.parent with
    | none =>
      have hparents : parents ⟨a.base, a.rows.set s.index []⟩ s =
          base.map (dress rows steps s.parent) := by
        rw [parents, hp]
        exact h.base
      rw [attach_dress hparents hnames hfault, withParents, hp]
      refine ⟨rfl, ?_, fun i hi => ?_⟩
      · rw [List.length_set]
        omega
      · rw [rowsOf_set_of_ne (by omega), hother (by simp [hp])]
        exact h.rows i (by omega)
    | some p =>
      have hlt := hbefore p hp
      have hparents : parents ⟨a.base, a.rows.set s.index []⟩ s =
          (rows p).map (dress rows steps s.parent) := by
        rw [parents, hp]
        simp only
        rw [rowsOf_set_of_ne (by omega)]
        exact h.rows p (by omega)
      rw [attach_dress hparents hnames hfault, withParents, hp]
      refine ⟨?_, ?_, fun i hi => ?_⟩
      · refine h.base.trans (List.map_congr_left fun row _ => ?_)
        rw [dress, if_neg (by simp [hp])]
      · rw [List.length_set, List.length_set]
        omega
      · by_cases he : p = i
        · subst he
          rw [rowsOf_set_self (by rw [List.length_set]; omega)]
        · rw [rowsOf_set_of_ne he, rowsOf_set_of_ne (by omega), hother (by simp [hp, he])]
          exact h.rows i (by omega)

/-- The pass over a board dresses every row by itself. -/
theorem dressed_of_attachAll {schema : Schema} {model : String} {front : List Step}
    (h : Orderly schema model (front ++ steps))
    (hnames : ∀ s ∈ front ++ steps, ∀ s' ∈ front ++ steps,
      s'.relation ≠ s.association.ownerColumn)
    (hlength : (front ++ steps).length ≤ a.rows.length)
    (hok : a.attachAll steps = .ok a') : Dressed a.rowsOf a.base front.length steps a' := by
  induction steps generalizing front a' with
  | nil =>
    obtain rfl := Except.ok.inj hok
    refine ⟨?_, by simpa using hlength, fun i _ => ?_⟩
    · simp only [dress, List.map_id']
    · simp only [dress, List.map_id']
  | cons s steps ih =>
    obtain ⟨a₁, ha₁, hok⟩ := attachAll_cons_eq_ok hok
    have hsplit : front ++ s :: steps = (front ++ [s]) ++ steps := by simp
    have hmem : s ∈ front ++ s :: steps := by simp
    have hindex : s.index = front.length := h.index front.length s (by simp)
    have hbefore := h.before s hmem
    have hs := hnames s hmem
    rw [hsplit] at h hnames hlength
    have hlater := ih h hnames hlength ha₁
    rw [List.length_append, List.length_singleton, ← hindex] at hlater
    rw [← hindex]
    exact hlater.attachStep hbefore (fun s' hs' => hs s' (by simp [hs'])) hok

end Assembly

end Prefetch

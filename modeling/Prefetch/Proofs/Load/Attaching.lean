import Prefetch.Proofs.Load.Reordering

/-!
# Attaching — what one step of the pass over a board changes

Attaching the rows of a step uses them up and gives each row that the step hangs on one more field.
Nothing else changes, wherever the rows come from and whatever the fields are called.  The base rows
never get into the rows of a step, so the pass does the same to other base rows.

* `attaches_of_attachStep` — one step of the pass.
* `attachStep_onto` — the same step onto other base rows.
-/

namespace Prefetch

/-! ### Fields of values -/

namespace Value

theorem field?_setField_self {v : Value} (h : v.isObject = true) (name : String) (field : Value) :
    (v.setField name field).field? name = some field := by
  cases v with
  | object fields => exact Fields.get?_set_self fields name field
  | _ => cases h

theorem field?_eraseField_self (v : Value) (name : String) :
    (v.eraseField name).field? name = none := by
  cases v with
  | object fields => exact Fields.get?_erase_self fields name
  | _ => rfl

theorem isObject_eraseField (v : Value) (name : String) :
    (v.eraseField name).isObject = v.isObject := by
  cases v <;> rfl

end Value

/-- Whether rows can be attached to records does not depend on the records. -/
theorem Association.fault_attach {a : Association} {relation : String}
    {parents parents' children : List Value}
    (h : (a.attach relation parents children).fault = none)
    (hparents : ∀ parent ∈ parents', parent.isObject = true) :
    (a.attach relation parents' children).fault = none := by
  unfold attach at h ⊢
  split at h
  · cases h
  · exact fault_attachAll hparents

/-! ### One step of the pass -/

namespace Assembly

variable {a a' : Assembly} {s : Step}

/-- What attaching the rows of a step changes. -/
structure Attaches (s : Step) (a a' : Assembly) : Prop where
  base : a'.base = if s.parent = none then
    a.base.map (s.association.dressed s.relation (a.rowsOf s.index)) else a.base
  rows : ∀ i, a'.rowsOf i = if i = s.index then [] else if s.parent = some i then
    (a.rowsOf i).map (s.association.dressed s.relation (a.rowsOf s.index)) else a.rowsOf i

/-- The parents of a step after its rows have been taken off the board. -/
theorem parents_clear (hself : s.parent ≠ some s.index) (a : Assembly) :
    parents ⟨a.base, a.rows.set s.index []⟩ s = a.parents s := by
  unfold parents
  cases hp : s.parent with
  | none => rfl
  | some p =>
    have hne : s.index ≠ p := fun he => hself (by rw [hp, he])
    show rowsOf ⟨a.base, a.rows.set s.index []⟩ p = a.rowsOf p
    rw [rowsOf_clear, if_neg hne]

theorem attachStep_eq_ok_iff (hself : s.parent ≠ some s.index) :
    a.attachStep s = .ok a' ↔
      (s.association.attach s.relation (a.parents s) (a.rowsOf s.index)).fault = none ∧
        a' = withParents ⟨a.base, a.rows.set s.index []⟩ s
          ((a.parents s).map (s.association.dressed s.relation (a.rowsOf s.index))) := by
  unfold attachStep
  simp only [parents_clear hself]
  split
  · rename_i fault hfault
    simp [hfault]
  · rename_i hfault
    rw [Association.attach_parents hfault, Except.ok.injEq, eq_comm (a := a')]
    exact ⟨fun he => ⟨hfault, he⟩, fun he => he.2⟩

/-- One step of the pass. -/
theorem attaches_of_attachStep (hself : s.parent ≠ some s.index) (h : a.attachStep s = .ok a') :
    Attaches s a a' := by
  obtain ⟨-, rfl⟩ := (attachStep_eq_ok_iff hself).1 h
  unfold withParents parents
  cases hp : s.parent with
  | none =>
    refine ⟨by rw [if_pos hp], fun i => ?_⟩
    rw [hp, if_neg (c := none = some i) nofun, if_congr (eq_comm (a := i)) rfl rfl]
    exact rowsOf_clear a s.index i
  | some p =>
    have hne : s.index ≠ p := fun he => hself (by rw [hp, he])
    refine ⟨by rw [if_neg (by simp [hp])], fun i => ?_⟩
    have hset := rowsOf_map ⟨a.base, a.rows.set s.index []⟩
      (s.association.dressed s.relation (a.rowsOf s.index)) p i
    rw [rowsOf_clear, rowsOf_clear, if_neg hne] at hset
    refine hset.trans ?_
    by_cases hi : i = s.index
    · rw [if_pos hi, if_pos hi.symm, if_neg fun he => hne (hi.symm.trans he.symm)]
    · rw [if_neg hi, if_neg (Ne.symm hi)]
      exact if_congr (by rw [hp, Option.some.injEq]) rfl rfl

/-- The same step onto other base rows. -/
theorem attachStep_onto {base : List Value} (hself : s.parent ≠ some s.index)
    (hbase : ∀ row ∈ base, row.isObject = true) (h : a.attachStep s = .ok a') :
    attachStep ⟨base, a.rows⟩ s = .ok ⟨if s.parent = none then
      base.map (s.association.dressed s.relation (a.rowsOf s.index)) else base, a'.rows⟩ := by
  obtain ⟨hfault, rfl⟩ := (attachStep_eq_ok_iff hself).1 h
  rw [attachStep_eq_ok_iff hself]
  unfold withParents parents at *
  cases hp : s.parent with
  | none => exact ⟨Association.fault_attach hfault hbase, by rw [if_pos rfl]; rfl⟩
  | some p =>
    rw [hp] at hfault
    exact ⟨hfault, by rw [if_neg nofun]; rfl⟩

end Assembly

end Prefetch

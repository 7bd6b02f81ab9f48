import Mathlib.Data.List.TakeWhile
import Prefetch.Proofs.Load.RowByRow

/-!
# Stitching — attached rows, parent by parent

Rows are grouped by owner once for all parents.  Seen from one parent this is a filter: it gets the
fetched rows with its own key, in the order fetched.

* `get_groupByOwner` — the group of a key is a filter.
* `attachAll_eq` — attaching goes up to the first parent that is no record.
* `attach_parents` — attaching sets the relation's field on each parent by itself.
-/

namespace Prefetch

/-! ### Fields set and erased -/

namespace Fields

theorem erase_of_get?_eq_none {fields : Fields} {name : String} (h : get? fields name = none) :
    erase fields name = fields := by
  induction fields with
  | nil => rfl
  | cons f fs ih =>
    rw [get?_cons] at h
    split at h
    · cases h
    · rename_i hne
      have hrest := ih h
      rw [erase] at hrest ⊢
      rw [List.filter_cons_of_pos (by simpa using hne), hrest]

theorem erase_set_self (fields : Fields) (name : String) (v : Value) :
    erase (set fields name v) name = erase fields name := by
  induction fields with
  | nil => simp [set, erase]
  | cons f fs ih =>
    by_cases hf : f.1 = name
    · simp [set, erase, hf]
    · rw [erase, erase] at ih
      simp [set, erase, hf, ih]

theorem get?_erase_of_ne {name other : String} (h : other ≠ name) (fields : Fields) :
    get? (erase fields name) other = get? fields other := by
  induction fields with
  | nil => rfl
  | cons f fs ih =>
    rw [erase] at ih ⊢
    by_cases hf : f.1 = name
    · have hne : (f.1 == other) = false := by simpa [hf] using h.symm
      rw [List.filter_cons_of_neg (by simp [hf]), ih, get?_cons, hne]
      rfl
    · rw [List.filter_cons_of_pos (by simpa using hf), get?_cons, get?_cons, ih]

theorem erase_set_of_ne {name other : String} (h : other ≠ name) (fields : Fields) (v : Value) :
    erase (set fields other v) name = set (erase fields name) other v := by
  induction fields with
  | nil => simp [set, erase, h]
  | cons f fs ih =>
    rw [erase, erase] at ih
    by_cases hf : f.1 = other
    · simp [set, erase, hf, h]
    · by_cases hn : f.1 = name
      · have hno : ¬ name = other := fun he => h he.symm
        simp [set, erase, hn, hno, ih]
      · simp [set, erase, hf, hn, ih]

end Fields

namespace Value

variable {name other : String}

theorem field?_setField_of_ne (h : other ≠ name) (v field : Value) :
    (v.setField name field).field? other = v.field? other := by
  cases v with
  | object fields => exact Fields.get?_set_of_ne h fields field
  | _ => rfl

theorem field?_eraseField_of_ne (h : other ≠ name) (v : Value) :
    (v.eraseField name).field? other = v.field? other := by
  cases v with
  | object fields => exact Fields.get?_erase_of_ne h fields
  | _ => rfl

theorem isObject_setField (v : Value) (name : String) (field : Value) :
    (v.setField name field).isObject = v.isObject := by
  cases v <;> rfl

theorem keyIn_setField_of_ne {column : String} (h : column ≠ name) (v field : Value) :
    (v.setField name field).keyIn column = v.keyIn column := by
  rw [keyIn, field?_setField_of_ne h, keyIn]

theorem keyIn_eraseField_of_ne {column : String} (h : column ≠ name) (v : Value) :
    (v.eraseField name).keyIn column = v.keyIn column := by
  rw [keyIn, field?_eraseField_of_ne h, keyIn]

theorem eraseField_setField (h : other ≠ name) (v field : Value) :
    (v.setField other field).eraseField name = (v.eraseField name).setField other field := by
  cases v with
  | object fields => exact congrArg object (Fields.erase_set_of_ne h fields field)
  | _ => rfl

end Value

/-! ### Attaching -/

namespace Association

variable {a : Association}

/-- The fetched rows that belong to a parent, as they are attached. -/
def belonging (a : Association) (children : List Value) (parent : Value) : List Value :=
  match parent.keyIn a.ownerColumn with
  | none => []
  | some k => (children.filter fun child => a.ownerKey? child == some k).map a.stripped

theorem belonging_congr {owner row : Value}
    (h : row.keyIn a.ownerColumn = owner.keyIn a.ownerColumn) (children : List Value) :
    a.belonging children row = a.belonging children owner := by
  rw [belonging, belonging, h]

theorem get_groupInto {groups groups' : Groups} {children : List Value}
    (h : a.groupInto groups children = .ok groups') (k : JoinKey) :
    groups'.get k = groups.get k ++
      (children.filter fun child => a.ownerKey? child == some k).map a.stripped := by
  induction children generalizing groups with
  | nil =>
    obtain rfl := Except.ok.inj h
    exact (List.append_nil _).symm
  | cons child children ih =>
    rw [groupInto] at h
    split at h
    · split at h
      · rename_i hk
        rw [ih h, List.filter_cons, hk]
        rfl
      · rename_i k' hk
        rw [ih h, Groups.get_add, List.filter_cons, hk]
        by_cases he : k' = k
        · subst he
          simp
        · simp [he]
    · cases h

/-- The group of a key holds the rows whose owner has the key. -/
theorem get_groupByOwner {groups : Groups} {children : List Value}
    (h : a.groupByOwner children = .ok groups) (k : JoinKey) :
    groups.get k = (children.filter fun child => a.ownerKey? child == some k).map a.stripped := by
  rw [get_groupInto h k]
  rfl

theorem rowsOf_eq_belonging {groups : Groups} {children : List Value}
    (h : a.groupByOwner children = .ok groups) (parent : Value) :
    a.rowsOf groups parent = a.belonging children parent := by
  unfold rowsOf belonging
  rw [← Value.keyIn]
  cases parent.keyIn a.ownerColumn with
  | none => rfl
  | some k => exact get_groupByOwner h k

theorem attachTo_eq (a : Association) (relation : String) (groups : Groups) (parent : Value) :
    a.attachTo relation groups parent =
      if parent.isObject then .ok (parent.setField relation (a.related (a.rowsOf groups parent)))
      else .error (.parent relation) := by
  cases parent <;> rfl

/-- The parents before the first that is no record get the field, that one ends it. -/
theorem attachAll_eq (a : Association) (relation : String) (groups : Groups)
    (parents : List Value) :
    a.attachAll relation groups parents =
      ⟨((parents.takeWhile (·.isObject)).map fun parent =>
          parent.setField relation (a.related (a.rowsOf groups parent))) ++
        parents.dropWhile (·.isObject),
      if parents.all (·.isObject) then none else some (.parent relation)⟩ := by
  induction parents with
  | nil => rfl
  | cons parent parents ih =>
    rw [attachAll, attachTo_eq, ih, List.takeWhile_cons, List.dropWhile_cons, List.all_cons]
    cases parent.isObject <;> rfl

/-- Attaching sets the relation's field on each parent, to the rows that belong to it. -/
theorem attach_parents {relation : String} {parents children : List Value}
    (h : (a.attach relation parents children).fault = none) :
    (a.attach relation parents children).parents =
      parents.map fun parent =>
        parent.setField relation (a.related (a.belonging children parent)) := by
  unfold attach at h ⊢
  split at h
  · cases h
  · rename_i groups hg
    simp only [attachAll_eq] at h ⊢
    split at h
    · rename_i hall
      rw [List.all_eq_true] at hall
      rw [List.takeWhile_eq_self_iff.2 hall, List.dropWhile_eq_nil_iff.2 hall, List.append_nil]
      exact List.map_congr_left fun parent _ => by rw [rowsOf_eq_belonging hg]
    · cases h

end Association

end Prefetch

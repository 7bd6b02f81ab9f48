import Mathlib.Data.List.Count
import Mathlib.Data.List.Perm.Basic
import Prefetch.Load.Run
import Prefetch.Proofs.Load.Stitching

/-!
# Reordering — putting rows together does not depend on how owners are interleaved

Only the order of the rows of one owner shows.  Two lists of fetched rows that have the same rows
for every key, in the same order, are attached in the same way; and rows that get a field stay so,
for what a field gets is a list, a record or null, and never a key.  So the pass over a board comes
to the same base rows.

* `Reordered.perm` — then the rows are the same up to their order.
* `attach_eq` — attaching records to records always succeeds.
* `Alike.attachAll` — the pass over two boards with the same rows by owner.
-/

namespace Prefetch

/-! ### Rows by owner -/

namespace Association

variable {a : Association} {xs ys xs' ys' : List Value}

/-- Two lists have the same rows for every key, in the same order. -/
def SameByOwner (a : Association) (xs ys : List Value) : Prop :=
  ∀ k, (xs.filter fun row => a.ownerKey? row == some k) =
    ys.filter fun row => a.ownerKey? row == some k

theorem SameByOwner.append (h : a.SameByOwner xs ys) (h' : a.SameByOwner xs' ys') :
    a.SameByOwner (xs ++ xs') (ys ++ ys') := by
  intro k
  rw [List.filter_append, List.filter_append, h k, h' k]

/-- What belongs to a parent depends on the rows of its key alone. -/
theorem SameByOwner.belonging_eq (h : a.SameByOwner xs ys) (parent : Value) :
    a.belonging xs parent = a.belonging ys parent := by
  unfold belonging
  cases parent.keyIn a.ownerColumn with
  | none => rfl
  | some k => exact congrArg (List.map a.stripped) (h k)

/-- A change that keeps the owners of all rows, or takes them all away, keeps rows the same. -/
theorem SameByOwner.map {f : Value → Value} (h : a.SameByOwner xs ys)
    (hf : (∀ row, a.ownerKey? (f row) = a.ownerKey? row) ∨ ∀ row, a.ownerKey? (f row) = none) :
    a.SameByOwner (xs.map f) (ys.map f) := by
  intro k
  rcases hf with hf | hf
  · have hfilter : ∀ rows : List Value,
        ((rows.map f).filter fun row => a.ownerKey? row == some k) =
          (rows.filter fun row => a.ownerKey? row == some k).map f := by
      intro rows
      rw [List.filter_map]
      refine congrArg (List.map f) (List.filter_congr fun row _ => ?_)
      rw [Function.comp_apply, hf]
    rw [hfilter, hfilter, h k]
  · have hfilter : ∀ rows : List Value,
        ((rows.map f).filter fun row => a.ownerKey? row == some k) = [] := by
      intro rows
      refine List.filter_eq_nil_iff.2 fun row hrow => ?_
      obtain ⟨r, -, rfl⟩ := List.mem_map.1 hrow
      simp [hf]
    rw [hfilter, hfilter]

/-- The same rows for every key, and no others. -/
structure Reordered (a : Association) (xs ys : List Value) : Prop where
  same : a.SameByOwner xs ys
  left : ∀ row ∈ xs, ∃ k, a.ownerKey? row = some k
  right : ∀ row ∈ ys, ∃ k, a.ownerKey? row = some k

namespace Reordered

theorem nil (a : Association) : a.Reordered [] [] :=
  ⟨fun _ => rfl, nofun, nofun⟩

theorem append (h : a.Reordered xs ys) (h' : a.Reordered xs' ys') :
    a.Reordered (xs ++ xs') (ys ++ ys') := by
  refine ⟨h.same.append h'.same, fun row hrow => ?_, fun row hrow => ?_⟩
  · exact (List.mem_append.1 hrow).elim (h.left row) (h'.left row)
  · exact (List.mem_append.1 hrow).elim (h.right row) (h'.right row)

theorem flatMap {α : Type} {f g : α → List Value} {items : List α}
    (h : ∀ item ∈ items, a.Reordered (f item) (g item)) :
    a.Reordered (items.flatMap f) (items.flatMap g) := by
  induction items with
  | nil => exact nil a
  | cons item items ih =>
    rw [List.flatMap_cons, List.flatMap_cons]
    exact (h item List.mem_cons_self).append (ih fun i hi => h i (List.mem_cons_of_mem item hi))

theorem mem_of_mem (h : a.Reordered xs ys) {row : Value} (hrow : row ∈ xs) : row ∈ ys := by
  obtain ⟨k, hk⟩ := h.left row hrow
  have hmem : row ∈ xs.filter fun r => a.ownerKey? r == some k :=
    List.mem_filter.2 ⟨hrow, by simpa using hk⟩
  rw [h.same k] at hmem
  exact (List.mem_filter.1 hmem).1

theorem symm (h : a.Reordered xs ys) : a.Reordered ys xs :=
  ⟨fun k => (h.same k).symm, h.right, h.left⟩

theorem mem_iff (h : a.Reordered xs ys) {row : Value} : row ∈ xs ↔ row ∈ ys :=
  ⟨h.mem_of_mem, h.symm.mem_of_mem⟩

/-- The rows are the same up to their order. -/
theorem perm (h : a.Reordered xs ys) : xs.Perm ys := by
  classical
  rw [List.perm_iff_count]
  intro row
  by_cases hrow : row ∈ xs
  · obtain ⟨k, hk⟩ := h.left row hrow
    have hcount : ∀ rows : List Value,
        rows.count row = (rows.filter fun r => a.ownerKey? r == some k).count row := by
      intro rows
      exact (List.count_filter (by simpa using hk)).symm
    rw [hcount, hcount ys, h.same k]
  · rw [List.count_eq_zero.2 hrow, List.count_eq_zero.2 fun hm => hrow (h.mem_iff.2 hm)]

theorem isEmpty_eq (h : a.Reordered xs ys) : xs.isEmpty = ys.isEmpty := by
  rw [Bool.eq_iff_iff, List.isEmpty_iff_length_eq_zero, List.isEmpty_iff_length_eq_zero,
    h.perm.length_eq]

end Reordered

end Association

/-! ### Fields that rows get -/

namespace Value

theorem keyIn_setField_self {field : Value} (h : field.joinKey? = none) (v : Value)
    (name : String) : (v.setField name field).keyIn name = none := by
  cases v with
  | object fields =>
    rw [setField, keyIn, field?, Fields.get?_set_self]
    exact h
  | _ => rfl

end Value

namespace Association

variable {a : Association} {children : List Value}

theorem isObject_stripped {row : Value} (h : row.isObject = true) :
    (a.stripped row).isObject = true := by
  unfold stripped
  cases row with
  | object fields => split <;> rfl
  | _ => cases h

theorem isObject_of_mem_belonging (h : ∀ child ∈ children, child.isObject = true)
    {parent row : Value} (hrow : row ∈ a.belonging children parent) : row.isObject = true := by
  unfold belonging at hrow
  split at hrow
  · cases hrow
  · obtain ⟨child, hchild, rfl⟩ := List.mem_map.1 hrow
    exact isObject_stripped (h child (List.mem_filter.1 hchild).1)

/-- What a field gets is never a key. -/
theorem joinKey?_related {rows : List Value} (h : ∀ row ∈ rows, row.isObject = true) :
    (a.related rows).joinKey? = none := by
  unfold related
  split
  · rfl
  · cases rows with
    | nil => rfl
    | cons row rows =>
      have hobject := h row List.mem_cons_self
      cases row with
      | object fields => rfl
      | _ => cases hobject

/-- A parent with the field of a relation, from rows of which some may belong to it. -/
def dressed (a : Association) (relation : String) (children : List Value) (parent : Value) : Value :=
  parent.setField relation (a.related (a.belonging children parent))

/-- A field changes no key, except that its own column has none. -/
theorem keyIn_dressed (h : ∀ child ∈ children, child.isObject = true) (relation column : String) :
    (∀ row, (a.dressed relation children row).keyIn column = row.keyIn column) ∨
      ∀ row, (a.dressed relation children row).keyIn column = none := by
  by_cases he : column = relation
  · subst he
    refine .inr fun row => Value.keyIn_setField_self ?_ row column
    exact joinKey?_related fun r hr => isObject_of_mem_belonging h hr
  · exact .inl fun row => Value.keyIn_setField_of_ne he row _

theorem exists_groupInto (h : ∀ child ∈ children, child.isObject = true) (groups : Groups) :
    ∃ groups', a.groupInto groups children = .ok groups' := by
  induction children generalizing groups with
  | nil => exact ⟨groups, rfl⟩
  | cons child children ih =>
    have hrest := ih fun c hc => h c (List.mem_cons_of_mem child hc)
    rw [groupInto, if_pos (h child List.mem_cons_self)]
    split
    · exact hrest groups
    · exact hrest _

theorem fault_attachAll {relation : String} {groups : Groups} {parents : List Value}
    (h : ∀ parent ∈ parents, parent.isObject = true) :
    (a.attachAll relation groups parents).fault = none := by
  rw [attachAll_eq, if_pos (List.all_eq_true.2 h)]

/-- Attaching records to records always succeeds. -/
theorem attach_eq {relation : String} {parents : List Value}
    (hparents : ∀ parent ∈ parents, parent.isObject = true)
    (hchildren : ∀ child ∈ children, child.isObject = true) :
    a.attach relation parents children = ⟨parents.map (a.dressed relation children), none⟩ := by
  have hfault : (a.attach relation parents children).fault = none := by
    obtain ⟨groups, hgroups⟩ := exists_groupInto (a := a) hchildren []
    unfold attach groupByOwner
    rw [hgroups]
    exact fault_attachAll hparents
  have hattached := attach_parents hfault
  cases hx : a.attach relation parents children with
  | mk parents' fault =>
    rw [hx] at hfault hattached
    simp only at hfault hattached
    rw [hfault, hattached]
    rfl

end Association

/-! ### The pass over a board -/

namespace Assembly

variable {steps : List Step} {x y : Assembly} {s : Step}

theorem rowsOf_clear (x : Assembly) (i j : Nat) :
    rowsOf ⟨x.base, x.rows.set i []⟩ j = if i = j then [] else x.rowsOf j := by
  by_cases he : i = j
  · subst he
    rw [if_pos rfl, rowsOf, List.getElem?_set_self']
    cases x.rows[i]? <;> rfl
  · rw [if_neg he, rowsOf, List.getElem?_set_ne he, rowsOf]

theorem rowsOf_map (x : Assembly) (f : Value → Value) (i j : Nat) :
    rowsOf ⟨x.base, x.rows.set i ((x.rowsOf i).map f)⟩ j =
      if i = j then (x.rowsOf j).map f else x.rowsOf j := by
  by_cases he : i = j
  · subst he
    rw [if_pos rfl, rowsOf, List.getElem?_set_self', rowsOf]
    cases x.rows[i]? <;> rfl
  · rw [if_neg he, rowsOf, List.getElem?_set_ne he, rowsOf]

/-- Two states of the pass over a board: the same base rows, and for every step the same rows by
owner. -/
structure Alike (steps : List Step) (x y : Assembly) : Prop where
  base : x.base = y.base
  baseRecords : ∀ row ∈ x.base, row.isObject = true
  records : ∀ i, (∀ row ∈ x.rowsOf i, row.isObject = true) ∧ ∀ row ∈ y.rowsOf i, row.isObject = true
  same : ∀ s ∈ steps, s.association.SameByOwner (x.rowsOf s.index) (y.rowsOf s.index)

namespace Alike

/-- Rows that are used up. -/
theorem clear (h : Alike steps x y) (i : Nat) :
    Alike steps ⟨x.base, x.rows.set i []⟩ ⟨y.base, y.rows.set i []⟩ := by
  refine ⟨h.base, h.baseRecords, fun j => ?_, fun s hs => ?_⟩
  · rw [rowsOf_clear, rowsOf_clear]
    split
    · exact ⟨nofun, nofun⟩
    · exact h.records j
  · rw [rowsOf_clear, rowsOf_clear]
    split
    · exact fun _ => rfl
    · exact h.same s hs

theorem records_parents (h : Alike steps x y) (s : Step) :
    (∀ row ∈ x.parents s, row.isObject = true) ∧ ∀ row ∈ y.parents s, row.isObject = true := by
  unfold parents
  split
  · exact ⟨h.baseRecords, h.base ▸ h.baseRecords⟩
  · exact h.records _

/-- A field more on the rows that a step hangs on. -/
theorem withParents {children : List Value} (h : Alike steps x y)
    (hchildren : ∀ child ∈ children, child.isObject = true) (s : Step) :
    Alike steps (x.withParents s ((x.parents s).map (s.association.dressed s.relation children)))
      (y.withParents s ((y.parents s).map (s.association.dressed s.relation children))) := by
  have hrecords : ∀ rows : List Value, (∀ row ∈ rows, row.isObject = true) →
      ∀ row ∈ rows.map (s.association.dressed s.relation children), row.isObject = true := by
    intro rows hrows row hrow
    obtain ⟨r, hr, rfl⟩ := List.mem_map.1 hrow
    exact (Value.isObject_setField r _ _).trans (hrows r hr)
  unfold Assembly.withParents Assembly.parents
  cases s.parent with
  | none =>
    exact ⟨congrArg (List.map _) h.base, hrecords _ h.baseRecords, h.records, h.same⟩
  | some p =>
    refine ⟨h.base, h.baseRecords, fun j => ?_, fun s' hs' => ?_⟩
    · simp only [rowsOf_map]
      split
      · exact ⟨hrecords _ (h.records j).1, hrecords _ (h.records j).2⟩
      · exact h.records j
    · simp only [rowsOf_map]
      split
      · exact (h.same s' hs').map (Association.keyIn_dressed hchildren s.relation _)
      · exact h.same s' hs'

/-- Attaching one step. -/
theorem attachStep (h : Alike steps x y) (hs : s ∈ steps) :
    ∃ x' y', x.attachStep s = .ok x' ∧ y.attachStep s = .ok y' ∧ Alike steps x' y' := by
  obtain ⟨hx, hy⟩ := h.records s.index
  have hclear := h.clear s.index
  obtain ⟨hparents, hparents'⟩ := hclear.records_parents s
  have hsame : s.association.dressed s.relation (y.rowsOf s.index) =
      s.association.dressed s.relation (x.rowsOf s.index) := by
    funext parent
    rw [Association.dressed, Association.dressed, (h.same s hs).belonging_eq]
  refine ⟨_, _, ?_, ?_, hclear.withParents hx s⟩
  · rw [Assembly.attachStep]
    simp only [Association.attach_eq hparents hx]
  · rw [Assembly.attachStep]
    simp only [Association.attach_eq hparents' hy, hsame]

/-- The pass over two boards with the same rows by owner. -/
theorem attachAll (h : Alike steps x y) {part : List Step} (hpart : ∀ s ∈ part, s ∈ steps) :
    ∃ x' y', x.attachAll part = .ok x' ∧ y.attachAll part = .ok y' ∧ Alike steps x' y' := by
  induction part with
  | nil => exact ⟨x, y, rfl, rfl, h⟩
  | cons s part ih =>
    obtain ⟨x', y', hx, hy, hlater⟩ := ih fun s' hs' => hpart s' (List.mem_cons_of_mem s hs')
    obtain ⟨x'', y'', hx', hy', hstep⟩ := hlater.attachStep (hpart s List.mem_cons_self)
    refine ⟨x'', y'', ?_, ?_, hstep⟩
    · rw [Assembly.attachAll, hx]
      exact hx'
    · rw [Assembly.attachAll, hy]
      exact hy'

end Alike

end Assembly

end Prefetch

import Prefetch.Proofs.Load.Attaching

/-!
# Filtering — attaching is a filter of the fetched rows, parent by parent

The plain account of attaching.  Every parent goes through all fetched rows by itself and takes those
that have its own key; nothing is grouped, and no parent sees what another one takes.  The grouping
comes to the same for any association, one that would not be accepted included, and it fails at the
same place: before the first parent where a fetched row is no record, and otherwise at the first parent
that is none.

* `joins` — whether a fetched row belongs to a parent.
* `belonging_eq_taken` — the group of a parent's key, as the rows that the parent takes.
* `attach_filtered` — what attaching comes to, failures included.
-/

namespace Prefetch.Association

variable {a : Association} {children : List Value}

/-! ### What a parent takes -/

/-- The column by which fetched rows are known to their owners. -/
def joinColumn (a : Association) : String :=
  if a.joinTable.isSome then "__eager_owner_key" else a.relatedColumn

/-- Whether a fetched row belongs to a parent: both have a key, and it is the same. -/
def joins (a : Association) (parent child : Value) : Bool :=
  match parent.keyIn a.ownerColumn, child.keyIn a.joinColumn with
  | some k, some k' => k == k'
  | _, _ => false

/-- The fetched rows that belong to a parent, in order; those that came through a join table lose the
key of their owner. -/
def taken (a : Association) (children : List Value) (parent : Value) : List Value :=
  (children.filter (a.joins parent)).map fun child =>
    if a.joinTable.isSome then child.eraseField a.joinColumn else child

/-- What the field of the relation holds for a parent: all that it takes, or the first, or null. -/
def fieldFor (a : Association) (children : List Value) (parent : Value) : Value :=
  match a.kind with
  | .oneToOne => (a.taken children parent).head?.getD .null
  | .oneToMany => .array (a.taken children parent)
  | .manyToMany => .array (a.taken children parent)

/-! ### The groups give every parent what it takes -/

theorem matchField_eq_joinColumn (a : Association) : a.matchField = a.joinColumn := by
  unfold matchField joinColumn
  cases a.joinTable <;> rfl

theorem belonging_eq_taken (a : Association) (children : List Value) (parent : Value) :
    a.belonging children parent = a.taken children parent := by
  have hstripped : a.stripped = fun child : Value =>
      if a.joinTable.isSome then child.eraseField a.joinColumn else child := by
    funext child
    rw [stripped, matchField_eq_joinColumn]
  unfold belonging taken
  rw [hstripped]
  cases hparent : parent.keyIn a.ownerColumn with
  | none =>
    have hnone : children.filter (a.joins parent) = [] :=
      List.filter_eq_nil_iff.2 fun child _ => by simp [joins, hparent]
    rw [hnone, List.map_nil]
  | some k =>
    refine congrArg (List.map _) (List.filter_congr fun child _ => ?_)
    rw [ownerKey?, matchField_eq_joinColumn, ← Value.keyIn, joins, hparent]
    cases child.keyIn a.joinColumn with
    | none => rfl
    | some k' => exact Bool.beq_comm.trans (Option.some_beq_some ..)

theorem related_eq_fieldFor (a : Association) (children : List Value) (parent : Value) :
    a.related (a.belonging children parent) = a.fieldFor children parent := by
  rw [belonging_eq_taken, related, fieldFor]
  cases a.kind <;> rfl

/-! ### Attaching -/

/-- A fetched row that is no record ends the grouping. -/
theorem groupInto_eq_error (h : ∃ child ∈ children, child.isObject = false) (groups : Groups) :
    a.groupInto groups children = .error (.related a.table) := by
  induction children generalizing groups with
  | nil =>
    obtain ⟨child, hchild, -⟩ := h
    cases hchild
  | cons child children ih =>
    rw [groupInto]
    split
    · rename_i hobject
      have hrest : ∃ c ∈ children, c.isObject = false := by
        obtain ⟨c, hc, hfalse⟩ := h
        rcases List.mem_cons.1 hc with rfl | hc
        · exact absurd (hobject.symm.trans hfalse) (by decide)
        · exact ⟨c, hc, hfalse⟩
      split
      · exact ih hrest groups
      · exact ih hrest _
    · rfl

/-- Attaching fails before it begins when a fetched row is no record.  Otherwise every parent up to
the first that is no record gets, in the field of the relation, the fetched rows whose owner has its
key; nothing else about it changes, and that parent and those after it stay as they are. -/
theorem attach_filtered (a : Association) (relation : String) (parents children : List Value) :
    ((∃ child ∈ children, child.isObject = false) →
      a.attach relation parents children = ⟨parents, some (.related a.table)⟩) ∧
    ((∀ child ∈ children, child.isObject = true) →
      a.attach relation parents children =
        ⟨((parents.takeWhile (·.isObject)).map fun parent =>
            parent.setField relation (a.fieldFor children parent)) ++
          parents.dropWhile (·.isObject),
        if parents.all (·.isObject) then none else some (.parent relation)⟩) ∧
    ∀ parent ∈ parents.takeWhile (·.isObject),
      (parent.setField relation (a.fieldFor children parent)).isObject = true ∧
      (parent.setField relation (a.fieldFor children parent)).field? relation =
        some (a.fieldFor children parent) ∧
      ∀ name, name ≠ relation →
        (parent.setField relation (a.fieldFor children parent)).field? name =
          parent.field? name := by
  refine ⟨fun h => ?_, fun h => ?_, fun parent hparent => ?_⟩
  · rw [attach, groupByOwner, groupInto_eq_error h]
  · obtain ⟨groups, hgroups⟩ := exists_groupInto (a := a) h []
    have hfield : ∀ parent : Value,
        a.related (a.rowsOf groups parent) = a.fieldFor children parent := fun parent => by
      rw [rowsOf_eq_belonging hgroups, related_eq_fieldFor]
    rw [attach, groupByOwner, hgroups]
    simp only [attachAll_eq, hfield]
  · have hobject : parent.isObject = true := List.mem_takeWhile_imp hparent
    exact ⟨(Value.isObject_setField parent _ _).trans hobject,
      Value.field?_setField_self hobject _ _, fun name hname => Value.field?_setField_of_ne hname _ _⟩

/-- A number that joins a text, a row and a parent without a key, and a parent that is no record. -/
theorem attach_filtered_mixed :
    let a : Association :=
      { kind := .oneToMany, target := "Post", table := "posts", ownerColumn := "id",
        relatedColumn := "user_id" }
    let first : Value := .object [("user_id", .string "1"), ("n", .bool true)]
    let stray : Value := .object [("user_id", .null)]
    let second : Value := .object [("user_id", .number (.whole 1))]
    a.attach "posts" [.object [("id", .number (.whole 1))], .object [("posts", .null), ("id", .null)],
        .null, .object [("id", .string "1")]] [first, stray, second] =
      ⟨[.object [("id", .number (.whole 1)), ("posts", .array [first, second])],
        .object [("posts", .array []), ("id", .null)], .null, .object [("id", .string "1")]],
      some (.parent "posts")⟩ := by
  intro a first stray second
  rw [(attach_filtered a "posts" _ [first, stray, second]).2.1 (by decide)]
  rfl

end Prefetch.Association

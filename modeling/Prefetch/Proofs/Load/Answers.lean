import Mathlib.Data.List.Basic
import Prefetch.Proofs.Load.Fetching
import Prefetch.Proofs.Load.RowByRow

/-!
# Answers — what tables return for an association, key by key

All queries for one association draw on the same rows, each of which has the key of its owner from
the start, whatever is asked.  A query returns those of them that have one of its keys, in their
order; and whether it is refused does not depend on its keys.  The keys of a step are distinct, so
every key stands in one batch, and what all batches bring for it comes from the query for this batch.

* `mem_keys_collect_iff`, `nodup_keys_collect` — every key of the owners is asked for, once.
* `answer_ofAssociation` — the answer to one query.
* `filter_fetched` — what all batches bring for a key.
-/

namespace Prefetch

/-! ### Keys -/

namespace JoinKey

theorem mem_keys_distinct {seen : List JoinKey} {vs : List Value} {v : Value} {k : JoinKey}
    (hv : v ∈ vs) (hk : v.joinKey? = some k) (hseen : k ∉ seen) :
    k ∈ (distinct seen vs).filterMap Value.joinKey? := by
  induction vs generalizing seen with
  | nil => cases hv
  | cons w vs ih =>
    rcases List.mem_cons.1 hv with rfl | hv
    · rw [distinct, hk]
      simp only [if_neg hseen]
      exact List.mem_filterMap.2 ⟨v, List.mem_cons_self, hk⟩
    · rw [distinct]
      split
      · exact ih hv hseen
      · rename_i k' hw
        split
        · exact ih hv hseen
        · rw [List.filterMap_cons_some hw]
          by_cases he : k = k'
          · exact he ▸ List.mem_cons_self
          · exact List.mem_cons_of_mem k' (ih hv fun hm => (List.mem_cons.1 hm).elim he hseen)

theorem nodup_keys_distinct (seen : List JoinKey) (vs : List Value) :
    ((distinct seen vs).filterMap Value.joinKey?).Nodup := by
  induction vs generalizing seen with
  | nil => exact List.nodup_nil
  | cons v vs ih =>
    rw [distinct]
    split
    · exact ih seen
    · rename_i k hk
      split
      · exact ih seen
      · rw [List.filterMap_cons_some hk, List.nodup_cons]
        refine ⟨fun hm => ?_, ih (k :: seen)⟩
        obtain ⟨w, hw, hwk⟩ := List.mem_filterMap.1 hm
        obtain ⟨-, k', hk', hnot⟩ := mem_distinct hw
        obtain rfl := Option.some.inj (hk'.symm.trans hwk)
        exact hnot List.mem_cons_self

/-- The keys that are collected are the keys of the rows. -/
theorem mem_keys_collect_iff {rows : List Value} {column : String} {k : JoinKey} :
    k ∈ (collect rows column).filterMap Value.joinKey? ↔
      ∃ row ∈ rows, row.keyIn column = some k := by
  constructor
  · intro h
    obtain ⟨v, hv, hk⟩ := List.mem_filterMap.1 h
    obtain ⟨row, hrow, hfield⟩ := List.mem_filterMap.1 (mem_distinct hv).1
    exact ⟨row, hrow, Option.bind_eq_some_iff.2 ⟨v, hfield, hk⟩⟩
  · rintro ⟨row, hrow, hkey⟩
    obtain ⟨v, hv, hk⟩ := Option.bind_eq_some_iff.1 hkey
    exact mem_keys_distinct (List.mem_filterMap.2 ⟨row, hrow, hv⟩) hk List.not_mem_nil

/-- Nothing is collected when no row has a key. -/
theorem collect_eq_nil_iff {rows : List Value} {column : String} :
    collect rows column = [] ↔ ∀ row ∈ rows, row.keyIn column = none := by
  constructor
  · intro h row hrow
    rw [Option.eq_none_iff_forall_ne_some]
    intro k hk
    have hmem := mem_keys_collect_iff.2 ⟨row, hrow, hk⟩
    rw [h] at hmem
    cases hmem
  · intro h
    refine List.eq_nil_iff_forall_not_mem.2 fun v hv => ?_
    obtain ⟨-, k, hk, -⟩ := mem_distinct hv
    obtain ⟨row, hrow, hkey⟩ := mem_keys_collect_iff.1 (List.mem_filterMap.2 ⟨v, hv, hk⟩)
    rw [h row hrow] at hkey
    cases hkey

/-- No key is collected twice. -/
theorem nodup_keys_collect (rows : List Value) (column : String) :
    ((collect rows column).filterMap Value.joinKey?).Nodup :=
  nodup_keys_distinct [] _

end JoinKey

/-- Of some pieces without repeated keys, at most one has the key. -/
theorem flatMap_pieces {α β κ : Type} [DecidableEq κ] (key : α → Option κ)
    {pieces : List (List α)} (hn : (pieces.flatten.filterMap key).Nodup) (k : κ) (rows : List β) :
    (pieces.flatMap fun piece => if k ∈ piece.filterMap key then rows else []) =
      if k ∈ pieces.flatten.filterMap key then rows else [] := by
  induction pieces with
  | nil => rfl
  | cons piece pieces ih =>
    rw [List.flatten_cons, List.filterMap_append] at hn
    obtain ⟨-, hrest, hdisjoint⟩ := List.nodup_append.1 hn
    rw [List.flatMap_cons, ih hrest, List.flatten_cons, List.filterMap_append]
    by_cases hp : k ∈ piece.filterMap key
    · have hno : k ∉ pieces.flatten.filterMap key := fun hk => hdisjoint k hp k hk rfl
      rw [if_pos hp, if_neg hno, if_pos (List.mem_append_left _ hp), List.append_nil]
    · rw [if_neg hp, List.nil_append]
      simp only [List.mem_append, hp, false_or]

theorem isObject_of_keyIn {row : Value} {column : String} {k : JoinKey}
    (h : row.keyIn column = some k) : row.isObject = true := by
  cases row with
  | object fields => rfl
  | _ => cases h

namespace Tables

variable {t : Tables} {a : Association}

theorem holds_matchesKey (q : Query) (row : Value) (column : String) :
    holds row column q.matchesKey = (row.keyIn column).any fun k => decide (k ∈ q.joinKeys) := by
  unfold holds Value.keyIn Query.matchesKey
  cases row.field? column with
  | none => rfl
  | some v => cases hv : v.joinKey? <;> simp [hv]

theorem holds_joins (row : Value) (column : String) (k : JoinKey) :
    holds row column (joins k) = (row.keyIn column == some k) := by
  unfold holds Value.keyIn joins
  cases row.field? column <;> rfl

/-! ### The rows on offer -/

/-- The rows that a row of a join table leads on to, with the key of their owner. -/
def carried (t : Tables) (a : Association) (j : JoinTable) (link : Value) : List Value :=
  (t.linked a j link).map (withOwner ((link.field? j.ownerColumn).getD .null))

/-- The rows that some query for an association can return, in the order of the tables. -/
def offered (t : Tables) (a : Association) : List Value :=
  match a.joinTable with
  | none => t.rowsOf a.table
  | some j => (t.rowsOf j.table).flatMap (t.carried a j)

/-- Why queries for an association are refused, if they are. -/
def refusal? (t : Tables) (a : Association) : Option Source.Fault :=
  if a.table ∈ t.failing then some (.unavailable a.table)
  else if (t.table? a.table).isNone then some (.missing a.table)
  else a.joinTable.bind fun j =>
    if (t.table? j.table).isNone then some (.missing j.table) else none

/-- Whether the key of a row's owner is one of the keys. -/
def hasOwnerIn (a : Association) (keys : List JoinKey) (row : Value) : Bool :=
  (a.ownerKey? row).any fun k => decide (k ∈ keys)

theorem filter_hasOwnerIn (a : Association) (keys : List JoinKey) (rows : List Value)
    (k : JoinKey) :
    (rows.filter (hasOwnerIn a keys)).filter (fun row => a.ownerKey? row == some k) =
      if k ∈ keys then rows.filter (fun row => a.ownerKey? row == some k) else [] := by
  rw [List.filter_filter]
  split
  · rename_i hk
    refine List.filter_congr fun row _ => ?_
    by_cases he : a.ownerKey? row = some k <;> simp [hasOwnerIn, he, hk]
  · rename_i hk
    refine List.filter_eq_nil_iff.2 fun row _ => ?_
    by_cases he : a.ownerKey? row = some k <;> simp [hasOwnerIn, he, hk]

theorem isObject_of_mem_linked {j : JoinTable} {link row : Value} (h : row ∈ t.linked a j link) :
    row.isObject = true := by
  unfold linked at h
  split at h
  · cases h
  · exact isObject_of_keyIn (by simpa using (List.mem_filter.1 h).2)

/-- A row that a row of a join table leads on to has the key of the latter's owner. -/
theorem ownerKey?_of_mem_carried {j : JoinTable} (hj : a.joinTable = some j) {link row : Value}
    (h : row ∈ t.carried a j link) : a.ownerKey? row = link.keyIn j.ownerColumn := by
  obtain ⟨r, hr, rfl⟩ := List.mem_map.1 h
  have hobject := isObject_of_mem_linked hr
  have hmatch : a.matchField = Association.ownerKeyField := by rw [Association.matchField, hj]
  cases r with
  | object fields =>
    rw [Association.ownerKey?, hmatch, withOwner, Value.field?, Fields.get?_set_self, Value.keyIn]
    cases link.field? j.ownerColumn <;> rfl
  | _ => cases hobject

/-! ### One query -/

theorem joinKeys_ofAssociation (relation : String) (a : Association) (keys : List Value) :
    (Query.ofAssociation relation a keys).joinKeys = keys.filterMap Value.joinKey? := by
  unfold Query.ofAssociation
  split <;> rfl

/-- Of the rows that a row of a join table leads on to, a query returns all or none. -/
theorem follow_eq_filter {j : JoinTable} (hj : a.joinTable = some j) (q : Query) (link : Value) :
    follow q ⟨j.table, j.ownerColumn, j.relatedColumn, a.relatedColumn⟩ (t.rowsOf a.table) link =
      (t.carried a j link).filter (hasOwnerIn a q.joinKeys) := by
  have hall : (t.carried a j link).filter (hasOwnerIn a q.joinKeys) =
      if (link.keyIn j.ownerColumn).any fun k => decide (k ∈ q.joinKeys) then
        t.carried a j link else [] := by
    split
    · rename_i h
      refine List.filter_eq_self.2 fun row hrow => ?_
      rw [hasOwnerIn, ownerKey?_of_mem_carried hj hrow, h]
    · rename_i h
      refine List.filter_eq_nil_iff.2 fun row hrow => ?_
      rw [hasOwnerIn, ownerKey?_of_mem_carried hj hrow]
      exact h
  rw [hall]
  unfold follow carried linked Value.keyIn Query.matchesKey
  cases howner : link.field? j.ownerColumn with
  | none => rfl
  | some owner =>
    cases htarget : link.field? j.relatedColumn with
    | none => simp
    | some target =>
      cases hk : owner.joinKey? with
      | none => simp [hk]
      | some k =>
        cases hk' : target.joinKey? with
        | none => simp [hk']
        | some k' =>
          have hmatching : (t.rowsOf a.table).filter (holds · a.relatedColumn (joins k')) =
              t.matching a.table a.relatedColumn k' :=
            List.filter_congr fun r _ => holds_joins r a.relatedColumn k'
          by_cases hin : k ∈ q.joinKeys <;> simp [hk, hk', hin, hmatching]

/-- The answer to a query for an association: the rows on offer whose owner has one of the keys. -/
theorem answer_ofAssociation (t : Tables) (a : Association) (relation : String)
    (keys : List Value) :
    t.answer (Query.ofAssociation relation a keys) =
      match t.refusal? a with
      | some fault => .error fault
      | none => .ok ((t.offered a).filter (hasOwnerIn a (keys.filterMap Value.joinKey?))) := by
  have htable : (Query.ofAssociation relation a keys).table = a.table := by
    unfold Query.ofAssociation
    split <;> rfl
  unfold answer refusal? select
  rw [htable]
  split
  · rfl
  · cases hrelated : t.table? a.table with
    | none => rfl
    | some related =>
      have hrows : t.rowsOf a.table = related := by rw [rowsOf, hrelated]; rfl
      cases hj : a.joinTable with
      | none =>
        have hmatch : a.matchField = a.relatedColumn := by rw [Association.matchField, hj]
        simp only [Query.ofAssociation, hj, offered, hrows, Option.isNone_some, Bool.false_eq_true,
          if_false, Option.bind_none]
        congr 1
        refine List.filter_congr fun row _ => ?_
        rw [holds_matchesKey, hasOwnerIn, Association.ownerKey?, hmatch, Value.keyIn]
        rfl
      | some j =>
        cases hlinks : t.table? j.table with
        | none => simp [Query.ofAssociation, hj, hlinks]
        | some links =>
          have hlrows : t.rowsOf j.table = links := by rw [rowsOf, hlinks]; rfl
          have hlink : (Query.ofAssociation relation a keys).link =
              some ⟨j.table, j.ownerColumn, j.relatedColumn, a.relatedColumn⟩ := by
            rw [Query.ofAssociation, hj]
          simp only [hlink, hlinks, offered, hj, hlrows, List.filter_flatMap, Option.isNone_some,
            Bool.false_eq_true, if_false, Option.bind_some]
          rw [← hrows, funext (follow_eq_filter hj _), joinKeys_ofAssociation]

/-- The rows that queries for an association return for a key. -/
def owned (t : Tables) (a : Association) (k : JoinKey) : List Value :=
  if t.refusal? a = none then (t.offered a).filter fun row => a.ownerKey? row == some k else []

/-- What one query returns for a key. -/
theorem filter_answered (relation : String) (keys : List Value) (k : JoinKey) :
    ((t.answered (Query.ofAssociation relation a keys)).filter
        fun row => a.ownerKey? row == some k) =
      if k ∈ keys.filterMap Value.joinKey? then t.owned a k else [] := by
  rw [answered, answer_ofAssociation, owned]
  cases t.refusal? a with
  | some fault => simp
  | none =>
    rw [if_pos rfl]
    exact filter_hasOwnerIn a _ _ k

/-! ### All batches -/

/-- What all batches bring for a key: what there is for it, if one of the owners has it. -/
theorem filter_fetched (size : Option Nat) (owners : List Value) (s : Step) (k : JoinKey) :
    ((t.fetched size owners s).filter fun row => s.association.ownerKey? row == some k) =
      if ∃ owner ∈ owners, owner.keyIn s.association.ownerColumn = some k then
        t.owned s.association k else [] := by
  have hflat := flatten_chunks (size.getD 0) (JoinKey.collect owners s.association.ownerColumn)
  have hn := JoinKey.nodup_keys_collect owners s.association.ownerColumn
  rw [← hflat] at hn
  rw [fetched, List.filter_flatMap, List.flatMap_congr fun keys _ => filter_answered _ keys k]
  rw [Board.batches, flatMap_pieces Value.joinKey? hn, hflat]
  simp only [JoinKey.mem_keys_collect_iff]

/-- Every row that is fetched belongs to an owner. -/
theorem exists_key_of_mem_fetched {size : Option Nat} {owners : List Value} {s : Step}
    {row : Value} (h : row ∈ t.fetched size owners s) :
    ∃ k, s.association.ownerKey? row = some k := by
  obtain ⟨keys, -, hrow⟩ := List.mem_flatMap.1 h
  rw [answered, answer_ofAssociation] at hrow
  cases hr : t.refusal? s.association with
  | some fault =>
    rw [hr] at hrow
    cases hrow
  | none =>
    rw [hr] at hrow
    obtain ⟨k, hk, -⟩ := (Option.any_eq_true _ _).1 (List.mem_filter.1 hrow).2
    exact ⟨k, hk⟩

end Tables

end Prefetch

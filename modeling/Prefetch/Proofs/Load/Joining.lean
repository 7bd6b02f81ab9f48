import Prefetch.Proofs.Load.Answers
import Prefetch.Proofs.Load.Stitching

/-!
# Joining — the fetched rows of a parent are the rows joined to it

The rows that belong to a parent are those that its key leads to: a join table gives each of them
the key of its owner, and stitching takes it away again.

* `map_stripped_offered` — what there is for a key, as it is attached.
* `belonging_fetched` — what all batches bring for a parent.
-/

namespace Prefetch

namespace Tables

variable {t : Tables} {a : Association}

/-- No row of a table has a field of the name in which the owner's key is carried. -/
def FreeOfOwnerKeys (t : Tables) : Prop :=
  ∀ table, ∀ row ∈ t.rowsOf table, row.field? Association.ownerKeyField = none

theorem freeOfOwnerKeys_of_rows
    (h : ∀ r ∈ t.rows, ∀ row ∈ r.2, (row.field? Association.ownerKeyField).isNone = true) :
    t.FreeOfOwnerKeys := by
  intro table row hrow
  unfold rowsOf table? at hrow
  cases hr : t.rows.find? fun r => r.1 == table with
  | none =>
    rw [hr] at hrow
    cases hrow
  | some r =>
    rw [hr] at hrow
    exact Option.isNone_iff_eq_none.1 (h r (List.mem_of_find?_eq_some hr) row hrow)

theorem free_of_mem_linked (hfree : t.FreeOfOwnerKeys) {j : JoinTable} {link row : Value}
    (h : row ∈ t.linked a j link) : row.field? Association.ownerKeyField = none := by
  unfold linked at h
  split at h
  · cases h
  · exact hfree _ row (List.mem_filter.1 h).1

/-- Stitching takes away what a join table has added. -/
theorem map_stripped_carried (hfree : t.FreeOfOwnerKeys) {j : JoinTable}
    (hj : a.joinTable = some j) (link : Value) :
    (t.carried a j link).map a.stripped = t.linked a j link := by
  have hmatch : a.matchField = Association.ownerKeyField := by rw [Association.matchField, hj]
  rw [carried, List.map_map]
  conv_rhs => rw [← List.map_id (t.linked a j link)]
  refine List.map_congr_left fun row hrow => ?_
  have hobject := isObject_of_mem_linked hrow
  have hnone := free_of_mem_linked hfree hrow
  cases row with
  | object fields =>
    rw [Function.comp_apply, Association.stripped, hj, hmatch]
    refine congrArg Value.object ?_
    rw [Fields.erase_set_self]
    exact Fields.erase_of_get?_eq_none hnone
  | _ => cases hobject

theorem flatMap_filter {α β : Type} (p : α → Bool) (g : α → List β) (xs : List α) :
    (xs.filter p).flatMap g = xs.flatMap fun x => if p x then g x else [] := by
  induction xs with
  | nil => rfl
  | cons x xs ih => by_cases hp : p x <;> simp [hp, ih]

/-- What there is for a key, as it is attached: the rows that the key leads to. -/
theorem map_stripped_offered (hfree : t.FreeOfOwnerKeys) (k : JoinKey) :
    ((t.offered a).filter fun row => a.ownerKey? row == some k).map a.stripped =
      t.joinedTo a k := by
  unfold offered joinedTo
  cases hj : a.joinTable with
  | none =>
    have hmatch : a.matchField = a.relatedColumn := by rw [Association.matchField, hj]
    have hstripped : a.stripped = id := by
      funext row
      rw [Association.stripped, hj]
      rfl
    simp only [hstripped, List.map_id, Association.ownerKey?, hmatch]
    rfl
  | some j =>
    simp only [List.filter_flatMap, List.map_flatMap, matching, flatMap_filter]
    refine List.flatMap_congr fun link _ => ?_
    -- the rows of a link have the key of its owner, so they are all taken or none is
    by_cases hk : link.keyIn j.ownerColumn = some k
    · rw [List.filter_eq_self.2 fun row hrow => ?_, map_stripped_carried hfree hj,
        if_pos (by simpa)]
      rw [ownerKey?_of_mem_carried hj hrow]
      simpa using hk
    · rw [List.filter_eq_nil_iff.2 fun row hrow => ?_, if_neg (by simpa), List.map_nil]
      rw [ownerKey?_of_mem_carried hj hrow]
      simpa using hk

/-- What all batches bring for a parent are the rows joined to it. -/
theorem belonging_fetched (hfree : t.FreeOfOwnerKeys) {size : Option Nat} {owners : List Value}
    {s : Step} (hserves : t.Serves size owners s) {owner : Value} (howner : owner ∈ owners) :
    s.association.belonging (t.fetched size owners s) owner = t.joined s.association owner := by
  unfold Association.belonging joined
  cases hk : owner.keyIn s.association.ownerColumn with
  | none => rfl
  | some k =>
    have hserved : t.refusal? s.association = none := by
      have hkey := JoinKey.mem_keys_collect_iff.2 ⟨owner, howner, hk⟩
      rw [← flatten_chunks (size.getD 0) (JoinKey.collect owners s.association.ownerColumn)] at hkey
      obtain ⟨v, hv, -⟩ := List.mem_filterMap.1 hkey
      obtain ⟨keys, hkeys, -⟩ := List.mem_flatten.1 hv
      obtain ⟨rows, hrows⟩ := hserves keys hkeys
      rw [answer_ofAssociation] at hrows
      split at hrows
      · cases hrows
      · assumption
    show List.map _ (List.filter _ _) = t.joinedTo s.association k
    rw [filter_fetched, if_pos ⟨owner, howner, hk⟩, owned, if_pos hserved]
    exact map_stripped_offered hfree k

end Tables

end Prefetch

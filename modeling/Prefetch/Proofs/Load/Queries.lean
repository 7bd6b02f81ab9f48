import Prefetch.Proofs.Load.StepTable
import Prefetch.Source.Scripted

/-!
# Queries — the queries of a run that succeeds

A step asks for the values that the rows it starts from hold in the owner column, one for each key.
They go out in as few queries as the settings allow, and in none when there is no key; so the number
of queries does not grow with the number of rows.  A run sends these queries wave by wave, and
nothing besides them.

* `collect_eq_firsts` — the keys are the first values with each key.
* `batched_batches` — how keys are cut into batches.
* `execute_queries` — all queries of a run, in the order received.
-/

namespace Prefetch

/-! ### Keys -/

namespace JoinKey

/-- The values in a column that join, each unless one in front of it has the same key. -/
def firsts (rows : List Value) (column : String) : List Value :=
  ((rows.filterMap (·.field? column)).filter (·.joinKey?.isSome)).eraseDupsBy
    fun v w => v.joinKey? == w.joinKey?

theorem distinct_eq_eraseDupsBy (seen : List JoinKey) (vs : List Value) :
    distinct seen vs = (vs.filter fun v => v.joinKey?.any fun k => decide (k ∉ seen)).eraseDupsBy
      fun v w => v.joinKey? == w.joinKey? := by
  induction vs generalizing seen with
  | nil => rfl
  | cons v vs ih =>
    rw [distinct]
    cases hv : v.joinKey? with
    | none =>
      rw [List.filter_cons_of_neg (by simp [hv])]
      exact ih seen
    | some k =>
      by_cases hk : k ∈ seen
      · rw [List.filter_cons_of_neg (by simp [hv, hk])]
        simp only [if_pos hk]
        exact ih seen
      · rw [List.filter_cons_of_pos (by simp [hv, hk]), List.eraseDupsBy_cons, List.filter_filter]
        simp only [if_neg hk]
        rw [ih]
        congr 2
        refine List.filter_congr fun w _ => ?_
        cases hw : w.joinKey? with
        | none => simp
        | some k' =>
          rw [hv]
          by_cases he : k' = k <;> simp [he]

/-- The keys of some rows are the first values with each key. -/
theorem collect_eq_firsts (rows : List Value) (column : String) :
    collect rows column = firsts rows column := by
  rw [collect, distinct_eq_eraseDupsBy, firsts]
  simp

end JoinKey

/-! ### Batches -/

/-- Keys in batches: put together, the batches are the keys, and none of them is empty.  A size that
is not zero bounds them, and then there are as few of them as it allows; keys that no size divides
stay together. -/
structure Batched (size : Option Nat) (keys : List Value) (batches : List (List Value)) : Prop where
  flatten : batches.flatten = keys
  nonempty : ∀ batch ∈ batches, batch ≠ []
  idle : keys = [] → batches = []
  whole : keys ≠ [] → (∀ n, size = some n → n = 0 ∨ keys.length ≤ n) → batches = [keys]
  bounded : ∀ n, size = some n → 0 < n → ∀ batch ∈ batches, batch.length ≤ n
  count : ∀ n, size = some n → 0 < n → batches.length = (keys.length + n - 1) / n

theorem batched_batches (size : Option Nat) (keys : List Value) :
    Batched size keys (Board.batches size keys) := by
  have hnonempty := nil_not_mem_chunks (size.getD 0) keys
  refine ⟨flatten_chunks _ keys, fun batch hb he => hnonempty (he ▸ hb), ?_, fun hne hsize => ?_,
    ?_, ?_⟩
  · rintro rfl
    rw [Board.batches, chunks, if_pos (.inr (Nat.zero_le _)), List.isEmpty_nil]
    rfl
  · have hwhole : size.getD 0 = 0 ∨ keys.length ≤ size.getD 0 := by
      cases size with
      | none => exact .inl rfl
      | some n => exact hsize n rfl
    rw [Board.batches, chunks, if_pos hwhole, if_neg (by simpa using hne)]
  · rintro n rfl hn batch hb
    exact length_le_of_mem_chunks (Nat.pos_iff_ne_zero.1 hn) hb
  · rintro n rfl hn
    exact length_chunks hn keys

/-- A request of a step: it carries the relation of the step, and the table, the key column and the
join table of its association. -/
def Step.request (s : Step) (keys : List Value) : Request where
  step := s.index
  query :=
    { relation := s.relation
      table := s.association.table
      keyColumn := (s.association.joinTable.map (·.ownerColumn)).getD s.association.relatedColumn
      keys := keys
      link := s.association.joinTable.map fun j =>
        ⟨j.table, j.ownerColumn, j.relatedColumn, s.association.relatedColumn⟩ }

theorem Board.requestsOf_eq (b : Board) (base : List Value) (size : Option Nat) (s : Step) :
    b.requestsOf base size s = (batches size (b.keys base s)).map s.request := by
  have hquery : ∀ keys,
      Query.ofAssociation s.relation s.association keys = (s.request keys).query := by
    intro keys
    rw [Step.request, Query.ofAssociation]
    cases s.association.joinTable <;> rfl
  refine List.map_congr_left fun keys _ => ?_
  rw [hquery]
  rfl

/-! ### Runs -/

namespace Context

open Board

variable {c : Context} {p : Plan} {base : List Value} {t : Traffic} {b : Board}

/-- What some waves have asked for, step by step. -/
theorem After.asked_eq {waves : List (List Step)} (h : c.After base p waves t b)
    (hschema : c.schema.Registered) (hp : Orderly c.schema p.model p.steps) (size : Option Nat) :
    b.asked base size = waves.flatten.flatMap (b.requestsOf base size) := by
  obtain ⟨hcount, hwaves⟩ := h.waves_eq hschema hp
  rw [asked, hcount, hwaves, List.length_map, List.length_range, ← List.flatMap_def,
    List.flatMap_assoc]
  rfl

/-- A step that has run was in one of the waves. -/
theorem After.mem_flatten {waves : List (List Step)} (h : c.After base p waves t b)
    (hschema : c.schema.Registered) (hp : Orderly c.schema p.model p.steps) {slot : Slot}
    (hs : slot ∈ b.slots) (hr : slot.ran = true) : slot.step ∈ waves.flatten := by
  obtain ⟨hcount, hwaves⟩ := h.waves_eq hschema hp
  have hlevelled := h.reaches.levelled hschema hp
  have hmem : slot.step ∈ b.steps := List.mem_map_of_mem hs
  have hdepth := (hlevelled.ran slot hs).1 hr
  have hpos := hlevelled.orderly.depth_pos hmem
  rw [hwaves]
  refine List.mem_flatten_of_mem (List.mem_map_of_mem (a := slot.step.depth - 1) ?_)
    (mem_level.2 ⟨hmem, by omega⟩)
  rw [List.mem_range]
  omega

variable {settings : Settings} {model : String} {s : Selection} {allowed : Option Selection}
  {rows : List Value} {stats : Stats}

/-- The queries of a run that succeeds, whatever the source is.  Every step has run in one of the
waves, and holds the rows that the source returned for it.  The source has received, wave by wave
and step by step, the batches of the keys of the rows that a step starts from, and nothing else. -/
theorem execute_queries (hschema : c.schema.Registered)
    (hplan : Plan.ofSelection c.schema settings model s allowed = .ok p)
    (hrun : (c.execute base p).outcome = .ok (rows, stats)) :
    ∃ (waves : List (List Step)) (t : Traffic) (b : Board)
      (batches : Step → List (List Value)) (replies : List Reply),
      c.After base p waves t b ∧ conclude base b = .ok (rows, stats) ∧
        (∀ slot ∈ b.slots,
          slot.step ∈ waves.flatten ∧ slot.rows = rowsFor replies slot.step.index) ∧
        (∀ step ∈ waves.flatten, Batched c.settings.batchSize
          (JoinKey.firsts (b.owners base step) step.association.ownerColumn) (batches step)) ∧
        c.Exchanges c.past (waves.flatten.flatMap fun step => (batches step).map step.request)
          (c.execute base p).issued replies := by
  obtain ⟨-, -, hmodel, -⟩ := Plan.ofSelection_eq_ok hplan
  have hp := (Plan.exists_tasks_of_ofSelection hschema hplan).1
  rw [← hmodel] at hp
  obtain ⟨t, b, hreaches, hready, hissued, hend⟩ := execute_eq_ok hschema hp hrun
  have hlevelled := hreaches.levelled hschema hp
  obtain ⟨waves, hafter⟩ := hreaches.exists_after
  obtain ⟨replies, hexchanges, hrows⟩ := hreaches.exists_replies hschema hp
  refine ⟨waves, t, b, fun step => Board.batches c.settings.batchSize (b.keys base step), replies,
    hafter, hend, fun slot hs => ⟨?_, hrows slot hs⟩, fun step _ => ?_, ?_⟩
  · exact hafter.mem_flatten hschema hp hs (hlevelled.ran_of_ready hready hs)
  · rw [← JoinKey.collect_eq_firsts]
    exact batched_batches _ _
  · rw [hafter.asked_eq hschema hp, funext (requestsOf_eq b base _)] at hexchanges
    rw [hissued]
    exact hexchanges

/-- Five users, one of them without a key and two with the same: two queries for three keys. -/
theorem execute_queries_posts :
    let posts : Association := ⟨.oneToMany, "post", "posts", "id", "user_id", none⟩
    let schema : Schema := ⟨[⟨"user", "posts", posts⟩]⟩
    let s : Selection := { children := [Selection.named "posts"] }
    let post : Value := .object [("user_id", .string "3")]
    let source : Source := .scripted [.ok [], .ok [post]]
    let c : Context := ⟨schema, { batchSize := some 2 }, source, [], none⟩
    let p : Plan := ⟨"user", [⟨0, none, ["posts"], "user", posts, 1, .none⟩]⟩
    let base : List Value := [.object [("id", .string "1")], .object [("id", .null)],
      .object [("id", .string "2")], .object [("id", .string "1")], .object [("id", .string "3")]]
    schema.Registered ∧ Plan.ofSelection schema {} "user" s none = .ok p ∧
      ∃ rows stats, (c.execute base p).outcome = .ok (rows, stats) ∧
        (c.execute base p).issued.map (·.query.keys) = [[.string "1", .string "2"], [.string "3"]] ∧
        ∃ (waves : List (List Step)) (t : Traffic) (b : Board)
          (batches : Step → List (List Value)) (replies : List Reply),
          c.After base p waves t b ∧ conclude base b = .ok (rows, stats) ∧
            (∀ slot ∈ b.slots,
              slot.step ∈ waves.flatten ∧ slot.rows = rowsFor replies slot.step.index) ∧
            (∀ step ∈ waves.flatten, Batched c.settings.batchSize
              (JoinKey.firsts (b.owners base step) step.association.ownerColumn) (batches step)) ∧
            c.Exchanges c.past (waves.flatten.flatMap fun step => (batches step).map step.request)
              (c.execute base p).issued replies := by
  intro posts schema s post source c p base
  have hposts : Schema.empty.register "user" "posts" posts = .ok schema := by decide +kernel
  have hschema : schema.Registered := .register .empty hposts
  have hplan : Plan.ofSelection schema {} "user" s none = .ok p := by rfl
  have hrun : (c.execute base p).outcome = .ok
      ([.object [("id", .string "1"), ("posts", .array [])],
        .object [("id", .null), ("posts", .array [])],
        .object [("id", .string "2"), ("posts", .array [])],
        .object [("id", .string "1"), ("posts", .array [])],
        .object [("id", .string "3"), ("posts", .array [post])]], ⟨2, 1, 1, 0, 1, 1⟩) := by
    cbv
  have hkeys : (c.execute base p).issued.map (·.query.keys) =
      [[.string "1", .string "2"], [.string "3"]] := by
    cbv
  exact ⟨hschema, hplan, _, _, hrun, hkeys, execute_queries hschema hplan hrun⟩

end Context

end Prefetch

import Prefetch.Proofs.Load.Answers
import Prefetch.Proofs.Load.Reordering

/-!
# Batching — the number of keys in a query does not show

Batches change the order in which the rows of different owners come in, and with it the order of the
keys that are asked for next and even which of `1` and `"1"` stands for a key.  They do not change
which rows there are for a key, nor their order.  So two runs over the same tables that differ in
the size of their batches stay in step: wave by wave they have the same steps, the same rows for
every owner, and the same counts but for the queries; and when one of them fails, the other fails in
the same way.

* `runWave_source` — what comes of a wave over tables, whatever the batches.
* `InStep.settleWave`, `InStep.runWave` — one wave keeps two runs in step.
* `outcome_sized` — loads that differ in the size of their batches end in the same way.
-/

namespace Prefetch

open Board

/-! ### Waves over tables -/

namespace Context

variable {c : Context} {tables : Tables} {latency : Nat}

theorem gather_append (front back : List (Request × Except Source.Fault (List Value))) :
    gather (front ++ back) =
      match gather front with
      | .error e => .error e
      | .ok replies =>
        match gather back with
        | .error e => .error e
        | .ok others => .ok (replies ++ others) := by
  induction front with
  | nil => cases h : gather back <;> simp [gather, h]
  | cons answer front ih =>
    obtain ⟨r, fault | rows⟩ := answer
    · rfl
    · rw [List.cons_append, gather, gather, ih]
      cases gather front with
      | error e => rfl
      | ok replies => cases gather back <;> rfl

theorem issue_source (hc : c.source = tables.source latency) (t : Traffic) (rs : List Request) :
    (c.issue t rs).2 = rs.map fun r => (r, tables.answer r.query) := by
  induction rs generalizing t with
  | nil => rfl
  | cons r rs ih => simp [issue, ih, hc, Tables.source]

theorem rounds_source (hc : c.source = tables.source latency)
    (hlatency : latency ≤ c.settings.queryTimeout) (t : Traffic) (rss : List (List Request)) :
    (c.rounds t rss).2 = gather (rss.flatten.map fun r => (r, tables.answer r.query)) := by
  induction rss generalizing t with
  | nil => rfl
  | cons rs rss ih =>
    have hround : (c.round t rs).2 = gather (rs.map fun r => (r, tables.answer r.query)) := by
      have hno : ¬ c.source.latency > c.settings.queryTimeout := by
        rw [hc]
        exact Nat.not_lt.2 hlatency
      unfold round
      simp only [if_neg hno, issue_source hc]
    rw [rounds, List.flatten_cons, List.map_append, gather_append, ← hround]
    split
    · rename_i h
      rw [h]
    · rename_i t₁ replies h
      rw [h, ← ih t₁]
      split <;> rename_i h' <;> rw [h']

/-- However queries are sent to tables that answer in time, what comes of it is the rows of all
answers, or the first fault. -/
theorem fetch_source (hc : c.source = tables.source latency)
    (hlatency : latency ≤ c.settings.queryTimeout) (t : Traffic) (rs : List Request) :
    (c.fetch t rs).2 = gather (rs.map fun r => (r, tables.answer r.query)) := by
  rw [fetch, rounds_source hc hlatency, flatten_chunks]

theorem gather_of_answered {rs : List Request}
    (h : ∀ r ∈ rs, ∃ rows, tables.answer r.query = .ok rows) :
    gather (rs.map fun r => (r, tables.answer r.query)) = .ok (rs.map tables.reply) := by
  induction rs with
  | nil => rfl
  | cons r rs ih =>
    obtain ⟨rows, hrows⟩ := h r List.mem_cons_self
    rw [List.map_cons, hrows, gather, ih fun r' hr' => h r' (List.mem_cons_of_mem r hr'),
      List.map_cons, Tables.reply, Tables.answered_eq hrows]

end Context

/-- The error of the first step that asks for something and is refused. -/
def Tables.refused (t : Tables) (b : Board) (base : List Value) (wave : List Step) : Option Error :=
  wave.findSome? fun s =>
    if (b.keys base s).isEmpty then none
    else (t.refusal? s.association).map (Error.queryFailed s.relation)

/-- The replies to the queries of a wave, if none is refused. -/
def Tables.replies (t : Tables) (b : Board) (base : List Value) (size : Option Nat)
    (wave : List Step) : List Reply :=
  (b.requests base size wave).map t.reply

namespace Context

variable {c : Context} {tables : Tables} {latency : Nat} {b : Board} {base : List Value}

/-- What comes of the queries of one step. -/
theorem gather_requestsOf (size : Option Nat) (s : Step) :
    gather ((b.requestsOf base size s).map fun r => (r, tables.answer r.query)) =
      match tables.refused b base [s] with
      | some e => .error e
      | none => .ok ((b.requestsOf base size s).map tables.reply) := by
  rw [Tables.refused, List.findSome?_singleton]
  by_cases hk : b.keys base s = []
  · have hnone : b.requestsOf base size s = [] := by
      rw [requestsOf, batches, hk, chunks, if_pos (.inr (Nat.zero_le _)), List.isEmpty_nil,
        if_pos rfl, List.map_nil]
    rw [hnone, hk]
    rfl
  · rw [if_neg (by simpa using hk)]
    cases hr : tables.refusal? s.association with
    | none =>
      refine gather_of_answered fun r hr' => ?_
      obtain ⟨keys, -, rfl⟩ := List.mem_map.1 hr'
      rw [Tables.answer_ofAssociation, hr]
      exact ⟨_, rfl⟩
    | some fault =>
      -- there is a first query, and it is refused
      have hflat := flatten_chunks (size.getD 0) (b.keys base s)
      unfold requestsOf batches
      cases hchunks : chunks (size.getD 0) (b.keys base s) with
      | nil =>
        rw [hchunks] at hflat
        exact absurd hflat.symm hk
      | cons keys more =>
        have hrelation : (Query.ofAssociation s.relation s.association keys).relation =
            s.relation := by
          unfold Query.ofAssociation
          split <;> rfl
        rw [List.map_cons, List.map_cons, Tables.answer_ofAssociation, hr]
        simp only [gather, hrelation, Option.map_some]

/-- What comes of the queries of a wave. -/
theorem gather_requests (size : Option Nat) (wave : List Step) :
    gather ((b.requests base size wave).map fun r => (r, tables.answer r.query)) =
      match tables.refused b base wave with
      | some e => .error e
      | none => .ok (tables.replies b base size wave) := by
  unfold Tables.replies
  induction wave with
  | nil => rfl
  | cons s wave ih =>
    have hcons : tables.refused b base (s :: wave) =
        (tables.refused b base [s]).or (tables.refused b base wave) := by
      rw [Tables.refused, ← List.singleton_append, List.findSome?_append]
      rfl
    rw [requests, List.flatMap_cons, List.map_append, gather_append, gather_requestsOf, ← requests,
      ih, hcons]
    cases tables.refused b base [s] with
    | some e => rfl
    | none =>
      cases tables.refused b base wave with
      | some e => rfl
      | none => simp

/-- What comes of a wave over tables that answer in time. -/
theorem runWave_source (hc : c.source = tables.source latency)
    (hlatency : latency ≤ c.settings.queryTimeout) (t : Traffic) (wave : List Step) :
    (c.runWave base t b wave).2 =
      match tables.refused b base wave with
      | some e => .error e
      | none =>
        c.settleWave base b wave (tables.replies b base c.settings.batchSize wave) := by
  have hfetch := fetch_source hc hlatency t (b.requests base c.settings.batchSize wave)
  rw [gather_requests] at hfetch
  rw [runWave]
  rcases hx : c.fetch t (b.requests base c.settings.batchSize wave) with ⟨t', r⟩
  rw [hx] at hfetch
  obtain rfl : r = _ := hfetch
  cases tables.refused b base wave <;> rfl

end Context

/-! ### Two runs in step -/

/-- What has been done, but for the number of queries. -/
def Stats.uncounted (s : Stats) : Stats :=
  { s with queries := 0 }

namespace Board

/-- Two boards with the same steps, the same rows of every step for every owner, and the same counts
but for the queries. -/
structure Alike (b b' : Board) : Prop where
  steps : b.steps = b'.steps
  rows : ∀ s ∈ b.steps, s.association.Reordered (b.fetchedRows s.index) (b'.fetchedRows s.index)
  stats : b.stats.uncounted = b'.stats.uncounted

variable {b b' : Board} {schema : Schema} {model : String} {base : List Value} {s : Step}

theorem Alike.waves (h : b.Alike b') : b.stats.waves = b'.stats.waves := by
  have hwaves := congrArg Stats.waves h.stats
  exact hwaves

theorem Alike.mem_owners_iff (h : b.Alike b') (ho : Orderly schema model b.steps)
    (hs : s ∈ b.steps) (row : Value) : row ∈ b.owners base s ↔ row ∈ b'.owners base s := by
  rw [owners_eq, owners_eq]
  cases hp : s.parent with
  | none => rfl
  | some i =>
    obtain ⟨up, hup, rfl⟩ := ho.exists_up hs hp
    exact (h.rows up hup).mem_iff

theorem Alike.isEmpty_keys (h : b.Alike b') (ho : Orderly schema model b.steps)
    (hs : s ∈ b.steps) : (b.keys base s).isEmpty = (b'.keys base s).isEmpty := by
  rw [Bool.eq_iff_iff, List.isEmpty_iff, List.isEmpty_iff, keys, keys,
    JoinKey.collect_eq_nil_iff, JoinKey.collect_eq_nil_iff]
  simp only [h.mem_owners_iff ho hs]

/-- The same steps are refused. -/
theorem Alike.refused_eq (h : b.Alike b') (ho : Orderly schema model b.steps) (tables : Tables)
    {wave : List Step} (hwave : ∀ s ∈ wave, s ∈ b.steps) :
    tables.refused b base wave = tables.refused b' base wave := by
  induction wave with
  | nil => rfl
  | cons s wave ih =>
    have hrest := ih fun s' hs' => hwave s' (List.mem_cons_of_mem s hs')
    rw [Tables.refused] at hrest ⊢
    rw [List.findSome?_cons, hrest, h.isEmpty_keys ho (hwave s List.mem_cons_self)]
    rfl

end Board

/-- The rows for a step depend on the keys of its owners, not on their order, nor on the batches. -/
theorem Tables.reordered_fetched (t : Tables) {owners owners' : List Value}
    (h : ∀ row, row ∈ owners ↔ row ∈ owners') (size size' : Option Nat) (s : Step) :
    s.association.Reordered (t.fetched size owners s) (t.fetched size' owners' s) := by
  refine ⟨fun k => ?_, fun _ => exists_key_of_mem_fetched, fun _ => exists_key_of_mem_fetched⟩
  rw [filter_fetched, filter_fetched]
  simp only [h]

namespace Board

variable {b b' : Board} {schema : Schema} {model : String} {base : List Value} {s : Step}
  {tables : Tables} {size size' : Option Nat} {wave : List Step}

/-- What a wave brings for a step. -/
theorem Alike.reordered_rowsFor (h : b.Alike b') (ho : Orderly schema model b.steps)
    (hwave : ∀ s ∈ wave, s ∈ b.steps) (hs : s ∈ b.steps) :
    s.association.Reordered (rowsFor (tables.replies b base size wave) s.index)
      (rowsFor (tables.replies b' base size' wave) s.index) := by
  rw [Tables.replies, Tables.replies, rowsFor_requests, rowsFor_requests]
  refine Association.Reordered.flatMap fun step hstep => ?_
  by_cases he : step.index = s.index
  · obtain rfl := ho.eq_of_index (hwave step hstep) hs he
    rw [if_pos rfl, if_pos rfl]
    exact tables.reordered_fetched (h.mem_owners_iff ho hs) size size' step
  · rw [if_neg he, if_neg he]
    exact .nil _

theorem flatMap_rows :
    (tables.replies b base size wave).flatMap (·.rows) =
      wave.flatMap fun s => tables.fetched size (b.owners base s) s := by
  rw [Tables.replies, requests, List.map_flatMap, List.flatMap_assoc]
  refine List.flatMap_congr fun s _ => ?_
  rw [requestsOf, List.flatMap_map, List.flatMap_map]
  rfl

/-- A wave brings the same rows, up to their order. -/
theorem Alike.perm_rows (h : b.Alike b') (ho : Orderly schema model b.steps)
    (hwave : ∀ s ∈ wave, s ∈ b.steps) :
    ((tables.replies b base size wave).flatMap (·.rows)).Perm
      ((tables.replies b' base size' wave).flatMap (·.rows)) := by
  rw [flatMap_rows, flatMap_rows]
  refine List.Perm.flatMap_left wave fun s hs => ?_
  exact (tables.reordered_fetched (h.mem_owners_iff ho (hwave s hs)) size size' s).perm

/-- The rows of a step after a wave. -/
theorem fetchedRows_store {c : Context} {p : Plan} (hb : b.Levelled c p) (hs : s ∈ b.steps)
    (wave : List Step) (replies : List Reply) (added : List Slot) (stats : Stats) :
    fetchedRows ⟨b.store wave replies ++ added, stats⟩ s.index =
      b.fetchedRows s.index ++ rowsFor replies s.index := by
  obtain ⟨slot, hslot, rfl⟩ := hb.exists_slot hs
  rw [fetchedRows, fetchedRows, getElem?_store hslot, hslot]
  rfl

/-- There are no rows where there is no step. -/
theorem fetchedRows_eq_nil (ho : Orderly schema model b.steps) {i : Nat}
    (hi : ∀ s ∈ b.steps, s.index ≠ i) : b.fetchedRows i = [] := by
  rw [fetchedRows]
  cases hslot : b.slots[i]? with
  | none => rfl
  | some slot =>
    have hstep : b.steps[i]? = some slot.step := by rw [getElem?_steps, hslot]; rfl
    exact absurd (ho.index i slot.step hstep) (hi _ (List.mem_of_getElem? hstep))

/-- A new step has no rows. -/
theorem fetchedRows_added {slots : List Slot} {i : Nat} (hi : slots.length ≤ i) (more : List Step)
    (stats : Stats) :
    fetchedRows ⟨slots ++ more.map (fun s => ⟨s, [], false⟩), stats⟩ i = [] := by
  rw [fetchedRows, List.getElem?_append_right hi, List.getElem?_map]
  cases more[i - slots.length]? <;> rfl

theorem hasRows_store {c : Context} {p : Plan} (hb : b.Levelled c p) (hs : s ∈ b.steps)
    (wave : List Step) (replies : List Reply) :
    hasRows (b.store wave replies) s =
      !(b.fetchedRows s.index ++ rowsFor replies s.index).isEmpty := by
  rw [← fetchedRows_store hb hs wave replies [] {}, hasRows, fetchedRows, List.append_nil]
  cases (b.store wave replies)[s.index]? <;> rfl

end Board

namespace Context

variable {c : Context} {p : Plan} {size : Option Nat} {b b' : Board} {base : List Value}
  {tables : Tables} {latency : Nat}

/-- The context with another bound on the keys of a query. -/
def sized (c : Context) (size : Option Nat) : Context :=
  { c with settings := { c.settings with batchSize := size } }

theorem growAll_sized (index : Nat) (steps : List Step) :
    (c.sized size).growAll index steps = c.growAll index steps := by
  refine growAll_congr (fun step index => ?_) index steps
  rfl

/-- Two runs that have come to boards which are alike. -/
structure InStep (c : Context) (size : Option Nat) (p : Plan) (b b' : Board) : Prop where
  left : b.Levelled c p
  right : b'.Levelled (c.sized size) p
  alike : b.Alike b'

theorem InStep.ready_eq (h : c.InStep size p b b') : b'.ready = b.ready := by
  rw [h.left.ready_eq, h.right.ready_eq, h.alike.steps, h.alike.waves]

/-- Two outcomes of a wave: the same error, or boards that are alike. -/
inductive SameEnd : Except Error Board → Except Error Board → Prop where
  | failed (e : Error) : SameEnd (.error e) (.error e)
  | settled {b b' : Board} (h : b.Alike b') : SameEnd (.ok b) (.ok b')

namespace InStep

variable (h : c.InStep size p b b')
include h

theorem mem_steps {s : Step} (hs : s ∈ b.ready) : s ∈ b.steps ∧ s ∈ b'.steps :=
  ⟨mem_steps_of_mem_ready hs, h.alike.steps ▸ mem_steps_of_mem_ready hs⟩

/-- The rows of a step after a wave. -/
theorem reordered_after {s : Step} (hs : s ∈ b.steps) :
    s.association.Reordered
      (b.fetchedRows s.index ++
        rowsFor (tables.replies b base c.settings.batchSize b.ready) s.index)
      (b'.fetchedRows s.index ++ rowsFor (tables.replies b' base size b.ready) s.index) :=
  (h.alike.rows s hs).append
    (h.alike.reordered_rowsFor h.left.orderly (fun _ => mem_steps_of_mem_ready) hs)

/-- The same steps have rows after a wave. -/
theorem fruitful_eq :
    b.ready.filter (hasRows (b.store b.ready (tables.replies b base c.settings.batchSize b.ready))) =
      b.ready.filter (hasRows (b'.store b.ready (tables.replies b' base size b.ready))) := by
  refine List.filter_congr fun s hs => ?_
  obtain ⟨hleft, hright⟩ := h.mem_steps hs
  rw [hasRows_store h.left hleft, hasRows_store h.right hright, (h.reordered_after hleft).isEmpty_eq]

/-- The same steps ask for nothing. -/
theorem skipped_eq :
    (b.ready.filter fun s => (b.keys base s).isEmpty) =
      b.ready.filter fun s => (b'.keys base s).isEmpty :=
  List.filter_congr fun _ hs => h.alike.isEmpty_keys h.left.orderly (h.mem_steps hs).1

/-- The same counts after a wave, but for the queries. -/
theorem uncounted_afterWave (wave fruitful skipped : List Step) :
    (b.stats.afterWave wave fruitful skipped
        (tables.replies b base c.settings.batchSize b.ready)).uncounted =
      (b'.stats.afterWave wave fruitful skipped
        (tables.replies b' base size b.ready)).uncounted := by
  have hperm : ((tables.replies b base c.settings.batchSize b.ready).flatMap (·.rows)).Perm
      ((tables.replies b' base size b.ready).flatMap (·.rows)) :=
    h.alike.perm_rows h.left.orderly fun _ => mem_steps_of_mem_ready
  have hstats := h.alike.stats
  simp only [Stats.uncounted, Stats.mk.injEq, true_and] at hstats
  obtain ⟨hrecords, hdepth, hskipped, hran, hwaves⟩ := hstats
  simp only [Stats.uncounted, Stats.afterWave, hperm.length_eq, hrecords, hdepth, hskipped, hran,
    hwaves]

/-- What a wave leaves when its replies have come in. -/
theorem settleWave :
    SameEnd
      (c.settleWave base b b.ready (tables.replies b base c.settings.batchSize b.ready))
      ((c.sized size).settleWave base b' b.ready (tables.replies b' base size b.ready)) := by
  have hlength : (b'.store b.ready (tables.replies b' base size b.ready)).length =
      (b.store b.ready (tables.replies b base c.settings.batchSize b.ready)).length := by
    rw [length_store, length_store, ← length_steps, ← length_steps, h.alike.steps]
  unfold Context.settleWave
  simp only [growAll_sized, hlength, ← h.fruitful_eq, ← h.skipped_eq]
  split
  · exact .failed _
  · rename_i more hmore
    have hnew : ∀ {slots : List Slot} {steps : List Step}, slots.map (·.step) = steps → ∀ stats,
        Board.steps ⟨slots ++ more.map fun s => ⟨s, [], false⟩, stats⟩ = steps ++ more := by
      rintro slots steps rfl stats
      simp [Board.steps, Function.comp_def]
    refine .settled ⟨?_, fun s hs => ?_, h.uncounted_afterWave _ _ _⟩
    · rw [hnew (slots_store b _ _), hnew (slots_store b' _ _)]
      exact congrArg (· ++ more) h.alike.steps
    · rw [hnew (slots_store b _ _)] at hs
      rcases List.mem_append.1 hs with hs | hs
      · have hs' : s ∈ b'.steps := h.alike.steps ▸ hs
        rw [fetchedRows_store h.left hs, fetchedRows_store h.right hs']
        exact h.reordered_after hs
      · -- a new step has its place behind the others
        obtain ⟨i, hi, rfl⟩ := List.mem_iff_getElem.1 hs
        have hindex := getElem_growAll_index hmore i hi
        rw [fetchedRows_added (by omega), fetchedRows_added (by omega)]
        exact .nil _

end InStep

theorem InStep.runWave (h : c.InStep size p b b') (hc : c.source = tables.source latency)
    (hlatency : latency ≤ c.settings.queryTimeout) (t t' : Traffic) :
    SameEnd (c.runWave base t b b.ready).2 ((c.sized size).runWave base t' b' b'.ready).2 := by
  have hwave : ∀ s ∈ b.ready, s ∈ b.steps := fun s => mem_steps_of_mem_ready
  have hc' : (c.sized size).source = tables.source latency := hc
  rw [h.ready_eq, runWave_source hc hlatency, runWave_source hc' hlatency,
    h.alike.refused_eq h.left.orderly tables hwave]
  cases tables.refused b' base b.ready with
  | some e => exact .failed e
  | none => exact h.settleWave

/-- All waves. -/
theorem InStep.runWaves (h : c.InStep size p b b') (hschema : c.schema.Registered)
    (hc : c.source = tables.source latency) (hlatency : latency ≤ c.settings.queryTimeout)
    (base : List Value) (n : Nat) (t t' : Traffic) :
    (∃ e, (c.runWaves base n t b).2 = .error e ∧
      ((c.sized size).runWaves base n t' b').2 = .error e) ∨
    ∃ b₁ b₁', (c.runWaves base n t b).2 = .ok b₁ ∧
      ((c.sized size).runWaves base n t' b').2 = .ok b₁' ∧ c.InStep size p b₁ b₁' := by
  induction n generalizing t t' b b' with
  | zero => exact .inr ⟨b, b', rfl, rfl, h⟩
  | succ n ih =>
    have hend : SameEnd (c.runWave base t b b.ready).2 _ := h.runWave hc hlatency t t'
    rw [Context.runWaves, Context.runWaves, h.ready_eq]
    rw [h.ready_eq] at hend
    split
    · exact .inr ⟨b, b', rfl, rfl, h⟩
    · rcases hx : c.runWave base t b b.ready with ⟨t₁, r⟩
      rcases hy : (c.sized size).runWave base t' b' b.ready with ⟨t₁', r'⟩
      rw [hx, hy] at hend
      cases hend with
      | failed e => exact .inl ⟨e, rfl, rfl⟩
      | settled halike =>
        rw [← h.ready_eq] at hy
        have hschema' : (c.sized size).schema.Registered := hschema
        have hleft := levelled_runWave hschema h.left hx
        have hright := levelled_runWave hschema' h.right hy
        exact ih ⟨hleft, hright, halike⟩ t₁ t₁'

/-- Boards that are alike are put together to the same rows. -/
theorem InStep.exists_conclude (h : c.InStep size p b b')
    (hbase : ∀ row ∈ base, row.isObject = true) :
    ∃ rows, conclude base b = .ok (rows, b.stats) ∧ conclude base b' = .ok (rows, b'.stats) := by
  have hrecords : ∀ i, (∀ row ∈ b.fetchedRows i, row.isObject = true) ∧
      ∀ row ∈ b'.fetchedRows i, row.isObject = true := by
    intro i
    by_cases hi : ∃ s ∈ b.steps, s.index = i
    · obtain ⟨s, hs, rfl⟩ := hi
      have hrows := h.alike.rows s hs
      refine ⟨fun row hrow => ?_, fun row hrow => ?_⟩
      · obtain ⟨k, hk⟩ := hrows.left row hrow
        exact isObject_of_keyIn hk
      · obtain ⟨k, hk⟩ := hrows.right row hrow
        exact isObject_of_keyIn hk
    · rw [fetchedRows_eq_nil h.left.orderly fun s hs he => hi ⟨s, hs, he⟩,
        fetchedRows_eq_nil h.right.orderly fun s hs he => hi ⟨s, h.alike.steps ▸ hs, he⟩]
      exact ⟨nofun, nofun⟩
  have halike : Assembly.Alike b.steps (.ofBoard base b) (.ofBoard base b') := by
    refine ⟨rfl, hbase, ?_, ?_⟩
    · simpa only [Assembly.rowsOf_ofBoard] using hrecords
    · simpa only [Assembly.rowsOf_ofBoard] using fun s hs => (h.alike.rows s hs).same
  obtain ⟨x, y, hx, hy, hsame⟩ := halike.attachAll fun s hs => hs
  rw [h.alike.steps] at hy
  refine ⟨x.base, ?_, ?_⟩
  · rw [conclude, ← steps, hx]
  · rw [conclude, ← steps, hy, hsame.base]

/-- Runs of a plan that differ in the size of their batches. -/
theorem execute_sized (hschema : c.schema.Registered) (hp : Orderly c.schema p.model p.steps)
    (hc : c.source = tables.source latency) (hlatency : latency ≤ c.settings.queryTimeout) :
    ((c.sized size).execute base p).outcome.map (fun r => (r.1, r.2.uncounted)) =
      (c.execute base p).outcome.map fun r => (r.1, r.2.uncounted) := by
  have hstart : c.InStep size p (ofPlan p) (ofPlan p) := by
    refine ⟨levelled_ofPlan hp, levelled_ofPlan hp, rfl, fun s _ => ?_, rfl⟩
    have hnone : (ofPlan p).fetchedRows s.index = [] :=
      @fetchedRows_added [] s.index (Nat.zero_le _) p.steps {}
    rw [hnone]
    exact .nil _
  have hbound : (c.sized size).waveBound p = c.waveBound p := rfl
  unfold execute
  cases hbase : checkBase base with
  | error fault => rfl
  | ok _ =>
    have hend := hstart.runWaves hschema hc hlatency base (c.waveBound p) {} {}
    rw [hbound]
    rcases hx : c.runWaves base (c.waveBound p) {} (ofPlan p) with ⟨t, r⟩
    rcases hy : (c.sized size).runWaves base (c.waveBound p) {} (ofPlan p) with ⟨t', r'⟩
    rw [hx, hy] at hend
    simp only at hend
    obtain ⟨e, rfl, rfl⟩ | ⟨b, b', rfl, rfl, h⟩ := hend
    · rfl
    · obtain ⟨rows, hrows, hrows'⟩ := h.exists_conclude (checkBase_eq_ok_iff.1 hbase)
      simp only [hrows, hrows', Except.map, h.alike.stats]

/-- What comes of planning a selection and loading the plan onto base rows. -/
def outcome (c : Context) (model : String) (s : Selection) (allowed : Option Selection)
    (base : List Value) : Except Error (List Value × Stats) :=
  match Plan.ofSelection c.schema c.settings model s allowed with
  | .error e => .error e
  | .ok p => (c.execute base p).outcome

/-- Loads over the same tables that differ in the size of their batches end in the same way: with
the same error, or with the same rows and the same counts but for the queries.  The tables may take
their time as long as no query runs into its limit. -/
theorem outcome_sized (hschema : c.schema.Registered) (hc : c.source = tables.source latency)
    (hlatency : latency ≤ c.settings.queryTimeout) (size : Option Nat) (model : String)
    (s : Selection) (allowed : Option Selection) (base : List Value) :
    ((c.sized size).outcome model s allowed base).map (fun r => (r.1, r.2.uncounted)) =
      (c.outcome model s allowed base).map fun r => (r.1, r.2.uncounted) := by
  have hplan : Plan.ofSelection (c.sized size).schema (c.sized size).settings model s allowed =
      Plan.ofSelection c.schema c.settings model s allowed := rfl
  unfold outcome
  rw [hplan]
  split
  · rfl
  · rename_i p hp
    obtain ⟨-, -, hmodel, -⟩ := Plan.ofSelection_eq_ok hp
    have horderly := (Plan.exists_tasks_of_ofSelection hschema hp).1
    rw [← hmodel] at horderly
    exact execute_sized hschema horderly hc hlatency

/-- With a query for each key, the posts of two users come in another order, and so do the keys that
are asked for next. -/
theorem outcome_sized_one :
    let posts : Association := ⟨.oneToMany, "post", "posts", "id", "user_id", none⟩
    let notes : Association := ⟨.oneToOne, "note", "notes", "id", "post_id", none⟩
    let schema : Schema := ⟨[⟨"user", "posts", posts⟩, ⟨"post", "notes", notes⟩]⟩
    let tables : Tables := { rows := [
      ("posts", [.object [("id", .string "p"), ("user_id", .string "1")],
        .object [("id", .string "q"), ("user_id", .string "2")]]),
      ("notes", [.object [("post_id", .string "q")]])] }
    let c : Context := ⟨schema, {}, tables.source 0, [], none⟩
    let s : Selection := { children := [(Selection.named "posts").everything] }
    let base : List Value := [.object [("id", .string "2")], .object [("id", .string "1")]]
    let p : Plan := ⟨"user", [⟨0, none, ["posts"], "user", posts, 1, .everything⟩]⟩
    schema.Registered ∧ c.source = tables.source 0 ∧ 0 ≤ c.settings.queryTimeout ∧
      Plan.ofSelection schema {} "user" s none = .ok p ∧
      (c.execute base p).issued.map (·.query.keys) =
        [[.string "2", .string "1"], [.string "p", .string "q"]] ∧
      ((c.sized (some 1)).execute base p).issued.map (·.query.keys) =
        [[.string "2"], [.string "1"], [.string "q"], [.string "p"]] ∧
      ((c.sized (some 1)).outcome "user" s none base).map (fun r => (r.1, r.2.uncounted)) =
        (c.outcome "user" s none base).map fun r => (r.1, r.2.uncounted) := by
  intro posts notes schema tables c s base p
  have hposts : Schema.empty.register "user" "posts" posts = .ok ⟨[⟨"user", "posts", posts⟩]⟩ := by
    decide +kernel
  have hnotes : Schema.register ⟨[⟨"user", "posts", posts⟩]⟩ "post" "notes" notes = .ok schema := by
    decide +kernel
  have hschema : schema.Registered := .register (.register .empty hposts) hnotes
  have hplan : Plan.ofSelection schema {} "user" s none = .ok p := by rfl
  have hwhole : (c.execute base p).issued.map (·.query.keys) =
      [[.string "2", .string "1"], [.string "p", .string "q"]] := by
    cbv
  have hpieces : ((c.sized (some 1)).execute base p).issued.map (·.query.keys) =
      [[.string "2"], [.string "1"], [.string "q"], [.string "p"]] := by
    cbv
  exact ⟨hschema, rfl, Nat.zero_le _, hplan, hwhole, hpieces,
    outcome_sized hschema rfl (Nat.zero_le _) (some 1) "user" s none base⟩

end Context

end Prefetch

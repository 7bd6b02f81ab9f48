import Prefetch.Proofs.Load.Dispatch
import Prefetch.Source.Memory

/-!
# Fetching — the rows that a run over tables has fetched

Tables answer a query in the same way whenever it comes, so what a wave fetches does not depend on
how its queries went out.  A step that has run holds what the tables give for the keys of its
owners, batch by batch; and since its owners had run before it, this stays true to the end.

* `fetch_eq_ok` — the replies to some queries, however they were sent.
* `Reaches.fed` — on every board of a run, the rows of a step are those of its owners' keys.
-/

namespace Prefetch

namespace Tables

/-- The rows with which tables answer a query; none if they refuse it. -/
def answered (t : Tables) (q : Query) : List Value :=
  match t.answer q with
  | .error _ => []
  | .ok rows => rows

theorem answered_eq {t : Tables} {q : Query} {rows : List Value} (h : t.answer q = .ok rows) :
    t.answered q = rows := by
  rw [answered, h]

/-- The reply to a request. -/
def reply (t : Tables) (r : Request) : Reply :=
  ⟨r.step, t.answered r.query⟩

/-- The rows for a step that starts from some rows, batch by batch. -/
def fetched (t : Tables) (size : Option Nat) (owners : List Value) (s : Step) : List Value :=
  (Board.batches size (JoinKey.collect owners s.association.ownerColumn)).flatMap fun keys =>
    t.answered (Query.ofAssociation s.relation s.association keys)

/-- None of the queries for a step that starts from some rows is refused. -/
def Serves (t : Tables) (size : Option Nat) (owners : List Value) (s : Step) : Prop :=
  ∀ keys ∈ Board.batches size (JoinKey.collect owners s.association.ownerColumn),
    ∃ rows, t.answer (Query.ofAssociation s.relation s.association keys) = .ok rows

end Tables

/-! ### What the tables reply -/

namespace Context

variable {c : Context} {tables : Tables} {latency : Nat}

theorem answers_source (tables : Tables) (latency : Nat) (before sent : List Issued) :
    (tables.source latency).answers before sent = sent.map fun i => tables.answer i.query := by
  induction sent generalizing before with
  | nil => rfl
  | cons entry sent ih => rw [Source.answers, ih, List.map_cons, Tables.source]

/-- Replies that go to the steps of some requests, with what the tables answer to these. -/
theorem replies_eq {rs : List Request} {replies : List Reply}
    (hsteps : replies.map (·.step) = rs.map (·.step))
    (hanswers : (rs.map fun r => tables.answer r.query) = replies.map fun r => .ok r.rows) :
    replies = rs.map tables.reply ∧ ∀ r ∈ rs, ∃ rows, tables.answer r.query = .ok rows := by
  induction rs generalizing replies with
  | nil =>
    rw [List.map_nil, List.map_eq_nil_iff] at hsteps
    exact ⟨hsteps, nofun⟩
  | cons r rs ih =>
    cases replies with
    | nil => cases hsteps
    | cons reply replies =>
      rw [List.map_cons, List.map_cons] at hsteps hanswers
      obtain ⟨hstep, hsteps⟩ := List.cons.inj hsteps
      obtain ⟨hanswer, hanswers⟩ := List.cons.inj hanswers
      obtain ⟨rfl, hall⟩ := ih hsteps hanswers
      refine ⟨?_, List.forall_mem_cons.2 ⟨⟨reply.rows, hanswer⟩, hall⟩⟩
      rw [List.map_cons, Tables.reply, Tables.answered_eq hanswer, ← hstep]

/-- However queries are sent to tables, the replies are those of the tables, in order. -/
theorem fetch_eq_ok (hc : c.source = tables.source latency) {t t' : Traffic} {rs : List Request}
    {replies : List Reply} (h : c.fetch t rs = (t', .ok replies)) :
    replies = rs.map tables.reply ∧ ∀ r ∈ rs, ∃ rows, tables.answer r.query = .ok rows := by
  obtain ⟨sent, -, hex⟩ := exists_exchanges_of_fetch h
  refine replies_eq hex.steps ?_
  have hsent := congrArg (List.map tables.answer) hex.queries
  rw [List.map_map, List.map_map] at hsent
  rw [← hex.answers, hc, answers_source]
  exact hsent.symm

end Context

/-! ### What a step gets of them -/

namespace Board

variable {b : Board} {base : List Value} {size : Option Nat} {tables : Tables}

theorem rowsFor_requestsOf (step : Step) (index : Nat) :
    rowsFor ((b.requestsOf base size step).map tables.reply) index =
      if step.index = index then tables.fetched size (b.owners base step) step else [] := by
  have hstep : ∀ r ∈ (b.requestsOf base size step).map tables.reply, r.step = step.index := by
    intro r hr
    obtain ⟨request, hrequest, rfl⟩ := List.mem_map.1 hr
    obtain ⟨keys, -, rfl⟩ := List.mem_map.1 hrequest
    rfl
  split
  · rename_i h
    rw [rowsFor, List.filter_eq_self.2 fun r hr => by simp [hstep r hr, h], requestsOf,
      List.flatMap_map, List.flatMap_map]
    rfl
  · rename_i h
    rw [rowsFor, List.filter_eq_nil_iff.2 fun r hr => by simp [hstep r hr, h], List.flatMap_nil]

theorem rowsFor_requests (wave : List Step) (index : Nat) :
    rowsFor ((b.requests base size wave).map tables.reply) index =
      wave.flatMap fun step =>
        if step.index = index then tables.fetched size (b.owners base step) step else [] := by
  induction wave with
  | nil => rfl
  | cons step wave ih =>
    rw [requests, List.flatMap_cons, List.map_append, rowsFor_append, rowsFor_requestsOf,
      List.flatMap_cons, ← ih, requests]

theorem flatMap_of_nodup {α β : Type} {xs : List α} (hn : xs.Nodup) {x : α} (hx : x ∈ xs)
    {f : α → List β} (hf : ∀ y ∈ xs, y ≠ x → f y = []) : xs.flatMap f = f x := by
  induction xs with
  | nil => cases hx
  | cons y ys ih =>
    obtain ⟨hy, hys⟩ := List.nodup_cons.1 hn
    rw [List.flatMap_cons]
    rcases List.mem_cons.1 hx with rfl | hx
    · have hrest : ys.flatMap f = [] := by
        refine List.flatMap_eq_nil_iff.2 fun z hz => hf z (List.mem_cons_of_mem x hz) ?_
        rintro rfl
        exact hy hz
      rw [hrest, List.append_nil]
    · have hne : y ≠ x := by
        rintro rfl
        exact hy hx
      rw [hf y List.mem_cons_self hne, List.nil_append]
      exact ih hys hx fun z hz => hf z (List.mem_cons_of_mem y hz)

/-- Steps that have not run hold no rows; the others hold the rows for the keys of their owners. -/
structure Fed (tables : Tables) (size : Option Nat) (base : List Value) (b : Board) : Prop where
  waiting : ∀ slot ∈ b.slots, slot.ran = false → slot.rows = []
  rows : ∀ slot ∈ b.slots, slot.ran = true →
    slot.rows = tables.fetched size (b.owners base slot.step) slot.step
  served : ∀ slot ∈ b.slots, slot.ran = true →
    tables.Serves size (b.owners base slot.step) slot.step

theorem fed_ofPlan (tables : Tables) (size : Option Nat) (base : List Value) (p : Plan) :
    Fed tables size base (ofPlan p) := by
  have hran : ∀ slot ∈ (ofPlan p).slots, slot.ran = false ∧ slot.rows = [] := by
    intro slot hs
    obtain ⟨s, -, rfl⟩ := List.mem_map.1 hs
    exact ⟨rfl, rfl⟩
  refine ⟨fun slot hs _ => (hran slot hs).2, ?_, ?_⟩
  all_goals
    intro slot hs hr
    rw [(hran slot hs).1] at hr
    cases hr

end Board

namespace Context

open Board

variable {c : Context} {p : Plan} {base : List Value} {tables : Tables} {latency : Nat}
  {t t' : Traffic} {b b' : Board}

/-- What a wave brings to the slots that were there before. -/
theorem rowsFor_runWave (hc : c.source = tables.source latency) (h : b.Levelled c p)
    {replies : List Reply}
    (hf : c.fetch t (b.requests base c.settings.batchSize b.ready) = (t', .ok replies))
    {s : Step} (hs : s ∈ b.steps) :
    rowsFor replies s.index =
      if s.depth = b.stats.waves + 1 then
        tables.fetched c.settings.batchSize (b.owners base s) s
      else [] := by
  split
  · rename_i hd
    have hn : b.ready.Nodup := by
      rw [h.ready_eq]
      exact h.orderly.nodup.filter _
    rw [(fetch_eq_ok hc hf).1, rowsFor_requests,
      flatMap_of_nodup hn ((h.mem_ready_iff hs).2 hd) fun y hy hne => ?_, if_pos rfl]
    rw [if_neg fun he => hne (h.orderly.eq_of_index (mem_steps_of_mem_ready hy) hs he)]
  · rename_i hd
    exact rowsFor_fetch_eq_nil h hf hs hd

/-- After a wave a slot either waits, or holds the rows for the keys of its owners. -/
theorem slot_runWave (hc : c.source = tables.source latency) (h : b.Levelled c p)
    (hfed : b.Fed tables c.settings.batchSize base)
    (run : c.runWave base t b b.ready = (t', .ok b')) {slot : Slot} (hs : slot ∈ b'.slots) :
    (slot.ran = false ∧ slot.rows = []) ∨ (slot.ran = true ∧
      slot.rows = tables.fetched c.settings.batchSize (b'.owners base slot.step) slot.step ∧
        tables.Serves c.settings.batchSize (b'.owners base slot.step) slot.step) := by
  obtain ⟨replies, more, hf, -, hslots, -⟩ := runWave_eq_ok run
  have hanswers := (fetch_eq_ok hc hf).2
  rw [hslots] at hs
  rcases List.mem_append.1 hs with hs | hs
  · obtain ⟨old, hold, rfl⟩ := List.mem_map.1 hs
    have hmem : old.step ∈ b.steps := List.mem_map_of_mem hold
    have hany := h.any_ready_iff hmem
    have hrows := rowsFor_runWave hc h hf hmem
    have hran := h.ran old hold
    rcases Nat.lt_trichotomy old.step.depth (b.stats.waves + 1) with hlt | heq | hgt
    · -- the step has run before
      have hown := owners_runWave h run hmem (by omega)
      rw [if_neg (by omega)] at hrows
      have hr : old.ran = true := hran.2 (by omega)
      simp only [receive, hrows, List.append_nil, hr, Bool.true_or]
      rw [hown]
      exact .inr ⟨trivial, hfed.rows old hold hr, hfed.served old hold hr⟩
    · -- the step has run in this wave
      have hown := owners_runWave h run hmem (by omega)
      rw [if_pos heq] at hrows
      have hwait : old.rows = [] :=
        hfed.waiting old hold ((h.ran_eq_false_iff hold).2 (by omega))
      simp only [receive, hrows, hwait, List.nil_append, hany.2 heq, Bool.or_true]
      rw [hown]
      refine .inr ⟨trivial, rfl, fun keys hk => ?_⟩
      exact hanswers ⟨old.step.index, _⟩ (List.mem_flatMap.2
        ⟨old.step, (h.mem_ready_iff hmem).2 heq, List.mem_map.2 ⟨keys, hk, rfl⟩⟩)
    · -- the step has still to run
      have hno : old.ran = false := (h.ran_eq_false_iff hold).2 (by omega)
      have hnot : (b.ready.any fun r => r.index == old.step.index) = false := by
        rw [← Bool.not_eq_true, hany]
        omega
      rw [if_neg (by omega)] at hrows
      exact .inl ⟨by simp only [receive, hno, hnot, Bool.or_self],
        by simp only [receive, hfed.waiting old hold hno, hrows, List.append_nil]⟩
  · obtain ⟨s, -, rfl⟩ := List.mem_map.1 hs
    exact .inl ⟨rfl, rfl⟩

theorem fed_runWave (hc : c.source = tables.source latency) (h : b.Levelled c p)
    (hfed : b.Fed tables c.settings.batchSize base)
    (run : c.runWave base t b b.ready = (t', .ok b')) :
    b'.Fed tables c.settings.batchSize base := by
  refine ⟨fun slot hs hr => ?_, fun slot hs hr => ?_, fun slot hs hr => ?_⟩
  all_goals rcases slot_runWave hc h hfed run hs with ⟨hran, hrows⟩ | ⟨hran, hrows, hserved⟩
  · exact hrows
  · rw [hran] at hr
    cases hr
  · rw [hran] at hr
    cases hr
  · exact hrows
  · rw [hran] at hr
    cases hr
  · exact hserved

/-- On every board of a run over tables, the rows of a step are those for its owners' keys. -/
theorem Reaches.fed (h : c.Reaches base p t b) (hc : c.source = tables.source latency)
    (hschema : c.schema.Registered) (hp : Orderly c.schema p.model p.steps) :
    b.Fed tables c.settings.batchSize base := by
  induction h with
  | start => exact fed_ofPlan tables c.settings.batchSize base p
  | wave before _ run ih => exact fed_runWave hc (before.levelled hschema hp) ih run

end Context

end Prefetch

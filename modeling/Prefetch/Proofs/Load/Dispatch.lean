import Mathlib.Data.List.Permutation
import Prefetch.Proofs.Load.Levels

/-!
# Dispatch — what a run has asked for and what it was told

Whatever the source is, an exchange that succeeds has sent every query, in order, and every reply
holds what the source answered to its query.  A wave brings rows to the steps of its level only.  So
what a run has asked for can be read off the board it has come to: level by level, each step asks for
the keys of the rows that it starts from, and these rows do not change any more.

* `exists_exchanges_of_fetch` — a successful exchange, query by query.
* `owners_runWave` — the rows that a step starts from are complete one wave before it runs.
* `Reaches.exists_replies` — the queries of a run and the rows of its board, from one list of replies.
* `yields_runWave` — the steps with rows after a wave.
-/

namespace Prefetch

/-- The answers of a source to some queries that it receives one after the other. -/
def Source.answers (source : Source) :
    List Issued → List Issued → List (Except Source.Fault (List Value))
  | _, [] => []
  | before, entry :: sent =>
    source.answer before entry :: answers source (before ++ [entry]) sent

theorem Source.answers_append (source : Source) (before front back : List Issued) :
    source.answers before (front ++ back) =
      source.answers before front ++ source.answers (before ++ front) back := by
  induction front generalizing before with
  | nil => simp [answers]
  | cons entry front ih => simp [answers, ih]

/-! ### Exchanges -/

namespace Context

variable {c : Context}

/-- Some requests were sent to a source that had received queries `before`, and each of the replies
holds the rows that were answered. -/
structure Exchanges (c : Context) (before : List Issued) (rs : List Request) (sent : List Issued)
    (replies : List Reply) : Prop where
  queries : sent.map (·.query) = rs.map (·.query)
  steps : replies.map (·.step) = rs.map (·.step)
  answers : c.source.answers before sent = replies.map fun r => .ok r.rows

namespace Exchanges

variable {before sent sent' : List Issued} {rs rs' : List Request} {replies replies' : List Reply}

theorem nil (before : List Issued) : c.Exchanges before [] [] [] :=
  ⟨rfl, rfl, rfl⟩

theorem append (h : c.Exchanges before rs sent replies)
    (h' : c.Exchanges (before ++ sent) rs' sent' replies') :
    c.Exchanges before (rs ++ rs') (sent ++ sent') (replies ++ replies') := by
  refine ⟨?_, ?_, ?_⟩
  · rw [List.map_append, List.map_append, h.queries, h'.queries]
  · rw [List.map_append, List.map_append, h.steps, h'.steps]
  · rw [Source.answers_append, List.map_append, h.answers, h'.answers]

/-- Each reply is for the step of a request. -/
theorem exists_request (h : c.Exchanges before rs sent replies) {r : Reply} (hr : r ∈ replies) :
    ∃ request ∈ rs, request.step = r.step := by
  have hm : r.step ∈ rs.map (·.step) := h.steps ▸ List.mem_map_of_mem hr
  exact List.mem_map.1 hm

theorem sent_ne_nil (h : c.Exchanges before rs sent replies) (hne : replies ≠ []) : sent ≠ [] := by
  rintro rfl
  have hanswers := h.answers
  rw [Source.answers, eq_comm, List.map_eq_nil_iff] at hanswers
  exact hne hanswers

end Exchanges

theorem map_issue (t : Traffic) (rs : List Request) :
    (c.issue t rs).2.map (·.1) = rs ∧
      (c.issue t rs).2.map (·.2) =
        c.source.answers (c.past ++ t.issued) (rs.map fun r => ⟨r.query, c.scope, t.time⟩) := by
  induction rs generalizing t with
  | nil => exact ⟨rfl, rfl⟩
  | cons r rs ih =>
    obtain ⟨hrequests, hanswers⟩ := ih { t with issued := t.issued ++ [⟨r.query, c.scope, t.time⟩] }
    rw [← List.append_assoc] at hanswers
    refine ⟨?_, ?_⟩
    · rw [issue, List.map_cons, hrequests]
    · rw [issue, List.map_cons, hanswers, List.map_cons, Source.answers]

theorem map_gather {answers : List (Request × Except Source.Fault (List Value))}
    {replies : List Reply} (h : gather answers = .ok replies) :
    replies.map (·.step) = answers.map (·.1.step) ∧
      answers.map (·.2) = replies.map fun r => .ok r.rows := by
  induction answers generalizing replies with
  | nil =>
    obtain rfl := Except.ok.inj h
    exact ⟨rfl, rfl⟩
  | cons answer answers ih =>
    obtain ⟨r, rows | rows⟩ := answer
    · cases h
    · rw [gather] at h
      split at h
      · cases h
      · rename_i others ho
        obtain rfl := Except.ok.inj h
        obtain ⟨hsteps, hrows⟩ := ih ho
        exact ⟨by rw [List.map_cons, List.map_cons, hsteps],
          by rw [List.map_cons, List.map_cons, hrows]⟩

theorem exists_exchanges_of_round {t t' : Traffic} {rs : List Request} {replies : List Reply}
    (h : c.round t rs = (t', .ok replies)) :
    ∃ sent, t'.issued = t.issued ++ sent ∧
      c.Exchanges (c.past ++ t.issued) rs sent replies := by
  have hissued : t'.issued = t.issued ++ rs.map fun r => ⟨r.query, c.scope, t.time⟩ := by
    rw [← received_round, h]
  refine ⟨_, hissued, ?_⟩
  unfold round at h
  split at h
  · obtain ⟨-, he⟩ := Prod.mk.inj h
    cases rs with
    | nil =>
      obtain rfl := Except.ok.inj he
      exact .nil _
    | cons r rs => cases he
  · obtain ⟨-, he⟩ := Prod.mk.inj h
    obtain ⟨hsteps, hrows⟩ := map_gather he
    obtain ⟨hrequests, hanswers⟩ := map_issue (c := c) t rs
    have hstep := congrArg (List.map (·.step)) hrequests
    rw [List.map_map] at hstep
    exact ⟨by simp [Function.comp_def], hsteps.trans hstep, hanswers ▸ hrows⟩

theorem exists_exchanges_of_rounds {t t' : Traffic} {rss : List (List Request)}
    {replies : List Reply} (h : c.rounds t rss = (t', .ok replies)) :
    ∃ sent, t'.issued = t.issued ++ sent ∧
      c.Exchanges (c.past ++ t.issued) rss.flatten sent replies := by
  induction rss generalizing t t' replies with
  | nil =>
    obtain ⟨rfl, he⟩ := Prod.mk.inj h
    obtain rfl := Except.ok.inj he
    exact ⟨[], (List.append_nil _).symm, .nil _⟩
  | cons rs rss ih =>
    rw [rounds] at h
    split at h
    · cases h
    · rename_i t₁ first hfirst
      split at h
      · cases h
      · rename_i t₂ others hothers
        obtain ⟨rfl, he⟩ := Prod.mk.inj h
        obtain rfl := Except.ok.inj he
        obtain ⟨sent, hsent, hex⟩ := exists_exchanges_of_round hfirst
        obtain ⟨later, hlater, hexLater⟩ := ih hothers
        rw [hsent, ← List.append_assoc] at hexLater
        refine ⟨sent ++ later, ?_, ?_⟩
        · rw [hlater, hsent, List.append_assoc]
        · rw [List.flatten_cons]
          exact hex.append hexLater

/-- A successful exchange has sent all queries, and the replies are what the source answered. -/
theorem exists_exchanges_of_fetch {t t' : Traffic} {rs : List Request} {replies : List Reply}
    (h : c.fetch t rs = (t', .ok replies)) :
    ∃ sent, t'.issued = t.issued ++ sent ∧
      c.Exchanges (c.past ++ t.issued) rs sent replies := by
  have hex := exists_exchanges_of_rounds h
  rwa [flatten_chunks] at hex

end Context

/-! ### One wave -/

namespace Board

/-- The steps of a level. -/
def level (b : Board) (n : Nat) : List Step :=
  b.steps.filter fun s => s.depth == n

theorem mem_level {b : Board} {n : Nat} {s : Step} : s ∈ b.level n ↔ s ∈ b.steps ∧ s.depth = n := by
  rw [level, List.mem_filter, beq_iff_eq]

theorem rowsFor_append (front back : List Reply) (index : Nat) :
    rowsFor (front ++ back) index = rowsFor front index ++ rowsFor back index := by
  simp [rowsFor]

theorem rowsFor_eq_nil {replies : List Reply} {index : Nat}
    (h : ∀ r ∈ replies, r.step ≠ index) : rowsFor replies index = [] := by
  have hnone : (replies.filter fun r => r.step == index) = [] :=
    List.filter_eq_nil_iff.2 fun r hr => by simpa using h r hr
  rw [rowsFor, hnone, List.flatMap_nil]

/-- A request of some steps is for one of them. -/
theorem exists_step_of_mem_requests {b : Board} {base : List Value} {size : Option Nat}
    {wave : List Step} {r : Request} (h : r ∈ b.requests base size wave) :
    ∃ step ∈ wave, r.step = step.index := by
  obtain ⟨step, hs, hr⟩ := List.mem_flatMap.1 h
  obtain ⟨keys, -, rfl⟩ := List.mem_map.1 hr
  exact ⟨step, hs, rfl⟩

end Board

namespace Context

open Board

variable {c : Context} {p : Plan} {base : List Value} {t t' : Traffic} {b b' : Board}

/-- A wave brings nothing to the steps of other levels. -/
theorem rowsFor_fetch_eq_nil (h : b.Levelled c p) {replies : List Reply}
    (hf : c.fetch t (b.requests base c.settings.batchSize b.ready) = (t', .ok replies)) {s : Step}
    (hs : s ∈ b.steps) (hd : s.depth ≠ b.stats.waves + 1) : rowsFor replies s.index = [] := by
  obtain ⟨sent, -, hex⟩ := exists_exchanges_of_fetch hf
  refine rowsFor_eq_nil fun r hr he => hd ?_
  obtain ⟨request, hrequest, hstep⟩ := hex.exists_request hr
  obtain ⟨step, hready, hindex⟩ := exists_step_of_mem_requests hrequest
  have hsame : step = s :=
    h.orderly.eq_of_index (mem_steps_of_mem_ready hready) hs (by omega)
  exact (h.mem_ready_iff hs).1 (hsame ▸ hready)

/-- The rows that a step starts from are complete one wave before it runs. -/
theorem owners_runWave (h : b.Levelled c p) (run : c.runWave base t b b.ready = (t', .ok b'))
    {s : Step} (hs : s ∈ b.steps) (hd : s.depth ≤ b.stats.waves + 1) :
    b'.owners base s = b.owners base s := by
  obtain ⟨replies, more, hf, -, hslots, -⟩ := runWave_eq_ok run
  unfold owners
  cases hp : s.parent with
  | none => rfl
  | some i =>
    obtain ⟨up, hup, rfl⟩ := h.orderly.exists_up hs hp
    have hdepth := h.orderly.depth_below hs hup hp
    obtain ⟨slot, hslot, rfl⟩ := h.exists_slot hup
    have hold := rowsFor_fetch_eq_nil h hf hup (by omega)
    simp only [hslots, getElem?_store hslot, hslot, receive, hold, List.append_nil]

/-- A wave puts steps on the level below its own only. -/
theorem level_runWave (h : b.Levelled c p) (run : c.runWave base t b b.ready = (t', .ok b'))
    {n : Nat} (hn : n ≤ b.stats.waves + 1) : b'.level n = b.level n := by
  obtain ⟨more, hsteps, hmore⟩ := steps_runWave run
  have hnone : (more.filter fun s => s.depth == n) = [] := by
    refine List.filter_eq_nil_iff.2 fun s hs => ?_
    obtain ⟨step, hready, hgrow⟩ := hmore s hs
    have hdepth := (h.mem_ready_iff (mem_steps_of_mem_ready hready)).1 hready
    have := hgrow.depth
    simp only [beq_iff_eq]
    omega
  rw [level, hsteps, List.filter_append, hnone, List.append_nil, level]

end Context

/-! ### Runs -/

namespace Board

/-- What the steps down to the level of the last wave have asked for, level by level. -/
def asked (b : Board) (base : List Value) (size : Option Nat) : List Request :=
  (List.range b.stats.waves).flatMap fun n => b.requests base size (b.level (n + 1))

variable {c : Context} {p : Plan} {b : Board} {base : List Value} {size : Option Nat}

theorem exists_step_of_mem_asked {r : Request} (h : r ∈ b.asked base size) :
    ∃ step ∈ b.steps, step.depth ≤ b.stats.waves ∧ r.step = step.index := by
  obtain ⟨n, hn, hr⟩ := List.mem_flatMap.1 h
  obtain ⟨step, hs, hindex⟩ := exists_step_of_mem_requests hr
  obtain ⟨hmem, hdepth⟩ := mem_level.1 hs
  have := List.mem_range.1 hn
  exact ⟨step, hmem, by omega, hindex⟩

end Board

namespace Context

open Board

variable {c : Context} {p : Plan} {base : List Value} {t t' : Traffic} {b b' : Board}

/-- What steps ask for that have run, or are ready, does not change any more. -/
theorem requests_runWave (h : b.Levelled c p) (run : c.runWave base t b b.ready = (t', .ok b'))
    {wave : List Step} (hw : ∀ s ∈ wave, s ∈ b.steps ∧ s.depth ≤ b.stats.waves + 1)
    (size : Option Nat) : b'.requests base size wave = b.requests base size wave := by
  refine List.flatMap_congr fun s hs => ?_
  obtain ⟨hmem, hdepth⟩ := hw s hs
  rw [requestsOf, requestsOf, keys, keys, owners_runWave h run hmem hdepth]

/-- A wave adds what its own level asks for. -/
theorem asked_runWave (h : b.Levelled c p) (run : c.runWave base t b b.ready = (t', .ok b'))
    (size : Option Nat) :
    b'.asked base size = b.asked base size ++ b.requests base size b.ready := by
  have hwaves := (runWave_eq_ok run).choose_spec.choose_spec.2.2.2
  have hlevel : ∀ n, n ≤ b.stats.waves →
      b'.requests base size (b'.level (n + 1)) = b.requests base size (b.level (n + 1)) := by
    intro n hn
    rw [level_runWave h run (by omega)]
    refine requests_runWave h run (fun s hs => ?_) size
    obtain ⟨hmem, hdepth⟩ := mem_level.1 hs
    exact ⟨hmem, by omega⟩
  rw [asked, hwaves, List.range_succ, List.flatMap_append, List.flatMap_singleton,
    hlevel _ (Nat.le_refl _), asked]
  congr 1
  · exact List.flatMap_congr fun n hn => hlevel n (Nat.le_of_lt (List.mem_range.1 hn))
  · rw [h.ready_eq, level]

/-- Nothing has come for a step that is further down than all that has been asked for. -/
theorem rowsFor_eq_nil_of_lt (h : b.Levelled c p) {before sent : List Issued} {size : Option Nat}
    {replies : List Reply} (hex : c.Exchanges before (b.asked base size) sent replies) {s : Step}
    (hs : s ∈ b.steps) (hd : b.stats.waves < s.depth) : rowsFor replies s.index = [] := by
  refine rowsFor_eq_nil fun r hr he => ?_
  obtain ⟨request, hrequest, hstep⟩ := hex.exists_request hr
  obtain ⟨step, hmem, hdepth, hindex⟩ := exists_step_of_mem_asked hrequest
  have hsame := h.orderly.eq_of_index hmem hs (by omega)
  rw [hsame] at hdepth
  exact Nat.lt_irrefl _ (Nat.lt_of_lt_of_le hd hdepth)

/-- One list of replies accounts for the queries of a run and for the rows of its board: the source
gave them to what the steps have asked for, and each step has the rows of its own replies. -/
theorem Reaches.exists_replies (h : c.Reaches base p t b) (hschema : c.schema.Registered)
    (hp : Orderly c.schema p.model p.steps) :
    ∃ replies, c.Exchanges c.past (b.asked base c.settings.batchSize) t.issued replies ∧
      ∀ slot ∈ b.slots, slot.rows = rowsFor replies slot.step.index := by
  induction h with
  | start =>
    refine ⟨[], .nil _, fun slot hs => ?_⟩
    obtain ⟨s, -, rfl⟩ := List.mem_map.1 hs
    rfl
  | @wave t t' b b' before _ run ih =>
    obtain ⟨replies, hex, hrows⟩ := ih
    have h := before.levelled hschema hp
    have h' := levelled_runWave hschema h run
    obtain ⟨more, added, hf, -, hslots, -⟩ := runWave_eq_ok run
    obtain ⟨sent, hissued, hexMore⟩ := exists_exchanges_of_fetch hf
    have hall : c.Exchanges c.past (b'.asked base c.settings.batchSize) t'.issued
        (replies ++ more) := by
      rw [asked_runWave h run, hissued]
      exact hex.append hexMore
    refine ⟨replies ++ more, hall, fun slot hs => ?_⟩
    rw [hslots] at hs
    rcases List.mem_append.1 hs with hs | hs
    · obtain ⟨old, hold, rfl⟩ := List.mem_map.1 hs
      simp only [receive, rowsFor_append, hrows old hold]
    · have hs' : slot ∈ b'.slots := hslots ▸ List.mem_append_right _ hs
      obtain ⟨s, -, rfl⟩ := List.mem_map.1 hs
      exact (rowsFor_eq_nil_of_lt h' hall (List.mem_map_of_mem hs')
        ((h'.ran_eq_false_iff hs').1 rfl)).symm

/-- A step that has not run has no rows. -/
theorem Reaches.rows_eq_nil (h : c.Reaches base p t b) (hschema : c.schema.Registered)
    (hp : Orderly c.schema p.model p.steps) {slot : Slot} (hs : slot ∈ b.slots)
    (hd : b.stats.waves < slot.step.depth) : slot.rows = [] := by
  obtain ⟨replies, hex, hrows⟩ := h.exists_replies hschema hp
  rw [hrows slot hs]
  exact rowsFor_eq_nil_of_lt (h.levelled hschema hp) hex (List.mem_map_of_mem hs) hd

end Context

/-! ### Steps with rows -/

/-- A step that has rows. -/
def Board.Yields (b : Board) (s : Step) : Prop :=
  ∃ slot ∈ b.slots, slot.step = s ∧ slot.rows ≠ []

theorem Board.not_yields_ofPlan (p : Plan) (s : Step) : ¬ (ofPlan p).Yields s := by
  rintro ⟨slot, hs, -, hrows⟩
  obtain ⟨s, -, rfl⟩ := List.mem_map.1 hs
  exact hrows rfl

namespace Context

open Board

variable {c : Context} {p : Plan} {base : List Value} {t t' : Traffic} {b b' : Board}

/-- A step of a wave has rows when the replies to the wave hold some for it. -/
theorem hasRows_store_iff (h : c.Reaches base p t b) (hschema : c.schema.Registered)
    (hp : Orderly c.schema p.model p.steps) {step : Step} (hstep : step ∈ b.ready)
    {replies : List Reply} :
    hasRows (b.store b.ready replies) step = true ↔ rowsFor replies step.index ≠ [] := by
  have hlevelled := h.levelled hschema hp
  have hmem := mem_steps_of_mem_ready hstep
  have hdepth := (hlevelled.mem_ready_iff hmem).1 hstep
  obtain ⟨slot, hslot, rfl⟩ := hlevelled.exists_slot hmem
  have hempty := h.rows_eq_nil hschema hp (List.mem_of_getElem? hslot) (by omega)
  have hstore := getElem?_store hslot b.ready replies []
  rw [List.append_nil] at hstore
  simp [hasRows, hstore, receive, hempty]

/-- After a wave the steps with rows are those from before and those of the wave that were given
some. -/
theorem yields_runWave (before : c.Reaches base p t b) (hschema : c.schema.Registered)
    (hp : Orderly c.schema p.model p.steps) {replies : List Reply} {more : List Step}
    (hf : c.fetch t (b.requests base c.settings.batchSize b.ready) = (t', .ok replies))
    (hslots : b'.slots = b.store b.ready replies ++ more.map fun s => ⟨s, [], false⟩) {s : Step} :
    b'.Yields s ↔ b.Yields s ∨ s ∈ b.ready.filter (hasRows (b.store b.ready replies)) := by
  have hlevelled := before.levelled hschema hp
  unfold Yields
  rw [hslots]
  constructor
  · rintro ⟨slot, hs, rfl, hrows⟩
    rcases List.mem_append.1 hs with hs | hs
    · obtain ⟨old, hold, rfl⟩ := List.mem_map.1 hs
      by_cases hempty : old.rows = []
      · have hmem : old.step ∈ b.steps := List.mem_map_of_mem hold
        have hcame : rowsFor replies old.step.index ≠ [] := by
          simpa [receive, hempty] using hrows
        have hready : old.step ∈ b.ready := by
          rw [hlevelled.mem_ready_iff hmem]
          by_contra hdepth
          exact hcame (rowsFor_fetch_eq_nil hlevelled hf hmem hdepth)
        exact .inr (List.mem_filter.2
          ⟨hready, (hasRows_store_iff before hschema hp hready).2 hcame⟩)
      · exact .inl ⟨old, hold, rfl, hempty⟩
    · obtain ⟨s, -, rfl⟩ := List.mem_map.1 hs
      exact absurd rfl hrows
  · have hkept : ∀ old ∈ b.slots, old.rows ++ rowsFor replies old.step.index ≠ [] →
        ∃ slot ∈ b.store b.ready replies ++ more.map (fun s => (⟨s, [], false⟩ : Slot)),
          slot.step = old.step ∧ slot.rows ≠ [] := fun old hold hrows =>
      ⟨receive b.ready replies old, List.mem_append_left _ (List.mem_map_of_mem hold), rfl, hrows⟩
    rintro (⟨old, hold, rfl, hrows⟩ | hs)
    · exact hkept old hold (List.append_ne_nil_of_left_ne_nil hrows _)
    · obtain ⟨hready, hfruitful⟩ := List.mem_filter.1 hs
      obtain ⟨old, hold, rfl⟩ := List.mem_map.1 (mem_steps_of_mem_ready hready)
      have hcame := (hasRows_store_iff before hschema hp hready).1 hfruitful
      exact hkept old hold (List.append_ne_nil_of_right_ne_nil _ hcame)

end Context

end Prefetch

import Prefetch.Proofs.Load.Growth

/-!
# Waves — what a run goes through

A run goes from board to board, one wave at a time.  `Reaches` collects the boards that a run of a
plan can come to; what a run issues, and what it ends with, comes from one of them.

* `runWave_eq_ok` — what a wave leaves behind.
* `Reaches.forall_steps` — what the plan's steps have and growth keeps, all steps have.
* `exists_reaches_of_mem_issued` — every query of a run is sent for a step of a wave.
-/

namespace Prefetch

/-- The steps of a board. -/
def Board.steps (b : Board) : List Step :=
  b.slots.map (·.step)

/-- The fetched rows of a step, by its index. -/
def Board.fetchedRows (b : Board) (index : Nat) : List Value :=
  (b.slots[index]?.map (·.rows)).getD []

/-- The rows that the steps below a step start from; the base rows, if there is none. -/
def Board.ownersOf (b : Board) (base : List Value) : Option Nat → List Value
  | none => base
  | some i => b.fetchedRows i

theorem Board.owners_eq (b : Board) (base : List Value) (step : Step) :
    b.owners base step = b.ownersOf base step.parent := by
  unfold owners ownersOf
  cases step.parent with
  | none => rfl
  | some i =>
    simp only [fetchedRows]
    cases b.slots[i]? <;> rfl

theorem Assembly.rowsOf_ofBoard (base : List Value) (b : Board) :
    (Assembly.ofBoard base b).rowsOf = b.fetchedRows := by
  funext i
  rw [rowsOf, ofBoard, List.getElem?_map, Board.fetchedRows]

theorem Board.steps_ofPlan (p : Plan) : (Board.ofPlan p).steps = p.steps := by
  simp [Board.steps, Board.ofPlan, Function.comp_def]

theorem Board.mem_steps_of_mem_ready {b : Board} {step : Step} (h : step ∈ b.ready) :
    step ∈ b.steps := by
  obtain ⟨slot, hs, rfl⟩ := List.mem_map.1 h
  exact List.mem_map_of_mem (List.mem_filter.1 hs).1

theorem Board.length_steps (b : Board) : b.steps.length = b.slots.length :=
  List.length_map _

theorem Board.length_store (b : Board) (wave : List Step) (replies : List Reply) :
    (b.store wave replies).length = b.slots.length :=
  List.length_map _

/-- Where a slot has gone that was there before a wave. -/
theorem Board.getElem?_store {b : Board} {i : Nat} {slot : Slot} (h : b.slots[i]? = some slot)
    (wave : List Step) (replies : List Reply) (added : List Slot) :
    (b.store wave replies ++ added)[i]? = some (receive wave replies slot) := by
  have hi := (List.getElem?_eq_some_iff.1 h).1
  rw [List.getElem?_append_left (by rw [length_store]; exact hi), store, List.getElem?_map, h]
  rfl

theorem Board.steps_store {b b' : Board} {wave : List Step} {replies : List Reply}
    {more : List Step}
    (h : b'.slots = b.store wave replies ++ more.map fun s => ⟨s, [], false⟩) :
    b'.steps = b.steps ++ more := by
  rw [steps, h, List.map_append, slots_store, List.map_map]
  simp [steps, Function.comp_def]

namespace Context

variable {c : Context} {base : List Value}

/-! ### One wave -/

/-- What a wave leaves behind: the rows that came, and new steps below those that have some. -/
theorem runWave_eq_ok {t t' : Traffic} {b b' : Board} {wave : List Step}
    (h : c.runWave base t b wave = (t', .ok b')) :
    ∃ replies more,
      c.fetch t (b.requests base c.settings.batchSize wave) = (t', .ok replies) ∧
      c.growAll b.slots.length (wave.filter (Board.hasRows (b.store wave replies))) = .ok more ∧
      b'.slots = b.store wave replies ++ more.map (fun s => ⟨s, [], false⟩) ∧
      b'.stats.waves = b.stats.waves + 1 := by
  unfold runWave at h
  split at h
  · cases h
  · rename_i t₁ replies hf
    obtain ⟨rfl, hs⟩ := Prod.mk.inj h
    unfold settleWave at hs
    simp only at hs
    split at hs
    · cases hs
    · rename_i more hg
      obtain rfl := Except.ok.inj hs
      refine ⟨replies, more, hf, ?_, rfl, rfl⟩
      rwa [Board.length_store] at hg

theorem steps_runWave {t t' : Traffic} {b b' : Board} {wave : List Step}
    (h : c.runWave base t b wave = (t', .ok b')) :
    ∃ more, b'.steps = b.steps ++ more ∧ ∀ s ∈ more, ∃ step ∈ wave, c.Grows step s := by
  obtain ⟨replies, more, -, hg, hb, -⟩ := runWave_eq_ok h
  refine ⟨more, Board.steps_store hb, fun s hs => ?_⟩
  obtain ⟨step, hm, hgrow⟩ := grows_of_mem_growAll hg hs
  exact ⟨step, (List.mem_filter.1 hm).1, hgrow⟩

/-! ### What is issued -/

theorem mem_issued_rounds {t : Traffic} {rss : List (List Request)} {q : Issued}
    (h : q ∈ (c.rounds t rss).1.issued) :
    q ∈ t.issued ∨ ∃ rs ∈ rss, ∃ r ∈ rs, q.query = r.query := by
  induction rss generalizing t with
  | nil => exact .inl h
  | cons rs rss ih =>
    have hround : q ∈ (c.round t rs).1.issued →
        q ∈ t.issued ∨ ∃ rs' ∈ rs :: rss, ∃ r ∈ rs', q.query = r.query := by
      intro hq
      rw [received_round, List.mem_append, List.mem_map] at hq
      rcases hq with hq | ⟨r, hr, rfl⟩
      · exact .inl hq
      · exact .inr ⟨rs, List.mem_cons_self, r, hr, rfl⟩
    have hlater : ∀ t', q ∈ (c.rounds t' rss).1.issued →
        q ∈ t'.issued ∨ ∃ rs' ∈ rs :: rss, ∃ r ∈ rs', q.query = r.query := by
      intro t' hq
      rcases ih hq with hq | ⟨rs', hrs, hr⟩
      · exact .inl hq
      · exact .inr ⟨rs', List.mem_cons_of_mem rs hrs, hr⟩
    rw [rounds] at h
    split at h
    · rename_i t₁ e he
      rw [he] at hround
      exact hround h
    · rename_i t₁ replies he
      rw [he] at hround
      have hall : q ∈ (c.rounds t₁ rss).1.issued := by
        split at h <;> rename_i ho <;> rw [ho] <;> exact h
      rcases hlater t₁ hall with hq | hq
      · exact hround hq
      · exact .inr hq

theorem mem_issued_fetch {t : Traffic} {rs : List Request} {q : Issued}
    (h : q ∈ (c.fetch t rs).1.issued) : q ∈ t.issued ∨ ∃ r ∈ rs, q.query = r.query := by
  rcases mem_issued_rounds h with hq | ⟨piece, hp, r, hr, hq⟩
  · exact .inl hq
  · refine .inr ⟨r, ?_, hq⟩
    rw [← flatten_chunks c.width rs]
    exact List.mem_flatten_of_mem hp hr

theorem mem_issued_runWave {t : Traffic} {b : Board} {wave : List Step} {q : Issued}
    (h : q ∈ (c.runWave base t b wave).1.issued) :
    q ∈ t.issued ∨ ∃ step ∈ wave, ∃ r ∈ b.requestsOf base c.settings.batchSize step,
      q.query = r.query := by
  have hf : q ∈ (c.fetch t (b.requests base c.settings.batchSize wave)).1.issued := by
    unfold runWave at h
    split at h <;> rename_i he <;> rw [he] <;> exact h
  rcases mem_issued_fetch hf with hq | ⟨r, hr, hq⟩
  · exact .inl hq
  · obtain ⟨step, hs, hr⟩ := List.mem_flatMap.1 hr
    exact .inr ⟨step, hs, r, hr, hq⟩

/-! ### Runs -/

/-- The boards that a run of a plan comes to, wave by wave, with the queries received so far. -/
inductive Reaches (c : Context) (base : List Value) (p : Plan) : Traffic → Board → Prop where
  | start : Reaches c base p {} (Board.ofPlan p)
  | wave {t t' : Traffic} {b b' : Board} (before : Reaches c base p t b) (ready : b.ready ≠ [])
      (run : c.runWave base t b b.ready = (t', .ok b')) : Reaches c base p t' b'

variable {p : Plan}

/-- What the steps of the plan have, and growth keeps, all steps of a run have. -/
theorem Reaches.forall_steps {t : Traffic} {b : Board} (h : c.Reaches base p t b)
    {good : Step → Prop} (planned : ∀ s ∈ p.steps, good s)
    (grown : ∀ step s, good step → c.Grows step s → good s) : ∀ s ∈ b.steps, good s := by
  induction h with
  | start =>
    rw [Board.steps_ofPlan]
    exact planned
  | wave _ _ run ih =>
    obtain ⟨more, hsteps, hmore⟩ := steps_runWave run
    intro s hs
    rw [hsteps] at hs
    rcases List.mem_append.1 hs with hs | hs
    · exact ih s hs
    · obtain ⟨step, hw, hg⟩ := hmore s hs
      exact grown step s (ih step (Board.mem_steps_of_mem_ready hw)) hg

/-- Where the waves of a run end. -/
theorem Reaches.runWaves {t : Traffic} {b : Board} (h : c.Reaches base p t b) (n : Nat) :
    (∃ t' b', c.runWaves base n t b = (t', .ok b') ∧ c.Reaches base p t' b') ∨
      ∃ t₁ b₁ t' e, c.runWaves base n t b = (t', .error e) ∧ c.Reaches base p t₁ b₁ ∧
        c.runWave base t₁ b₁ b₁.ready = (t', .error e) := by
  induction n generalizing t b with
  | zero => exact .inl ⟨t, b, rfl, h⟩
  | succ n ih =>
    rw [Context.runWaves]
    split
    · exact .inl ⟨t, b, rfl, h⟩
    · rename_i hr
      split
      · rename_i t' e he
        exact .inr ⟨t, b, t', e, rfl, h, he⟩
      · rename_i t' b' hb
        exact ih (h.wave (by simpa using hr) hb)

/-- A run whose waves come to a board is what comes of the board. -/
theorem execute_of_runWaves {t : Traffic} {b : Board} (hbase : checkBase base = .ok ())
    (h : c.runWaves base (c.waveBound p) {} (.ofPlan p) = (t, .ok b)) :
    c.execute base p = ⟨t.issued, t.time, conclude base b⟩ := by
  rw [execute, hbase]
  simp only [h]

/-- A run that succeeds starts from records, and its waves come to a board. -/
theorem exists_runWaves_of_execute {result : List Value × Stats}
    (h : (c.execute base p).outcome = .ok result) :
    ∃ t b, checkBase base = .ok () ∧
      c.runWaves base (c.waveBound p) {} (.ofPlan p) = (t, .ok b) ∧ c.Reaches base p t b ∧
      conclude base b = .ok result := by
  cases hbase : checkBase base with
  | error e =>
    rw [execute, hbase] at h
    cases h
  | ok _ =>
    have begun : c.Reaches base p {} (Board.ofPlan p) := .start
    obtain ⟨t, b, hrun, hb⟩ | ⟨_, _, t, e, hrun, -, -⟩ := begun.runWaves (c.waveBound p)
    · rw [execute_of_runWaves hbase hrun] at h
      exact ⟨t, b, rfl, hrun, hb, h⟩
    · rw [execute, hbase] at h
      simp only [hrun] at h
      cases h

/-- Every query received so far was sent for a step of some wave. -/
theorem Reaches.exists_of_mem_issued {t : Traffic} {b : Board} (h : c.Reaches base p t b)
    {q : Issued} (hq : q ∈ t.issued) :
    ∃ t₁ b₁, c.Reaches base p t₁ b₁ ∧ ∃ step ∈ b₁.ready,
      ∃ r ∈ b₁.requestsOf base c.settings.batchSize step, q.query = r.query := by
  induction h with
  | start => cases hq
  | @wave t t' b b' before _ run ih =>
    have hrun : q ∈ (c.runWave base t b b.ready).1.issued := by
      rw [run]
      exact hq
    rcases mem_issued_runWave hrun with hq | hq
    · exact ih hq
    · exact ⟨t, b, before, hq⟩

/-- Every query of a run is sent for a step of some wave. -/
theorem exists_reaches_of_mem_issued {q : Issued} (hq : q ∈ (c.execute base p).issued) :
    ∃ t b, c.Reaches base p t b ∧ ∃ step ∈ b.ready,
      ∃ r ∈ b.requestsOf base c.settings.batchSize step, q.query = r.query := by
  unfold execute at hq
  split at hq
  · cases hq
  · have begun : c.Reaches base p {} (Board.ofPlan p) := .start
    rcases begun.runWaves (c.waveBound p) with
      ⟨t', b', he, hr⟩ | ⟨t₁, b₁, t', e, he, hr, hw⟩
    · rw [he] at hq
      exact hr.exists_of_mem_issued hq
    · rw [he] at hq
      have hrun : q ∈ (c.runWave base t₁ b₁ b₁.ready).1.issued := by
        rw [hw]
        exact hq
      rcases mem_issued_runWave hrun with hq | hq
      · exact hr.exists_of_mem_issued hq
      · exact ⟨t₁, b₁, hr, hq⟩

end Context

end Prefetch

import Prefetch.Proofs.Load.Attaching
import Prefetch.Proofs.Load.Batching
import Prefetch.Proofs.Load.BreakingOff
import Prefetch.Proofs.Plan.Chains

/-!
# Unrolling — a run of a plan and a run of the plan spelled out

Two plans begin with the same steps.  At the end of the first there is a step that may grow; at the
end of the second there is the same step without growth, and what it would grow stands behind it from
the start.  The two runs issue the same queries.  Until the step has run, what stands behind it in
the second plan waits (`Ahead`).  If the step has rows, the first run grows the same, and from then
on both boards have the same steps, but for levels and bounds (`Twins`).  If it has none, the first
run is over, and what is left to do in the second asks for nothing (`Idle`).

* `runWave_settles` — a wave of a levelled board, by indices.
* `Abreast.runWave` — waves that fetch the same, whatever they grow.
* `Twins.ends`, `Idle.ends`, `Ahead.ends` — the three stretches of the two runs.
-/

namespace Prefetch

open Board

/-! ### Waves by index -/

namespace Context

variable {c : Context} {p : Plan} {base : List Value} {t t' : Traffic} {b b' : Board}

/-- Waves up to a board on which no step is ready. -/
inductive Ends (c : Context) (base : List Value) : Traffic → Board → Traffic → Board → Prop where
  | done {t : Traffic} {b : Board} (ready : b.ready = []) : Ends c base t b t b
  | wave {t t₁ t' : Traffic} {b b₁ b' : Board} (ready : b.ready ≠ [])
    (run : c.runWave base t b b.ready = (t₁, .ok b₁)) (rest : Ends c base t₁ b₁ t' b') :
    Ends c base t b t' b'

theorem ends_of_runWaves {n : Nat} (h : c.runWaves base n t b = (t', .ok b'))
    (hready : b'.ready = []) : c.Ends base t b t' b' := by
  induction n generalizing t b with
  | zero =>
    obtain ⟨rfl, he⟩ := Prod.mk.inj h
    obtain rfl := Except.ok.inj he
    exact .done hready
  | succ n ih =>
    rw [runWaves_succ] at h
    split at h
    · obtain ⟨rfl, he⟩ := Prod.mk.inj h
      obtain rfl := Except.ok.inj he
      exact .done hready
    · rename_i hsome
      rcases hrun : c.runWave base t b b.ready with ⟨t₁, e | b₁⟩
      · rw [hrun] at h
        cases h
      · rw [hrun] at h
        exact .wave (by simpa using hsome) hrun (ih h)

/-- What a wave leaves behind on a levelled board, index by index. -/
theorem runWave_settles (h : b.Levelled c p) (run : c.runWave base t b b.ready = (t', .ok b')) :
    ∃ replies more,
      c.fetch t (b.requests base c.settings.batchSize b.ready) = (t', .ok replies) ∧
      (∀ i, b'.fetchedRows i = b.fetchedRows i ++ rowsFor replies i) ∧
      c.growAll b.steps.length (b.ready.filter fun s => !(b'.fetchedRows s.index).isEmpty) =
        .ok more ∧
      b'.steps = b.steps ++ more ∧ b'.stats.waves = b.stats.waves + 1 := by
  obtain ⟨replies, more, hf, hg, hslots, hwaves⟩ := runWave_eq_ok run
  have hrows : ∀ i, b'.fetchedRows i = b.fetchedRows i ++ rowsFor replies i := by
    intro i
    obtain ⟨slots, stats⟩ := b'
    obtain rfl : slots = _ := hslots
    by_cases hi : ∃ s ∈ b.steps, s.index = i
    · obtain ⟨s, hs, rfl⟩ := hi
      exact fetchedRows_store h hs b.ready replies _ stats
    · -- there is no step of this index, so nothing was asked for it
      have hnone : ∀ s ∈ b.steps, s.index ≠ i := fun s hs he => hi ⟨s, hs, he⟩
      have hlength : (b.store b.ready replies).length ≤ i := by
        rw [length_store, ← length_steps]
        rcases Nat.lt_or_ge i b.steps.length with hlt | hge
        · have hget := List.getElem?_eq_getElem hlt
          exact absurd (h.orderly.index i _ hget) (hnone _ (List.getElem_mem hlt))
        · exact hge
      obtain ⟨sent, -, hex⟩ := exists_exchanges_of_fetch hf
      rw [fetchedRows_added hlength, fetchedRows_eq_nil h.orderly hnone, rowsFor_eq_nil]
      · rfl
      · intro r hr he
        obtain ⟨request, hrequest, hstep⟩ := hex.exists_request hr
        obtain ⟨step, hready, hindex⟩ := exists_step_of_mem_requests hrequest
        exact hnone step (mem_steps_of_mem_ready hready) (by omega)
  have hfruitful : (b.ready.filter (hasRows (b.store b.ready replies))) =
      b.ready.filter fun s => !(b'.fetchedRows s.index).isEmpty := by
    refine List.filter_congr fun s hs => ?_
    rw [hasRows_store h (mem_steps_of_mem_ready hs), hrows]
  rw [hfruitful, ← length_steps] at hg
  exact ⟨replies, more, hf, hrows, hg, steps_store hslots, hwaves⟩

/-- Steps that do not grow add nothing. -/
theorem growAll_of_plain {steps : List Step} (h : ∀ s ∈ steps, s.growth = .none) (index : Nat) :
    c.growAll index steps = .ok [] := by
  induction steps generalizing index with
  | nil => rfl
  | cons s steps ih =>
    have hgrow : c.grow s index = .ok [] := by
      unfold grow
      rw [h s List.mem_cons_self]
    rw [growAll, hgrow]
    simp only [List.length_nil, Nat.add_zero, ih fun s' hs' => h s' (List.mem_cons_of_mem s hs')]
    rfl

end Context

/-- What some steps ask for depends on the rows fetched so far and on what the steps fetch. -/
theorem Board.requests_congr {b b' : Board} (hrows : ∀ i, b.fetchedRows i = b'.fetchedRows i)
    {wave wave' : List Step} (hwave : wave.map Step.bare = wave'.map Step.bare) (base : List Value)
    (size : Option Nat) : b.requests base size wave = b'.requests base size wave' := by
  have howners : ∀ s, b.requestsOf base size s = b'.requestsOf base size s := by
    intro s
    have hsame : b.owners base s = b'.owners base s := by
      rw [owners_eq, owners_eq]
      cases s.parent with
      | none => rfl
      | some i => exact hrows i
    rw [requestsOf, requestsOf, keys, keys, hsame]
  have hbare : ∀ wave : List Step, b'.requests base size wave =
      (wave.map Step.bare).flatMap (b'.requestsOf base size) := by
    intro wave
    rw [List.flatMap_map]
    rfl
  rw [requests, funext howners, ← requests, hbare, hwave, ← hbare]

/-! ### The same steps -/

namespace Board

/-- Two boards with the same rows after as many waves. -/
structure Abreast (b b' : Board) : Prop where
  rows : ∀ i, b.fetchedRows i = b'.fetchedRows i
  waves : b.stats.waves = b'.stats.waves

/-- Two such boards with the same steps, of which those to come grow alike. -/
structure Twins (b b' : Board) : Prop extends Abreast b b' where
  steps : List.Forall₂ (fun s s' => s.bare = s'.bare ∧
    (b.stats.waves < s.depth → Growth.Shifts s.growth s'.growth)) b.steps b'.steps

variable {c : Context} {p p' : Plan} {base : List Value} {t t₁ t₂ : Traffic} {b b' b₁ b₂ : Board}

/-- Waves of steps that fetch the same ask the same, whatever these steps grow. -/
theorem Abreast.runWave (h : b.Abreast b')
    (hready : b.ready.map Step.bare = b'.ready.map Step.bare) (hb : b.Levelled c p)
    (hb' : b'.Levelled c p') (run : c.runWave base t b b.ready = (t₁, .ok b₁))
    (run' : c.runWave base t b' b'.ready = (t₂, .ok b₂)) : t₁ = t₂ ∧ b₁.Abreast b₂ := by
  obtain ⟨replies, -, hf, hrows, -, -, hwaves⟩ := Context.runWave_settles hb run
  obtain ⟨replies', -, hf', hrows', -, -, hwaves'⟩ := Context.runWave_settles hb' run'
  rw [requests_congr h.rows hready, hf'] at hf
  obtain ⟨rfl, hreplies⟩ := Prod.mk.inj hf
  obtain rfl := Except.ok.inj hreplies
  refine ⟨rfl, fun i => ?_, ?_⟩
  · rw [hrows, hrows', h.rows]
  · rw [hwaves, hwaves', h.waves]

theorem map_bare_of_forall₂ {steps steps' : List Step} {R : Step → Step → Prop}
    (h : List.Forall₂ R steps steps') (hR : ∀ s s', R s s' → s.bare = s'.bare) :
    steps.map Step.bare = steps'.map Step.bare := by
  have hbare : List.Forall₂ (· = ·) (steps.map Step.bare) (steps'.map Step.bare) := by
    rw [List.forall₂_map_left_iff, List.forall₂_map_right_iff]
    exact h.imp hR
  rwa [List.forall₂_eq_eq_eq] at hbare

/-- The next waves grow alike. -/
theorem Twins.ready (h : b.Twins b') (hb : b.Levelled c p) (hb' : b'.Levelled c p') :
    List.Forall₂ Step.Shifted b.ready b'.ready := by
  have hready : List.Forall₂ (fun s s' => s.bare = s'.bare ∧
      (b.stats.waves < s.depth → Growth.Shifts s.growth s'.growth)) b.ready b'.ready := by
    rw [hb.ready_eq, hb'.ready_eq, ← h.waves]
    refine List.rel_filter (fun s s' hss => ?_) h.steps
    simp only [Step.depth_of_bare hss.1]
  have hnext : ∀ s ∈ b.ready, b.stats.waves < s.depth := by
    intro s hs
    have := (hb.mem_ready_iff (mem_steps_of_mem_ready hs)).1 hs
    omega
  exact ((List.forall₂_and_left _ _).2 ⟨hnext, hready⟩).imp fun s s' h => ⟨h.2.1, h.2.2 h.1⟩

/-- A wave keeps them alike. -/
theorem Twins.runWave (h : b.Twins b') (hb : b.Levelled c p) (hb' : b'.Levelled c p')
    (run : c.runWave base t b b.ready = (t₁, .ok b₁))
    (run' : c.runWave base t b' b'.ready = (t₂, .ok b₂)) : t₁ = t₂ ∧ b₁.Twins b₂ := by
  have hready := h.ready hb hb'
  obtain ⟨rfl, habreast⟩ := h.toAbreast.runWave (map_bare_of_forall₂ hready fun _ _ hss => hss.bare)
    hb hb' run run'
  obtain ⟨-, more, -, -, hg, hsteps, hwaves⟩ := Context.runWave_settles hb run
  obtain ⟨-, more', -, -, hg', hsteps', -⟩ := Context.runWave_settles hb' run'
  rw [← h.steps.length_eq] at hg'
  have hfruitful : List.Forall₂ Step.Shifted
      (b.ready.filter fun s => !(b₁.fetchedRows s.index).isEmpty)
      (b'.ready.filter fun s => !(b₂.fetchedRows s.index).isEmpty) := by
    refine List.rel_filter (fun s s' hss => ?_) hready
    simp only [Step.index_of_bare hss.bare, habreast.rows]
  have hmore := Context.shifted_of_growAll hfruitful hg hg'
  refine ⟨rfl, habreast, ?_⟩
  rw [hsteps, hsteps', hwaves]
  refine List.rel_append (h.steps.imp fun s s' hss => ⟨hss.1, fun hlt => hss.2 (by omega)⟩) ?_
  exact hmore.imp fun s s' hss => ⟨hss.bare, fun _ => hss.growth⟩

/-- Two boards that a run of each plan may end with: the same rows, and the same steps but for some
behind them that have no rows and hang on steps without rows. -/
structure Agree (b b' : Board) : Prop where
  rows : ∀ i, b.fetchedRows i = b'.fetchedRows i
  steps : ∃ extra, b'.steps.map Step.bare = b.steps.map Step.bare ++ extra ∧
    ∀ e ∈ extra, b.fetchedRows e.index = [] ∧ ∃ i, e.parent = some i ∧ b.fetchedRows i = []

/-- From boards with the same steps, the two runs issue the same queries and end alike. -/
theorem Twins.ends (hschema : c.schema.Registered) (h : b.Twins b') (hb : b.Levelled c p)
    (hb' : b'.Levelled c p') (run : c.Ends base t b t₁ b₁) (run' : c.Ends base t b' t₂ b₂) :
    t₁ = t₂ ∧ b₁.Agree b₂ := by
  induction run generalizing b' with
  | done hnone =>
    have hnone' : b'.ready = [] := by
      have hready := h.ready hb hb'
      rwa [hnone, List.forall₂_nil_left_iff] at hready
    cases run' with
    | done =>
      refine ⟨rfl, h.rows, [], ?_, nofun⟩
      rw [List.append_nil, map_bare_of_forall₂ h.steps fun _ _ hss => hss.1]
    | wave hsome => exact absurd hnone' hsome
  | wave hsome hrun _ ih =>
    cases run' with
    | done hnone' =>
      have hready := h.ready hb hb'
      rw [hnone', List.forall₂_nil_right_iff] at hready
      exact absurd hready hsome
    | wave _ hrun' hrest' =>
      obtain ⟨rfl, hnext⟩ := h.runWave hb hb' hrun hrun'
      exact ih hnext (Context.levelled_runWave hschema hb hrun)
        (Context.levelled_runWave hschema hb' hrun') hrest'

/-! ### Steps that ask for nothing -/

/-- The steps that have not run have no rows and hang on steps without rows. -/
def Idle (b : Board) : Prop :=
  ∀ s ∈ b.steps, b.stats.waves < s.depth →
    b.fetchedRows s.index = [] ∧ ∃ i, s.parent = some i ∧ b.fetchedRows i = []

/-- A wave of such steps asks for nothing and changes nothing. -/
theorem Idle.runWave (h : b.Idle) (hb : b.Levelled c p)
    (run : c.runWave base t b b.ready = (t₁, .ok b₁)) :
    t₁ = t ∧ b₁.steps = b.steps ∧ (∀ i, b₁.fetchedRows i = b.fetchedRows i) ∧ b₁.Idle := by
  obtain ⟨replies, more, hf, hrows, hg, hsteps, hwaves⟩ := Context.runWave_settles hb run
  have hready : ∀ s ∈ b.ready, b.fetchedRows s.index = [] ∧
      ∃ i, s.parent = some i ∧ b.fetchedRows i = [] := by
    intro s hs
    have hmem := mem_steps_of_mem_ready hs
    exact h s hmem (by have := (hb.mem_ready_iff hmem).1 hs; omega)
  have hrequests : b.requests base c.settings.batchSize b.ready = [] := by
    refine List.flatMap_eq_nil_iff.2 fun s hs => ?_
    obtain ⟨-, i, hparent, hnone⟩ := hready s hs
    have hkeys : b.keys base s = [] := by
      rw [keys, owners_eq, hparent, ownersOf, hnone]
      rfl
    rw [requestsOf, batches, hkeys, chunks, if_pos (.inr (Nat.zero_le _)), List.isEmpty_nil,
      if_pos rfl, List.map_nil]
  have hfetch : c.fetch t [] = (t, .ok []) := by
    rw [Context.fetch, chunks, if_pos (.inr (Nat.zero_le _)), List.isEmpty_nil, if_pos rfl,
      Context.rounds]
  rw [hrequests, hfetch] at hf
  obtain ⟨rfl, hreplies⟩ := Prod.mk.inj hf
  obtain rfl := Except.ok.inj hreplies
  have hsame : ∀ i, b₁.fetchedRows i = b.fetchedRows i := by
    intro i
    rw [hrows]
    exact List.append_nil _
  have hfruitful : (b.ready.filter fun s => !(b₁.fetchedRows s.index).isEmpty) = [] := by
    refine List.filter_eq_nil_iff.2 fun s hs => ?_
    rw [hsame, (hready s hs).1, List.isEmpty_nil]
    exact Bool.false_ne_true
  rw [hfruitful] at hg
  obtain rfl := Except.ok.inj hg
  rw [List.append_nil] at hsteps
  refine ⟨rfl, hsteps, hsame, fun s hs hlt => ?_⟩
  rw [hsteps] at hs
  simp only [hsame]
  exact h s hs (by omega)

/-- What is left to do asks for nothing and changes nothing. -/
theorem Idle.ends (hschema : c.schema.Registered) (h : b.Idle) (hb : b.Levelled c p)
    (run : c.Ends base t b t₁ b₁) :
    t₁ = t ∧ b₁.steps = b.steps ∧ ∀ i, b₁.fetchedRows i = b.fetchedRows i := by
  induction run with
  | done => exact ⟨rfl, rfl, fun _ => rfl⟩
  | wave _ hrun _ ih =>
    obtain ⟨rfl, hsteps, hrows, hnext⟩ := h.runWave hb hrun
    obtain ⟨rfl, hsteps', hrows'⟩ := ih hnext (Context.levelled_runWave hschema hb hrun)
    exact ⟨rfl, hsteps'.trans hsteps, fun i => (hrows' i).trans (hrows i)⟩

/-! ### Steps that wait -/

/-- Two boards before a step has run: on the first it may still grow, on the second what it would
grow stands behind it. -/
structure Ahead (front : List Step) (s : Step) (below : List Step) (b b' : Board) : Prop
    extends Abreast b b' where
  before : b.stats.waves < s.depth
  steps : b.steps = front ++ [s]
  steps' : b'.steps = front ++ s.bare :: below

section Ahead

variable {front below : List Step} {s : Step}

theorem filter_depth_eq_nil {steps : List Step} {n : Nat} (h : ∀ f ∈ steps, f.depth ≠ n) :
    (steps.filter fun f => f.depth == n) = [] :=
  List.filter_eq_nil_iff.2 fun f hf => by simpa using h f hf

theorem Ahead.depth_below (hu : Plan.Unrolls c front s below) (h : Ahead front s below b b')
    (hb' : b'.Levelled c p') : ∀ e ∈ below, e.depth = s.depth + 1 := by
  intro e he
  have hmem : e ∈ b'.steps := by rw [h.steps']; simp [he]
  have hup : s.bare ∈ b'.steps := by rw [h.steps']; simp
  have hparent : e.parent = some s.bare.index := hu.parent e he
  have hdepth := hb'.orderly.depth_below hmem hup hparent
  exact hdepth

theorem Ahead.ready_ne_nil (h : Ahead front s below b b') (hb : b.Levelled c p)
    (hb' : b'.Levelled c p') : b.ready ≠ [] ∧ b'.ready ≠ [] := by
  have hmem : s ∈ b.steps := by rw [h.steps]; simp
  have hmem' : s.bare ∈ b'.steps := by rw [h.steps']; simp
  have hbefore' : b'.stats.waves < s.bare.depth := h.waves ▸ h.before
  exact ⟨hb.ready_ne_nil hmem h.before, hb'.ready_ne_nil hmem' hbefore'⟩

/-- Further up, both waves consist of the same steps, which do not grow. -/
theorem Ahead.ready_above (hu : Plan.Unrolls c front s below) (h : Ahead front s below b b')
    (hb : b.Levelled c p) (hb' : b'.Levelled c p') (hfar : s.depth ≠ b.stats.waves + 1) :
    b'.ready = b.ready ∧ ∀ f ∈ b.ready, f.growth = .none := by
  have hlt := h.before
  have hone : ([s].filter fun f => f.depth == b.stats.waves + 1) = [] :=
    filter_depth_eq_nil fun f hf => by rw [List.mem_singleton.1 hf]; exact hfar
  have hrest : ((s.bare :: below).filter fun f => f.depth == b.stats.waves + 1) = [] := by
    refine filter_depth_eq_nil fun f hf => ?_
    rcases List.mem_cons.1 hf with rfl | hf
    · exact hfar
    · have := h.depth_below hu hb' f hf
      omega
  have hready : b.ready = front.filter fun f => f.depth == b.stats.waves + 1 := by
    rw [hb.ready_eq, h.steps, List.filter_append, hone, List.append_nil]
  refine ⟨?_, fun f hf => ?_⟩
  · rw [hb'.ready_eq, h.steps', ← h.waves, List.filter_append, hrest, List.append_nil, hready]
  · rw [hready] at hf
    exact hu.plain f (List.mem_filter.1 hf).1

/-- When the step runs, it is the only one. -/
theorem Ahead.ready_here (hu : Plan.Unrolls c front s below) (h : Ahead front s below b b')
    (hb : b.Levelled c p) (hb' : b'.Levelled c p') (hnear : s.depth = b.stats.waves + 1) :
    b.ready = [s] ∧ b'.ready = [s.bare] := by
  have hfront : (front.filter fun f => f.depth == b.stats.waves + 1) = [] :=
    filter_depth_eq_nil fun f hf => by have := hu.above f hf; omega
  have hbelow : (below.filter fun e => e.depth == b.stats.waves + 1) = [] :=
    filter_depth_eq_nil fun e he => by have := h.depth_below hu hb' e he; omega
  refine ⟨?_, ?_⟩
  · rw [hb.ready_eq, h.steps, List.filter_append, hfront, List.filter_cons_of_pos (by simp [hnear])]
    rfl
  · rw [hb'.ready_eq, h.steps', ← h.waves, List.filter_append, hfront,
      List.filter_cons_of_pos (by simp [Step.bare, hnear]), hbelow]
    rfl

/-- A wave further up leaves them as they are. -/
theorem Ahead.runWave_above (hu : Plan.Unrolls c front s below) (h : Ahead front s below b b')
    (hb : b.Levelled c p) (hb' : b'.Levelled c p') (hfar : s.depth ≠ b.stats.waves + 1)
    (run : c.runWave base t b b.ready = (t₁, .ok b₁))
    (run' : c.runWave base t b' b'.ready = (t₂, .ok b₂)) :
    t₁ = t₂ ∧ Ahead front s below b₁ b₂ := by
  obtain ⟨hready, hplain⟩ := h.ready_above hu hb hb' hfar
  obtain ⟨rfl, habreast⟩ := h.toAbreast.runWave (by rw [hready]) hb hb' run run'
  obtain ⟨-, more, -, -, hg, hsteps, hwaves⟩ := Context.runWave_settles hb run
  obtain ⟨-, more', -, -, hg', hsteps', -⟩ := Context.runWave_settles hb' run'
  rw [hready] at hg'
  rw [Context.growAll_of_plain fun e he => hplain e (List.mem_filter.1 he).1] at hg hg'
  obtain rfl := Except.ok.inj hg
  obtain rfl := Except.ok.inj hg'
  rw [List.append_nil] at hsteps hsteps'
  have hbefore := h.before
  exact ⟨rfl, habreast, by omega, hsteps.trans h.steps, hsteps'.trans h.steps'⟩

/-- The wave of the step: on the first board, it grows if it has rows. -/
theorem Ahead.runWave_here (hu : Plan.Unrolls c front s below) (h : Ahead front s below b b')
    (hb : b.Levelled c p) (hb' : b'.Levelled c p') (hnear : s.depth = b.stats.waves + 1)
    (run : c.runWave base t b b.ready = (t₁, .ok b₁))
    (run' : c.runWave base t b' b'.ready = (t₂, .ok b₂)) :
    t₁ = t₂ ∧ b₁.Abreast b₂ ∧ b₁.stats.waves = s.depth ∧ b₂.steps = front ++ s.bare :: below ∧
      ∃ more, b₁.steps = front ++ s :: more ∧ (b₁.fetchedRows s.index = [] → more = []) ∧
        (b₁.fetchedRows s.index ≠ [] → c.grow s (front.length + 1) = .ok more) := by
  obtain ⟨hready, hready'⟩ := h.ready_here hu hb hb' hnear
  obtain ⟨rfl, habreast⟩ := h.toAbreast.runWave (by rw [hready, hready']; rfl) hb hb' run run'
  obtain ⟨-, more, -, -, hg, hsteps, hwaves⟩ := Context.runWave_settles hb run
  obtain ⟨-, more', -, -, hg', hsteps', -⟩ := Context.runWave_settles hb' run'
  rw [hready', Context.growAll_of_plain fun e he => ?_] at hg'
  · obtain rfl := Except.ok.inj hg'
    rw [List.append_nil, h.steps'] at hsteps'
    rw [h.steps, List.append_assoc, List.singleton_append] at hsteps
    rw [hready, h.steps, List.length_append, List.length_singleton] at hg
    refine ⟨rfl, habreast, by omega, hsteps', more, hsteps, fun hnone => ?_, fun hsome => ?_⟩
    · rw [List.filter_cons_of_neg (by simp [hnone])] at hg
      exact (Except.ok.inj hg).symm
    · rw [List.filter_cons_of_pos (by simpa using hsome)] at hg
      obtain ⟨below', rest, hgrow, hrest, rfl⟩ := Context.growAll_cons_eq_ok hg
      obtain rfl := Except.ok.inj hrest
      rw [List.append_nil]
      exact hgrow
  · rw [List.mem_singleton.1 (List.mem_filter.1 he).1]
    rfl

/-- The step has run and has rows: both boards have the same steps from then on. -/
theorem Ahead.twins_of_runWave (hu : Plan.Unrolls c front s below) (h : Ahead front s below b b')
    (hb : b.Levelled c p) (hb' : b'.Levelled c p') (hnear : s.depth = b.stats.waves + 1)
    (run : c.runWave base t b b.ready = (t₁, .ok b₁))
    (run' : c.runWave base t b' b'.ready = (t₂, .ok b₂)) (hsome : b₁.fetchedRows s.index ≠ []) :
    t₁ = t₂ ∧ b₁.Twins b₂ := by
  obtain ⟨rfl, habreast, hwaves, hsteps', more, hsteps, -, hgrow⟩ :=
    h.runWave_here hu hb hb' hnear run run'
  refine ⟨rfl, habreast, ?_⟩
  rw [hsteps, hsteps']
  refine List.rel_append (List.forall₂_same.2 fun f _ => ⟨rfl, fun _ => .same _⟩) ?_
  refine .cons ⟨rfl, fun hlt => ?_⟩ ?_
  · omega
  · exact (hu.grown more (hgrow hsome)).imp fun e e' hee => ⟨hee.bare, fun _ => hee.growth⟩

/-- The step has run and has no rows: nothing is left to do on the first board, and what stands
behind the step on the second has no owners. -/
theorem Ahead.idle_of_runWave (hschema : c.schema.Registered) (hu : Plan.Unrolls c front s below)
    (h : Ahead front s below b b') (hb : b.Levelled c p) (hb' : b'.Levelled c p')
    (hnear : s.depth = b.stats.waves + 1) (run : c.runWave base t b b.ready = (t₁, .ok b₁))
    (run' : c.runWave base t b' b'.ready = (t₂, .ok b₂)) (hnone : b₁.fetchedRows s.index = []) :
    t₁ = t₂ ∧ b₁.ready = [] ∧ b₂.Idle ∧ b₁.Agree b₂ := by
  have hb₁ := Context.levelled_runWave hschema hb run
  have hb₂ := Context.levelled_runWave hschema hb' run'
  obtain ⟨rfl, habreast, hwaves, hsteps', more, hsteps, hmore, -⟩ :=
    h.runWave_here hu hb hb' hnear run run'
  obtain rfl := hmore hnone
  have hlast : ∀ f ∈ front ++ [s], f.depth ≤ b₁.stats.waves := by
    intro f hf
    rcases List.mem_append.1 hf with hf | hf
    · have := hu.above f hf
      omega
    · rw [List.mem_singleton.1 hf]
      omega
  have hidle : ∀ e ∈ below, b₁.fetchedRows e.index = [] ∧
      ∃ i, e.parent = some i ∧ b₁.fetchedRows i = [] := by
    intro e he
    refine ⟨?_, s.index, hu.parent e he, hnone⟩
    have hmem : e ∈ b₂.steps := by rw [hsteps']; simp [he]
    have hindex : s.index = front.length :=
      hb₁.orderly.index front.length s (by rw [hsteps]; simp)
    have hlater := hb₂.orderly.before e hmem s.index (hu.parent e he)
    refine fetchedRows_eq_nil hb₁.orderly fun f hf => ?_
    have hlt := hb₁.orderly.index_lt hf
    rw [hsteps, List.length_append, List.length_singleton] at hlt
    omega
  refine ⟨rfl, ?_, fun f hf hlt => ?_, habreast.rows, below.map Step.bare, ?_, ?_⟩
  · rw [List.eq_nil_iff_forall_not_mem]
    intro f hf
    have hmem := mem_steps_of_mem_ready hf
    have hnext := (hb₁.mem_ready_iff hmem).1 hf
    have := hlast f (hsteps ▸ hmem)
    omega
  · have hwaves₂ := habreast.waves
    rw [hsteps'] at hf
    simp only [← habreast.rows]
    rcases List.mem_append.1 hf with hf | hf
    · have := hlast f (List.mem_append_left _ hf)
      omega
    · rcases List.mem_cons.1 hf with rfl | hf
      · have hdepth : s.bare.depth = s.depth := rfl
        omega
      · exact hidle f hf
  · rw [hsteps, hsteps', List.map_append, List.map_append, List.map_cons, List.append_assoc]
    rfl
  · intro e he
    obtain ⟨e', he', rfl⟩ := List.mem_map.1 he
    exact hidle e' he'

/-- From there, the two runs issue the same queries and end alike. -/
theorem Ahead.ends (hschema : c.schema.Registered) (hu : Plan.Unrolls c front s below)
    (h : Ahead front s below b b') (hb : b.Levelled c p) (hb' : b'.Levelled c p')
    (run : c.Ends base t b t₁ b₁) (run' : c.Ends base t b' t₂ b₂) : t₁ = t₂ ∧ b₁.Agree b₂ := by
  induction run generalizing b' with
  | done hready => exact absurd hready (h.ready_ne_nil hb hb').1
  | @wave _ _ _ b bn _ _ hrun hrest ih =>
    cases run' with
    | done hready' => exact absurd hready' (h.ready_ne_nil hb hb').2
    | wave _ hrun' hrest' =>
      have hb₁ := Context.levelled_runWave hschema hb hrun
      have hb₂ := Context.levelled_runWave hschema hb' hrun'
      by_cases hnear : s.depth = b.stats.waves + 1
      · by_cases hnone : bn.fetchedRows s.index = []
        · obtain ⟨rfl, hready, hidle, hagree⟩ :=
            h.idle_of_runWave hschema hu hb hb' hnear hrun hrun' hnone
          cases hrest with
          | done =>
            obtain ⟨rfl, hsteps, hrows⟩ := hidle.ends hschema hb₂ hrest'
            obtain ⟨extra, hextra, hnothing⟩ := hagree.steps
            refine ⟨rfl, fun i => (hagree.rows i).trans (hrows i).symm, extra, ?_, hnothing⟩
            rw [hsteps]
            exact hextra
          | wave hsome => exact absurd hready hsome
        · obtain ⟨rfl, htwins⟩ := h.twins_of_runWave hu hb hb' hnear hrun hrun' hnone
          exact htwins.ends hschema hb₁ hb₂ hrest hrest'
      · obtain ⟨rfl, hahead⟩ := h.runWave_above hu hb hb' hnear hrun hrun'
        exact ih hahead hb₁ hb₂ hrest'

end Ahead

end Board

end Prefetch

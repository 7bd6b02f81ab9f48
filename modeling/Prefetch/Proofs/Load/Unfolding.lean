import Prefetch.Proofs.Load.Fetching

/-!
# Unfolding — which nodes hang below a step on the board

Below a step that selects by name hang its node's children, from the start.  Below a marked step
hangs nothing until it has returned rows, and then what its rows are to be loaded with: the wave that
brings the rows puts it there.

* `exists_tasks_of_grow` — what growth puts below a step are the nodes wanted there.
* `Grown` — what a wave makes of the tasks of a board; what hangs below a step afterwards, for one
  that has got rows in the wave, for any other that was there and for one that is new.
* `Reaches.exists_unfolds` — every board of a run has the wanted nodes below each step with rows.
-/

namespace Prefetch

theorem Task.Fits.wanted_eq_children {t : Task} (h : t.Fits) (hg : t.step.growth = .none)
    (schema : Schema) (model : String) : t.node.wanted schema model = t.node.children := by
  rcases h.growth with ⟨-, he⟩ | ⟨-, -, limit, level, -, he, -⟩ | ⟨hw, hr, -⟩
  · rw [hg] at he
    cases he
  · rw [hg] at he
    cases he
  · simp [Selection.wanted, hw, hr]

namespace Context

variable {c : Context}

/-- A relation that is used once more stands for one node. -/
theorem exists_tasks_of_again {t : Task} (ht : t.Fits) {index level : Nat} {limit : Option Nat}
    {below : List Step} (h : c.again t.step index limit level = .ok below) {node : Selection}
    (hlabel : node.label = t.node.label) (hw : node.wildcard = false) (hr : node.recursive = true)
    (hlimit : node.limit = limit.map fun most => most + 1 - (level + 1)) :
    ∃ tasks : List Task, tasks.map (·.step) = below ∧ (∀ t' ∈ tasks, t'.Fits) ∧
      tasks.map (·.node) = [node] := by
  unfold again at h
  split at h
  · cases h
  · obtain rfl := Except.ok.inj h
    refine ⟨[⟨_, node⟩], rfl, fun t' ht' => ?_, rfl⟩
    obtain rfl := List.mem_singleton.1 ht'
    refine ⟨?_, .inr (.inl ⟨hw, hr, limit, level + 1, Nat.succ_pos level, rfl, hlimit⟩)⟩
    rw [hlabel, ← ht.relation]
    exact Step.relation_of_path rfl

/-- All relations of a model stand for the nodes wanted below a `*`. -/
theorem exists_tasks_of_everyBelow {t : Task} (hw : t.node.wildcard = true) (index : Nat) :
    ∃ tasks : List Task, tasks.map (·.step) = c.everyBelow t.step index ∧
      (∀ t' ∈ tasks, t'.Fits) ∧
      tasks.map (·.node) = t.node.wanted c.schema t.step.association.target := by
  refine ⟨(c.everyBelow t.step index).map Plan.taskOfEverything, ?_, fun t' ht' => ?_, ?_⟩
  · simp [Plan.taskOfEverything, Function.comp_def]
  · obtain ⟨s, hs, rfl⟩ := List.mem_map.1 ht'
    obtain ⟨i, hi, rfl⟩ := List.mem_mapIdx.1 hs
    exact Plan.fits_taskOfEverything rfl
  · refine Plan.nodes_taskOfEverything (fun i r => ?_) hw
    exact Step.relation_of_path rfl

theorem wanted_unbounded {schema : Schema} {model : String} {node : Selection}
    (hw : node.wildcard = false) (hr : node.recursive = true) (hl : node.limit = none) :
    node.wanted schema model = [node] := by
  simp [Selection.wanted, hw, hr, hl]

theorem wanted_bounded {schema : Schema} {model : String} {node : Selection} {most : Nat}
    (hw : node.wildcard = false) (hr : node.recursive = true) (hl : node.limit = some most) :
    node.wanted schema model = if most ≤ 1 then [] else [node.follow (some (most - 1))] := by
  simp [Selection.wanted, hw, hr, hl]

/-- What growth puts below a marked step are the nodes that its rows are to be loaded with. -/
theorem exists_tasks_of_mark {t : Task} (ht : t.Fits) (hmark : t.step.growth ≠ .none) {index : Nat}
    {below : List Step} (h : c.grow t.step index = .ok below) :
    ∃ tasks : List Task, tasks.map (·.step) = below ∧ (∀ t' ∈ tasks, t'.Fits) ∧
      tasks.map (·.node) = t.node.wanted c.schema t.step.association.target := by
  unfold grow at h
  rcases ht.growth with ⟨hw, hg⟩ | ⟨hw, hr, limit, level, hlevel, hg, hlimit⟩ | ⟨-, -, hg⟩
  · -- below a `*`
    rw [hg] at h
    simp only at h
    split at h
    · rename_i hnone
      obtain rfl := Except.ok.inj h
      exact ⟨[], rfl, nofun, by simp [Selection.wanted, hw, Schema.namesOf, hnone]⟩
    · split at h
      · cases h
      · obtain rfl := Except.ok.inj h
        exact exists_tasks_of_everyBelow hw index
  · -- below a `^`
    rw [hg] at h
    cases limit with
    | none =>
      rw [wanted_unbounded hw hr hlimit]
      simp only at h
      split at h
      · cases h
      · exact exists_tasks_of_again ht h rfl hw hr hlimit
    | some most =>
      have hmost : t.node.limit = some (most + 1 - level) := hlimit
      rw [wanted_bounded hw hr hmost]
      simp only at h
      split at h
      · obtain rfl := Except.ok.inj h
        exact ⟨[], rfl, nofun, (if_pos (by omega)).symm⟩
      · rw [if_neg (by omega)]
        refine exists_tasks_of_again ht h rfl hw rfl ?_
        show some (most + 1 - level - 1) = some (most + 1 - (level + 1))
        rw [Nat.sub_sub]
  · exact absurd hg hmark

/-- What growth puts below any step; below one without a mark that is nothing. -/
theorem exists_tasks_of_grow {t : Task} (ht : t.Fits) {index : Nat} {below : List Step}
    (h : c.grow t.step index = .ok below) :
    ∃ tasks : List Task, tasks.map (·.step) = below ∧ (∀ t' ∈ tasks, t'.Fits) ∧
      tasks.map (·.node) = if t.step.growth = .none then []
        else t.node.wanted c.schema t.step.association.target := by
  split
  · rename_i hg
    rw [grow, hg] at h
    exact ⟨[], Except.ok.inj h, nofun, rfl⟩
  · rename_i hg
    exact exists_tasks_of_mark ht hg h

/-- What a wave puts on the board, below each of the steps that grow. -/
theorem exists_tasks_of_growAll {ts : List Task} (hfits : ∀ t ∈ ts, t.Fits)
    (hdistinct : (ts.map fun t => t.step.index).Nodup) {index : Nat} {more : List Step}
    (h : c.growAll index (ts.map (·.step)) = .ok more) :
    ∃ tasks : List Task, tasks.map (·.step) = more ∧ (∀ t' ∈ tasks, t'.Fits) ∧
      (∀ t' ∈ tasks, ∃ t ∈ ts, t'.step.parent = some t.step.index) ∧
      ∀ t ∈ ts, nodesUnder tasks (some t.step.index) =
        if t.step.growth = .none then []
        else t.node.wanted c.schema t.step.association.target := by
  induction ts generalizing index more with
  | nil =>
    obtain rfl := Except.ok.inj h
    exact ⟨[], rfl, nofun, nofun, nofun⟩
  | cons t ts ih =>
    rw [List.map_cons] at h
    obtain ⟨below, rest, hbelow, hrest, rfl⟩ := growAll_cons_eq_ok h
    rw [List.map_cons, List.nodup_cons] at hdistinct
    obtain ⟨hnew, hdistinct⟩ := hdistinct
    have hother : ∀ u ∈ ts, u.step.index ≠ t.step.index := by
      intro u hu he
      exact hnew (he ▸ List.mem_map_of_mem hu)
    obtain ⟨last, hlast, hlastFits, hlastParent, hlastNodes⟩ :=
      ih (fun u hu => hfits u (List.mem_cons_of_mem t hu)) hdistinct hrest
    obtain ⟨first, hfirst, hfirstFits, hfirstNodes⟩ :=
      exists_tasks_of_grow (hfits t List.mem_cons_self) hbelow
    have hfirstParent : ∀ t' ∈ first, t'.step.parent = some t.step.index := by
      intro t' ht'
      have hm : t'.step ∈ below := hfirst ▸ List.mem_map_of_mem ht'
      exact (grows_of_mem_grow hbelow hm).parent
    refine ⟨first ++ last, by rw [List.map_append, hfirst, hlast], fun t' ht' => ?_,
      fun t' ht' => ?_, fun u hu => ?_⟩
    · rcases List.mem_append.1 ht' with ht' | ht'
      · exact hfirstFits t' ht'
      · exact hlastFits t' ht'
    · rcases List.mem_append.1 ht' with ht' | ht'
      · exact ⟨t, List.mem_cons_self, hfirstParent t' ht'⟩
      · obtain ⟨u, hu, hp⟩ := hlastParent t' ht'
        exact ⟨u, List.mem_cons_of_mem t hu, hp⟩
    · rw [nodesUnder_append]
      rcases List.mem_cons.1 hu with rfl | hu
      · have hnone : nodesUnder last (some u.step.index) = [] := by
          refine nodesUnder_eq_nil fun t' ht' he => ?_
          obtain ⟨v, hv, hp⟩ := hlastParent t' ht'
          exact hother v hv (Option.some.inj (hp.symm.trans he))
        rw [nodesUnder_eq_all hfirstParent, hnone, List.append_nil, hfirstNodes]
      · have hnone : nodesUnder first (some u.step.index) = [] := by
          refine nodesUnder_eq_nil fun t' ht' he => ?_
          exact hother u hu (Option.some.inj (he.symm.trans (hfirstParent t' ht')))
        rw [hnone, List.nil_append, hlastNodes u hu]

end Context

namespace Board

/-- The tasks of a board: below each step hang the nodes that its rows are loaded with, except that
nothing hangs below a marked step without rows. -/
structure Unfolds (schema : Schema) (model : String) (s : Selection) (b : Board)
    (tasks : List Task) : Prop where
  steps : tasks.map (·.step) = b.steps
  fits : ∀ t ∈ tasks, t.Fits
  base : nodesUnder tasks none = s.wanted schema model
  below : ∀ t ∈ tasks, nodesUnder tasks (some t.step.index) =
    if t.step.growth = .none ∨ hasRows b.slots t.step = true then
      t.node.wanted schema t.step.association.target
    else []

variable {c : Context} {p : Plan} {b : Board} {base : List Value} {size : Option Nat}
  {tables : Tables}

theorem Unfolds.mem_steps {schema : Schema} {model : String} {s : Selection} {tasks : List Task}
    (h : Unfolds schema model s b tasks) {t : Task} (ht : t ∈ tasks) : t.step ∈ b.steps :=
  h.steps ▸ List.mem_map_of_mem ht

theorem hasRows_of_lt (h : b.Levelled c p) (hfed : b.Fed tables size base) {s : Step}
    (hs : s ∈ b.steps) (hd : b.stats.waves < s.depth) : hasRows b.slots s = false := by
  obtain ⟨slot, hslot, rfl⟩ := h.exists_slot hs
  have hm := List.mem_of_getElem? hslot
  have hran : slot.ran = false := (h.ran_eq_false_iff hm).2 hd
  simp [hasRows, hslot, hfed.waiting slot hm hran]

end Board

namespace Context

open Board

variable {c : Context} {p : Plan} {base : List Value} {tables : Tables} {latency : Nat}
  {t t' : Traffic} {b b' : Board} {s : Selection}

theorem hasRows_runWave (hc : c.source = tables.source latency) (h : b.Levelled c p)
    (run : c.runWave base t b b.ready = (t', .ok b')) {s : Step} (hs : s ∈ b.steps)
    (hd : s.depth ≠ b.stats.waves + 1) : hasRows b'.slots s = hasRows b.slots s := by
  obtain ⟨replies, more, hf, -, hslots, -⟩ := runWave_eq_ok run
  obtain ⟨slot, hslot, rfl⟩ := h.exists_slot hs
  have hrows : rowsFor replies slot.step.index = [] := by
    rw [rowsFor_runWave hc h hf hs, if_neg hd]
  simp only [hasRows, hslots, getElem?_store hslot, hslot, receive, hrows, List.append_nil]

/-- The tasks of the steps that a wave has brought rows for. -/
theorem exists_growing (h : b.Levelled c p) {tasks : List Task}
    (hu : b.Unfolds c.schema p.model s tasks) (slots : List Slot) :
    ∃ growing : List Task, growing.map (·.step) = b.ready.filter (hasRows slots) ∧
      (growing.map fun t => t.step.index).Nodup ∧
      ∀ t, t ∈ growing ↔
        t ∈ tasks ∧ t.step.depth = b.stats.waves + 1 ∧ hasRows slots t.step = true := by
  refine ⟨tasks.filter fun t => t.step.depth == b.stats.waves + 1 && hasRows slots t.step,
    ?_, ?_, fun t => ?_⟩
  · rw [h.ready_eq, List.filter_filter, ← hu.steps, List.filter_map]
    refine congrArg _ (List.filter_congr fun t _ => ?_)
    rw [Function.comp_apply, Bool.and_comm]
  · have hall : (b.steps.map (·.index)).Nodup := h.orderly.nodup_index
    rw [← hu.steps, List.map_map] at hall
    exact hall.sublist (List.filter_sublist.map _)
  · rw [List.mem_filter, Bool.and_eq_true, beq_iff_eq]

/-- What a wave makes of the tasks of a board: the steps of `growing` have got rows in it, and those
of `more` are put below them. -/
structure Grown (c : Context) (b b' : Board) (tasks growing more : List Task) : Prop where
  mem : ∀ t, t ∈ growing ↔
    t ∈ tasks ∧ t.step.depth = b.stats.waves + 1 ∧ hasRows b'.slots t.step = true
  steps : b'.steps = b.steps ++ more.map (·.step)
  fits : ∀ t ∈ more, t.Fits
  behind : ∀ t ∈ more, b.steps.length ≤ t.step.index
  grows : ∀ t ∈ more, ∃ up ∈ growing, c.Grows up.step t.step
  nodes : ∀ t ∈ growing, nodesUnder more (some t.step.index) =
    if t.step.growth = .none then []
    else t.node.wanted c.schema t.step.association.target

variable {tasks growing more : List Task} {task : Task}

theorem exists_grown (h : b.Levelled c p) (hu : b.Unfolds c.schema p.model s tasks)
    (run : c.runWave base t b b.ready = (t', .ok b')) :
    ∃ growing more, Grown c b b' tasks growing more := by
  obtain ⟨replies, added, -, hadded, hslots, -⟩ := runWave_eq_ok run
  have hrows : ∀ task ∈ tasks, hasRows b'.slots task.step =
      hasRows (b.store b.ready replies) task.step := by
    intro task ht
    have hlt := h.orderly.index_lt (hu.mem_steps ht)
    rw [length_steps, ← length_store b b.ready replies] at hlt
    rw [hasRows, hasRows, hslots, List.getElem?_append_left hlt]
  obtain ⟨growing, hgrowing, hdistinct, hmem⟩ :=
    exists_growing h hu (b.store b.ready replies)
  rw [← hgrowing] at hadded
  obtain ⟨more, hmore, hfits, -, hnodes⟩ :=
    exists_tasks_of_growAll (fun task ht => hu.fits task ((hmem task).1 ht).1) hdistinct hadded
  have hstep : ∀ task ∈ more, task.step ∈ added := fun task ht => hmore ▸ List.mem_map_of_mem ht
  refine ⟨growing, more, fun task => ?_, ?_, hfits, fun task ht => ?_, fun task ht => ?_, hnodes⟩
  · rw [hmem]
    exact and_congr_right fun ht => by rw [hrows task ht]
  · rw [hmore, steps_store hslots]
  · obtain ⟨i, hi⟩ := List.mem_iff_getElem?.1 (hstep task ht)
    obtain ⟨hlt, hi⟩ := List.getElem?_eq_some_iff.1 hi
    rw [← hi, getElem_growAll_index hadded i hlt, length_steps]
    omega
  · obtain ⟨step, hmem, hgrow⟩ := grows_of_mem_growAll hadded (hstep task ht)
    obtain ⟨up, hup, rfl⟩ := List.mem_map.1 hmem
    exact ⟨up, hup, hgrow⟩

namespace Grown

variable (hgrown : Grown c b b' tasks growing more)
include hgrown

theorem nodesUnder_none : nodesUnder more none = [] := by
  refine nodesUnder_eq_nil fun task ht he => ?_
  obtain ⟨up, -, hgrow⟩ := hgrown.grows task ht
  cases hgrow.parent.symm.trans he

theorem nodesUnder_eq_nil_of_ne {i : Nat} (h : ∀ up ∈ growing, up.step.index ≠ i) :
    nodesUnder more (some i) = [] := by
  refine nodesUnder_eq_nil fun task ht he => ?_
  obtain ⟨up, hup, hgrow⟩ := hgrown.grows task ht
  exact h up hup (Option.some.inj (hgrow.parent.symm.trans he))

/-- Below a step that has got its rows in the wave hang the nodes that they are loaded with: all of
them were there before, or the wave has put all of them there. -/
theorem nodesUnder_of_growing (h : b.Levelled c p)
    (hfed : b.Fed tables c.settings.batchSize base) (hu : b.Unfolds c.schema p.model s tasks)
    (hin : task ∈ growing) : nodesUnder (tasks ++ more) (some task.step.index) =
      task.node.wanted c.schema task.step.association.target := by
  obtain ⟨ht, hdepth, -⟩ := (hgrown.mem task).1 hin
  have hbefore := hasRows_of_lt h hfed (hu.mem_steps ht) (by omega)
  rw [nodesUnder_append, hu.below task ht, hgrown.nodes task hin, hbefore]
  by_cases hg : task.step.growth = .none <;> simp [hg]

/-- Below any other step that was there hangs what has hung there. -/
theorem nodesUnder_of_not_growing (h : b.Levelled c p) (hu : b.Unfolds c.schema p.model s tasks)
    (ht : task ∈ tasks) (hin : task ∉ growing) :
    nodesUnder (tasks ++ more) (some task.step.index) =
      nodesUnder tasks (some task.step.index) := by
  have hnone : nodesUnder more (some task.step.index) = [] := by
    refine hgrown.nodesUnder_eq_nil_of_ne fun up hup he => hin ?_
    obtain ⟨hmem, hcond⟩ := (hgrown.mem up).1 hup
    rw [h.orderly.eq_of_index (hu.mem_steps hmem) (hu.mem_steps ht) he] at hcond
    exact (hgrown.mem task).2 ⟨ht, hcond⟩
  rw [nodesUnder_append, hnone, List.append_nil]

/-- Such a step has rows if it had some before. -/
theorem hasRows_of_not_growing (hc : c.source = tables.source latency) (h : b.Levelled c p)
    (hfed : b.Fed tables c.settings.batchSize base) (hu : b.Unfolds c.schema p.model s tasks)
    (run : c.runWave base t b b.ready = (t', .ok b')) (ht : task ∈ tasks) (hin : task ∉ growing) :
    hasRows b'.slots task.step = hasRows b.slots task.step := by
  have hmem := hu.mem_steps ht
  by_cases hd : task.step.depth = b.stats.waves + 1
  · have hno : hasRows b'.slots task.step = false := by
      rw [← Bool.not_eq_true]
      intro hyes
      exact hin ((hgrown.mem task).2 ⟨ht, hd, hyes⟩)
    rw [hno, hasRows_of_lt h hfed hmem (by omega)]
  · exact hasRows_runWave hc h run hmem hd

/-- Below a step that is new hangs nothing yet. -/
theorem nodesUnder_of_new (h : b.Levelled c p) (hu : b.Unfolds c.schema p.model s tasks)
    (ht : task ∈ more) : nodesUnder (tasks ++ more) (some task.step.index) = [] := by
  have hbehind := hgrown.behind task ht
  have hold : nodesUnder tasks (some task.step.index) = [] := by
    refine nodesUnder_eq_nil fun low hlow he => ?_
    have := h.orderly.parent_lt (hu.mem_steps hlow) he
    omega
  have hnew : nodesUnder more (some task.step.index) = [] := by
    refine hgrown.nodesUnder_eq_nil_of_ne fun up hup he => ?_
    have := h.orderly.index_lt (hu.mem_steps ((hgrown.mem up).1 hup).1)
    omega
  rw [nodesUnder_append, hold, hnew, List.append_nil]

/-- A step that is new is marked and has no rows yet. -/
theorem bare_of_new (h' : b'.Levelled c p) (hfed : b'.Fed tables c.settings.batchSize base)
    (hwaves : b'.stats.waves = b.stats.waves + 1) (ht : task ∈ more) :
    ¬ (task.step.growth = .none ∨ hasRows b'.slots task.step = true) := by
  obtain ⟨up, hup, hgrow⟩ := hgrown.grows task ht
  have hmem : task.step ∈ b'.steps :=
    hgrown.steps ▸ List.mem_append_right _ (List.mem_map_of_mem ht)
  have hno : hasRows b'.slots task.step = false := by
    refine hasRows_of_lt h' hfed hmem ?_
    have := hgrow.depth
    have := ((hgrown.mem up).1 hup).2.1
    omega
  rintro (hg | hyes)
  · rcases hgrow.growth with ⟨_, _, -, hgrowth, -⟩ | ⟨-, hgrowth, -⟩
    · cases hg.symm.trans hgrowth
    · cases hg.symm.trans hgrowth
  · cases hno.symm.trans hyes

end Grown

/-- A wave puts the wanted nodes below the steps it has brought rows for. -/
theorem unfolds_runWave (hschema : c.schema.Registered) (hc : c.source = tables.source latency)
    (h : b.Levelled c p) (hfed : b.Fed tables c.settings.batchSize base) {tasks : List Task}
    (hu : b.Unfolds c.schema p.model s tasks)
    (run : c.runWave base t b b.ready = (t', .ok b')) :
    ∃ more, b'.Unfolds c.schema p.model s (tasks ++ more) := by
  obtain ⟨-, -, -, -, -, hwaves⟩ := runWave_eq_ok run
  obtain ⟨growing, more, hgrown⟩ := exists_grown h hu run
  refine ⟨more, ?_, fun task ht => ?_, ?_, fun task ht => ?_⟩
  · rw [List.map_append, hu.steps, hgrown.steps]
  · rcases List.mem_append.1 ht with ht | ht
    · exact hu.fits task ht
    · exact hgrown.fits task ht
  · rw [nodesUnder_append, hgrown.nodesUnder_none, List.append_nil, hu.base]
  · rcases List.mem_append.1 ht with ht | ht
    · by_cases hin : task ∈ growing
      · -- the step has got its rows in this wave
        have hrows := ((hgrown.mem task).1 hin).2.2
        rw [hgrown.nodesUnder_of_growing h hfed hu hin, if_pos (.inr hrows)]
      · -- the step has rows if it had some before
        rw [hgrown.nodesUnder_of_not_growing h hu ht hin, hu.below task ht,
          hgrown.hasRows_of_not_growing hc h hfed hu run ht hin]
    · -- the step is new, and nothing hangs below it
      have hbare := hgrown.bare_of_new (levelled_runWave hschema h run)
        (fed_runWave hc h hfed run) hwaves ht
      rw [hgrown.nodesUnder_of_new h hu ht, if_neg hbare]

/-- Every board of a run has the wanted nodes below each step with rows. -/
theorem Reaches.exists_unfolds (h : c.Reaches base p t b) (hc : c.source = tables.source latency)
    (hschema : c.schema.Registered) {settings : Settings} {model : String}
    {allowed : Option Selection}
    (hp : Plan.ofSelection c.schema settings model s allowed = .ok p) :
    ∃ tasks, b.Unfolds c.schema p.model s tasks := by
  obtain ⟨-, -, hmodel, -⟩ := Plan.ofSelection_eq_ok hp
  obtain ⟨horderly, tasks, hsteps, hfits, hbase, hbelow⟩ :=
    Plan.exists_tasks_of_ofSelection hschema hp
  rw [← hmodel] at horderly hbase
  induction h with
  | start =>
    refine ⟨tasks, hsteps.trans (steps_ofPlan p).symm, hfits, hbase, fun t ht => ?_⟩
    have hno : hasRows (ofPlan p).slots t.step = false := by
      have hmem : t.step ∈ p.steps := hsteps ▸ List.mem_map_of_mem ht
      refine hasRows_of_lt (levelled_ofPlan horderly)
        (fed_ofPlan tables c.settings.batchSize base p) (steps_ofPlan p ▸ hmem) ?_
      exact horderly.depth_pos hmem
    rw [hbelow t ht, hno]
    by_cases hg : t.step.growth = .none
    · rw [if_pos hg, if_pos (.inl hg), (hfits t ht).wanted_eq_children hg]
    · rw [if_neg hg, if_neg (by simp [hg])]
  | wave before _ run ih =>
    obtain ⟨tasks, hu⟩ := ih
    obtain ⟨more, hmore⟩ := unfolds_runWave hschema hc (before.levelled hschema horderly)
      (before.fed hc hschema horderly) hu run
    exact ⟨tasks ++ more, hmore⟩

end Context

end Prefetch

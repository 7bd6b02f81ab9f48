import Prefetch.Proofs.Load.Dispatch
import Prefetch.Proofs.Plan.Branching
import Prefetch.Proofs.Selection.RoundTrip
import Prefetch.Source.Memory

/-!
# StepTable — the steps of a run, at any time

Steps join a run while it is under way, wherever rows have come in.  They never get into each other's
way: a marked step has nothing below it until it has run, and then it gets one step for each relation
at most.  So every step has a path of its own at all times, and the waves so far are the levels of
the steps so far.

* `nodup_relation_grow` — growth puts no relation twice below a step.
* `branched_runWave` — a wave keeps the steps apart.
* `After.stepTable` — the steps of a run, whatever waves it has gone through.
-/

namespace Prefetch

namespace Context

variable {c : Context}

/-! ### Growth -/

/-- Growth puts no relation twice below a step. -/
theorem nodup_relation_grow (hschema : c.schema.Registered) {step : Step} {index : Nat}
    {below : List Step} (h : c.grow step index = .ok below) : (below.map (·.relation)).Nodup := by
  have hagain : ∀ {limit : Option Nat} {level : Nat}, c.again step index limit level = .ok below →
      (below.map (·.relation)).Nodup := by
    intro limit level h
    unfold again at h
    split at h
    · cases h
    · obtain rfl := Except.ok.inj h
      simp
  unfold grow at h
  split at h
  · obtain rfl := Except.ok.inj h
    exact List.nodup_nil
  · split at h
    · obtain rfl := Except.ok.inj h
      exact List.nodup_nil
    · exact hagain h
  · split at h
    · cases h
    · exact hagain h
  · split at h
    · obtain rfl := Except.ok.inj h
      exact List.nodup_nil
    · split at h
      · cases h
      · obtain rfl := Except.ok.inj h
        have hname : ∀ (i : Nat) (r : String × Association),
            Step.relation ⟨index + i, some step.index, step.below r.1, step.association.target, r.2,
              step.depth + 1, .everything⟩ = r.1 := fun i r => Step.relation_of_path rfl
        rw [everyBelow, Plan.map_mapIdx_of_forall hname]
        exact hschema.nodup_namesOf step.association.target

/-- The steps that are put below some steps branch. -/
theorem branching_growAll (hschema : c.schema.Registered) {steps more : List Step} {index : Nat}
    (hsteps : (steps.map (·.index)).Nodup) (h : c.growAll index steps = .ok more) :
    Branching more := by
  induction steps generalizing index more with
  | nil =>
    obtain rfl := Except.ok.inj h
    exact nofun
  | cons step steps ih =>
    obtain ⟨below, rest, hbelow, hrest, rfl⟩ := growAll_cons_eq_ok h
    rw [List.map_cons, List.nodup_cons] at hsteps
    obtain ⟨hnew, hsteps⟩ := hsteps
    have hapart : ∀ s ∈ below, ∀ s' ∈ rest, s.parent ≠ s'.parent := by
      intro s hs s' hs' hparent
      obtain ⟨owner, ho, hgrow⟩ := grows_of_mem_growAll hrest hs'
      rw [(grows_of_mem_grow hbelow hs).parent, hgrow.parent] at hparent
      exact hnew (List.mem_map.2 ⟨owner, ho, (Option.some.inj hparent).symm⟩)
    intro s hs s' hs' hparent hrelation
    rcases List.mem_append.1 hs with hs | hs <;> rcases List.mem_append.1 hs' with hs' | hs'
    · exact List.inj_on_of_nodup_map (nodup_relation_grow hschema hbelow) hs hs' hrelation
    · exact absurd hparent (hapart s hs s' hs')
    · exact absurd hparent.symm (hapart s' hs' s hs)
    · exact ih hsteps hrest s hs s' hs' hparent hrelation

end Context

/-! ### Waves -/

/-- The steps of a board branch, and nothing hangs below a marked step that has not run. -/
structure Board.Branched (b : Board) : Prop where
  branching : Branching b.steps
  bare : ∀ up ∈ b.steps, up.growth ≠ .none → b.stats.waves < up.depth →
    ∀ s ∈ b.steps, s.parent ≠ some up.index

namespace Context

open Board

variable {c : Context} {p : Plan} {base : List Value} {t t' : Traffic} {b b' : Board}

theorem Grows.growth_ne_none {step s : Step} (h : c.Grows step s) : step.growth ≠ .none := by
  rcases h.growth with ⟨limit, level, hg, -⟩ | ⟨hg, -⟩
  · rw [hg]
    nofun
  · rw [hg]
    nofun

/-- A wave keeps the steps apart. -/
theorem branched_runWave (hschema : c.schema.Registered) (h : b.Levelled c p) (hb : b.Branched)
    (run : c.runWave base t b b.ready = (t', .ok b')) : b'.Branched := by
  have h' := levelled_runWave hschema h run
  obtain ⟨replies, more, -, hg, hslots, hwaves⟩ := runWave_eq_ok run
  have hsteps := steps_store hslots
  have hmore : ∀ s ∈ more, ∃ step ∈ b.steps, step.depth = b.stats.waves + 1 ∧ c.Grows step s := by
    intro s hs
    obtain ⟨step, hstep, hgrow⟩ := grows_of_mem_growAll hg hs
    have hready := (List.mem_filter.1 hstep).1
    have hmem := mem_steps_of_mem_ready hready
    exact ⟨step, hmem, (h.mem_ready_iff hmem).1 hready, hgrow⟩
  -- what was there before hangs on other steps than what is new
  have hapart : ∀ s ∈ b.steps, ∀ s' ∈ more, s.parent ≠ s'.parent := by
    intro s hs s' hs' hparent
    obtain ⟨step, hmem, hdepth, hgrow⟩ := hmore s' hs'
    rw [hgrow.parent] at hparent
    exact hb.bare step hmem hgrow.growth_ne_none (by omega) s hs hparent
  refine ⟨?_, fun up hup hmark hlt s hs hparent => ?_⟩
  · have hnodup : ((b.ready.filter (hasRows (b.store b.ready replies))).map (·.index)).Nodup := by
      rw [h.ready_eq]
      exact h.orderly.nodup_index.sublist
        ((List.filter_sublist.trans List.filter_sublist).map _)
    rw [hsteps]
    intro s hs s' hs' hparent hrelation
    rcases List.mem_append.1 hs with hs | hs <;> rcases List.mem_append.1 hs' with hs' | hs'
    · exact hb.branching s hs s' hs' hparent hrelation
    · exact absurd hparent (hapart s hs s' hs')
    · exact absurd hparent.symm (hapart s' hs' s hs)
    · exact branching_growAll hschema hnodup hg s hs s' hs' hparent hrelation
  · have hdepth := h'.orderly.depth_below hs hup hparent
    rw [hsteps] at hs
    rcases List.mem_append.1 hs with hs | hs
    · obtain ⟨up', hup', hindex⟩ := h.orderly.exists_up hs hparent
      have hsame := h'.orderly.eq_of_index (hsteps ▸ List.mem_append_left more hup') hup hindex
      subst hsame
      exact hb.bare up' hup' hmark (by omega) s hs hparent
    · obtain ⟨step, -, hd, hgrow⟩ := hmore s hs
      have := hgrow.depth
      omega

/-- What a run has come to after some waves: the steps of each wave, the queries so far and the
board. -/
inductive After (c : Context) (base : List Value) (p : Plan) :
    List (List Step) → Traffic → Board → Prop where
  | start : After c base p [] {} (Board.ofPlan p)
  | wave {waves : List (List Step)} {t t' : Traffic} {b b' : Board}
      (before : After c base p waves t b) (ready : b.ready ≠ [])
      (run : c.runWave base t b b.ready = (t', .ok b')) :
      After c base p (waves ++ [b.ready]) t' b'

theorem After.reaches {waves : List (List Step)} (h : c.After base p waves t b) :
    c.Reaches base p t b := by
  induction h with
  | start => exact .start
  | wave _ ready run ih => exact ih.wave ready run

/-- A board that a run comes to is what some waves leave. -/
theorem Reaches.exists_after (h : c.Reaches base p t b) : ∃ waves, c.After base p waves t b := by
  induction h with
  | start => exact ⟨[], .start⟩
  | wave _ ready run ih =>
    obtain ⟨waves, hafter⟩ := ih
    exact ⟨_, hafter.wave ready run⟩

theorem After.branched {waves : List (List Step)} (h : c.After base p waves t b)
    (hschema : c.schema.Registered) (hp : Orderly c.schema p.model p.steps)
    (hplan : (Board.ofPlan p).Branched) : b.Branched := by
  induction h with
  | start => exact hplan
  | wave before _ run ih =>
    exact branched_runWave hschema (before.reaches.levelled hschema hp) ih run

/-- The waves so far are the levels of the steps so far. -/
theorem After.waves_eq {waves : List (List Step)} (h : c.After base p waves t b)
    (hschema : c.schema.Registered) (hp : Orderly c.schema p.model p.steps) :
    b.stats.waves = waves.length ∧
      waves = (List.range waves.length).map fun n => b.level (n + 1) := by
  induction h with
  | start => exact ⟨rfl, rfl⟩
  | @wave waves t t' b b' before _ run ih =>
    obtain ⟨hcount, hlevels⟩ := ih
    have hlevelled := before.reaches.levelled hschema hp
    have hwaves := (runWave_eq_ok run).choose_spec.choose_spec.2.2.2
    have hlength : (waves ++ [b.ready]).length = waves.length + 1 := by simp
    have hsame : ∀ n, n ≤ waves.length → b'.level (n + 1) = b.level (n + 1) :=
      fun n hn => level_runWave hlevelled run (by omega)
    refine ⟨by omega, ?_⟩
    rw [hlength, List.range_succ, List.map_append, List.map_singleton, hsame _ (Nat.le_refl _)]
    congr 1
    · rw [hlevels, List.length_map, List.length_range]
      exact List.map_congr_left fun n hn =>
        (hsame n (Nat.le_of_lt (List.mem_range.1 hn))).symm
    · rw [hlevelled.ready_eq, hcount, level]

/-- Whatever waves a run of a plan has gone through, its steps are in order: each stands where its
index says, hangs on the base rows or on one in front, takes its path, depth and model from there,
and fetches what the schema declares.  No two have the same path.  The waves so far, and the next
one, are the levels of these steps.  A slot holds a step with its rows and its mark, so there are as
many of each. -/
theorem After.stepTable {text model : String} {s : Selection} {settings : Settings}
    {allowed : Option Selection} {waves : List (List Step)} (hschema : c.schema.Registered)
    (hread : Selection.parse text = .ok s)
    (hplan : Plan.ofSelection c.schema settings model s allowed = .ok p)
    (h : c.After base p waves t b) :
    Orderly c.schema model b.steps ∧ (b.steps.map (·.path)).Nodup ∧
      waves ++ [b.ready] = (List.range (waves.length + 1)).map fun n => b.level (n + 1) := by
  obtain ⟨-, -, hmodel, -⟩ := Plan.ofSelection_eq_ok hplan
  have horderly := (Plan.exists_tasks_of_ofSelection hschema hplan).1
  obtain ⟨hbranching, hbare⟩ := Plan.branching_of_ofSelection hschema
    (Selection.writable_of_parse hread).wellFormed hplan
  have hstart : (Board.ofPlan p).Branched := by
    rw [← steps_ofPlan] at hbranching hbare
    exact ⟨hbranching, fun up hup hmark _ => hbare up hup hmark⟩
  subst hmodel
  have hlevelled := h.reaches.levelled hschema horderly
  have hbranched := h.branched hschema horderly hstart
  obtain ⟨hcount, hwaves⟩ := h.waves_eq hschema horderly
  refine ⟨hlevelled.orderly, ?_, ?_⟩
  · refine hlevelled.orderly.nodup.map_on fun s hs s' hs' hpath => ?_
    exact hlevelled.orderly.eq_of_path hbranched.branching hs hs' hpath
  · rw [List.range_succ, List.map_append, ← hwaves, List.map_singleton, hlevelled.ready_eq, hcount,
      level]

/-- One wave of a selection with a `*`, after which two relations hang below the step that has run. -/
theorem After.stepTable_everything :
    let owner : Association := ⟨.oneToOne, "person", "persons", "owner_id", "id", none⟩
    let pets : Association := ⟨.oneToMany, "pet", "pets", "id", "owner_id", none⟩
    let homes : Association :=
      ⟨.manyToMany, "home", "homes", "id", "id", some ⟨"stays", "person_id", "home_id"⟩⟩
    let schema : Schema :=
      ⟨[⟨"car", "owner", owner⟩, ⟨"person", "pets", pets⟩, ⟨"person", "homes", homes⟩]⟩
    let person : Value := .object [("id", .string "1")]
    let tables : Tables := { rows := [("persons", [person])] }
    let s : Selection := { children := [(Selection.named "owner").everything] }
    let first : Step := ⟨0, none, ["owner"], "car", owner, 1, .everything⟩
    let c : Context := ⟨schema, {}, tables.source 0, [], none⟩
    let p : Plan := ⟨"car", [first]⟩
    let base : List Value := [.object [("owner_id", .string "1")]]
    let t : Traffic := ⟨[⟨⟨"owner", "persons", "id", [.string "1"], none⟩, none, 0⟩], 0⟩
    let b : Board := ⟨[⟨first, [person], true⟩,
      ⟨⟨1, some 0, ["owner", "pets"], "person", pets, 2, .everything⟩, [], false⟩,
      ⟨⟨2, some 0, ["owner", "homes"], "person", homes, 2, .everything⟩, [], false⟩],
      ⟨1, 1, 1, 0, 1, 1⟩⟩
    schema.Registered ∧ Selection.parse "owner.*" = .ok s ∧
      Plan.ofSelection schema {} "car" s none = .ok p ∧ c.After base p [[first]] t b ∧
      Orderly schema "car" b.steps ∧ (b.steps.map (·.path)).Nodup ∧
        [[first]] ++ [b.ready] = (List.range 2).map fun n => b.level (n + 1) := by
  intro owner pets homes schema person tables s first c p base t b
  have howner : Schema.empty.register "car" "owner" owner = .ok ⟨[⟨"car", "owner", owner⟩]⟩ := by
    decide +kernel
  have hpets : Schema.register ⟨[⟨"car", "owner", owner⟩]⟩ "person" "pets" pets =
      .ok ⟨[⟨"car", "owner", owner⟩, ⟨"person", "pets", pets⟩]⟩ := by
    decide +kernel
  have hhomes : Schema.register ⟨[⟨"car", "owner", owner⟩, ⟨"person", "pets", pets⟩]⟩ "person"
      "homes" homes = .ok schema := by
    decide +kernel
  have hschema : schema.Registered := .register (.register (.register .empty howner) hpets) hhomes
  have hread : Selection.parse "owner.*" = .ok s := by rfl
  have hplan : Plan.ofSelection schema {} "car" s none = .ok p := by rfl
  have hrun : c.runWave base {} (Board.ofPlan p) [first] = (t, .ok b) := by cbv
  have hready : (Board.ofPlan p).ready = [first] := by cbv
  have hafter : c.After base p ([] ++ [(Board.ofPlan p).ready]) t b := by
    refine .wave .start ?_ ?_
    · rw [hready]
      exact List.cons_ne_nil first []
    · rw [hready]
      exact hrun
  rw [hready] at hafter
  exact ⟨hschema, hread, hplan, hafter, hafter.stepTable hschema hread hplan⟩

end Context

end Prefetch

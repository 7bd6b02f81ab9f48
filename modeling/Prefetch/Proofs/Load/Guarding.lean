import Prefetch.Proofs.Load.Ending
import Prefetch.Proofs.Load.Refusals
import Prefetch.Proofs.Plan.BreadthFirst

/-!
# Guarding — where the guards on depth and recursion stop a run

Two kinds of step may be followed without an end: an unbounded recursion, and a `*`.  Each use of a
recursion is one level, each step below a `*` is one deeper, and no step ever gets past its guard; so
a guard is met exactly there and not later.  A run is stopped by the first step of a wave that stands
at a guard and has returned rows, unless a step before it cannot be followed for another reason.
Whether rows are there is up to the source; whether a step can get to a guard at all is up to the
selection and the schema.

* `AtGuard` — the steps that must not be followed, with the path and the bound that are reported.
* `Reaches.kept` — no step of a run is past a guard.
* `settleWave_eq_error_iff` — the first step of a wave that cannot be followed ends it.
* `execute_eq_error_iff` — a run ends with an error of growth in an answered wave and nowhere else.
* `Reaches.growth_of_atGuard` — the steps of a run that can get to a guard at all.
* `execute_guards` — when a run ends at a guard, and when it cannot.
-/

namespace Prefetch

open Selection

namespace Context

/-- A step that must not be followed, the path that would come next and the bound that it breaks: an
unbounded recursion that has been used as often as it may, or a `*` on the deepest level there may be
that leads to a model with relations. -/
inductive AtGuard (c : Context) (step : Step) : Path → Nat → Prop where
  | recursion (growth : step.growth = .again none c.settings.maxRecursion) :
      AtGuard c step (step.path ++ [step.relation]) c.settings.maxRecursion
  | depth {relation : String} {a : Association} {others : List (String × Association)}
      (growth : step.growth = .everything) (depth : step.depth = c.settings.maxDepth)
      (declared : c.schema.relationsOf step.association.target = (relation, a) :: others) :
      AtGuard c step (step.path ++ [relation]) c.settings.maxDepth

/-- A recursive step that may be followed, but leads to a model that does not declare its relation. -/
structure Strays (c : Context) (step : Step) : Prop where
  follows : ∃ limit level, step.growth = .again limit level ∧ ∀ most, limit = some most → level < most
  missing : c.schema.lookup step.association.target step.relation = none

/-- A step that is not past a guard. -/
structure Kept (c : Context) (step : Step) : Prop where
  recursion : ∀ level, step.growth = .again none level → level ≤ c.settings.maxRecursion
  depth : step.growth = .everything → step.depth ≤ c.settings.maxDepth

variable {c : Context} {step s : Step} {path : Path} {most : Nat}

/-! ### Steps -/

theorem stop_of_atGuard (h : c.AtGuard step path most) : c.stop step = some (.tooDeep path most) := by
  rw [← grow_eq_error_iff 0, grow]
  cases h with
  | recursion growth =>
    simp only [growth, ge_iff_le, Nat.le_refl, if_true]
    rfl
  | depth growth depth declared =>
    simp only [growth, declared, depth, ge_iff_le, Nat.le_refl, if_true]
    rfl

/-- A step that is not past a guard is stopped at a guard, or because it strays. -/
theorem stop_eq_some (h : c.Kept step) {e : Error} (he : c.stop step = some e) :
    (∃ path most, c.AtGuard step path most ∧ e = .tooDeep path most) ∨
      c.Strays step ∧ e = .unknownRelation step.association.target step.relation := by
  rw [← grow_eq_error_iff 0] at he
  unfold grow at he
  split at he
  · cases he
  · rename_i bound level hg
    split at he
    · cases he
    · rename_i hlevel
      obtain ⟨hmissing, rfl⟩ := again_eq_error_iff.1 he
      refine .inr ⟨⟨⟨some bound, level, hg, ?_⟩, hmissing⟩, rfl⟩
      rintro _ ⟨⟩
      omega
  · rename_i level hg
    split at he
    · rename_i hlevel
      obtain rfl : level = c.settings.maxRecursion := Nat.le_antisymm (h.recursion level hg) hlevel
      exact .inl ⟨_, _, .recursion hg, (Except.error.inj he).symm⟩
    · obtain ⟨hmissing, rfl⟩ := again_eq_error_iff.1 he
      exact .inr ⟨⟨⟨none, level, hg, nofun⟩, hmissing⟩, rfl⟩
  · rename_i hg
    split at he
    · cases he
    · rename_i relation a others hdeclared
      split at he
      · rename_i hdepth
        have hat := AtGuard.depth hg (Nat.le_antisymm (h.depth hg) hdepth) hdeclared
        exact .inl ⟨_, _, hat, (Except.error.inj he).symm⟩
      · cases he

theorem stop_of_strays (h : c.Strays step) : c.stop step ≠ none := by
  obtain ⟨⟨limit, level, hg, hlevel⟩, hmissing⟩ := h
  have hagain : ∀ limit level, c.again step 0 limit level =
      .error (.unknownRelation step.association.target step.relation) :=
    fun _ _ => again_eq_error_iff.2 ⟨hmissing, rfl⟩
  intro hnone
  obtain ⟨below, hbelow⟩ := (exists_grow_iff 0).2 hnone
  unfold grow at hbelow
  rw [hg] at hbelow
  cases limit with
  | none =>
    simp only [hagain] at hbelow
    split at hbelow <;> cases hbelow
  | some bound =>
    have := hlevel bound rfl
    simp only [hagain, if_neg (show ¬ level ≥ bound by omega)] at hbelow
    cases hbelow

theorem stop_eq_tooDeep_iff (h : c.Kept step) :
    c.stop step = some (.tooDeep path most) ↔ c.AtGuard step path most := by
  refine ⟨fun he => ?_, stop_of_atGuard⟩
  obtain ⟨path', most', hat, heq⟩ | ⟨-, heq⟩ := stop_eq_some h he
  · obtain ⟨rfl, rfl⟩ := Error.tooDeep.inj heq
    exact hat
  · cases heq

theorem stop_eq_none_iff (h : c.Kept step) :
    c.stop step = none ↔ (∀ path most, ¬ c.AtGuard step path most) ∧ ¬ c.Strays step := by
  constructor
  · intro hnone
    refine ⟨fun path most hat => ?_, fun hstrays => stop_of_strays hstrays hnone⟩
    cases hnone.symm.trans (stop_of_atGuard hat)
  · rintro ⟨hguard, hstrays⟩
    refine Option.eq_none_iff_forall_ne_some.2 fun e he => ?_
    obtain ⟨path, most, hat, -⟩ | ⟨hs, -⟩ := stop_eq_some h he
    · exact hguard path most hat
    · exact hstrays hs

/-- What is put below a step is not past a guard. -/
theorem Grows.kept (h : c.Grows step s) : c.Kept s := by
  rcases h.growth with ⟨limit, level, -, hs, -, -, hguard⟩ | ⟨-, hs, hlt⟩
  · refine ⟨fun level' hlevel => ?_, fun he => ?_⟩
    · obtain ⟨rfl, rfl⟩ := Growth.again.inj (hs.symm.trans hlevel)
      exact hguard rfl
    · cases hs.symm.trans he
  · refine ⟨fun level hlevel => ?_, fun _ => ?_⟩
    · cases hs.symm.trans hlevel
    · rw [h.depth]
      exact hlt

end Context

/-! ### Plans -/

namespace Plan

variable {schema : Schema} {settings : Settings} {model : String} {s : Selection}
  {allowed : Option Selection} {p : Plan}

/-- Every planned step grows as some node of the selection asks. -/
theorem exists_node_of_ofSelection (h : ofSelection schema settings model s allowed = .ok p) :
    ∀ step ∈ p.steps, ∃ path node, Occurs s path node ∧ step.growth = growthFor node := by
  obtain ⟨-, -, -, -, ⟨hw, hsteps⟩ | ⟨-, hsteps⟩⟩ := ofSelection_eq_ok h
  · rw [hsteps]
    intro step hs
    obtain ⟨i, hi, rfl⟩ := List.mem_mapIdx.1 hs
    exact ⟨[], s, .root, by rw [growthFor, if_pos hw]⟩
  · have hresolved : ∀ q step, (∃ path, Occurs s path q.node) → Resolves schema q step →
        (∃ path node, Occurs s path node ∧ step.growth = growthFor node) ∧
          ∀ r ∈ pendingBelow step q.node, ∃ path, Occurs s path r.node := by
      rintro q step ⟨path, ho⟩ hr
      refine ⟨⟨path, q.node, ho, hr.growth_eq⟩, fun r hbelow => ?_⟩
      obtain ⟨c, hc, rfl⟩ := List.mem_map.1 hbelow
      exact ⟨_, ho.child hc⟩
    refine forall_of_resolveLevels hresolved hsteps fun q hq => ?_
    obtain ⟨c, hc, rfl⟩ := List.mem_map.1 hq
    exact ⟨_, Occurs.root.child hc⟩

/-- No planned step is deeper than the settings allow. -/
theorem depth_le_of_ofSelection (hs : s.WellFormed) (hname : s.name = none)
    (hmost : 0 < settings.maxDepth) (h : ofSelection schema settings model s allowed = .ok p) :
    ∀ step ∈ p.steps, step.depth ≤ settings.maxDepth := by
  obtain ⟨-, hdepth, -, -, ⟨-, hsteps⟩ | ⟨-, hsteps⟩⟩ := ofSelection_eq_ok h
  · rw [hsteps]
    intro step hstep
    obtain ⟨i, hi, rfl⟩ := List.mem_mapIdx.1 hstep
    exact hmost
  · -- a node that waits has room for the levels that it spells out
    have hbelow : ∀ (node : Selection) (n : Nat), node.WellFormed →
        n + depthOfAll node.children ≤ settings.maxDepth → ∀ c ∈ node.children,
          c.WellFormed ∧ c.name ≠ none ∧ n + c.depth ≤ settings.maxDepth := by
      intro node n hnode hn c hc
      have := depth_le_depthOfAll hc
      exact ⟨hnode.of_mem hc, hnode.coherent.named c hc, by omega⟩
    have hresolved : ∀ q step, (q.node.WellFormed ∧ q.node.name ≠ none ∧
        q.path.length + q.node.depth ≤ settings.maxDepth) → Resolves schema q step →
          step.depth ≤ settings.maxDepth ∧ ∀ r ∈ pendingBelow step q.node, r.node.WellFormed ∧
            r.node.name ≠ none ∧ r.path.length + r.node.depth ≤ settings.maxDepth := by
      rintro q step ⟨hnode, hnamed, hroom⟩ hr
      rw [depth_eq_of_named hnamed] at hroom
      have hlength : step.path.length = q.path.length + 1 := by
        rw [hr.path, List.length_append, List.length_singleton]
      refine ⟨by rw [hr.depth]; omega, fun r hbelow' => ?_⟩
      obtain ⟨c, hc, rfl⟩ := List.mem_map.1 hbelow'
      exact hbelow q.node step.path.length hnode (by omega) c hc
    rw [depth_eq_of_name hname] at hdepth
    refine forall_of_resolveLevels hresolved hsteps fun q hq => ?_
    obtain ⟨c, hc, rfl⟩ := List.mem_map.1 hq
    exact hbelow s 0 hs (by omega) c hc

end Plan

/-- The path of a step is a chain of relations that leads to the model of its rows. -/
theorem Orderly.modelAlong_path {schema : Schema} {model : String} {steps : List Step} {s : Step}
    (h : Orderly schema model steps) (hs : s ∈ steps) :
    schema.modelAlong model s.path = some s.association.target := by
  induction hn : s.index using Nat.strong_induction_on generalizing s with
  | _ n ih =>
    have hdeclared := h.declared s hs
    cases h.hangs s hs with
    | base parent path owner =>
      rw [owner] at hdeclared
      rw [path]
      exact Schema.modelAlong_append (show schema.modelAlong model [] = some model from rfl) hdeclared
    | below up mem parent path owner =>
      have hlt := h.before s hs _ parent
      rw [owner] at hdeclared
      rw [path]
      exact Schema.modelAlong_append (ih up.index (by omega) mem rfl) hdeclared

namespace Context

open Board

variable {c : Context} {p : Plan} {base : List Value} {t t' : Traffic} {b b' : Board}
  {replies : List Reply} {e : Error} {model : String} {s : Selection} {allowed : Option Selection}

/-- No step of a run is past a guard. -/
theorem Reaches.kept (h : c.Reaches base p t b) (hs : s.WellFormed) (hname : s.name = none)
    (hsettings : c.settings.check = .ok ())
    (hplan : Plan.ofSelection c.schema c.settings model s allowed = .ok p) :
    ∀ step ∈ b.steps, c.Kept step := by
  obtain ⟨hdepth, hrecursion, -⟩ := Settings.check_eq_ok_iff.1 hsettings
  refine h.forall_steps (fun step hstep => ⟨fun level hg => ?_, fun _ => ?_⟩) fun _ _ _ => Grows.kept
  · obtain rfl := Plan.level_of_ofSelection hplan step hstep none level hg
    exact hrecursion
  · exact Plan.depth_le_of_ofSelection hs hname hdepth hplan step hstep

/-! ### Waves -/

/-- The first of some steps that a property picks and that cannot be followed. -/
theorem findSome?_filter_eq_some_iff {α β : Type} {pick : α → Bool} {f : α → Option β} {xs : List α}
    {y : β} : (xs.filter pick).findSome? f = some y ↔ ∃ front x back, xs = front ++ x :: back ∧
      pick x = true ∧ f x = some y ∧ ∀ z ∈ front, pick z = true → f z = none := by
  rw [List.findSome?_eq_some_iff]
  constructor
  · rintro ⟨picked, x, others, hsplit, hx, hnone⟩
    obtain ⟨front, rest, rfl, hfront, hrest⟩ := List.filter_eq_append_iff.1 hsplit
    obtain ⟨between, back, rfl, hbetween, hpick, -⟩ := List.filter_eq_cons_iff.1 hrest
    refine ⟨front ++ between, x, back, (List.append_assoc ..).symm, hpick, hx, fun z hz hpz => ?_⟩
    rcases List.mem_append.1 hz with hz | hz
    · exact hnone z (hfront ▸ List.mem_filter.2 ⟨hz, hpz⟩)
    · exact absurd hpz (hbetween z hz)
  · rintro ⟨front, x, back, rfl, hpick, hx, hfront⟩
    refine ⟨front.filter pick, x, back.filter pick, ?_, hx, fun z hz => ?_⟩
    · rw [List.filter_append, List.filter_cons_of_pos hpick]
    · exact hfront z (List.mem_filter.1 hz).1 (List.mem_filter.1 hz).2

/-- The first step of a wave that has returned rows and cannot be followed ends the wave. -/
theorem settleWave_eq_error_iff (h : c.Reaches base p t b) (hschema : c.schema.Registered)
    (hp : Orderly c.schema p.model p.steps) :
    c.settleWave base b b.ready replies = .error e ↔
      ∃ front step back, b.ready = front ++ step :: back ∧ rowsFor replies step.index ≠ [] ∧
        c.stop step = some e ∧
        ∀ s ∈ front, rowsFor replies s.index ≠ [] → c.stop s = none := by
  have hgrow : c.settleWave base b b.ready replies = .error e ↔
      (b.ready.filter (hasRows (b.store b.ready replies))).findSome? c.stop = some e := by
    rw [← growAll_eq_error_iff (b.store b.ready replies).length, settleWave]
    cases c.growAll (b.store b.ready replies).length
      (b.ready.filter (hasRows (b.store b.ready replies))) <;> simp
  rw [hgrow, findSome?_filter_eq_some_iff]
  refine exists_congr fun front => exists_congr fun step => exists_congr fun back =>
    and_congr_right fun hsplit => ?_
  have hrows : ∀ s ∈ front ++ step :: back,
      (hasRows (b.store b.ready replies) s = true ↔ rowsFor replies s.index ≠ []) :=
    fun s hs => hasRows_store_iff h hschema hp (hsplit ▸ hs)
  rw [hrows step (List.mem_append_right front List.mem_cons_self)]
  refine and_congr_right fun _ => and_congr_right fun _ => forall₂_congr fun s hs => ?_
  rw [hrows s (List.mem_append_left _ hs)]

/-! ### Runs -/

/-- The queries of a wave that a run has come to, all of them answered. -/
structure Answered (c : Context) (base : List Value) (p : Plan) (b : Board)
    (replies : List Reply) : Prop where
  records : checkBase base = .ok ()
  sent : ∃ t t', c.Reaches base p t b ∧
    c.fetch t (b.requests base c.settings.batchSize b.ready) = (t', .ok replies)

/-- The waves that a run takes go through every board that it can come to. -/
theorem Reaches.runWaves_add (h : c.Reaches base p t b) (n : Nat) :
    c.runWaves base (b.stats.waves + n) {} (.ofPlan p) = c.runWaves base n t b := by
  induction h generalizing n with
  | start => rw [show (ofPlan p).stats.waves = 0 from rfl, Nat.zero_add]
  | @wave t t' b b' _ ready run ih =>
    have hwaves := (runWave_eq_ok run).choose_spec.choose_spec.2.2.2
    have hcount : b'.stats.waves + n = b.stats.waves + (n + 1) := by omega
    rw [hcount, ih, runWaves_succ, if_neg (by simpa using ready), run]
    rfl

/-- An error that is neither one of queries nor one of rows comes from an answered wave, and every such
wave ends the run. -/
theorem execute_eq_error_iff (hschema : c.schema.Registered)
    (hp : Orderly c.schema p.model p.steps) (hquery : ¬ OfQuery e)
    (hrow : ∀ fault, e ≠ .invalidRow fault) :
    (c.execute base p).outcome = .error e ↔
      ∃ b replies, c.Answered base p b replies ∧
        c.settleWave base b b.ready replies = .error e := by
  constructor
  · intro h
    unfold execute at h
    split at h
    · exact absurd (Except.error.inj h).symm (hrow _)
    · rename_i hbase
      have begun : c.Reaches base p {} (Board.ofPlan p) := .start
      obtain ⟨t', b', hrun, -⟩ | ⟨t, b, t', e', hrun, hreach, hwave⟩ :=
        begun.runWaves (c.waveBound p)
      · simp only [hrun] at h
        unfold conclude at h
        split at h
        · exact absurd (Except.error.inj h).symm (hrow _)
        · cases h
      · simp only [hrun] at h
        obtain rfl := Except.error.inj h
        unfold runWave at hwave
        split at hwave
        · rename_i t₁ e₁ hf
          obtain rfl := Except.error.inj (Prod.mk.inj hwave).2
          exact absurd (ofQuery_of_rounds hf) hquery
        · rename_i t₁ replies hf
          exact ⟨b, replies, ⟨hbase, t, t₁, hreach, hf⟩, (Prod.mk.inj hwave).2⟩
  · rintro ⟨b, replies, ⟨hbase, t, t', hreach, hf⟩, hsettle⟩
    obtain ⟨front, step, back, hsplit, -⟩ := (settleWave_eq_error_iff hreach hschema hp).1 hsettle
    have hready : step ∈ b.ready := hsplit ▸ List.mem_append_right front List.mem_cons_self
    have hmem := mem_steps_of_mem_ready hready
    have hlevelled := hreach.levelled hschema hp
    have hdepth := (hlevelled.mem_ready_iff hmem).1 hready
    have hroom := hlevelled.room step hmem
    obtain ⟨k, hk⟩ := Nat.exists_eq_add_of_le
      (show b.stats.waves + 1 ≤ c.waveBound p by omega)
    have hbound : c.waveBound p = b.stats.waves + (k + 1) := by omega
    have hne : ¬ b.ready.isEmpty = true := fun hnil =>
      List.ne_nil_of_mem hready (List.isEmpty_iff.1 hnil)
    refine outcome_execute_of_error hbase ?_
    rw [hbound, hreach.runWaves_add, runWaves_succ, if_neg hne, runWave_eq_andThen, hf]
    simp only [andThen, hsettle]

/-- On the boards of a run, every step that has rows could be followed. -/
theorem Reaches.stop_eq_none (h : c.Reaches base p t b) (hschema : c.schema.Registered)
    (hp : Orderly c.schema p.model p.steps) : ∀ s, b.Yields s → c.stop s = none := by
  induction h with
  | start => exact fun s hs => absurd hs (not_yields_ofPlan p s)
  | wave before _ run ih =>
    obtain ⟨replies, more, hf, hg, hslots, -⟩ := runWave_eq_ok run
    intro s hs
    rcases (yields_runWave before hschema hp hf hslots).1 hs with hs | hs
    · exact ih s hs
    · refine Option.eq_none_iff_forall_ne_some.2 fun e he => ?_
      obtain ⟨e', he'⟩ := Option.isSome_iff_exists.1
        (List.findSome?_isSome_iff.2 ⟨s, hs, Option.isSome_iff_exists.2 ⟨e, he⟩⟩)
      cases hg.symm.trans ((growAll_eq_error_iff _).2 he')

/-- Where no recursion is unbounded, no step of a run is followed without a bound. -/
theorem Reaches.growth_ne_again (h : c.Reaches base p t b)
    (hplan : Plan.ofSelection c.schema c.settings model s allowed = .ok p)
    (hbounded : ∀ path node, Occurs s path node → node.recursive = true → node.limit ≠ none) :
    ∀ step ∈ b.steps, ∀ level, step.growth ≠ .again none level := by
  refine h.forall_steps (fun step hs level hg => ?_) fun step below hstep hgrow level hg => ?_
  · obtain ⟨path, node, ho, hgrowth⟩ := Plan.exists_node_of_ofSelection hplan step hs
    rw [hgrowth, Plan.growthFor] at hg
    split at hg
    · cases hg
    · split at hg
      · rename_i hrecursive
        exact hbounded path node ho hrecursive (Growth.again.inj hg).1
      · cases hg
  · rcases hgrow.growth with ⟨limit, level', hup, hs, -⟩ | ⟨-, hs, -⟩
    · obtain ⟨rfl, -⟩ := Growth.again.inj (hs.symm.trans hg)
      exact hstep level' hup
    · cases hs.symm.trans hg

/-- Where there is no `*`, no step of a run is followed as one. -/
theorem Reaches.growth_ne_everything (h : c.Reaches base p t b)
    (hplan : Plan.ofSelection c.schema c.settings model s allowed = .ok p)
    (hplain : ∀ path node, Occurs s path node → node.wildcard = false) :
    ∀ step ∈ b.steps, step.growth ≠ .everything := by
  refine h.forall_steps (fun step hs hg => ?_) fun step below hstep hgrow hg => ?_
  · obtain ⟨path, node, ho, hgrowth⟩ := Plan.exists_node_of_ofSelection hplan step hs
    rw [hgrowth, Plan.growthFor, hplain path node ho] at hg
    simp only [Bool.false_eq_true, if_false] at hg
    split at hg <;> cases hg
  · rcases hgrow.growth with ⟨limit, level, -, hs, -⟩ | ⟨hup, -, -⟩
    · cases hs.symm.trans hg
    · exact hstep hup

/-- A step of a run that stands at a guard is one of an unbounded recursion, or one of a `*` from which
a chain of relations goes on past the depth that the settings allow. -/
theorem Reaches.growth_of_atGuard (h : c.Reaches base p t b) (hschema : c.schema.Registered)
    (hp : Orderly c.schema p.model p.steps) {step : Step} (hstep : step ∈ b.steps) {path : Path}
    {most : Nat} (hat : c.AtGuard step path most) :
    (∃ level, step.growth = .again none level) ∨
      step.growth = .everything ∧ ∃ chain target,
        c.schema.modelAlong p.model chain = some target ∧ c.settings.maxDepth < chain.length := by
  cases hat with
  | recursion growth => exact .inl ⟨_, growth⟩
  | @depth relation a others growth depth declared =>
    have hsteps := (h.levelled hschema hp).orderly
    have hmem : (relation, a) ∈ c.schema.relationsOf step.association.target := by
      rw [declared]
      exact List.mem_cons_self
    have hchain := Schema.modelAlong_append (hsteps.modelAlong_path hstep)
      (hschema.lookup_of_mem_relationsOf hmem)
    have hlength := hsteps.depth step hstep
    refine .inr ⟨growth, _, _, hchain, ?_⟩
    rw [List.length_append, List.length_singleton]
    omega

/-- A run ends too deep when, in an answered wave, a step with rows stands at a guard, and those with
rows before it could all be followed. -/
theorem execute_eq_tooDeep_iff (hschema : c.schema.Registered) (hs : s.WellFormed)
    (hname : s.name = none) (hsettings : c.settings.check = .ok ())
    (hplan : Plan.ofSelection c.schema c.settings model s allowed = .ok p) (base : List Value)
    (path : Path) (most : Nat) : (c.execute base p).outcome = .error (.tooDeep path most) ↔
      ∃ b replies, c.Answered base p b replies ∧ ∃ front step back, b.ready = front ++ step :: back ∧
        rowsFor replies step.index ≠ [] ∧ c.AtGuard step path most ∧
        ∀ other ∈ front, rowsFor replies other.index ≠ [] →
          (∀ path most, ¬ c.AtGuard other path most) ∧ ¬ c.Strays other := by
  have horderly := (Plan.exists_tasks_of_ofSelection hschema hplan).1
  obtain ⟨-, -, rfl, -⟩ := Plan.ofSelection_eq_ok hplan
  rw [execute_eq_error_iff (e := .tooDeep path most) hschema horderly nofun nofun]
  refine exists_congr fun b => exists_congr fun replies => and_congr_right fun hanswered => ?_
  obtain ⟨t, t', hreach, -⟩ := hanswered.sent
  have hkept := hreach.kept hs hname hsettings hplan
  rw [settleWave_eq_error_iff hreach hschema horderly]
  refine exists_congr fun front => exists_congr fun step => exists_congr fun back =>
    and_congr_right fun hsplit => and_congr_right fun _ => ?_
  have hmem : ∀ other ∈ front ++ step :: back, c.Kept other := fun other ho =>
    hkept other (mem_steps_of_mem_ready (hsplit ▸ ho))
  rw [stop_eq_tooDeep_iff (hmem step (List.mem_append_right front List.mem_cons_self))]
  refine and_congr_right fun _ => forall₂_congr fun other ho => ?_
  rw [stop_eq_none_iff (hmem other (List.mem_append_left _ ho))]

/-- A run ends too deep exactly when, in a wave whose queries were all answered, a step that has
returned rows stands at a guard: an unbounded recursion that has been used as often as the settings
allow, or a `*` on the deepest level that leads to a model with relations.  The step, which gives the
path and the bound, is the first of its wave that has rows and stands at a guard or strays.  So no run
succeeds in which such a step has returned rows.  A bounded recursion never stands at a guard, and a
`*` only where a chain of relations is longer than the settings allow; so where no recursion is
unbounded, and there is no `*` or no such chain, no run ends too deep, whatever the source returns. -/
theorem execute_guards {text : String} (hschema : c.schema.Registered)
    (hsettings : c.settings.check = .ok ()) (hread : parse text = .ok s)
    (hplan : Plan.ofSelection c.schema c.settings model s allowed = .ok p) (base : List Value) :
    (∀ path most, (c.execute base p).outcome = .error (.tooDeep path most) ↔
      ∃ b replies, c.Answered base p b replies ∧ ∃ front step back, b.ready = front ++ step :: back ∧
        rowsFor replies step.index ≠ [] ∧ c.AtGuard step path most ∧
        ∀ other ∈ front, rowsFor replies other.index ≠ [] →
          (∀ path most, ¬ c.AtGuard other path most) ∧ ¬ c.Strays other) ∧
    (∀ result, (c.execute base p).outcome = .ok result →
      ∃ t b replies, c.Reaches base p t b ∧ b.ready = [] ∧ (c.execute base p).issued = t.issued ∧
        c.Exchanges c.past (b.asked base c.settings.batchSize) t.issued replies ∧
        ∀ step ∈ b.steps, rowsFor replies step.index ≠ [] →
          ∀ path most, ¬ c.AtGuard step path most) ∧
    (∀ t b, c.Reaches base p t b → ∀ step ∈ b.steps, ∀ path most, c.AtGuard step path most →
      (∃ level, step.growth = .again none level) ∨
        step.growth = .everything ∧ ∃ chain target, c.schema.modelAlong model chain = some target ∧
          c.settings.maxDepth < chain.length) ∧
    ((∀ path node, Occurs s path node → node.recursive = true → node.limit ≠ none) →
      ((∀ path node, Occurs s path node → node.wildcard = false) ∨
        ∀ chain target, c.schema.modelAlong model chain = some target →
          chain.length ≤ c.settings.maxDepth) →
      ∀ path most, (c.execute base p).outcome ≠ .error (.tooDeep path most)) := by
  have hwritable := writable_of_parse hread
  have horderly := (Plan.exists_tasks_of_ofSelection hschema hplan).1
  obtain ⟨-, -, rfl, -⟩ := Plan.ofSelection_eq_ok hplan
  have hdeep := execute_eq_tooDeep_iff hschema hwritable.wellFormed hwritable.unnamed hsettings hplan
    base
  refine ⟨hdeep, fun result hok => ?_,
    fun t b hreach step hstep path most hat => hreach.growth_of_atGuard hschema horderly hstep hat,
    fun hbounded hfinite path most herror => ?_⟩
  · obtain ⟨rows, stats⟩ := result
    obtain ⟨t, b, hreach, hready, hissued, -⟩ := Context.execute_eq_ok hschema horderly hok
    obtain ⟨replies, hex, hrows⟩ := hreach.exists_replies hschema horderly
    refine ⟨t, b, replies, hreach, hready, hissued, hex, fun step hstep hne path most hat => ?_⟩
    obtain ⟨slot, hslot, rfl⟩ := List.mem_map.1 hstep
    rw [← hrows slot hslot] at hne
    cases (stop_of_atGuard hat).symm.trans
      (hreach.stop_eq_none hschema horderly slot.step ⟨slot, hslot, rfl, hne⟩)
  · obtain ⟨b, replies, hanswered, front, step, back, hsplit, -, hat, -⟩ := (hdeep path most).1 herror
    obtain ⟨t, t', hreach, -⟩ := hanswered.sent
    have hstep : step ∈ b.steps :=
      mem_steps_of_mem_ready (hsplit ▸ List.mem_append_right front List.mem_cons_self)
    obtain ⟨level, hg⟩ | ⟨hg, chain, target, hchain, hlong⟩ :=
      hreach.growth_of_atGuard hschema horderly hstep hat
    · exact hreach.growth_ne_again hplan hbounded step hstep level hg
    · rcases hfinite with hplain | hfinite
      · exact hreach.growth_ne_everything hplan hplain step hstep hg
      · exact absurd (hfinite chain target hchain) (Nat.not_le.2 hlong)

/-- A `*` over a relation that leads back to its model, and a source that has a row for every query: the
second level is the last one there may be, and the run ends at the third. -/
theorem execute_guards_cyclic :
    let next : Association := ⟨.oneToMany, "node", "nodes", "id", "up", none⟩
    let schema : Schema := ⟨[⟨"node", "next", next⟩]⟩
    let p : Plan := ⟨"node", [⟨0, none, ["next"], "node", next, 1, .everything⟩]⟩
    let row : Value := .object [("id", .string "1"), ("up", .string "1")]
    let source : Source := ⟨0, fun _ _ => .ok [row]⟩
    let c : Context := ⟨schema, { maxDepth := 2 }, source, [], none⟩
    schema.Registered ∧ c.settings.check = .ok () ∧ parse "*" = .ok root.everything ∧
      Plan.ofSelection schema c.settings "node" root.everything none = .ok p ∧
      (c.execute [row] p).outcome = .error (.tooDeep ["next", "next", "next"] 2) ∧
      ∃ b replies, c.Answered [row] p b replies ∧ ∃ front step back, b.ready = front ++ step :: back ∧
        rowsFor replies step.index ≠ [] ∧ c.AtGuard step ["next", "next", "next"] 2 ∧
        ∀ other ∈ front, rowsFor replies other.index ≠ [] →
          (∀ path most, ¬ c.AtGuard other path most) ∧ ¬ c.Strays other := by
  intro next schema p row source c
  have hnext : Schema.empty.register "node" "next" next = .ok schema := by decide +kernel
  have hschema : schema.Registered := .register .empty hnext
  have hsettings : c.settings.check = .ok () := by rfl
  have hread : parse "*" = .ok root.everything := by rfl
  have hplan : Plan.ofSelection schema c.settings "node" root.everything none = .ok p := by rfl
  have hout : (c.execute [row] p).outcome = .error (.tooDeep ["next", "next", "next"] 2) := by cbv
  have hguards := execute_guards (c := c) hschema hsettings hread hplan [row]
  exact ⟨hschema, hsettings, hread, hplan, hout, (hguards.1 _ _).1 hout⟩

end Context

end Prefetch

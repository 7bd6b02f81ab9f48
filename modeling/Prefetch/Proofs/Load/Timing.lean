import Mathlib.Algebra.Order.BigOperators.Group.List
import Mathlib.Algebra.Order.Floor.Div
import Mathlib.GroupTheory.GroupAction.Ring
import Prefetch.Proofs.Load.Batching
import Prefetch.Proofs.Load.Queries
import Prefetch.Proofs.Load.Requests

/-!
# Timing — queries that run side by side save time and change nothing else

The queries of a wave go out in rounds, and every round takes as long as one answer.  So a wave
takes as many rounds as its queries fill, and a run as many as all its waves.  Over tables that
answer in time the answers do not depend on the rounds: whatever may run side by side, a run comes to
the same board, has sent the same queries in the same order, and takes the less time the more may run
at once.  A limit on the time of a load then either is met, and changes nothing, or ends the load.

* `traffic_of_fetch` — how long an exchange takes, and what it sends.
* `After.traffic` — the same for the waves of a run.
* `execute_paced`, `loadRequest_paced` — runs, and loads, that differ in their pace.
* `loadRequest_sideBySide` — loads with more queries side by side, and loads under a time limit.
-/

namespace Prefetch

/-- A query with the scope it was sent in; when it was sent is left aside. -/
def Issued.asked (i : Issued) : Query × Option String :=
  (i.query, i.scope)

/-- The settings with another number of queries side by side, and another time limit for a load. -/
def Settings.paced (s : Settings) (parallel : Bool) (most : Nat) (limit : Option Nat) : Settings :=
  { s with parallel := parallel, maxQueries := most, loadTimeout := limit }

/-- More at once fill fewer rounds. -/
theorem ceilDiv_le_ceilDiv_of_le {p p' : Nat} (hp : 0 < p) (h : p ≤ p') (n : Nat) :
    n ⌈/⌉ p' ≤ n ⌈/⌉ p := by
  have hn : n ≤ p * (n ⌈/⌉ p) := (ceilDiv_le_iff_le_mul hp).1 (Nat.le_refl _)
  exact (ceilDiv_le_iff_le_mul (hp.trans_le h)).2 (hn.trans (Nat.mul_le_mul_right _ h))

namespace Context

open Board

variable {c : Context} {p : Plan} {base : List Value} {t t' : Traffic} {b b' : Board}
  {replies : List Reply} {waves : List (List Step)}

/-! ### Exchanges -/

theorem traffic_of_rounds (hlatency : c.source.latency ≤ c.settings.queryTimeout)
    {rss : List (List Request)} (h : c.rounds t rss = (t', .ok replies)) :
    t'.time = t.time + rss.length * c.source.latency ∧
      t'.issued.map Issued.asked =
        t.issued.map Issued.asked ++ rss.flatten.map fun r => (r.query, c.scope) := by
  induction rss generalizing t replies with
  | nil =>
    obtain ⟨rfl, -⟩ := Prod.mk.inj h
    simp
  | cons rs rss ih =>
    have htime : (c.round t rs).1.time = t.time + c.source.latency := by
      have hno : ¬ c.source.latency > c.settings.queryTimeout := Nat.not_lt.2 hlatency
      unfold round
      simp only [if_neg hno]
    have hissued := received_round c t rs
    rw [rounds] at h
    split at h
    · cases h
    · rename_i t₁ first hfirst
      rw [hfirst] at htime hissued
      split at h
      · cases h
      · rename_i t₂ others hothers
        obtain ⟨rfl, -⟩ := Prod.mk.inj h
        obtain ⟨hlater, hasked⟩ := ih hothers
        refine ⟨?_, ?_⟩
        · rw [hlater, htime, List.length_cons, Nat.succ_mul]
          omega
        · rw [hasked, hissued, List.map_append, List.map_map, List.flatten_cons, List.map_append,
            List.append_assoc]
          rfl

/-- An exchange takes as long as its rounds, and sends all queries in order. -/
theorem traffic_of_fetch (hlatency : c.source.latency ≤ c.settings.queryTimeout)
    {rs : List Request} (h : c.fetch t rs = (t', .ok replies)) :
    t'.time = t.time + rs.length ⌈/⌉ c.settings.parallelism * c.source.latency ∧
      t'.issued.map Issued.asked =
        t.issued.map Issued.asked ++ rs.map fun r => (r.query, c.scope) := by
  obtain ⟨htime, hasked⟩ := traffic_of_rounds hlatency h
  rw [flatten_chunks] at hasked
  refine ⟨?_, hasked⟩
  rw [htime, width]
  by_cases hzero : c.source.latency = 0
  · rw [hzero, Nat.mul_zero, Nat.mul_zero]
  · rw [if_neg hzero, length_chunks c.settings.parallelism_pos, Nat.ceilDiv_eq_add_pred_div]

/-! ### Waves -/

/-- How long a wave takes whose steps start from the rows on a board. -/
def waveTime (c : Context) (base : List Value) (b : Board) (wave : List Step) : Nat :=
  (b.requests base c.settings.batchSize wave).length ⌈/⌉ c.settings.parallelism * c.source.latency

theorem waveTime_eq {tables : Tables} {latency : Nat} (hc : c.source = tables.source latency)
    (wave : List Step) : c.waveTime base b wave =
      (b.requests base c.settings.batchSize wave).length ⌈/⌉ c.settings.parallelism * latency := by
  rw [waveTime, hc]
  rfl

/-- The waves so far hold steps that have run. -/
theorem After.mem_of_mem (h : c.After base p waves t b) (hschema : c.schema.Registered)
    (hp : Orderly c.schema p.model p.steps) {wave : List Step} (hw : wave ∈ waves) :
    ∀ s ∈ wave, s ∈ b.steps ∧ s.depth ≤ b.stats.waves := by
  obtain ⟨hcount, hwaves⟩ := h.waves_eq hschema hp
  rw [hwaves] at hw
  obtain ⟨n, hn, rfl⟩ := List.mem_map.1 hw
  have hlt := List.mem_range.1 hn
  intro s hs
  obtain ⟨hmem, hdepth⟩ := mem_level.1 hs
  exact ⟨hmem, by omega⟩

/-- A run has taken as long as its waves, and has sent what its steps have asked for. -/
theorem After.traffic (h : c.After base p waves t b) (hschema : c.schema.Registered)
    (hp : Orderly c.schema p.model p.steps)
    (hlatency : c.source.latency ≤ c.settings.queryTimeout) :
    t.time = (waves.map (c.waveTime base b)).sum ∧
      t.issued.map Issued.asked =
        (b.asked base c.settings.batchSize).map fun r => (r.query, c.scope) := by
  induction h with
  | start => exact ⟨rfl, rfl⟩
  | @wave waves t t' b b' before ready run ih =>
    obtain ⟨htime, hasked⟩ := ih
    have hlevelled := before.reaches.levelled hschema hp
    obtain ⟨replies, more, hf, -, -, -⟩ := runWave_eq_ok run
    obtain ⟨hlast, hsent⟩ := traffic_of_fetch hlatency hf
    -- what the waves have asked for is on the new board as it was on the old one
    have hsame : ∀ wave, (∀ s ∈ wave, s ∈ b.steps ∧ s.depth ≤ b.stats.waves + 1) →
        c.waveTime base b' wave = c.waveTime base b wave := by
      intro wave hw
      rw [waveTime, waveTime, requests_runWave hlevelled run hw]
    have hready : ∀ s ∈ b.ready, s ∈ b.steps ∧ s.depth ≤ b.stats.waves + 1 := by
      intro s hs
      have hmem := mem_steps_of_mem_ready hs
      exact ⟨hmem, ((hlevelled.mem_ready_iff hmem).1 hs).le⟩
    have hearlier : waves.map (c.waveTime base b') = waves.map (c.waveTime base b) := by
      refine List.map_congr_left fun wave hw => hsame wave fun s hs => ?_
      obtain ⟨hmem, hdepth⟩ := before.mem_of_mem hschema hp hw s hs
      exact ⟨hmem, by omega⟩
    refine ⟨?_, ?_⟩
    · rw [hlast, htime, List.map_append, List.sum_append, hearlier, List.map_singleton,
        List.sum_singleton, hsame b.ready hready, waveTime]
    · rw [hsent, hasked, asked_runWave hlevelled run, List.map_append]

/-! ### Another pace -/

/-- The context with another number of queries side by side, and another time limit for a load. -/
def paced (c : Context) (parallel : Bool) (most : Nat) (limit : Option Nat) : Context :=
  { c with settings := c.settings.paced parallel most limit }

section Paced

variable {tables : Tables} {latency : Nat} {parallel : Bool} {most : Nat} {limit : Option Nat}

theorem settleWave_paced (wave : List Step) :
    (c.paced parallel most limit).settleWave base b wave replies =
      c.settleWave base b wave replies := by
  have hgrow : ∀ index steps,
      (c.paced parallel most limit).growAll index steps = c.growAll index steps :=
    growAll_congr fun _ _ => rfl
  rw [settleWave, settleWave]
  simp only [hgrow]

theorem runWave_paced (hc : c.source = tables.source latency)
    (hlatency : latency ≤ c.settings.queryTimeout) (t t' : Traffic) (wave : List Step) :
    ((c.paced parallel most limit).runWave base t' b wave).2 = (c.runWave base t b wave).2 := by
  have hc' : (c.paced parallel most limit).source = tables.source latency := hc
  rw [runWave_source hc hlatency, runWave_source hc' hlatency]
  simp only [settleWave_paced]
  rfl

/-- Waves over tables lead to the same board at any pace. -/
theorem runWaves_paced (hc : c.source = tables.source latency)
    (hlatency : latency ≤ c.settings.queryTimeout) (n : Nat) (t t' : Traffic) :
    ((c.paced parallel most limit).runWaves base n t' b).2 = (c.runWaves base n t b).2 := by
  induction n generalizing t t' b with
  | zero => rfl
  | succ n ih =>
    rw [runWaves, runWaves]
    split
    · rfl
    · have hwave : ((c.paced parallel most limit).runWave base t' b b.ready).2 = _ :=
        runWave_paced hc hlatency t t' b.ready
      rcases hx : c.runWave base t b b.ready with ⟨t₁, r⟩
      rcases hy : (c.paced parallel most limit).runWave base t' b b.ready with ⟨t₁', r'⟩
      rw [hx, hy] at hwave
      obtain rfl : r' = r := hwave
      cases r' with
      | error e => rfl
      | ok b₁ => exact ih t₁ t₁'

/-- A wave takes the less time the more may be sent at once. -/
theorem waveTime_paced_le
    (h : c.settings.parallelism ≤ (c.settings.paced parallel most limit).parallelism)
    (wave : List Step) :
    (c.paced parallel most limit).waveTime base b wave ≤ c.waveTime base b wave :=
  Nat.mul_le_mul_right _ (ceilDiv_le_ceilDiv_of_le c.settings.parallelism_pos h _)

end Paced

/-- A run over tables that succeeds comes to one board at any pace, with the same waves; so it ends
in the same way and sends the same queries, and it takes the time of the waves at its pace. -/
theorem execute_paced {tables : Tables} {latency : Nat} {result : List Value × Stats}
    (hschema : c.schema.Registered) (hp : Orderly c.schema p.model p.steps)
    (hc : c.source = tables.source latency) (hlatency : latency ≤ c.settings.queryTimeout)
    (hrun : (c.execute base p).outcome = .ok result) :
    ∃ waves t b, c.After base p waves t b ∧ b.ready = [] ∧ conclude base b = .ok result ∧
      ∀ parallel most limit,
        ((c.paced parallel most limit).execute base p).outcome = .ok result ∧
          ((c.paced parallel most limit).execute base p).issued.map Issued.asked =
            (b.asked base c.settings.batchSize).map (fun r => (r.query, c.scope)) ∧
          ((c.paced parallel most limit).execute base p).time =
            (waves.map ((c.paced parallel most limit).waveTime base b)).sum := by
  obtain ⟨t, b, hbase, hwaves, hreaches, hend⟩ := exists_runWaves_of_execute hrun
  obtain ⟨waves, hafter⟩ := hreaches.exists_after
  have hready := ready_of_runWaves hschema (levelled_ofPlan hp) (Nat.le_add_left _ _) hwaves
  refine ⟨waves, t, b, hafter, hready, hend, fun parallel most limit => ?_⟩
  have hlatency' : c.source.latency ≤ c.settings.queryTimeout := by
    rw [hc]
    exact hlatency
  have hboard : ((c.paced parallel most limit).runWaves base (c.waveBound p) {} (ofPlan p)).2 = _ :=
    runWaves_paced hc hlatency (c.waveBound p) {} {}
  rw [hwaves] at hboard
  have begun : (c.paced parallel most limit).Reaches base p {} (ofPlan p) := .start
  obtain ⟨t', b', hwaves', hreaches'⟩ | ⟨_, _, t', e, hwaves', -, -⟩ :=
    begun.runWaves (c.waveBound p)
  · rw [hwaves'] at hboard
    obtain rfl : b' = b := Except.ok.inj hboard
    obtain ⟨waves', hafter'⟩ := hreaches'.exists_after
    have hsame : waves' = waves := by
      obtain ⟨hcount, hlevels⟩ := hafter.waves_eq hschema hp
      obtain ⟨hcount', hlevels'⟩ := hafter'.waves_eq hschema hp
      rw [hlevels, hlevels', ← hcount, ← hcount']
    subst hsame
    obtain ⟨htime, hasked⟩ := hafter'.traffic hschema hp hlatency'
    have hexecute := execute_of_runWaves hbase hwaves'
    rw [hexecute]
    exact ⟨hend, hasked, htime⟩
  · rw [hwaves'] at hboard
    cases hboard

end Context

/-! ### Loads -/

namespace Loader

/-- The loader with another number of queries side by side, and another time limit for a load. -/
def paced (l : Loader) (parallel : Bool) (most : Nat) (limit : Option Nat) : Loader :=
  { l with settings := l.settings.paced parallel most limit }

/-- The loader with another number of queries side by side. -/
def sideBySide (l : Loader) (parallel : Bool) (most : Nat) : Loader :=
  l.paced parallel most l.settings.loadTimeout

/-- The loader with a time limit for a load. -/
def limited (l : Loader) (limit : Nat) : Loader :=
  l.paced l.settings.parallel l.settings.maxQueries (some limit)

variable {l : Loader} {past : List Issued} {model : String} {r : LoadRequest}
  {scope : Option String} {base rows : List Value} {stats : Stats} {tables : Tables}
  {latency : Nat}

/-- At any pace, and under any time limit, a load over tables that succeeds is a run with one
outcome and the same queries.  It takes the time of the waves, and within its own limit the load has
ended. -/
theorem loadRequest_paced (hschema : l.schema.Registered)
    (hsource : l.source = tables.source latency) (hlatency : latency ≤ l.settings.queryTimeout)
    (h : (l.loadRequest past model r scope base).outcome = .ok (rows, stats)) :
    ∃ p waves t b, Plan.ofSelection l.schema l.settings model r.selection r.allowed = .ok p ∧
      (l.context past scope).After base p waves t b ∧ b.ready = [] ∧
      (∀ most ∈ l.settings.loadTimeout,
        (waves.map ((l.context past scope).waveTime base b)).sum ≤ most) ∧
      ∀ parallel most limit, ∃ run : Run,
        (l.paced parallel most limit).loadRequest past model r scope base =
          run.within limit r.selection.text ∧ run.outcome = .ok (rows, stats) ∧
        run.issued.map Issued.asked =
          (l.loadRequest past model r scope base).issued.map Issued.asked ∧
        run.time =
          (waves.map (((l.context past scope).paced parallel most limit).waveTime base b)).sum := by
  obtain ⟨herror, p, hplan, hload⟩ := loadRequest_eq_ok h
  have hp := Plan.orderly_of_ofSelection hschema hplan
  -- the load is the run of its plan, which its limit leaves alone
  rw [hload] at h
  have hintime := Run.time_le_of_within h
  rw [Run.within_eq_self h] at h
  rw [hload, Run.within_of_forall_le hintime]
  obtain ⟨waves, t, b, hafter, hready, -, hpaced⟩ :=
    Context.execute_paced (c := l.context past scope) hschema hp hsource hlatency h
  have hown : (l.context past scope).paced l.settings.parallel l.settings.maxQueries
      l.settings.loadTimeout = l.context past scope := rfl
  obtain ⟨-, hasked, htime⟩ := hpaced l.settings.parallel l.settings.maxQueries
    l.settings.loadTimeout
  rw [hown] at hasked htime
  refine ⟨p, waves, t, b, hplan, hafter, hready, htime ▸ hintime, fun parallel most limit => ?_⟩
  obtain ⟨houtcome', hasked', htime'⟩ := hpaced parallel most limit
  exact ⟨((l.context past scope).paced parallel most limit).execute base p,
    loadRequest_of_plan (l := l.paced parallel most limit) herror hplan past base, houtcome',
    hasked'.trans hasked.symm, htime'⟩

/-- A load over tables that answer in time.  With as many queries side by side, or more, it gives
the same rows and counts and sends the same queries in the same order.  If it has no time limit, then
a limit changes nothing when all rounds fit into it, where a wave takes one round for so many queries
as run side by side; and otherwise the load fails with the text of what it was to load. -/
theorem loadRequest_sideBySide (hschema : l.schema.Registered)
    (hsource : l.source = tables.source latency) (hlatency : latency ≤ l.settings.queryTimeout)
    (h : (l.loadRequest past model r scope base).outcome = .ok (rows, stats)) :
    (∀ parallel most, l.settings.parallelism ≤ (l.sideBySide parallel most).settings.parallelism →
      ((l.sideBySide parallel most).loadRequest past model r scope base).outcome =
          .ok (rows, stats) ∧
        ((l.sideBySide parallel most).loadRequest past model r scope base).issued.map
            Issued.asked =
          (l.loadRequest past model r scope base).issued.map Issued.asked) ∧
    (l.settings.loadTimeout = none → ∃ p waves t b,
      Plan.ofSelection l.schema l.settings model r.selection r.allowed = .ok p ∧
      (l.context past scope).After base p waves t b ∧ b.ready = [] ∧ ∀ limit,
        ((waves.map fun wave => (b.requests base l.settings.batchSize wave).length ⌈/⌉
            l.settings.parallelism * latency).sum ≤ limit →
          ((l.limited limit).loadRequest past model r scope base).outcome = .ok (rows, stats) ∧
            ((l.limited limit).loadRequest past model r scope base).issued.map Issued.asked =
              (l.loadRequest past model r scope base).issued.map Issued.asked) ∧
        (limit < (waves.map fun wave => (b.requests base l.settings.batchSize wave).length ⌈/⌉
            l.settings.parallelism * latency).sum →
          ((l.limited limit).loadRequest past model r scope base).outcome =
            .error (.timeout r.selection.text limit))) := by
  obtain ⟨p, waves, t, b, hplan, hafter, hready, hintime, hpaced⟩ :=
    loadRequest_paced hschema hsource hlatency h
  refine ⟨fun parallel most hmore => ?_, fun _ => ⟨p, waves, t, b, hplan, hafter, hready,
    fun limit => ?_⟩⟩
  · obtain ⟨run, hload, houtcome, hasked, htime⟩ :=
      hpaced parallel most l.settings.loadTimeout
    have hle : run.time ≤ (waves.map ((l.context past scope).waveTime base b)).sum := by
      rw [htime]
      exact List.sum_le_sum fun wave _ => Context.waveTime_paced_le hmore wave
    rw [sideBySide, hload, Run.within_of_forall_le fun limit hl => hle.trans (hintime limit hl)]
    exact ⟨houtcome, hasked⟩
  · obtain ⟨run, hload, houtcome, hasked, htime⟩ :=
      hpaced l.settings.parallel l.settings.maxQueries (some limit)
    have hrounds : (waves.map fun wave => (b.requests base l.settings.batchSize wave).length ⌈/⌉
        l.settings.parallelism * latency).sum = run.time := by
      rw [htime]
      exact congrArg List.sum (List.map_congr_left fun wave _ =>
        (Context.waveTime_eq (c := (l.context past scope).paced _ _ _) hsource wave).symm)
    rw [hrounds, limited, hload]
    refine ⟨fun hfits => ?_, fun hlate => ?_⟩
    · rw [Run.within_of_le hfits]
      exact ⟨houtcome, hasked⟩
    · rw [Run.within, if_neg (Nat.not_le.2 hlate)]

/-- Three users, a query for each of them and five units of time for an answer: one after the other
the queries take fifteen units, so that fourteen are too few. -/
theorem loadRequest_sideBySide_posts :
    let posts : Association := ⟨.oneToMany, "post", "posts", "id", "user_id", none⟩
    let schema : Schema := ⟨[⟨"user", "posts", posts⟩]⟩
    let post : Value := .object [("user_id", .string "3")]
    let tables : Tables := { rows := [("posts", [post])] }
    let l : Loader := ⟨schema, { batchSize := some 1, parallel := false }, tables.source 5⟩
    let r : LoadRequest := { selection := { children := [Selection.named "posts"] } }
    let user (id : String) : Value := .object [("id", .string id)]
    let base : List Value := [user "1", user "2", user "3"]
    let loaded (id : String) (posts : List Value) : Value :=
      .object [("id", .string id), ("posts", .array posts)]
    let rows : List Value := [loaded "1" [], loaded "2" [], loaded "3" [post]]
    let stats : Stats := ⟨3, 1, 1, 0, 1, 1⟩
    schema.Registered ∧ 5 ≤ l.settings.queryTimeout ∧ l.settings.parallelism = 1 ∧
      (l.sideBySide true 2).settings.parallelism = 2 ∧
      ((l.limited 14).loadRequest [] "user" r none base).outcome = .error (.timeout "posts" 14) ∧
      (l.loadRequest [] "user" r none base).outcome = .ok (rows, stats) ∧
      ((l.sideBySide true 2).loadRequest [] "user" r none base).outcome = .ok (rows, stats) ∧
      ((l.limited 15).loadRequest [] "user" r none base).outcome = .ok (rows, stats) ∧
      ∃ p waves t b, (l.context [] none).After base p waves t b ∧ b.ready = [] ∧
        (waves.map fun wave => (b.requests base (some 1) wave).length ⌈/⌉ 1 * 5).sum = 15 := by
  intro posts schema post tables l r user base loaded rows stats
  have hposts : Schema.empty.register "user" "posts" posts = .ok schema := by decide +kernel
  have hschema : schema.Registered := .register .empty hposts
  have hplan : ∀ limit, Plan.ofSelection schema { l.settings with loadTimeout := limit } "user"
      r.selection none = .ok ⟨"user", [⟨0, none, ["posts"], "user", posts, 1, .none⟩]⟩ := by
    intro limit
    rfl
  have hload : (l.loadRequest [] "user" r none base).outcome = .ok (rows, stats) := by
    rw [loadRequest_of_plan rfl (hplan none)]
    cbv
  have hlate : ((l.limited 14).loadRequest [] "user" r none base).outcome =
      .error (.timeout "posts" 14) := by
    rw [loadRequest_of_plan rfl (hplan (some 14))]
    cbv
  have hlatency : 5 ≤ l.settings.queryTimeout := by decide
  obtain ⟨hmore, htime⟩ := loadRequest_sideBySide (l := l) hschema rfl hlatency hload
  obtain ⟨p, waves, t, b, -, hafter, hready, hlimit⟩ := htime rfl
  -- fourteen units are too few and fifteen are enough, so the waves take fifteen
  have hfits : ((l.limited 15).loadRequest [] "user" r none base).outcome = .ok (rows, stats) := by
    rw [loadRequest_of_plan rfl (hplan (some 15))]
    cbv
  have hsum :
      (waves.map fun wave => (b.requests base (some 1) wave).length ⌈/⌉ 1 * 5).sum = 15 := by
    refine Nat.le_antisymm (Nat.not_lt.1 fun hgt => ?_) (Nat.not_lt.1 fun hlt => ?_)
    · have herror := (hlimit 15).2 hgt
      rw [hfits] at herror
      cases herror
    · have hok := ((hlimit 14).1 (Nat.le_of_lt_succ hlt)).1
      rw [hlate] at hok
      cases hok
  exact ⟨hschema, hlatency, rfl, rfl, hlate, hload, (hmore true 2 (by decide)).1,
    hfits, p, waves, t, b, hafter, hready, hsum⟩

end Loader

end Prefetch

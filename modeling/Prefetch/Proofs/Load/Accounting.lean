import Mathlib.Algebra.GroupWithZero.Nat
import Prefetch.Proofs.Load.Queries
import Prefetch.Proofs.Selection.Positions

/-!
# Accounting — what the statistics of a run say

The counters are kept wave by wave: queries and rows as the replies come in, steps as they run, and
among them those that had no key to ask for.  On every board of a run they are readings of the board
and of the queries so far.  When no step is ready any more all steps have run, so the counters of
steps speak of all of them, and the last wave is the deepest level.

* `Accounted` — the counters as readings of a board.
* `accounted_runWave` — a wave keeps the account.
* `asks_iff` — a step asks for something when it has run and its owners have a key.
* `rows_eq_nil_of_below` — nothing comes below a step without rows.
* `execute_stats` — the statistics of a run that succeeds.
-/

namespace Prefetch

/-! ### Counting level by level -/

/-- The steps down to a level, and those of the next one. -/
theorem countP_depth_succ (steps : List Step) (pick : Step → Bool) (n : Nat) :
    steps.countP (fun s => decide (s.depth ≤ n + 1) && pick s) =
      steps.countP (fun s => decide (s.depth ≤ n) && pick s) +
        (steps.filter fun s => s.depth == n + 1).countP pick := by
  induction steps with
  | nil => rfl
  | cons s steps ih =>
    rw [List.countP_cons, List.countP_cons, List.filter_cons, ih]
    rcases Nat.lt_trichotomy s.depth (n + 1) with hlt | heq | hgt
    · simp [show s.depth ≤ n by omega, show s.depth ≤ n + 1 by omega, show s.depth ≠ n + 1 by omega]
      omega
    · simp [heq, show ¬ n + 1 ≤ n by omega, List.countP_cons]
      omega
    · simp [show ¬ s.depth ≤ n by omega, show ¬ s.depth ≤ n + 1 by omega,
        show s.depth ≠ n + 1 by omega]

theorem foldl_max_eq {α : Type} (f : α → Nat) (xs : List α) (most : Nat) :
    xs.foldl (fun most x => max most (f x)) most = most ∨
      ∃ x ∈ xs, f x = xs.foldl (fun most x => max most (f x)) most := by
  induction xs generalizing most with
  | nil => exact .inl rfl
  | cons x xs ih =>
    rw [List.foldl_cons]
    rcases ih (max most (f x)) with h | ⟨y, hy, h⟩
    · rw [h]
      rcases Nat.le_total most (f x) with hle | hle
      · exact .inr ⟨x, List.mem_cons_self, (Nat.max_eq_right hle).symm⟩
      · exact .inl (Nat.max_eq_left hle)
    · exact .inr ⟨y, List.mem_cons_of_mem x hy, h⟩

namespace Context

open Board

variable {c : Context} {p : Plan} {base : List Value} {t t' : Traffic} {b b' : Board}
  {replies : List Reply}

theorem Exchanges.length_eq {before sent : List Issued} {rs : List Request}
    (h : c.Exchanges before rs sent replies) : sent.length = replies.length := by
  have hqueries := congrArg List.length h.queries
  have hsteps := congrArg List.length h.steps
  simp only [List.length_map] at hqueries hsteps
  omega

/-- The rows of the replies are what the source has answered. -/
theorem Exchanges.rows_eq {before sent : List Issued} {rs : List Request}
    {answers : List (List Value)} (h : c.Exchanges before rs sent replies)
    (hanswers : c.source.answers before sent = answers.map .ok) :
    replies.map (·.rows) = answers := by
  have hok : Function.Injective (Except.ok : List Value → Except Source.Fault (List Value)) :=
    fun _ _ => Except.ok.inj
  refine List.map_injective_iff.2 hok ?_
  rw [List.map_map, ← hanswers, h.answers]
  rfl

/-! ### Waves -/

/-- What a wave adds to the statistics. -/
theorem stats_runWave {wave : List Step}
    (hf : c.fetch t (b.requests base c.settings.batchSize wave) = (t', .ok replies))
    (run : c.runWave base t b wave = (t', .ok b')) :
    b'.stats = b.stats.afterWave wave (wave.filter (hasRows (b.store wave replies)))
      (wave.filter fun s => (b.keys base s).isEmpty) replies := by
  rw [runWave, hf] at run
  obtain ⟨-, hs⟩ := Prod.mk.inj run
  unfold settleWave at hs
  simp only at hs
  split at hs
  · cases hs
  · rw [← Except.ok.inj hs]

/-- The counters, read off the board and the queries so far. -/
structure Accounted (c : Context) (base : List Value) (t : Traffic) (b : Board) : Prop where
  queries : b.stats.queries = t.issued.length
  records : ∀ answers : List (List Value),
    c.source.answers c.past t.issued = answers.map .ok →
      b.stats.records = (answers.map List.length).sum
  ran : b.stats.ran = b.steps.countP fun s => decide (s.depth ≤ b.stats.waves)
  skipped : b.stats.skipped =
    b.steps.countP fun s => decide (s.depth ≤ b.stats.waves) && (b.keys base s).isEmpty
  fruitful : (∀ s, b.Yields s → s.depth ≤ b.stats.depth) ∧
    (b.stats.depth = 0 ∨ ∃ s, b.Yields s ∧ s.depth = b.stats.depth)
  lowest : b.stats.waves = 0 ∨ ∃ s ∈ b.steps, s.depth = b.stats.waves

theorem accounted_ofPlan (hp : Orderly c.schema p.model p.steps) :
    c.Accounted base {} (Board.ofPlan p) := by
  have hnone : ∀ s ∈ (Board.ofPlan p).steps, ¬ s.depth ≤ (Board.ofPlan p).stats.waves := by
    intro s hs
    rw [steps_ofPlan] at hs
    exact Nat.not_le.2 (hp.depth_pos hs)
  refine ⟨rfl, fun answers hanswers => ?_, ?_, ?_, ⟨fun s hs => ?_, .inl rfl⟩, .inl rfl⟩
  · obtain rfl := List.map_eq_nil_iff.1 hanswers.symm
    rfl
  · exact (List.countP_eq_zero.2 fun s hs => by simpa using hnone s hs).symm
  · refine (List.countP_eq_zero.2 fun s hs => ?_).symm
    rw [decide_eq_false (hnone s hs)]
    exact Bool.false_ne_true
  · exact absurd hs (not_yields_ofPlan p s)

/-- A wave adds its own steps to those down to its level; what is new stands below them. -/
theorem countP_runWave (h : b.Levelled c p) (run : c.runWave base t b b.ready = (t', .ok b'))
    (pick : Step → Bool) :
    b'.steps.countP (fun s => decide (s.depth ≤ b'.stats.waves) && pick s) =
      b.steps.countP (fun s => decide (s.depth ≤ b.stats.waves) && pick s) +
        b.ready.countP pick := by
  obtain ⟨more, hsteps, hmore⟩ := steps_runWave run
  have hwaves := (runWave_eq_ok run).choose_spec.choose_spec.2.2.2
  have hnew : more.countP (fun s => decide (s.depth ≤ b.stats.waves + 1) && pick s) = 0 := by
    refine List.countP_eq_zero.2 fun s hs => ?_
    obtain ⟨step, hready, hgrow⟩ := hmore s hs
    have hdepth := (h.mem_ready_iff (mem_steps_of_mem_ready hready)).1 hready
    have := hgrow.depth
    rw [decide_eq_false (by omega)]
    exact Bool.false_ne_true
  rw [hsteps, hwaves, List.countP_append, hnew, Nat.add_zero, countP_depth_succ, h.ready_eq]

/-- The keys of the steps down to the level of a wave do not change with the wave. -/
theorem countP_keys_runWave (h : b.Levelled c p)
    (run : c.runWave base t b b.ready = (t', .ok b')) :
    b'.steps.countP (fun s => decide (s.depth ≤ b'.stats.waves) && (b'.keys base s).isEmpty) =
      b'.steps.countP fun s =>
        decide (s.depth ≤ b'.stats.waves) && (b.keys base s).isEmpty := by
  obtain ⟨more, hsteps, hmore⟩ := steps_runWave run
  have hwaves := (runWave_eq_ok run).choose_spec.choose_spec.2.2.2
  refine List.countP_congr fun s hs => ?_
  rw [Bool.and_eq_true, Bool.and_eq_true, decide_eq_true_iff]
  refine and_congr_right fun hdepth => ?_
  rw [hsteps] at hs
  rcases List.mem_append.1 hs with hs | hs
  · rw [keys, keys, owners_runWave h run hs (by omega)]
  · obtain ⟨step, hready, hgrow⟩ := hmore s hs
    have := (h.mem_ready_iff (mem_steps_of_mem_ready hready)).1 hready
    have := hgrow.depth
    omega

/-- The deepest step with rows, after a wave. -/
theorem fruitful_runWave (before : c.Reaches base p t b) (hschema : c.schema.Registered)
    (hp : Orderly c.schema p.model p.steps)
    (h : (∀ s, b.Yields s → s.depth ≤ b.stats.depth) ∧
      (b.stats.depth = 0 ∨ ∃ s, b.Yields s ∧ s.depth = b.stats.depth))
    (run : c.runWave base t b b.ready = (t', .ok b')) :
    (∀ s, b'.Yields s → s.depth ≤ b'.stats.depth) ∧
      (b'.stats.depth = 0 ∨ ∃ s, b'.Yields s ∧ s.depth = b'.stats.depth) := by
  obtain ⟨hmost, hsome⟩ := h
  obtain ⟨replies, more, hf, -, hslots, -⟩ := runWave_eq_ok run
  have hyields := fun s => yields_runWave (s := s) before hschema hp hf hslots
  have hdepth : b'.stats.depth = (b.ready.filter (hasRows (b.store b.ready replies))).foldl
      (fun most step => max most step.depth) b.stats.depth := by
    rw [stats_runWave hf run]
    rfl
  obtain ⟨hold, hwave⟩ := le_foldl_max (fun s : Step => s.depth)
    (b.ready.filter (hasRows (b.store b.ready replies))) b.stats.depth
  rw [hdepth]
  refine ⟨fun s hs => ?_, ?_⟩
  · rcases (hyields s).1 hs with hs | hs
    · exact Nat.le_trans (hmost s hs) hold
    · exact hwave s hs
  · rcases foldl_max_eq (fun s : Step => s.depth)
      (b.ready.filter (hasRows (b.store b.ready replies))) b.stats.depth with hsame | ⟨s, hs, he⟩
    · rw [hsame]
      exact hsome.imp_right fun ⟨s, hs, he⟩ => ⟨s, (hyields s).2 (.inl hs), he⟩
    · exact .inr ⟨s, (hyields s).2 (.inr hs), he⟩

/-- A wave keeps the account. -/
theorem accounted_runWave (before : c.Reaches base p t b) (hschema : c.schema.Registered)
    (hp : Orderly c.schema p.model p.steps) (h : c.Accounted base t b) (hready : b.ready ≠ [])
    (run : c.runWave base t b b.ready = (t', .ok b')) : c.Accounted base t' b' := by
  have hlevelled := before.levelled hschema hp
  obtain ⟨replies, more, hf, -, hslots, hwaves⟩ := runWave_eq_ok run
  have hstats := stats_runWave hf run
  have hcount := countP_runWave hlevelled run
  obtain ⟨sent, hissued, hex⟩ := exists_exchanges_of_fetch hf
  refine ⟨?_, fun answers hanswers => ?_, ?_, ?_,
    fruitful_runWave before hschema hp h.fruitful run, .inr ?_⟩
  · rw [hstats, hissued, List.length_append, hex.length_eq, ← h.queries]
    rfl
  · rw [hissued, Source.answers_append] at hanswers
    obtain ⟨front, back, rfl, hfront, hback⟩ := List.map_eq_append_iff.1 hanswers.symm
    rw [hstats, List.map_append, List.sum_append, ← h.records front hfront.symm,
      ← hex.rows_eq hback.symm, List.map_map, Stats.afterWave, List.length_flatMap]
    rfl
  · have hran := hcount fun _ => true
    simp only [Bool.and_true, List.countP_true, ← h.ran] at hran
    rw [hran, hstats]
    rfl
  · rw [countP_keys_runWave hlevelled run, hcount, ← h.skipped, hstats, List.countP_eq_length_filter]
    rfl
  · obtain ⟨s, hs⟩ := List.exists_mem_of_ne_nil _ hready
    have hmem := mem_steps_of_mem_ready hs
    refine ⟨s, ?_, by rw [(hlevelled.mem_ready_iff hmem).1 hs, hwaves]⟩
    rw [steps_store hslots]
    exact List.mem_append_left more hmem

/-- The counters of every board of a run are its readings. -/
theorem Reaches.accounted (h : c.Reaches base p t b) (hschema : c.schema.Registered)
    (hp : Orderly c.schema p.model p.steps) : c.Accounted base t b := by
  induction h with
  | start => exact accounted_ofPlan hp
  | wave before ready run ih => exact accounted_runWave before hschema hp ih ready run

end Context

/-! ### Steps that ask for nothing -/

namespace Board

/-- Whether a query was sent for a step. -/
def asks (b : Board) (base : List Value) (size : Option Nat) (s : Step) : Bool :=
  (b.asked base size).any fun r => r.step == s.index

/-- A step hangs on another. -/
def Below (b : Board) (s up : Step) : Prop :=
  s ∈ b.steps ∧ up ∈ b.steps ∧ s.parent = some up.index

variable {c : Context} {p : Plan} {b : Board} {base : List Value} {size : Option Nat} {s up : Step}

theorem requestsOf_eq_nil_iff : b.requestsOf base size s = [] ↔ b.keys base s = [] := by
  have hbatched := batched_batches size (b.keys base s)
  rw [requestsOf, List.map_eq_nil_iff]
  refine ⟨fun h => ?_, hbatched.idle⟩
  rw [← hbatched.flatten, h, List.flatten_nil]

/-- A step asks for something when it has run and the rows it starts from have a key. -/
theorem asks_iff (h : b.Levelled c p) (hs : s ∈ b.steps) :
    b.asks base size s = true ↔ s.depth ≤ b.stats.waves ∧ b.keys base s ≠ [] := by
  rw [ne_eq, ← show b.requestsOf base size s = [] ↔ _ from requestsOf_eq_nil_iff, asks,
    List.any_eq_true]
  constructor
  · rintro ⟨r, hr, hindex⟩
    obtain ⟨n, hn, hr⟩ := List.mem_flatMap.1 hr
    obtain ⟨step, hlevel, hr⟩ := List.mem_flatMap.1 hr
    obtain ⟨hmem, hdepth⟩ := mem_level.1 hlevel
    have hstep : r.step = step.index := by
      obtain ⟨keys, -, rfl⟩ := List.mem_map.1 hr
      rfl
    obtain rfl : step = s := h.orderly.eq_of_index hmem hs (hstep ▸ beq_iff_eq.1 hindex)
    have := List.mem_range.1 hn
    exact ⟨by omega, List.ne_nil_of_mem hr⟩
  · rintro ⟨hdepth, hne⟩
    obtain ⟨r, hr⟩ := List.exists_mem_of_ne_nil _ hne
    have hpos := h.orderly.depth_pos hs
    refine ⟨r, List.mem_flatMap.2 ⟨s.depth - 1, List.mem_range.2 (by omega),
      List.mem_flatMap.2 ⟨s, mem_level.2 ⟨hs, by omega⟩, hr⟩⟩, ?_⟩
    obtain ⟨keys, -, rfl⟩ := List.mem_map.1 hr
    exact beq_self_eq_true s.index

/-- Nothing is asked for directly below a step without rows, and so nothing comes there. -/
theorem Below.rows_eq_nil (hb : b.Below s up) (h : b.Levelled c p) {before sent : List Issued}
    {replies : List Reply} (hex : c.Exchanges before (b.asked base size) sent replies)
    (hrows : ∀ slot ∈ b.slots, slot.rows = rowsFor replies slot.step.index)
    (hup : rowsFor replies up.index = []) :
    b.asks base size s = false ∧ rowsFor replies s.index = [] := by
  obtain ⟨hs, hupmem, hparent⟩ := hb
  obtain ⟨slot, hslot, rfl⟩ := h.exists_slot hupmem
  have hkeys : b.keys base s = [] := by
    rw [keys, owners, hparent]
    simp only [hslot, hrows slot (List.mem_of_getElem? hslot), hup]
    rfl
  have hasks : b.asks base size s = false := by
    rw [← Bool.not_eq_true, asks_iff h hs]
    exact fun hasks => hasks.2 hkeys
  refine ⟨hasks, rowsFor_eq_nil fun r hr he => ?_⟩
  obtain ⟨request, hrequest, hstep⟩ := hex.exists_request hr
  rw [asks, List.any_eq_false] at hasks
  exact hasks request hrequest (beq_iff_eq.2 (hstep.trans he))

/-- Nothing is asked for anywhere below a step without rows. -/
theorem asks_eq_false_of_below (hb : Relation.TransGen b.Below s up) (h : b.Levelled c p)
    {before sent : List Issued} {replies : List Reply}
    (hex : c.Exchanges before (b.asked base size) sent replies)
    (hrows : ∀ slot ∈ b.slots, slot.rows = rowsFor replies slot.step.index)
    (hup : rowsFor replies up.index = []) : b.asks base size s = false := by
  induction hb with
  | single hb => exact (hb.rows_eq_nil h hex hrows hup).1
  | tail _ hb ih => exact ih (hb.rows_eq_nil h hex hrows hup).2

end Board

/-! ### Runs -/

/-- What statistics say of the steps of a board, of the queries that were issued for them and of the
replies. -/
structure Stats.Account (stats : Stats) (b : Board) (base : List Value) (size : Option Nat)
    (issued : List Issued) (replies : List Reply) : Prop where
  queries : stats.queries = issued.length
  records : stats.records = (replies.map fun r => r.rows.length).sum
  ran : stats.ran = b.steps.length
  /-- Every step that has run was skipped or has sent a query. -/
  skipped : stats.ran = stats.skipped + b.steps.countP (b.asks base size)
  waves : stats.waves = (b.steps.map (·.depth)).max?.getD 0
  depth : stats.depth =
    ((b.steps.filter fun s => !(Board.rowsFor replies s.index).isEmpty).map (·.depth)).max?.getD 0
  /-- A step below a step without rows has sent none. -/
  below : ∀ s up, Relation.TransGen b.Below s up → Board.rowsFor replies up.index = [] →
    b.asks base size s = false

namespace Context

open Board

variable {c : Context} {p : Plan} {base : List Value} {t : Traffic} {b : Board}
  {settings : Settings} {model : String} {s : Selection} {allowed : Option Selection}
  {rows : List Value} {stats : Stats}

/-- The counters of a board on which no step is ready any more. -/
theorem Reaches.account (h : c.Reaches base p t b) (hschema : c.schema.Registered)
    (hp : Orderly c.schema p.model p.steps) (hready : b.ready = []) {replies : List Reply}
    (hex : c.Exchanges c.past (b.asked base c.settings.batchSize) t.issued replies)
    (hrows : ∀ slot ∈ b.slots, slot.rows = rowsFor replies slot.step.index) :
    b.stats.Account b base c.settings.batchSize t.issued replies := by
  have hlevelled := h.levelled hschema hp
  have haccount := h.accounted hschema hp
  have hdone : ∀ s ∈ b.steps, s.depth ≤ b.stats.waves := by
    intro s hs
    obtain ⟨slot, hslot, rfl⟩ := List.mem_map.1 hs
    exact (hlevelled.ran slot hslot).1 (hlevelled.ran_of_ready hready hslot)
  have hran : b.stats.ran = b.steps.length := by
    rw [haccount.ran, List.countP_eq_length]
    exact fun s hs => decide_eq_true (hdone s hs)
  have hskipped : b.stats.skipped =
      b.steps.countP fun s => !b.asks base c.settings.batchSize s := by
    rw [haccount.skipped]
    refine List.countP_congr fun s hs => ?_
    rw [decide_eq_true (hdone s hs), Bool.true_and, List.isEmpty_iff, Bool.not_eq_true',
      ← Bool.not_eq_true, asks_iff hlevelled hs]
    simp [hdone s hs]
  have hyields : ∀ s, b.Yields s ↔ s ∈ b.steps.filter fun s => !(rowsFor replies s.index).isEmpty := by
    intro s
    rw [List.mem_filter, Bool.not_eq_true', List.isEmpty_eq_false_iff]
    constructor
    · rintro ⟨slot, hslot, rfl, hne⟩
      exact ⟨List.mem_map_of_mem hslot, hrows slot hslot ▸ hne⟩
    · rintro ⟨hs, hne⟩
      obtain ⟨slot, hslot, rfl⟩ := List.mem_map.1 hs
      exact ⟨slot, hslot, rfl, (hrows slot hslot).symm ▸ hne⟩
  obtain ⟨hmost, hsome⟩ := haccount.fruitful
  refine ⟨haccount.queries, haccount.records (replies.map (·.rows)) ?_ |>.trans ?_, hran, ?_, ?_, ?_,
    fun s up hb => asks_eq_false_of_below hb hlevelled hex hrows⟩
  · rw [hex.answers, List.map_map]
    rfl
  · rw [List.map_map]
    rfl
  · rw [hran, hskipped, Nat.add_comm]
    simpa using List.length_eq_countP_add_countP (b.asks base c.settings.batchSize)
  · refine eq_max?_getD (fun n hn => ?_) (haccount.lowest.imp_right fun ⟨s, hs, he⟩ => ?_)
    · obtain ⟨s, hs, rfl⟩ := List.mem_map.1 hn
      exact hdone s hs
    · exact he ▸ List.mem_map_of_mem hs
  · refine eq_max?_getD (fun n hn => ?_) (hsome.imp_right fun ⟨s, hs, he⟩ => ?_)
    · obtain ⟨s, hs, rfl⟩ := List.mem_map.1 hn
      exact hmost s ((hyields s).2 hs)
    · exact he ▸ List.mem_map_of_mem ((hyields s).1 hs)

/-- The statistics of a run that succeeds, whatever the source is.  They count the queries that the
source has received and the rows that it has returned; the steps on the last board, each of which was
skipped or has sent a query; and the waves, which go down to the deepest step, and the deepest step
that has returned rows.  Below a step without rows all steps were skipped. -/
theorem execute_stats (hschema : c.schema.Registered)
    (hplan : Plan.ofSelection c.schema settings model s allowed = .ok p)
    (hrun : (c.execute base p).outcome = .ok (rows, stats)) :
    ∃ t b replies, c.Reaches base p t b ∧ b.ready = [] ∧ conclude base b = .ok (rows, stats) ∧
      c.Exchanges c.past (b.asked base c.settings.batchSize) (c.execute base p).issued replies ∧
      stats.Account b base c.settings.batchSize (c.execute base p).issued replies := by
  obtain ⟨-, -, hmodel, -⟩ := Plan.ofSelection_eq_ok hplan
  have hp := (Plan.exists_tasks_of_ofSelection hschema hplan).1
  rw [← hmodel] at hp
  obtain ⟨t, b, hreaches, hready, hissued, hend⟩ := execute_eq_ok hschema hp hrun
  obtain ⟨replies, hex, hrows⟩ := hreaches.exists_replies hschema hp
  obtain ⟨-, -, -, rfl⟩ := conclude_eq_ok hend
  rw [hissued]
  exact ⟨t, b, replies, hreaches, hready, hend, hex,
    hreaches.account hschema hp hready hex hrows⟩

/-- Two users asked for one by one, and one post without a key: nothing is asked for on the two levels
below. -/
theorem execute_stats_skipped :
    let posts : Association := ⟨.oneToMany, "post", "posts", "id", "user_id", none⟩
    let notes : Association := ⟨.oneToMany, "note", "notes", "id", "post_id", none⟩
    let author : Association := ⟨.oneToOne, "user", "users", "user_id", "id", none⟩
    let schema : Schema :=
      ⟨[⟨"user", "posts", posts⟩, ⟨"post", "notes", notes⟩, ⟨"note", "author", author⟩]⟩
    let s : Selection := { children := [{ Selection.named "posts" with
      children := [{ Selection.named "notes" with children := [Selection.named "author"] }] }] }
    let post : Value := .object [("id", .null), ("user_id", .string "1")]
    let c : Context := ⟨schema, { batchSize := some 1 }, .scripted [.ok [post], .ok []], [], none⟩
    let p : Plan := ⟨"user", [⟨0, none, ["posts"], "user", posts, 1, .none⟩,
      ⟨1, some 0, ["posts", "notes"], "post", notes, 2, .none⟩,
      ⟨2, some 1, ["posts", "notes", "author"], "note", author, 3, .none⟩]⟩
    let base : List Value := [.object [("id", .string "1")], .object [("id", .string "2")]]
    schema.Registered ∧ Plan.ofSelection schema {} "user" s none = .ok p ∧
      ∃ rows, (c.execute base p).outcome = .ok (rows, ⟨2, 1, 1, 2, 3, 3⟩) ∧
        ∃ t b replies, c.Reaches base p t b ∧ b.ready = [] ∧
          conclude base b = .ok (rows, ⟨2, 1, 1, 2, 3, 3⟩) ∧
          c.Exchanges c.past (b.asked base c.settings.batchSize) (c.execute base p).issued replies ∧
          Stats.Account ⟨2, 1, 1, 2, 3, 3⟩ b base c.settings.batchSize (c.execute base p).issued
            replies := by
  intro posts notes author schema s post c p base
  have hposts : Schema.empty.register "user" "posts" posts = .ok ⟨[⟨"user", "posts", posts⟩]⟩ := by
    decide +kernel
  have hnotes : Schema.register ⟨[⟨"user", "posts", posts⟩]⟩ "post" "notes" notes =
      .ok ⟨[⟨"user", "posts", posts⟩, ⟨"post", "notes", notes⟩]⟩ := by
    decide +kernel
  have hauthor : Schema.register ⟨[⟨"user", "posts", posts⟩, ⟨"post", "notes", notes⟩]⟩ "note"
      "author" author = .ok schema := by
    decide +kernel
  have hschema : schema.Registered :=
    .register (.register (.register .empty hposts) hnotes) hauthor
  have hplan : Plan.ofSelection schema {} "user" s none = .ok p := by rfl
  have hrun : (c.execute base p).outcome = .ok
      ([.object [("id", .string "1"), ("posts", .array [.object [("id", .null),
          ("user_id", .string "1"), ("notes", .array [])]])],
        .object [("id", .string "2"), ("posts", .array [])]], ⟨2, 1, 1, 2, 3, 3⟩) := by
    cbv
  exact ⟨hschema, hplan, _, hrun, execute_stats (c := c) hschema hplan hrun⟩

end Context

end Prefetch

import Mathlib.Data.List.Basic
import Prefetch.Proofs.Load.Growth
import Prefetch.Source.Scripted

/-!
# BreakingOff — a load ends with the query that fails

Up to a query a run depends only on what was answered before it.  So when the answer to one query
turns into a fault, the run is the same until that query has gone out, and then it is over: whether
the query was the first of a step or one of many, whatever steps were still to come.  Exchanges,
waves and runs are sequences of parts; `BreaksOff` compares two of them, and passes from the parts
to the whole.

* `BreaksOff.andThen` — parts that break off in the same place make a whole that does.
* `breaksOff_round` — a round of one query.
* `execute_failing` — a run, over any source that answers at once.
* `execute_withFault` — a run over answers laid down beforehand.
-/

namespace Prefetch

/-! ### A fault in the place of an answer -/

namespace Source

/-- The source with a fault in the place of one answer, counted from zero over all it receives. -/
def failing (s : Source) (n : Nat) (fault : Fault) : Source :=
  ⟨s.latency, fun before entry => if before.length = n then .error fault else s.answer before entry⟩

/-- Answers with a fault in the place of one of them; where there are too few, answers without rows
lead up to it. -/
def withFault (answers : List (Except Fault (List Value))) (n : Nat) (fault : Fault) :
    List (Except Fault (List Value)) :=
  (answers ++ List.replicate (n + 1 - answers.length) (Except.ok [])).set n (.error fault)

theorem scripted_withFault (answers : List (Except Fault (List Value))) (n : Nat) (fault : Fault) :
    scripted (withFault answers n fault) = (scripted answers).failing n fault := by
  unfold scripted failing withFault
  congr 1
  funext before entry
  have hlength : n < (answers ++ List.replicate (n + 1 - answers.length) (Except.ok [])).length := by
    rw [List.length_append, List.length_replicate]
    omega
  by_cases hn : before.length = n
  · rw [if_pos hn, hn, List.getElem?_set_self hlength, Option.getD_some]
  · rw [if_neg hn, List.getElem?_set_ne (Ne.symm hn)]
    by_cases hin : before.length < answers.length
    · rw [List.getElem?_append_left hin]
    · -- past the end there are no rows, with or without the answers that lead up to the fault
      have hnone : answers[before.length]? = none := List.getElem?_eq_none (Nat.not_lt.1 hin)
      rw [List.getElem?_append_right (Nat.not_lt.1 hin), List.getElem?_replicate]
      simp only [hnone]
      split <;> rfl

end Source

namespace Context

/-! ### Parts of a run -/

/-- What comes of an exchange that goes on after a first part, unless that has failed. -/
def andThen {α β : Type} (r : Traffic × Except Error α)
    (next : Traffic → α → Traffic × Except Error β) : Traffic × Except Error β :=
  match r with
  | (t, .error e) => (t, .error e)
  | (t, .ok x) => next t x

theorem andThen_error {α β : Type} (t : Traffic) (e : Error)
    (next : Traffic → α → Traffic × Except Error β) :
    andThen (t, .error e) next = (t, .error e) := rfl

variable {c : Context} {base : List Value}

theorem rounds_cons (t : Traffic) (rs : List Request) (more : List (List Request)) :
    c.rounds t (rs :: more) =
      andThen (c.round t rs) fun t replies =>
        andThen (c.rounds t more) fun t others => (t, .ok (replies ++ others)) := by
  rw [rounds]
  rcases c.round t rs with ⟨t₁, e | replies⟩
  · rfl
  · simp only [andThen]
    split <;> rename_i hrest <;> rw [hrest]

theorem runWave_eq_andThen (t : Traffic) (b : Board) (wave : List Step) :
    c.runWave base t b wave =
      andThen (c.fetch t (b.requests base c.settings.batchSize wave)) fun t replies =>
        (t, c.settleWave base b wave replies) := by
  rw [runWave]
  rcases c.fetch t (b.requests base c.settings.batchSize wave) with ⟨t₁, e | replies⟩ <;> rfl

theorem runWaves_succ (n : Nat) (t : Traffic) (b : Board) :
    c.runWaves base (n + 1) t b =
      if b.ready.isEmpty then (t, .ok b)
      else andThen (c.runWave base t b b.ready) fun t b => c.runWaves base n t b := by
  rw [runWaves]
  rcases c.runWave base t b b.ready with ⟨t₁, e | b₁⟩ <;> rfl

section Issued

variable {α β : Type}

/-- What has been issued stays issued. -/
theorem issued_andThen {t : Traffic} {r : Traffic × Except Error α}
    {next : Traffic → α → Traffic × Except Error β} (first : t.issued <+: r.1.issued)
    (rest : ∀ t x, t.issued <+: (next t x).1.issued) : t.issued <+: (andThen r next).1.issued := by
  obtain ⟨t', e | x⟩ := r
  · exact first
  · exact first.trans (rest t' x)

theorem issued_rounds (t : Traffic) (rss : List (List Request)) :
    t.issued <+: (c.rounds t rss).1.issued := by
  induction rss generalizing t with
  | nil => exact List.prefix_refl _
  | cons rs rss ih =>
    have hround : t.issued <+: (c.round t rs).1.issued := by
      rw [received_round]
      exact List.prefix_append _ _
    rw [rounds_cons]
    exact issued_andThen hround fun t _ => issued_andThen (ih t) fun _ _ => List.prefix_refl _

theorem issued_runWave (t : Traffic) (b : Board) (wave : List Step) :
    t.issued <+: (c.runWave base t b wave).1.issued := by
  rw [runWave_eq_andThen]
  exact issued_andThen (issued_rounds t _) fun _ _ => List.prefix_refl _

theorem issued_runWaves (n : Nat) (t : Traffic) (b : Board) :
    t.issued <+: (c.runWaves base n t b).1.issued := by
  induction n generalizing t b with
  | zero => exact List.prefix_refl _
  | succ n ih =>
    rw [runWaves_succ]
    split
    · exact List.prefix_refl _
    · exact issued_andThen (issued_runWave t b _) ih

end Issued

/-! ### Breaking off -/

/-- The second exchange is the first one, broken off with a fault at one of its queries, counted
from zero; if it does not come to that query, it is the same. -/
inductive BreaksOff {α : Type} (n : Nat) (fault : Source.Fault) (r r' : Traffic × Except Error α) :
    Prop where
  | before (few : r.1.issued.length ≤ n) (same : r' = r)
  | there (entry : Issued) (nth : r.1.issued[n]? = some entry)
      (issued : r'.1.issued = r.1.issued.take (n + 1))
      (outcome : r'.2 = .error (.queryFailed entry.query.relation fault))

variable {n : Nat} {fault : Source.Fault}

/-- Parts that break off in the same place make a whole that does. -/
theorem BreaksOff.andThen {α β : Type} {r r' : Traffic × Except Error α}
    {next next' : Traffic → α → Traffic × Except Error β} (h : BreaksOff n fault r r')
    (adds : ∀ t x, t.issued <+: (next t x).1.issued)
    (rest : ∀ t x, t.issued.length ≤ n → BreaksOff n fault (next t x) (next' t x)) :
    BreaksOff n fault (Context.andThen r next) (Context.andThen r' next') := by
  cases h with
  | before few same =>
    subst same
    obtain ⟨t, e | x⟩ := r'
    · exact .before few rfl
    · exact rest t x few
  | there entry nth issued outcome =>
    obtain ⟨t', outcome'⟩ := r'
    obtain rfl : outcome' = _ := outcome
    obtain ⟨t, e | x⟩ := r
    · exact .there entry nth issued rfl
    · -- what the first exchange goes on to issue comes after the query that fails
      obtain ⟨more, hmore⟩ := adds t x
      have hn : n < t.issued.length := (List.getElem?_eq_some_iff.1 nth).1
      refine .there entry ?_ ?_ rfl
      · show (next t x).1.issued[n]? = some entry
        rw [← hmore, List.getElem?_append_left hn]
        exact nth
      · show t'.issued = (next t x).1.issued.take (n + 1)
        rw [← hmore, List.take_append_of_le_length hn]
        exact issued

/-- The context over another source. -/
def withSource (c : Context) (source : Source) : Context :=
  { c with source := source }

/-- The context over its own source, which fails at one of the queries that this load issues. -/
def failing (c : Context) (n : Nat) (fault : Source.Fault) : Context :=
  c.withSource (c.source.failing (c.past.length + n) fault)

theorem breaksOff_round (hlatency : c.source.latency = 0) {t : Traffic}
    (ht : t.issued.length ≤ n) (r : Request) :
    BreaksOff n fault (c.round t [r]) ((c.failing n fault).round t [r]) := by
  have hround : ∀ d : Context, d.source.latency = 0 →
      d.round t [r] = (⟨t.issued ++ [⟨r.query, d.scope, t.time⟩], t.time⟩,
        gather [(r, d.source.answer (d.past ++ t.issued) ⟨r.query, d.scope, t.time⟩)]) := by
    intro d hd
    rw [round, if_neg (by omega), hd]
    rfl
  rw [hround c hlatency, hround (c.failing n fault) hlatency]
  have hanswer : (c.failing n fault).source.answer ((c.failing n fault).past ++ t.issued)
      ⟨r.query, c.scope, t.time⟩ = if t.issued.length = n then .error fault
        else c.source.answer (c.past ++ t.issued) ⟨r.query, c.scope, t.time⟩ := by
    simp only [failing, withSource, Source.failing, List.length_append, Nat.add_left_cancel_iff]
  by_cases hn : t.issued.length = n
  · refine .there ⟨r.query, c.scope, t.time⟩ ?_ ?_ ?_
    · rw [← hn, List.getElem?_concat_length]
    · rw [List.take_of_length_le (by simp [hn])]
      rfl
    · simp only [failing, withSource] at hanswer ⊢
      rw [hanswer, if_pos hn]
      rfl
  · refine .before ?_ ?_
    · rw [List.length_append, List.length_singleton]
      omega
    · simp only [failing, withSource] at hanswer ⊢
      rw [hanswer, if_neg hn]

theorem breaksOff_rounds (hlatency : c.source.latency = 0) {t : Traffic}
    (ht : t.issued.length ≤ n) {rss : List (List Request)} (hone : ∀ rs ∈ rss, ∃ r, rs = [r]) :
    BreaksOff n fault (c.rounds t rss) ((c.failing n fault).rounds t rss) := by
  induction rss generalizing t with
  | nil => exact .before ht rfl
  | cons rs rss ih =>
    obtain ⟨r, rfl⟩ := hone rs List.mem_cons_self
    have hrest := fun rs hrs => hone rs (List.mem_cons_of_mem [r] hrs)
    rw [rounds_cons, rounds_cons]
    refine (breaksOff_round hlatency ht r).andThen (fun t _ => ?_) fun t _ ht => ?_
    · exact issued_andThen (issued_rounds t rss) fun _ _ => List.prefix_refl _
    · refine (ih ht hrest).andThen (fun _ _ => List.prefix_refl _) fun t _ ht => ?_
      exact .before ht rfl

theorem breaksOff_fetch (hlatency : c.source.latency = 0) {t : Traffic}
    (ht : t.issued.length ≤ n) (rs : List Request) :
    BreaksOff n fault (c.fetch t rs) ((c.failing n fault).fetch t rs) := by
  have hwidth : c.width = 1 := if_pos hlatency
  have hwidth' : (c.failing n fault).width = 1 := if_pos hlatency
  rw [fetch, fetch, hwidth, hwidth']
  refine breaksOff_rounds hlatency ht fun piece hp => ?_
  have hmost := length_le_of_mem_chunks Nat.one_ne_zero hp
  have hsome : piece ≠ [] := fun he => nil_not_mem_chunks 1 rs (he ▸ hp)
  have hpos := List.length_pos_iff.2 hsome
  exact List.length_eq_one_iff.1 (by omega)

theorem breaksOff_runWave (hlatency : c.source.latency = 0) {t : Traffic}
    (ht : t.issued.length ≤ n) (b : Board) (wave : List Step) :
    BreaksOff n fault (c.runWave base t b wave) ((c.failing n fault).runWave base t b wave) := by
  rw [runWave_eq_andThen, runWave_eq_andThen]
  refine (breaksOff_fetch hlatency ht _).andThen (fun _ _ => List.prefix_refl _) fun t replies ht => ?_
  have hgrow : ∀ index steps, (c.failing n fault).growAll index steps = c.growAll index steps :=
    growAll_congr fun _ _ => rfl
  refine .before ht ?_
  rw [settleWave, settleWave]
  simp only [hgrow]

theorem breaksOff_runWaves (hlatency : c.source.latency = 0) {t : Traffic}
    (ht : t.issued.length ≤ n) (waves : Nat) (b : Board) :
    BreaksOff n fault (c.runWaves base waves t b) ((c.failing n fault).runWaves base waves t b) := by
  induction waves generalizing t b with
  | zero => exact .before ht rfl
  | succ waves ih =>
    rw [runWaves_succ, runWaves_succ]
    split
    · exact .before ht rfl
    · exact (breaksOff_runWave hlatency ht b b.ready).andThen (issued_runWaves waves)
        fun _ b ht => ih ht b

/-! ### Runs -/

variable {p : Plan} {entry : Issued}

theorem issued_execute (hbase : checkBase base = .ok ()) :
    (c.execute base p).issued = (c.runWaves base (c.waveBound p) {} (.ofPlan p)).1.issued := by
  rw [execute, hbase]
  rcases c.runWaves base (c.waveBound p) {} (.ofPlan p) with ⟨t, e | b⟩ <;> rfl

theorem outcome_execute_of_error (hbase : checkBase base = .ok ()) {e : Error}
    (h : (c.runWaves base (c.waveBound p) {} (.ofPlan p)).2 = .error e) :
    (c.execute base p).outcome = .error e := by
  rw [execute, hbase]
  rcases hrun : c.runWaves base (c.waveBound p) {} (.ofPlan p) with ⟨t, r⟩
  rw [hrun] at h
  obtain rfl : r = .error e := h
  rfl

/-- A run over a source that answers at once and fails at one of the queries that the run issues. -/
theorem execute_failing (hlatency : c.source.latency = 0)
    (h : (c.execute base p).issued[n]? = some entry) (fault : Source.Fault) :
    ((c.failing n fault).execute base p).issued = (c.execute base p).issued.take (n + 1) ∧
      ((c.failing n fault).execute base p).outcome =
        .error (.queryFailed entry.query.relation fault) := by
  cases hbase : checkBase base with
  | error e =>
    rw [execute, hbase] at h
    cases h
  | ok _ =>
    have hbreak : BreaksOff n fault (c.runWaves base (c.waveBound p) {} (.ofPlan p))
        ((c.failing n fault).runWaves base ((c.failing n fault).waveBound p) {} (.ofPlan p)) :=
      breaksOff_runWaves hlatency (Nat.zero_le n) (c.waveBound p) (.ofPlan p)
    rw [issued_execute hbase] at h ⊢
    rw [issued_execute hbase]
    cases hbreak with
    | before few =>
      rw [List.getElem?_eq_none few] at h
      cases h
    | there entry' nth issued outcome =>
      obtain rfl : entry' = entry := Option.some.inj (nth.symm.trans h)
      exact ⟨issued, outcome_execute_of_error hbase outcome⟩

/-- A fault in the place of one of the answers laid down for a run ends it there.  It has issued the
queries up to that one, as before, and returns the fault for the relation of that query and no rows.
So it goes with every query of the run, whether the run succeeds or not. -/
theorem execute_withFault (c : Context) (answers : List (Except Source.Fault (List Value)))
    (h : ((c.withSource (.scripted answers)).execute base p).issued[n]? = some entry)
    (fault : Source.Fault) :
    let failed := c.withSource (.scripted (Source.withFault answers (c.past.length + n) fault))
    (failed.execute base p).issued =
        ((c.withSource (.scripted answers)).execute base p).issued.take (n + 1) ∧
      (failed.execute base p).outcome = .error (.queryFailed entry.query.relation fault) := by
  intro failed
  have hfailed : failed = (c.withSource (.scripted answers)).failing n fault := by
    simp only [failed, Source.scripted_withFault]
    rfl
  rw [hfailed]
  exact execute_failing rfl h fault

/-- Two posts and their notes, asked for with one key at a time: when the second query for notes
fails, the tags are not asked for. -/
theorem execute_withFault_notes :
    let posts : Association := ⟨.oneToMany, "post", "posts", "id", "user_id", none⟩
    let notes : Association := ⟨.oneToMany, "note", "notes", "id", "post_id", none⟩
    let tags : Association := ⟨.oneToOne, "tag", "tags", "tag", "id", none⟩
    let schema : Schema :=
      ⟨[⟨"user", "posts", posts⟩, ⟨"post", "notes", notes⟩, ⟨"post", "tags", tags⟩]⟩
    let post (id : String) : Value :=
      .object [("id", .string id), ("user_id", .string "1"), ("tag", .string id)]
    let answers : List (Except Source.Fault (List Value)) := [.ok [post "p", post "q"]]
    let c : Context := ⟨schema, { batchSize := some 1 }, .scripted [], [], none⟩
    let p : Plan := ⟨"user", [⟨0, none, ["posts"], "user", posts, 1, .everything⟩]⟩
    let base : List Value := [.object [("id", .string "1")]]
    let whole := (c.withSource (.scripted answers)).execute base p
    let failed :=
      (c.withSource (.scripted (Source.withFault answers 2 (.other "lost")))).execute base p
    whole.issued.map (·.query.relation) = ["posts", "notes", "notes", "tags", "tags"] ∧
      failed.issued.map (·.query.relation) = ["posts", "notes", "notes"] ∧
      failed.issued = whole.issued.take 3 ∧
      failed.outcome = .error (.queryFailed "notes" (.other "lost")) := by
  intro posts notes tags schema post answers c p base whole failed
  have hwhole :
      ((c.withSource (.scripted answers)).execute base p).issued.map (·.query.relation) =
        ["posts", "notes", "notes", "tags", "tags"] := by
    decide +kernel
  have hthird : (((c.withSource (.scripted answers)).execute base p).issued.map
      (·.query.relation))[2]? = some "notes" := by
    rw [hwhole]
    rfl
  rw [List.getElem?_map] at hthird
  obtain ⟨entry, hentry, hrelation⟩ := Option.map_eq_some_iff.1 hthird
  obtain ⟨hissued, houtcome⟩ := execute_withFault c answers hentry (.other "lost")
  rw [hrelation] at houtcome
  have hrelations := congrArg (List.map (·.query.relation)) hissued
  rw [List.map_take, hwhole] at hrelations
  exact ⟨hwhole, hrelations, hissued, houtcome⟩

end Context

end Prefetch

import Prefetch.Proofs.Load.BreakingOff
import Prefetch.Proofs.Load.StepTable

/-!
# Ending — how many waves a run can take

Steps join a run as long as rows come in, and nothing keeps a source from bringing rows for every
query.  What ends a run are three guards: a bounded recursion ends at its bound, an unbounded one at
the guard on recursion, and a `*` at the guard on depth.  Each of them fixes how far down a planned
step can get with all that is put below it, and a wave runs a whole level; so there are no more waves
than the deepest of these levels.

* `graded_runWave` — after a wave, whatever has not run stands deeper than there were waves.
* `After.length_lt` — a wave that begins is one of the levels that the plan can get to.
* `runWaves_end` — from there on more waves change nothing.
* `waves_le_deepest` — a run ends by itself, after so many waves at most.
-/

namespace Prefetch

namespace Context

/-- The deepest level that a planned step can get to, with all that is put below it. -/
def reach (c : Context) (s : Step) : Nat :=
  match s.growth with
  | .none => s.depth
  | .again (some most) _ => s.depth - 1 + max 1 most
  | .again none _ => s.depth - 1 + max 1 c.settings.maxRecursion
  | .everything => max s.depth c.settings.maxDepth

/-- The deepest level that some step of a plan can get to. -/
def deepest (c : Context) (p : Plan) : Nat :=
  p.steps.foldl (fun most s => max most (c.reach s)) 0

end Context

/-! ### Plans -/

namespace Plan

variable {schema : Schema} {settings : Settings} {model : String} {s : Selection}
  {allowed : Option Selection} {p : Plan}

/-- A planned step stands for the first use of its relation. -/
theorem level_of_ofSelection (h : ofSelection schema settings model s allowed = .ok p) :
    ∀ step ∈ p.steps, ∀ limit level, step.growth = .again limit level → level = 1 := by
  obtain ⟨-, -, -, -, ⟨-, hsteps⟩ | ⟨-, hsteps⟩⟩ := ofSelection_eq_ok h
  · rw [hsteps]
    intro step hs limit level hg
    obtain ⟨i, hi, rfl⟩ := List.mem_mapIdx.1 hs
    cases hg
  · have hresolved : ∀ q step, True → Resolves schema q step →
        (∀ limit level, step.growth = .again limit level → level = 1) ∧
          ∀ r ∈ pendingBelow step q.node, True := by
      intro q step _ hr
      refine ⟨fun limit level hg => ?_, fun _ _ => trivial⟩
      rcases hr.growth with ⟨-, he⟩ | ⟨-, -, he, -⟩ | ⟨-, -, he⟩
      · cases hg.symm.trans he
      · cases hg.symm.trans he
        rfl
      · cases hg.symm.trans he
    exact forall_of_resolveLevels hresolved hsteps fun _ _ => trivial

end Plan

namespace Context

open Board

variable {c : Context} {p : Plan} {base : List Value} {t t' : Traffic} {b b' : Board}

/-- A planned step with the room it has left gets as far down as it can reach. -/
theorem depth_add_room_eq {s : Step} (hpos : 0 < s.depth)
    (hlevel : ∀ limit level, s.growth = .again limit level → level = 1) :
    s.depth + c.room s = c.reach s := by
  unfold room reach
  cases hg : s.growth with
  | none => rfl
  | again limit level =>
    obtain rfl := hlevel limit level hg
    cases limit <;> simp only <;> omega
  | everything =>
    simp only
    omega

/-- No step of a run is deeper than the deepest level of its plan. -/
theorem Reaches.depth_le_deepest (h : c.Reaches base p t b)
    (hplan : ∀ s ∈ p.steps, s.depth + c.room s = c.reach s) {s : Step} (hs : s ∈ b.steps) :
    s.depth ≤ c.deepest p := by
  have hroom : ∀ s ∈ b.steps, s.depth + c.room s ≤ c.deepest p :=
    h.forall_steps (fun s hs => hplan s hs ▸ (le_foldl_max c.reach p.steps 0).2 s hs)
      fun step s hstep hg => Nat.le_trans hg.room_le hstep
  exact Nat.le_trans (Nat.le_add_right _ _) (hroom s hs)

end Context

/-! ### Waves -/

/-- After so many waves all steps down to that level have run.  A step stands where its index says,
and hangs on the base rows or on a step that is less deep.  Nothing is said of what the schema
declares: the plan may come from another one. -/
structure Board.Graded (b : Board) (waves : Nat) : Prop where
  index : ∀ (i : Nat) (slot : Slot), b.slots[i]? = some slot → slot.step.index = i
  above : ∀ slot ∈ b.slots, slot.step.parent = none ∧ slot.step.depth = 1 ∨
    ∃ up ∈ b.slots, slot.step.parent = some up.step.index ∧ up.step.depth < slot.step.depth
  ran : ∀ slot ∈ b.slots, slot.step.depth ≤ waves → slot.ran = true

namespace Board.Graded

variable {b : Board} {waves : Nat}

theorem getElem?_of_mem (h : b.Graded waves) {slot : Slot} (hs : slot ∈ b.slots) :
    b.slots[slot.step.index]? = some slot := by
  obtain ⟨i, hi⟩ := List.mem_iff_getElem?.1 hs
  rwa [h.index i slot hi]

/-- The steps of the next wave stand below the levels that have run. -/
theorem lt_of_isReady (h : b.Graded waves) {slot : Slot} (hs : slot ∈ b.slots)
    (hr : b.isReady slot = true) : waves < slot.step.depth := by
  unfold isReady at hr
  rw [Bool.and_eq_true, Bool.not_eq_true'] at hr
  by_contra hle
  rw [h.ran slot hs (Nat.le_of_not_lt hle)] at hr
  cases hr.1

/-- A step of the next level has run, or is in the next wave. -/
theorem isReady_of_depth (h : b.Graded waves) {slot : Slot} (hs : slot ∈ b.slots)
    (hd : slot.step.depth ≤ waves + 1) (hran : slot.ran = false) : b.isReady slot = true := by
  unfold isReady
  rw [hran, Bool.not_false, Bool.true_and]
  obtain ⟨hp, -⟩ | ⟨up, hup, hp, hlt⟩ := h.above slot hs
  · rw [hp]
  · simp only [hp, hasRun, h.getElem?_of_mem hup]
    exact h.ran up hup (by omega)

end Board.Graded

namespace Context

open Board

variable {c : Context} {p : Plan} {base : List Value} {t t' : Traffic} {b b' : Board}

/-- A wave takes a whole level, and leaves what is new below it. -/
theorem graded_runWave {waves : Nat} (h : b.Graded waves)
    (run : c.runWave base t b b.ready = (t', .ok b')) : b'.Graded (waves + 1) := by
  obtain ⟨replies, more, -, hg, hslots, -⟩ := runWave_eq_ok run
  have hnew : ∀ s ∈ more, ∃ old ∈ b.slots, b.isReady old = true ∧ c.Grows old.step s := by
    intro s hs
    obtain ⟨step, hstep, hgrow⟩ := grows_of_mem_growAll hg hs
    obtain ⟨old, hold, rfl⟩ := List.mem_map.1 (List.mem_filter.1 hstep).1
    exact ⟨old, (List.mem_filter.1 hold).1, (List.mem_filter.1 hold).2, hgrow⟩
  have hkept : ∀ old ∈ b.slots, ∃ slot ∈ b'.slots, slot.step = old.step := by
    intro old hold
    refine ⟨receive b.ready replies old, ?_, rfl⟩
    rw [hslots]
    exact List.mem_append_left _ (List.mem_map_of_mem hold)
  refine ⟨fun i slot hi => ?_, fun slot hs => ?_, fun slot hs hd => ?_⟩
  · rw [hslots] at hi
    by_cases hlt : i < b.slots.length
    · rw [List.getElem?_append_left (by rwa [length_store]), store, List.getElem?_map] at hi
      obtain ⟨old, hold, rfl⟩ := Option.map_eq_some_iff.1 hi
      exact h.index i old hold
    · rw [List.getElem?_append_right (by rw [length_store]; omega), List.getElem?_map,
        length_store] at hi
      obtain ⟨s, hnext, rfl⟩ := Option.map_eq_some_iff.1 hi
      obtain ⟨hbound, rfl⟩ := List.getElem?_eq_some_iff.1 hnext
      have := getElem_growAll_index hg _ hbound
      simp only
      omega
  · rw [hslots] at hs
    rcases List.mem_append.1 hs with hs | hs
    · obtain ⟨old, hold, rfl⟩ := List.mem_map.1 hs
      obtain hbase | ⟨up, hup, hp, hlt⟩ := h.above old hold
      · exact .inl hbase
      · obtain ⟨up', hup', hstep⟩ := hkept up hup
        exact .inr ⟨up', hup', hstep ▸ hp, hstep ▸ hlt⟩
    · obtain ⟨s, hadded, rfl⟩ := List.mem_map.1 hs
      obtain ⟨old, hold, -, hgrow⟩ := hnew s hadded
      obtain ⟨up, hup, hstep⟩ := hkept old hold
      refine .inr ⟨up, hup, hstep ▸ hgrow.parent, ?_⟩
      rw [hstep, hgrow.depth]
      exact Nat.lt_succ_self _
  · rw [hslots] at hs
    rcases List.mem_append.1 hs with hs | hs
    · obtain ⟨old, hold, rfl⟩ := List.mem_map.1 hs
      cases hran : old.ran with
      | true => simp [receive, hran]
      | false =>
        have hready : old.step ∈ b.ready :=
          List.mem_map_of_mem (List.mem_filter.2 ⟨hold, h.isReady_of_depth hold hd hran⟩)
        simp only [receive, Bool.or_eq_true, List.any_eq_true, beq_iff_eq]
        exact .inr ⟨old.step, hready, rfl⟩
    · obtain ⟨s, hadded, rfl⟩ := List.mem_map.1 hs
      obtain ⟨old, hold, hready, hgrow⟩ := hnew s hadded
      have hlt := h.lt_of_isReady hold hready
      have := hgrow.depth
      simp only at hd
      omega

theorem graded_ofPlan {schema : Schema} {model : String} (h : Orderly schema model p.steps) :
    (Board.ofPlan p).Graded 0 := by
  have hslot : ∀ s ∈ p.steps, (⟨s, [], false⟩ : Slot) ∈ (Board.ofPlan p).slots :=
    fun s hs => List.mem_map_of_mem hs
  refine ⟨fun i slot hi => ?_, fun slot hs => ?_, fun slot hs hd => ?_⟩
  · rw [ofPlan, List.getElem?_map] at hi
    obtain ⟨s, hs, rfl⟩ := Option.map_eq_some_iff.1 hi
    exact h.index i s hs
  all_goals obtain ⟨s, hmem, rfl⟩ := List.mem_map.1 hs
  · cases hp : s.parent with
    | none => exact .inl ⟨rfl, h.depth_base hmem hp⟩
    | some i =>
      obtain ⟨up, hup, rfl⟩ := h.exists_up hmem hp
      refine .inr ⟨_, hslot up hup, rfl, ?_⟩
      have := h.depth_below hmem hup hp
      simp only
      omega
  · have := h.depth_pos hmem
    simp only at hd
    omega

theorem After.graded {waves : List (List Step)} (h : c.After base p waves t b)
    (hplan : (Board.ofPlan p).Graded 0) : b.Graded waves.length := by
  induction h with
  | start => exact hplan
  | wave _ _ run ih =>
    rw [List.length_append, List.length_singleton]
    exact graded_runWave ih run

/-- A plan whose steps stand in order, each at its first use. -/
structure Begins (c : Context) (p : Plan) : Prop where
  graded : (Board.ofPlan p).Graded 0
  reach : ∀ s ∈ p.steps, s.depth + c.room s = c.reach s

/-- A wave that begins is one of the levels that the plan can get to. -/
theorem After.length_lt {waves : List (List Step)} (h : c.After base p waves t b)
    (hp : c.Begins p) (hready : b.ready ≠ []) : waves.length < c.deepest p := by
  obtain ⟨step, hstep⟩ := List.exists_mem_of_ne_nil _ hready
  obtain ⟨slot, hslot, rfl⟩ := List.mem_map.1 hstep
  obtain ⟨hmem, hr⟩ := List.mem_filter.1 hslot
  have hlt := (h.graded hp.graded).lt_of_isReady hmem hr
  have hle := h.reaches.depth_le_deepest hp.reach (List.mem_map_of_mem hmem)
  omega

theorem After.length_le {waves : List (List Step)} (h : c.After base p waves t b)
    (hp : c.Begins p) : waves.length ≤ c.deepest p := by
  cases h with
  | start => exact Nat.zero_le _
  | wave before ready _ =>
    rw [List.length_append, List.length_singleton]
    exact before.length_lt hp ready

/-- Once there have been as many waves as the plan has levels, more waves change nothing, for then
no step is ready. -/
theorem runWaves_end {waves : List (List Step)} (h : c.After base p waves t b) (hp : c.Begins p)
    {n : Nat} (hn : c.deepest p ≤ waves.length + n) :
    (∀ more, c.runWaves base (n + more) t b = c.runWaves base n t b) ∧
      ∀ t' b', c.runWaves base n t b = (t', .ok b') → b'.ready = [] := by
  induction n generalizing waves t b with
  | zero =>
    have hready : b.ready = [] := by
      by_contra hne
      have := h.length_lt hp hne
      omega
    refine ⟨fun more => ?_, ?_⟩
    · cases more with
      | zero => rfl
      | succ more =>
        rw [Nat.zero_add, runWaves_succ, if_pos (by rw [hready]; rfl)]
        rfl
    · rintro t' b' ⟨⟩
      exact hready
  | succ n ih =>
    simp only [Nat.add_right_comm n 1, runWaves_succ]
    split
    · rename_i hempty
      refine ⟨fun _ => rfl, ?_⟩
      rintro t' b' ⟨⟩
      exact List.isEmpty_iff.1 hempty
    · rename_i hempty
      rcases hwave : c.runWave base t b b.ready with ⟨t₁, e | b₁⟩
      · exact ⟨fun _ => rfl, nofun⟩
      · refine ih (h.wave (fun hnil => hempty (by rw [hnil]; rfl)) hwave) ?_
        rw [List.length_append, List.length_singleton]
        omega

/-! ### Runs -/

/-- A run ends by itself, whatever the source brings and whatever the schema and the settings are
that it is run with.  Wave after wave, there are never more waves than the deepest level that a
planned step can get to: then no step is ready any more, and further waves would change nothing.
The waves that a run may take are at least so many. -/
theorem waves_le_deepest {schema : Schema} {settings : Settings} {model : String} {s : Selection}
    {allowed : Option Selection} (hschema : schema.Registered)
    (hplan : Plan.ofSelection schema settings model s allowed = .ok p) (c : Context)
    (base : List Value) :
    (∀ waves t b, c.After base p waves t b →
      waves.length ≤ c.deepest p ∧ (waves.length = c.deepest p → b.ready = [])) ∧
    (∀ n, c.deepest p ≤ n →
      c.runWaves base n {} (Board.ofPlan p) = c.runWaves base (c.deepest p) {} (Board.ofPlan p)) ∧
    (∀ t b, c.runWaves base (c.deepest p) {} (Board.ofPlan p) = (t, .ok b) → b.ready = []) ∧
    c.deepest p ≤ c.waveBound p := by
  have horderly := (Plan.exists_tasks_of_ofSelection hschema hplan).1
  have hreach : ∀ s ∈ p.steps, s.depth + c.room s = c.reach s := fun s hs =>
    depth_add_room_eq (horderly.depth_pos hs) (Plan.level_of_ofSelection hplan s hs)
  have hp : c.Begins p := ⟨graded_ofPlan horderly, hreach⟩
  have hstart : c.After base p [] {} (Board.ofPlan p) := .start
  obtain ⟨hmore, hready⟩ := runWaves_end hstart hp (Nat.le_add_left _ _)
  refine ⟨fun waves t b h => ⟨h.length_le hp, fun hlast => ?_⟩, fun n hn => ?_, hready, ?_⟩
  · by_contra hne
    have := h.length_lt hp hne
    omega
  · rw [← Nat.add_sub_cancel' hn, hmore]
  · refine foldl_max_le (Nat.zero_le _) fun s hs => ?_
    rw [← hreach s hs]
    exact depth_add_room_le horderly c hs

/-- A relation that leads back to its model, without a bound, over a source that has a row for every
query: three waves, as the guard on recursion allows, and the third one breaks off. -/
theorem waves_le_deepest_endless :
    let next : Association := ⟨.oneToMany, "node", "nodes", "id", "up", none⟩
    let schema : Schema := ⟨[⟨"node", "next", next⟩]⟩
    let s : Selection := { children := [(Selection.named "next").follow none] }
    let p : Plan := ⟨"node", [⟨0, none, ["next"], "node", next, 1, .again none 1⟩]⟩
    let row : Value := .object [("id", .string "1"), ("up", .string "1")]
    let source : Source := ⟨0, fun _ _ => .ok [row]⟩
    let c : Context := ⟨schema, { maxRecursion := 3 }, source, [], none⟩
    schema.Registered ∧ Plan.ofSelection schema {} "node" s none = .ok p ∧ c.deepest p = 3 ∧
      (c.execute [row] p).issued.length = 3 ∧
      (∀ waves t b, c.After [row] p waves t b →
        waves.length ≤ c.deepest p ∧ (waves.length = c.deepest p → b.ready = [])) ∧
      (∀ n, c.deepest p ≤ n → c.runWaves [row] n {} (Board.ofPlan p) =
        c.runWaves [row] (c.deepest p) {} (Board.ofPlan p)) ∧
      (∀ t b, c.runWaves [row] (c.deepest p) {} (Board.ofPlan p) = (t, .ok b) → b.ready = []) ∧
      c.deepest p ≤ c.waveBound p := by
  intro next schema s p row source c
  have hnext : Schema.empty.register "node" "next" next = .ok schema := by decide +kernel
  have hschema : schema.Registered := .register .empty hnext
  have hplan : Plan.ofSelection schema {} "node" s none = .ok p := by rfl
  have hissued : (c.execute [row] p).issued.length = 3 := by cbv
  exact ⟨hschema, hplan, rfl, hissued, waves_le_deepest hschema hplan c [row]⟩

end Context

end Prefetch

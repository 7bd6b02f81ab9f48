import Prefetch.Proofs.Load.Waves
import Prefetch.Proofs.Plan.Tasks

/-!
# Levels — a run goes down one level at a time

Waves and levels are the same: after some waves exactly the steps down to that level have run.  So a
step is ready one wave after the step it hangs on, and a step that growth puts below another has one
wave less to go.

* `Levelled.isReady_iff` — the next wave consists of the steps of the next level.
* `Reaches.levelled` — every board of a run is levelled.
* `ready_of_runWaves` — a run does not stop before all its steps have run.
* `execute_eq_ok` — what a run that succeeds has come to.
-/

namespace Prefetch

namespace Board

/-- The steps are in order, those down to the level of the last wave have run, and no step is further
down than there are waves. -/
structure Levelled (c : Context) (p : Plan) (b : Board) : Prop where
  orderly : Orderly c.schema p.model b.steps
  ran : ∀ slot ∈ b.slots, slot.ran = true ↔ slot.step.depth ≤ b.stats.waves
  room : ∀ s ∈ b.steps, s.depth + c.room s ≤ c.waveBound p

variable {c : Context} {p : Plan} {b : Board}

theorem getElem?_steps (b : Board) (i : Nat) : b.steps[i]? = b.slots[i]?.map (·.step) :=
  List.getElem?_map ..

namespace Levelled

theorem exists_slot (h : b.Levelled c p) {s : Step} (hs : s ∈ b.steps) :
    ∃ slot, b.slots[s.index]? = some slot ∧ slot.step = s := by
  have hi := h.orderly.getElem?_of_mem hs
  rw [getElem?_steps] at hi
  exact Option.map_eq_some_iff.1 hi

theorem hasRun_iff (h : b.Levelled c p) {s : Step} (hs : s ∈ b.steps) :
    b.hasRun s.index = true ↔ s.depth ≤ b.stats.waves := by
  obtain ⟨slot, hslot, rfl⟩ := h.exists_slot hs
  rw [hasRun, hslot]
  exact h.ran slot (List.mem_of_getElem? hslot)

theorem ran_eq_false_iff (h : b.Levelled c p) {slot : Slot} (hs : slot ∈ b.slots) :
    slot.ran = false ↔ b.stats.waves < slot.step.depth := by
  rw [← Bool.not_eq_true, h.ran slot hs, Nat.not_le]

/-- The next wave consists of the steps of the next level. -/
theorem isReady_iff (h : b.Levelled c p) {slot : Slot} (hs : slot ∈ b.slots) :
    b.isReady slot = true ↔ slot.step.depth = b.stats.waves + 1 := by
  have hmem : slot.step ∈ b.steps := List.mem_map_of_mem hs
  rw [isReady, Bool.and_eq_true, Bool.not_eq_true', h.ran_eq_false_iff hs]
  cases hp : slot.step.parent with
  | none =>
    have hd := h.orderly.depth_base hmem hp
    simp only [and_true]
    omega
  | some i =>
    obtain ⟨up, hup, rfl⟩ := h.orderly.exists_up hmem hp
    have hd := h.orderly.depth_below hmem hup hp
    simp only [h.hasRun_iff hup]
    omega

theorem ready_eq (h : b.Levelled c p) :
    b.ready = b.steps.filter fun s => s.depth == b.stats.waves + 1 := by
  rw [ready, steps, List.filter_map, List.filter_congr fun slot hs => ?_]
  rw [Bool.eq_iff_iff, h.isReady_iff hs, Function.comp_apply, beq_iff_eq]

theorem mem_ready_iff (h : b.Levelled c p) {s : Step} (hs : s ∈ b.steps) :
    s ∈ b.ready ↔ s.depth = b.stats.waves + 1 := by
  rw [h.ready_eq, List.mem_filter, beq_iff_eq]
  exact ⟨fun hm => hm.2, fun hd => ⟨hs, hd⟩⟩

/-- A step is in a wave when its index is the index of a step in the wave. -/
theorem any_ready_iff (h : b.Levelled c p) {s : Step} (hs : s ∈ b.steps) :
    (b.ready.any fun r => r.index == s.index) = true ↔ s.depth = b.stats.waves + 1 := by
  rw [List.any_eq_true, ← h.mem_ready_iff hs]
  constructor
  · rintro ⟨r, hr, he⟩
    have hrs := h.orderly.eq_of_index (mem_steps_of_mem_ready hr) hs (by simpa using he)
    rwa [← hrs]
  · intro hm
    exact ⟨s, hm, by simp⟩

/-- As long as some step has not run, there is one to run next. -/
theorem ready_ne_nil (h : b.Levelled c p) {s : Step} (hs : s ∈ b.steps)
    (hd : b.stats.waves < s.depth) : b.ready ≠ [] := by
  induction hn : s.depth generalizing s with
  | zero => omega
  | succ n ih =>
    by_cases hnext : s.depth = b.stats.waves + 1
    · exact List.ne_nil_of_mem ((h.mem_ready_iff hs).2 hnext)
    · cases hp : s.parent with
      | none =>
        have := h.orderly.depth_base hs hp
        omega
      | some i =>
        obtain ⟨up, hup, rfl⟩ := h.orderly.exists_up hs hp
        have := h.orderly.depth_below hs hup hp
        exact ih hup (by omega) (by omega)

theorem ran_of_ready (h : b.Levelled c p) (hr : b.ready = []) {slot : Slot}
    (hs : slot ∈ b.slots) : slot.ran = true := by
  rw [h.ran slot hs]
  rcases Nat.lt_or_ge b.stats.waves slot.step.depth with hlt | hle
  · exact absurd hr (h.ready_ne_nil (List.mem_map_of_mem hs) hlt)
  · exact hle

end Levelled

/-! ### Plans -/

theorem le_foldl_max {α : Type} (f : α → Nat) (xs : List α) (most : Nat) :
    most ≤ xs.foldl (fun most x => max most (f x)) most ∧
      ∀ x ∈ xs, f x ≤ xs.foldl (fun most x => max most (f x)) most := by
  induction xs generalizing most with
  | nil => exact ⟨Nat.le_refl most, nofun⟩
  | cons x xs ih =>
    obtain ⟨hmost, hxs⟩ := ih (max most (f x))
    rw [List.foldl_cons]
    refine ⟨by omega, fun y hy => ?_⟩
    rcases List.mem_cons.1 hy with rfl | hy
    · omega
    · exact hxs y hy

theorem foldl_max_le {α : Type} {f : α → Nat} {xs : List α} {most n : Nat} (hmost : most ≤ n)
    (h : ∀ x ∈ xs, f x ≤ n) : xs.foldl (fun most x => max most (f x)) most ≤ n := by
  induction xs generalizing most with
  | nil => exact hmost
  | cons x xs ih =>
    rw [List.foldl_cons]
    exact ih (Nat.max_le.2 ⟨hmost, h x List.mem_cons_self⟩)
      fun y hy => h y (List.mem_cons_of_mem x hy)

/-- The waves that a plan gets are enough for each of its steps and all that is put below it. -/
theorem depth_add_room_le {schema : Schema} {model : String}
    (h : Orderly schema model p.steps) (c : Context) {s : Step} (hs : s ∈ p.steps) :
    s.depth + c.room s ≤ c.waveBound p := by
  have hdepth := h.depth_le hs
  have hindex := h.index_lt hs
  have hroom := (le_foldl_max c.room p.steps 0).2 s hs
  unfold Context.waveBound
  omega

theorem levelled_ofPlan (h : Orderly c.schema p.model p.steps) : (ofPlan p).Levelled c p := by
  have hsteps := steps_ofPlan p
  refine ⟨hsteps ▸ h, fun slot hslot => ?_, fun s hs => ?_⟩
  · obtain ⟨s, hs, rfl⟩ := List.mem_map.1 hslot
    have hpos := h.depth_pos hs
    have hwaves : (ofPlan p).stats.waves = 0 := rfl
    simp only [Bool.false_eq_true, false_iff]
    omega
  · rw [hsteps] at hs
    exact depth_add_room_le h c hs

end Board

namespace Context

open Board

variable {c : Context} {p : Plan} {base : List Value}

/-- A step below another takes up the room that the other has left. -/
theorem Grows.room_le {step s : Step} (h : c.Grows step s) :
    s.depth + c.room s ≤ step.depth + c.room step := by
  rw [h.depth]
  rcases h.growth with ⟨limit, level, hstep, hs, -, hmost, hguard⟩ | ⟨hstep, hs, hlt⟩
  · cases limit with
    | none =>
      have := hguard rfl
      simp only [room, hstep, hs]
      omega
    | some most =>
      have := hmost most rfl
      simp only [room, hstep, hs]
      omega
  · simp only [room, hstep, hs, h.depth]
    omega

theorem Grows.hangs {model : String} {steps : List Step} {step s : Step} (h : c.Grows step s)
    (hs : step ∈ steps) : Hangs model steps s :=
  .below step hs h.parent h.path h.owner

/-- A wave leaves a levelled board levelled, one level further down. -/
theorem levelled_runWave (hschema : c.schema.Registered) {t t' : Traffic} {b b' : Board}
    (h : b.Levelled c p) (run : c.runWave base t b b.ready = (t', .ok b')) : b'.Levelled c p := by
  obtain ⟨replies, more, -, hg, hslots, hwaves⟩ := runWave_eq_ok run
  have hsteps := steps_store hslots
  have hmore : ∀ s ∈ more, ∃ step ∈ b.ready, c.Grows step s := by
    intro s hs
    obtain ⟨step, hm, hgrow⟩ := grows_of_mem_growAll hg hs
    exact ⟨step, (List.mem_filter.1 hm).1, hgrow⟩
  refine ⟨?_, fun slot hslot => ?_, fun s hs => ?_⟩
  · rw [hsteps]
    refine h.orderly.append (fun i s hs => ?_) (fun s hs => ?_) (fun s hs => ?_) fun s hs => ?_
    · obtain ⟨hi, rfl⟩ := List.getElem?_eq_some_iff.1 hs
      rw [length_steps]
      exact getElem_growAll_index hg i hi
    all_goals obtain ⟨step, hready, hgrow⟩ := hmore s hs
    · exact hgrow.hangs (mem_steps_of_mem_ready hready)
    · rw [hgrow.depth, hgrow.path, List.length_append, List.length_singleton,
        h.orderly.depth step (mem_steps_of_mem_ready hready)]
    · exact hschema.lookup_of_mem_relationsOf hgrow.declared
  · rw [hslots] at hslot
    rw [hwaves]
    rcases List.mem_append.1 hslot with hslot | hslot
    · obtain ⟨old, hold, rfl⟩ := List.mem_map.1 hslot
      have hany := h.any_ready_iff (List.mem_map_of_mem hold)
      simp only [receive, Bool.or_eq_true, h.ran old hold, hany]
      omega
    · obtain ⟨s, hs, rfl⟩ := List.mem_map.1 hslot
      obtain ⟨step, hready, hgrow⟩ := hmore s hs
      have hdepth := (h.mem_ready_iff (mem_steps_of_mem_ready hready)).1 hready
      have := hgrow.depth
      simp only [Bool.false_eq_true, false_iff]
      omega
  · rw [hsteps] at hs
    rcases List.mem_append.1 hs with hs | hs
    · exact h.room s hs
    · obtain ⟨step, hready, hgrow⟩ := hmore s hs
      exact Nat.le_trans hgrow.room_le (h.room step (mem_steps_of_mem_ready hready))

/-- Every board of a run is levelled. -/
theorem Reaches.levelled {t : Traffic} {b : Board} (h : c.Reaches base p t b)
    (hschema : c.schema.Registered) (hp : Orderly c.schema p.model p.steps) : b.Levelled c p := by
  induction h with
  | start => exact levelled_ofPlan hp
  | wave _ _ run ih => exact levelled_runWave hschema ih run

/-- A run does not stop before all its steps have run. -/
theorem ready_of_runWaves (hschema : c.schema.Registered) {n : Nat} {t t' : Traffic} {b b' : Board}
    (h : b.Levelled c p) (hn : c.waveBound p ≤ b.stats.waves + n)
    (run : c.runWaves base n t b = (t', .ok b')) : b'.ready = [] := by
  induction n generalizing t b with
  | zero =>
    obtain ⟨-, he⟩ := Prod.mk.inj run
    obtain rfl := Except.ok.inj he
    rw [List.eq_nil_iff_forall_not_mem]
    intro s hs
    have hmem := mem_steps_of_mem_ready hs
    have hdepth := (h.mem_ready_iff hmem).1 hs
    have hroom := h.room s hmem
    omega
  | succ n ih =>
    rw [runWaves] at run
    split at run
    · rename_i hempty
      obtain ⟨-, he⟩ := Prod.mk.inj run
      obtain rfl := Except.ok.inj he
      simpa using hempty
    · split at run
      · cases run
      · rename_i t₁ b₁ hwave
        have hwaves := (runWave_eq_ok hwave).choose_spec.choose_spec.2.2.2
        exact ih (levelled_runWave hschema h hwave) (by omega) run

/-- The end of a run that succeeds: no step is ready any more, and the board is put together. -/
theorem execute_eq_ok (hschema : c.schema.Registered) (hp : Orderly c.schema p.model p.steps)
    {rows : List Value} {stats : Stats}
    (hrun : (c.execute base p).outcome = .ok (rows, stats)) :
    ∃ t b, c.Reaches base p t b ∧ b.ready = [] ∧ (c.execute base p).issued = t.issued ∧
      conclude base b = .ok (rows, stats) := by
  unfold execute at hrun ⊢
  split at hrun
  · cases hrun
  · split at hrun
    · cases hrun
    · rename_i t b hwaves
      have begun : c.Reaches base p {} (Board.ofPlan p) := .start
      obtain ⟨t', b', he, hb⟩ | ⟨_, _, _, _, he, -, -⟩ := begun.runWaves (c.waveBound p)
      · rw [hwaves] at he
        obtain ⟨rfl, hboard⟩ := Prod.mk.inj he
        obtain rfl := Except.ok.inj hboard
        have hready :=
          ready_of_runWaves hschema (levelled_ofPlan hp) (Nat.le_add_left _ _) hwaves
        exact ⟨t, b, hb, hready, rfl, hrun⟩
      · rw [hwaves] at he
        cases he

end Context

end Prefetch

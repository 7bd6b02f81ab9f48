import Prefetch.Load.Run
import Prefetch.Proofs.Schema.Registered

/-!
# Growth — what is put below a step

Growth is the only place where steps come from once a plan is made.  Whatever it puts below a step
is said once, in `Grows`: where the new step hangs, what it fetches, how it grows on, and which guard
it has passed.

* `grows_of_mem_grow` — everything that `grow` gives is such a step.
* `grows_of_mem_growAll` — and so is everything that a wave adds.
* `getElem_growAll_index` — new steps have consecutive indices.
* `growAll_eq_error_iff` — the first step that does not grow ends the growth of all.
-/

namespace Prefetch

theorem Step.relation_of_path {s : Step} {path : Path} {relation : String}
    (h : s.path = path ++ [relation]) : s.relation = relation := by
  simp [Step.relation, h]

namespace Context

/-- The second step is put below the first one. -/
structure Grows (c : Context) (step s : Step) : Prop where
  parent : s.parent = some step.index
  path : s.path = step.path ++ [s.relation]
  owner : s.owner = step.association.target
  depth : s.depth = step.depth + 1
  declared : (s.relation, s.association) ∈ c.schema.relationsOf s.owner
  /-- A recursive relation is used once more, within its bound or, without one, within the guard;
  below a `*` every relation is loaded, within the guard on depth. -/
  growth :
    (∃ limit level, step.growth = .again limit level ∧ s.growth = .again limit (level + 1) ∧
      s.relation = step.relation ∧ (∀ most, limit = some most → level < most) ∧
      (limit = none → level < c.settings.maxRecursion)) ∨
    (step.growth = .everything ∧ s.growth = .everything ∧ step.depth < c.settings.maxDepth)

theorem grows_of_mem_again {c : Context} {step s : Step} {index level : Nat} {limit : Option Nat}
    {below : List Step} (hg : step.growth = .again limit level)
    (hmost : ∀ most, limit = some most → level < most)
    (hguard : limit = none → level < c.settings.maxRecursion)
    (h : c.again step index limit level = .ok below) (hs : s ∈ below) : c.Grows step s := by
  unfold again at h
  split at h
  · cases h
  · rename_i a ha
    obtain rfl := Except.ok.inj h
    obtain rfl := List.mem_singleton.1 hs
    have hr := Step.relation_of_path (s := ⟨index, some step.index, step.below step.relation,
      step.association.target, a, step.depth + 1, .again limit (level + 1)⟩) rfl
    refine ⟨rfl, ?_, rfl, rfl, ?_, .inl ⟨limit, level, hg, rfl, hr, hmost, hguard⟩⟩
    · rw [hr]
      rfl
    · rw [hr]
      exact Schema.mem_relationsOf_of_lookup (Schema.require_eq_ok.1 ha)

theorem grows_of_mem_everyBelow {c : Context} {step s : Step} {index : Nat}
    (hg : step.growth = .everything) (hd : step.depth < c.settings.maxDepth)
    (hs : s ∈ c.everyBelow step index) : c.Grows step s := by
  obtain ⟨i, hi, rfl⟩ := List.mem_mapIdx.1 hs
  have hm := List.getElem_mem hi
  generalize (c.schema.relationsOf step.association.target)[i] = r at hm
  have hr := Step.relation_of_path (s := ⟨index + i, some step.index, step.below r.1,
    step.association.target, r.2, step.depth + 1, .everything⟩) rfl
  refine ⟨rfl, ?_, rfl, rfl, ?_, .inr ⟨hg, rfl, hd⟩⟩
  · rw [hr]
    rfl
  · rw [hr]
    exact hm

/-- Everything that `grow` gives is put below the step. -/
theorem grows_of_mem_grow {c : Context} {step s : Step} {index : Nat} {below : List Step}
    (h : c.grow step index = .ok below) (hs : s ∈ below) : c.Grows step s := by
  unfold grow at h
  split at h
  · obtain rfl := Except.ok.inj h
    cases hs
  · rename_i most level hg
    split at h
    · obtain rfl := Except.ok.inj h
      cases hs
    · rename_i hl
      refine grows_of_mem_again hg ?_ nofun h hs
      rintro _ ⟨⟩
      omega
  · rename_i level hg
    split at h
    · cases h
    · rename_i hl
      exact grows_of_mem_again hg nofun (fun _ => by omega) h hs
  · rename_i hg
    split at h
    · obtain rfl := Except.ok.inj h
      cases hs
    · split at h
      · cases h
      · rename_i hd
        obtain rfl := Except.ok.inj h
        exact grows_of_mem_everyBelow hg (by omega) hs

theorem getElem_grow_index {c : Context} {step : Step} {index : Nat} {below : List Step}
    (h : c.grow step index = .ok below) (i : Nat) (hi : i < below.length) :
    below[i].index = index + i := by
  have hagain : ∀ {limit : Option Nat} {level : Nat},
      c.again step index limit level = .ok below → below[i].index = index + i := by
    intro limit level h
    unfold again at h
    split at h
    · cases h
    · obtain rfl := Except.ok.inj h
      obtain rfl : i = 0 := by simpa using hi
      rfl
  unfold grow at h
  split at h
  · obtain rfl := Except.ok.inj h
    simp at hi
  · split at h
    · obtain rfl := Except.ok.inj h
      simp at hi
    · exact hagain h
  · split at h
    · cases h
    · exact hagain h
  · split at h
    · obtain rfl := Except.ok.inj h
      simp at hi
    · split at h
      · cases h
      · obtain rfl := Except.ok.inj h
        simp [everyBelow]

theorem growAll_cons_eq_ok {c : Context} {index : Nat} {step : Step} {steps more : List Step}
    (h : c.growAll index (step :: steps) = .ok more) :
    ∃ below rest, c.grow step index = .ok below ∧
      c.growAll (index + below.length) steps = .ok rest ∧ more = below ++ rest := by
  rw [growAll] at h
  split at h
  · cases h
  · rename_i below hbelow
    split at h
    · cases h
    · rename_i rest hrest
      exact ⟨below, rest, hbelow, hrest, (Except.ok.inj h).symm⟩

/-- Everything that a wave adds is put below one of its steps. -/
theorem grows_of_mem_growAll {c : Context} {index : Nat} {steps more : List Step} {s : Step}
    (h : c.growAll index steps = .ok more) (hs : s ∈ more) : ∃ step ∈ steps, c.Grows step s := by
  induction steps generalizing index more with
  | nil =>
    obtain rfl := Except.ok.inj h
    cases hs
  | cons step steps ih =>
    obtain ⟨below, rest, hb, hrest, rfl⟩ := growAll_cons_eq_ok h
    rcases List.mem_append.1 hs with hs | hs
    · exact ⟨step, List.mem_cons_self, grows_of_mem_grow hb hs⟩
    · obtain ⟨owner, ho, hg⟩ := ih hrest hs
      exact ⟨owner, List.mem_cons_of_mem step ho, hg⟩

/-- New steps have consecutive indices. -/
theorem getElem_growAll_index {c : Context} {index : Nat} {steps more : List Step}
    (h : c.growAll index steps = .ok more) (i : Nat) (hi : i < more.length) :
    more[i].index = index + i := by
  induction steps generalizing index more i with
  | nil =>
    obtain rfl := Except.ok.inj h
    simp at hi
  | cons step steps ih =>
    obtain ⟨below, rest, hb, hrest, rfl⟩ := growAll_cons_eq_ok h
    by_cases hlt : i < below.length
    · rw [List.getElem_append_left hlt]
      exact getElem_grow_index hb i hlt
    · rw [List.getElem_append_right (by omega),
        ih hrest (i - below.length) (by simp at hi; omega)]
      omega

/-- The error with which a step does not grow, if there is one; the index does not matter for that. -/
def stop (c : Context) (step : Step) : Option Error :=
  match c.grow step 0 with
  | .error e => some e
  | .ok _ => none

theorem grow_eq_error_iff {c : Context} {step : Step} {e : Error} (index : Nat) :
    c.grow step index = .error e ↔ c.stop step = some e := by
  have hagain : ∀ (limit : Option Nat) (level : Nat),
      c.again step index limit level = .error e ↔ c.again step 0 limit level = .error e := by
    intro limit level
    unfold again
    cases c.schema.require step.association.target step.relation <;> simp
  have hzero : c.stop step = some e ↔ c.grow step 0 = .error e := by
    unfold stop
    cases c.grow step 0 <;> simp
  rw [hzero]
  unfold grow
  split
  · rfl
  · split
    · rfl
    · exact hagain _ _
  · split
    · rfl
    · exact hagain _ _
  · split
    · rfl
    · split
      · rfl
      · simp

theorem exists_grow_iff {c : Context} {step : Step} (index : Nat) :
    (∃ below, c.grow step index = .ok below) ↔ c.stop step = none := by
  cases hg : c.grow step index with
  | error e => simp [(grow_eq_error_iff index).1 hg]
  | ok below =>
    refine iff_of_true ⟨below, rfl⟩ (Option.eq_none_iff_forall_ne_some.2 fun e he => ?_)
    cases hg.symm.trans ((grow_eq_error_iff index).2 he)

/-- The first step that does not grow ends the growth of all. -/
theorem growAll_eq_error_iff {c : Context} {steps : List Step} {e : Error} (index : Nat) :
    c.growAll index steps = .error e ↔ steps.findSome? c.stop = some e := by
  induction steps generalizing index with
  | nil => simp [growAll]
  | cons step steps ih =>
    rw [growAll, List.findSome?_cons]
    cases hg : c.grow step index with
    | error e' => simp [(grow_eq_error_iff index).1 hg]
    | ok below =>
      rw [(exists_grow_iff index).1 ⟨below, hg⟩, ← ih (index + below.length)]
      simp only
      cases c.growAll (index + below.length) steps <;> simp

/-- What a wave adds depends on how each step grows, and on nothing else. -/
theorem growAll_congr {c c' : Context} (h : ∀ step index, c'.grow step index = c.grow step index)
    (index : Nat) (steps : List Step) : c'.growAll index steps = c.growAll index steps := by
  induction steps generalizing index with
  | nil => rfl
  | cons step steps ih =>
    rw [growAll, growAll, h]
    split
    · rfl
    · rw [ih]

end Context

end Prefetch

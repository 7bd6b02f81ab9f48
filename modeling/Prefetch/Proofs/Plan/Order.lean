import Mathlib.Data.Nat.Init
import Prefetch.Plan.Basic
import Prefetch.Schema.Basic

/-!
# Order — how the steps of a list hang together

A step hangs on the base rows or below a step in front of it, and its path, depth and model follow
from that.  Steps only ever join the list at its end, so the list stays in order.

* `Orderly.append` — steps that hang on what is there keep the list in order.
* `Orderly.eq_of_index` — an index belongs to one step.
* `Orderly.depth_below` — a step is one level below the step it hangs on.
-/

namespace Prefetch

/-- Where a step hangs: on the base rows, or below an earlier one of the steps. -/
inductive Hangs (model : String) (steps : List Step) (s : Step) : Prop where
  | base (parent : s.parent = none) (path : s.path = [s.relation]) (owner : s.owner = model)
  | below (up : Step) (mem : up ∈ steps) (parent : s.parent = some up.index)
      (path : s.path = up.path ++ [s.relation]) (owner : s.owner = up.association.target)

/-- Steps that stand where their indices say, each hanging on the base rows or on one in front. -/
structure Orderly (schema : Schema) (model : String) (steps : List Step) : Prop where
  index : ∀ (i : Nat) (s : Step), steps[i]? = some s → s.index = i
  hangs : ∀ s ∈ steps, Hangs model steps s
  before : ∀ s ∈ steps, ∀ i, s.parent = some i → i < s.index
  depth : ∀ s ∈ steps, s.depth = s.path.length
  declared : ∀ s ∈ steps, schema.lookup s.owner s.relation = some s.association

variable {schema : Schema} {model : String} {steps more : List Step} {s s' up : Step}

theorem Hangs.append (h : Hangs model steps s) (more : List Step) :
    Hangs model (steps ++ more) s := by
  cases h with
  | base parent path owner => exact .base parent path owner
  | below up mem parent path owner =>
    exact .below up (List.mem_append_left more mem) parent path owner

namespace Orderly

theorem nil : Orderly schema model [] := by
  refine ⟨fun i s hs => ?_, nofun, nofun, nofun, nofun⟩
  rw [List.getElem?_nil] at hs
  cases hs

theorem getElem?_of_mem (h : Orderly schema model steps) (hs : s ∈ steps) :
    steps[s.index]? = some s := by
  obtain ⟨i, hi⟩ := List.mem_iff_getElem?.1 hs
  rwa [h.index i s hi]

theorem index_lt (h : Orderly schema model steps) (hs : s ∈ steps) : s.index < steps.length :=
  (List.getElem?_eq_some_iff.1 (h.getElem?_of_mem hs)).1

/-- An index belongs to one step. -/
theorem eq_of_index (h : Orderly schema model steps) (hs : s ∈ steps) (hs' : s' ∈ steps)
    (he : s.index = s'.index) : s = s' := by
  have hi := h.getElem?_of_mem hs
  rw [he, h.getElem?_of_mem hs'] at hi
  exact (Option.some.inj hi).symm

theorem nodup_index (h : Orderly schema model steps) : (steps.map (·.index)).Nodup := by
  rw [List.Nodup, List.pairwise_map, List.pairwise_iff_getElem]
  intro i j hi hj hlt he
  rw [h.index i _ (List.getElem?_eq_getElem hi), h.index j _ (List.getElem?_eq_getElem hj)] at he
  omega

theorem nodup (h : Orderly schema model steps) : steps.Nodup :=
  List.Pairwise.of_map (·.index) (fun _ _ hne he => hne (he ▸ rfl)) h.nodup_index

/-- What is put behind some steps in order, and hangs on them, leaves them in order. -/
theorem append (h : Orderly schema model steps)
    (index : ∀ (i : Nat) (s : Step), more[i]? = some s → s.index = steps.length + i)
    (hangs : ∀ s ∈ more, Hangs model steps s) (depth : ∀ s ∈ more, s.depth = s.path.length)
    (declared : ∀ s ∈ more, schema.lookup s.owner s.relation = some s.association) :
    Orderly schema model (steps ++ more) := by
  refine ⟨fun i s hs => ?_, fun s hs => ?_, fun s hs i hp => ?_, fun s hs => ?_, fun s hs => ?_⟩
  · by_cases hi : i < steps.length
    · rw [List.getElem?_append_left hi] at hs
      exact h.index i s hs
    · rw [List.getElem?_append_right (by omega)] at hs
      have := index _ s hs
      omega
  · rcases List.mem_append.1 hs with hs | hs
    · exact (h.hangs s hs).append more
    · exact (hangs s hs).append more
  · rcases List.mem_append.1 hs with hs | hs
    · exact h.before s hs i hp
    · obtain ⟨j, hj⟩ := List.mem_iff_getElem?.1 hs
      have hindex := index j s hj
      cases hangs s hs with
      | base parent => rw [parent] at hp; cases hp
      | below up mem parent =>
        obtain rfl : up.index = i := Option.some.inj (parent.symm.trans hp)
        have := h.index_lt mem
        omega
  · rcases List.mem_append.1 hs with hs | hs
    · exact h.depth s hs
    · exact depth s hs
  · rcases List.mem_append.1 hs with hs | hs
    · exact h.declared s hs
    · exact declared s hs

theorem parent_lt (h : Orderly schema model steps) (hs : s ∈ steps) {i : Nat}
    (hp : s.parent = some i) : i < steps.length :=
  Nat.lt_trans (h.before s hs i hp) (h.index_lt hs)

theorem parent_ne_self (h : Orderly schema model steps) (hs : s ∈ steps) :
    s.parent ≠ some s.index :=
  fun hp => Nat.lt_irrefl _ (h.before s hs _ hp)

theorem depth_base (h : Orderly schema model steps) (hs : s ∈ steps) (hp : s.parent = none) :
    s.depth = 1 := by
  rw [h.depth s hs]
  cases h.hangs s hs with
  | base _ path => rw [path, List.length_singleton]
  | below up _ parent => rw [hp] at parent; cases parent

/-- A step is one level below the step it hangs on. -/
theorem depth_below (h : Orderly schema model steps) (hs : s ∈ steps) (hup : up ∈ steps)
    (hp : s.parent = some up.index) : s.depth = up.depth + 1 := by
  rw [h.depth s hs, h.depth up hup]
  cases h.hangs s hs with
  | base parent => rw [hp] at parent; cases parent
  | below up' mem parent path =>
    have he : up.index = up'.index := Option.some.inj (hp.symm.trans parent)
    rw [h.eq_of_index hup mem he, path, List.length_append, List.length_singleton]

theorem exists_up (h : Orderly schema model steps) (hs : s ∈ steps) {i : Nat}
    (hp : s.parent = some i) : ∃ up ∈ steps, up.index = i := by
  cases h.hangs s hs with
  | base parent => rw [hp] at parent; cases parent
  | below up mem parent => exact ⟨up, mem, (Option.some.inj (hp.symm.trans parent)).symm⟩

theorem depth_pos (h : Orderly schema model steps) (hs : s ∈ steps) : 0 < s.depth := by
  cases hp : s.parent with
  | none => rw [h.depth_base hs hp]; omega
  | some i =>
    obtain ⟨up, hup, rfl⟩ := h.exists_up hs hp
    rw [h.depth_below hs hup hp]
    omega

/-- A step has all steps above it in front of it. -/
theorem depth_le (h : Orderly schema model steps) (hs : s ∈ steps) : s.depth ≤ s.index + 1 := by
  induction hn : s.index using Nat.strong_induction_on generalizing s with
  | _ n ih =>
    cases hp : s.parent with
    | none => rw [h.depth_base hs hp]; omega
    | some i =>
      obtain ⟨up, hup, rfl⟩ := h.exists_up hs hp
      have hlt := h.before s hs _ hp
      have hle := ih up.index (by omega) hup rfl
      rw [h.depth_below hs hup hp]
      omega

end Orderly

end Prefetch

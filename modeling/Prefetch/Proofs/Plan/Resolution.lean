import Prefetch.Plan.Resolve
import Prefetch.Proofs.Load.Growth

/-!
# Resolution — the steps that nodes become

Every step of a plan comes from a node of the selection.  `Resolves` says once what the step has from
the node; what holds of the nodes below the root, and passes from a node to those below it, gives a
property of all steps.

* `resolveNode_eq_ok` — the step of a node.
* `forall_of_resolveLevels` — what holds of pending nodes holds of the steps.
-/

namespace Prefetch.Plan

/-- A node that was pending has become a step. -/
structure Resolves (schema : Schema) (p : Pending) (s : Step) : Prop where
  parent : s.parent = p.parent
  path : s.path = p.path ++ [p.node.label]
  owner : s.owner = p.owner
  declared : schema.lookup p.owner p.node.label = some s.association
  depth : s.depth = p.path.length + 1
  /-- The marks of the node say how the step grows; a recursive relation is declared again. -/
  growth :
    (p.node.wildcard = true ∧ s.growth = .everything) ∨
    (p.node.wildcard = false ∧ p.node.recursive = true ∧ s.growth = .again p.node.limit 1 ∧
      ∃ a, schema.lookup s.association.target p.node.label = some a) ∨
    (p.node.wildcard = false ∧ p.node.recursive = false ∧ s.growth = .none)
  /-- Nothing is selected below a mark. -/
  leaf : p.node.wildcard = true ∨ p.node.recursive = true → p.node.children = []

theorem Resolves.relation {schema : Schema} {p : Pending} {s : Step} (h : Resolves schema p s) :
    s.relation = p.node.label :=
  Step.relation_of_path h.path

/-- The step of a node. -/
theorem resolveNode_eq_ok {schema : Schema} {index : Nat} {p : Pending} {s : Step}
    (h : resolveNode schema index p = .ok s) : s.index = index ∧ Resolves schema p s := by
  unfold resolveNode at h
  split at h
  · cases h
  · rename_i hleaf
    split at h
    · cases h
    · rename_i a ha
      split at h
      · cases h
      · rename_i growth hg
        obtain rfl := Except.ok.inj h
        refine ⟨rfl, rfl, rfl, rfl, Schema.require_eq_ok.1 ha, rfl, ?_, ?_⟩
        · unfold growthOf at hg
          split at hg
          · rename_i hw
            exact .inl ⟨hw, (Except.ok.inj hg).symm⟩
          · rename_i hw
            split at hg
            · rename_i hr
              split at hg
              · cases hg
              · rename_i a' ha'
                exact .inr (.inl ⟨by simpa using hw, hr, (Except.ok.inj hg).symm, a',
                  Schema.require_eq_ok.1 ha'⟩)
            · rename_i hr
              exact .inr (.inr ⟨by simpa using hw, by simpa using hr, (Except.ok.inj hg).symm⟩)
        · intro hmark
          rcases hmark with hmark | hmark <;> simpa [hmark] using hleaf

/-- The steps of a level, node by node, and the nodes of the next level. -/
theorem resolveLevel_cons_eq_ok {schema : Schema} {index : Nat} {p : Pending} {ps : List Pending}
    {steps : List Step} {below : List Pending}
    (h : resolveLevel schema index (p :: ps) = .ok (steps, below)) :
    ∃ s rest belowRest, resolveNode schema index p = .ok s ∧
      resolveLevel schema (index + 1) ps = .ok (rest, belowRest) ∧ steps = s :: rest ∧
      below = pendingBelow s p.node ++ belowRest := by
  rw [resolveLevel] at h
  split at h
  · cases h
  · rename_i s hs
    split at h
    · cases h
    · rename_i rest belowRest hr
      obtain ⟨rfl, rfl⟩ := Prod.mk.inj (Except.ok.inj h)
      exact ⟨s, rest, belowRest, hs, hr, rfl, rfl⟩

theorem resolveLevels_succ_eq_ok {schema : Schema} {levels index : Nat} {pending : List Pending}
    {steps : List Step} (h : resolveLevels schema (levels + 1) index pending = .ok steps) :
    ∃ level below rest, resolveLevel schema index pending = .ok (level, below) ∧
      resolveLevels schema levels (index + level.length) below = .ok rest ∧
      steps = level ++ rest := by
  rw [resolveLevels] at h
  split at h
  · cases h
  · rename_i level below hl
    split at h
    · cases h
    · rename_i rest hr
      exact ⟨level, below, rest, hl, hr, (Except.ok.inj h).symm⟩

section Invariant

variable {schema : Schema} {waits : Pending → Prop} {good : Step → Prop}
  (step : ∀ p s, waits p → Resolves schema p s → good s ∧ ∀ q ∈ pendingBelow s p.node, waits q)
include step

theorem forall_of_resolveLevel {index : Nat} {pending : List Pending} {steps : List Step}
    {below : List Pending} (h : resolveLevel schema index pending = .ok (steps, below))
    (hp : ∀ p ∈ pending, waits p) : (∀ s ∈ steps, good s) ∧ ∀ q ∈ below, waits q := by
  induction pending generalizing index steps below with
  | nil =>
    obtain ⟨rfl, rfl⟩ := Prod.mk.inj (Except.ok.inj h)
    exact ⟨nofun, nofun⟩
  | cons p ps ih =>
    obtain ⟨s, rest, belowRest, hs, hr, rfl, rfl⟩ := resolveLevel_cons_eq_ok h
    obtain ⟨hgood, hbelow⟩ := step p s (hp p List.mem_cons_self) (resolveNode_eq_ok hs).2
    obtain ⟨hrest, hbelowRest⟩ := ih hr fun q hq => hp q (List.mem_cons_of_mem p hq)
    refine ⟨List.forall_mem_cons.2 ⟨hgood, hrest⟩, fun q hq => ?_⟩
    rcases List.mem_append.1 hq with hq | hq
    · exact hbelow q hq
    · exact hbelowRest q hq

/-- What holds of pending nodes, and passes to the nodes below, holds of the steps they become. -/
theorem forall_of_resolveLevels {levels index : Nat} {pending : List Pending} {steps : List Step}
    (h : resolveLevels schema levels index pending = .ok steps) (hp : ∀ p ∈ pending, waits p) :
    ∀ s ∈ steps, good s := by
  induction levels generalizing index pending steps with
  | zero =>
    obtain rfl := Except.ok.inj h
    exact nofun
  | succ levels ih =>
    obtain ⟨level, below, rest, hl, hr, rfl⟩ := resolveLevels_succ_eq_ok h
    obtain ⟨hlevel, hbelow⟩ := forall_of_resolveLevel step hl hp
    intro s hs
    rcases List.mem_append.1 hs with hs | hs
    · exact hlevel s hs
    · exact ih hr hbelow s hs

end Invariant

/-! ### Plans -/

/-- What a plan has passed, and where its steps come from. -/
theorem ofSelection_eq_ok {schema : Schema} {settings : Settings} {model : String} {s : Selection}
    {allowed : Option Selection} {p : Plan}
    (h : ofSelection schema settings model s allowed = .ok p) :
    s.checkAllowed allowed = .ok () ∧ s.depth ≤ settings.maxDepth ∧ p.model = model ∧
      s.recursive = false ∧
      (s.wildcard = true ∧ p.steps = everyRelation schema model ∨
        s.wildcard = false ∧
          resolveLevels schema s.size 0 (pendingRoot model s) = .ok p.steps) := by
  unfold ofSelection at h
  split at h
  · cases h
  · rename_i ha
    split at h
    · cases h
    · rename_i hd
      split at h
      · cases h
      · rename_i steps hr
        obtain rfl := Except.ok.inj h
        refine ⟨ha, Selection.checkDepth_eq_ok_iff.1 hd, rfl, ?_⟩
        unfold resolve at hr
        split at hr
        · cases hr
        · rename_i hrec
          refine ⟨by simpa using hrec, ?_⟩
          split at hr
          · rename_i hw
            exact .inl ⟨hw, (Except.ok.inj hr).symm⟩
          · rename_i hw
            exact .inr ⟨by simpa using hw, hr⟩

end Prefetch.Plan

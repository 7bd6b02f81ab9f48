import Mathlib.Data.List.Nodup
import Prefetch.Proofs.Plan.Tasks
import Prefetch.Proofs.Selection.Preorder

/-!
# Branching — steps are told apart by their paths

Below a step, and below the base rows, each relation is fetched by one step at most.  A path then
leads to one step: it ends with the step's relation, and what comes before leads to the step above.

* `Orderly.eq_of_path` — a path leads to one step.
* `Plan.branching_of_ofSelection` — the steps of a plan for a well-formed selection branch.
-/

namespace Prefetch

/-- No two steps hang on the same step with the same relation. -/
def Branching (steps : List Step) : Prop :=
  ∀ s ∈ steps, ∀ s' ∈ steps, s.parent = s'.parent → s.relation = s'.relation → s = s'

variable {schema : Schema} {model : String} {steps : List Step}

namespace Orderly

theorem path_ne_nil (h : Orderly schema model steps) {s : Step} (hs : s ∈ steps) : s.path ≠ [] := by
  have hpos := h.depth_pos hs
  rw [h.depth s hs] at hpos
  exact List.ne_nil_of_length_pos hpos

/-- A path leads to one step. -/
theorem eq_of_path (h : Orderly schema model steps) (hb : Branching steps) {s s' : Step}
    (hs : s ∈ steps) (hs' : s' ∈ steps) (hpath : s.path = s'.path) : s = s' := by
  induction hn : s.index using Nat.strong_induction_on generalizing s s' with
  | _ n ih =>
    have hrelation : s.relation = s'.relation := by rw [Step.relation, Step.relation, hpath]
    refine hb s hs s' hs' ?_ hrelation
    cases h.hangs s hs with
    | base parent path =>
      cases h.hangs s' hs' with
      | base parent' => rw [parent, parent']
      | below up' mem' _ path' =>
        -- a path of one name has nothing above it
        have hjoined : [] ++ [s.relation] = up'.path ++ [s'.relation] := by
          rw [← path', ← hpath, path]
          rfl
        obtain ⟨hnil, -⟩ := List.append_inj' hjoined rfl
        exact absurd hnil.symm (h.path_ne_nil mem')
    | below up mem parent path =>
      cases h.hangs s' hs' with
      | base _ path' =>
        have hjoined : up.path ++ [s.relation] = [] ++ [s'.relation] := by
          rw [← path, hpath, path']
          rfl
        obtain ⟨hnil, -⟩ := List.append_inj' hjoined rfl
        exact absurd hnil (h.path_ne_nil mem)
      | below up' mem' parent' path' =>
        rw [path, path'] at hpath
        obtain ⟨hup, -⟩ := List.append_inj' hpath rfl
        have hlt := h.before s hs _ parent
        rw [parent, parent', ih up.index (by omega) mem mem' hup rfl]

end Orderly

/-! ### Nodes with their names -/

theorem mem_nodesUnder {tasks : List Task} {t : Task} (ht : t ∈ tasks) :
    t.node ∈ nodesUnder tasks t.step.parent :=
  List.mem_map_of_mem (List.mem_filter.2 ⟨ht, by simp⟩)

/-- Nodes of different names below each step make steps that branch. -/
theorem branching_of_tasks {tasks : List Task} (hfits : ∀ t ∈ tasks, t.Fits)
    (hnames : ∀ t ∈ tasks, ((nodesUnder tasks t.step.parent).map (·.label)).Nodup) :
    Branching (tasks.map (·.step)) := by
  intro s hs s' hs' hparent hrelation
  obtain ⟨t, ht, rfl⟩ := List.mem_map.1 hs
  obtain ⟨t', ht', rfl⟩ := List.mem_map.1 hs'
  have hnodup := hnames t ht
  rw [nodesUnder, List.map_map] at hnodup
  rw [(hfits t ht).relation, (hfits t' ht').relation] at hrelation
  have hsame := List.inj_on_of_nodup_map hnodup (List.mem_filter.2 ⟨ht, by simp⟩)
    (List.mem_filter.2 ⟨ht', by simpa using hparent.symm⟩) hrelation
  rw [hsame]

/-- The nodes wanted for a well-formed selection are well-formed, and no two have one name. -/
theorem Selection.wellFormed_wanted {s : Selection} (hschema : schema.Registered)
    (hs : s.WellFormed) (hrecursive : s.recursive = false) :
    (∀ node ∈ s.wanted schema model, node.WellFormed) ∧
      ((s.wanted schema model).map (·.label)).Nodup := by
  unfold wanted
  rw [hrecursive]
  split
  · refine ⟨fun node hnode => ?_, ?_⟩
    · obtain ⟨name, -, rfl⟩ := List.mem_map.1 hnode
      exact wellFormed_everything (.named name)
    · have hnames := hschema.nodup_namesOf model
      rw [List.map_map]
      rwa [← List.map_id (schema.namesOf model)] at hnames
  · exact ⟨fun node hnode => hs.of_mem hnode, hs.coherent.nodup_labels⟩

/-- The task that a task hangs on stands in front of it. -/
theorem Orderly.exists_task {tasks : List Task} (h : Orderly schema model (tasks.map (·.step)))
    {t : Task} (ht : t ∈ tasks) {i : Nat} (hp : t.step.parent = some i) :
    ∃ up ∈ tasks, t.step.parent = some up.step.index ∧ up.step.index < t.step.index := by
  have hmem : t.step ∈ tasks.map (·.step) := List.mem_map_of_mem ht
  obtain ⟨_, hup, rfl⟩ := h.exists_up hmem hp
  obtain ⟨up, hm, rfl⟩ := List.mem_map.1 hup
  exact ⟨up, hm, hp, h.before _ hmem _ hp⟩

/-- Children of well-formed nodes are well-formed, from the base rows down. -/
theorem Orderly.wellFormed_of_tasks {tasks : List Task}
    (h : Orderly schema model (tasks.map (·.step)))
    (hbase : ∀ node ∈ nodesUnder tasks none, node.WellFormed)
    (hbelow : ∀ up ∈ tasks, ∀ node ∈ nodesUnder tasks (some up.step.index),
      node ∈ up.node.children) : ∀ t ∈ tasks, t.node.WellFormed := by
  intro t ht
  induction hn : t.step.index using Nat.strong_induction_on generalizing t with
  | _ n ih =>
    have hnode := mem_nodesUnder ht
    cases hp : t.step.parent with
    | none =>
      rw [hp] at hnode
      exact hbase _ hnode
    | some i =>
      obtain ⟨up, hup, hparent, hlt⟩ := h.exists_task ht hp
      rw [hparent] at hnode
      exact (ih _ (by omega) up hup rfl).of_mem (hbelow up hup _ hnode)

namespace Plan

/-- The steps of a plan for a well-formed selection branch, and nothing hangs below a marked one. -/
theorem branching_of_ofSelection {settings : Settings} {s : Selection} {allowed : Option Selection}
    {p : Plan} (hschema : schema.Registered) (hs : s.WellFormed)
    (h : ofSelection schema settings model s allowed = .ok p) :
    Branching p.steps ∧
      ∀ up ∈ p.steps, up.growth ≠ .none → ∀ s ∈ p.steps, s.parent ≠ some up.index := by
  obtain ⟨-, -, -, hrecursive, -⟩ := ofSelection_eq_ok h
  obtain ⟨horderly, tasks, hsteps, hfits, hbase, hbelow⟩ :=
    exists_tasks_of_ofSelection hschema h
  rw [← hsteps] at horderly ⊢
  obtain ⟨hwanted, hnames⟩ := Selection.wellFormed_wanted hschema hs hrecursive
  have hwell : ∀ t ∈ tasks, t.node.WellFormed := by
    refine horderly.wellFormed_of_tasks (hbase ▸ hwanted) fun up hup node hnode => ?_
    rw [hbelow up hup] at hnode
    split at hnode
    · exact hnode
    · cases hnode
  refine ⟨branching_of_tasks hfits fun t ht => ?_, fun up hup hgrowth s' hs' hparent => ?_⟩
  · cases hp : t.step.parent with
    | none =>
      rw [hbase]
      exact hnames
    | some i =>
      obtain ⟨up, hm, hparent, -⟩ := horderly.exists_task ht hp
      rw [← hp, hparent, hbelow up hm]
      split
      · exact (hwell up hm).coherent.nodup_labels
      · exact List.nodup_nil
  · obtain ⟨u, hu, rfl⟩ := List.mem_map.1 hup
    obtain ⟨t, ht, rfl⟩ := List.mem_map.1 hs'
    have hnode := mem_nodesUnder ht
    rw [hparent, hbelow u hu, if_neg hgrowth] at hnode
    cases hnode

end Plan

end Prefetch

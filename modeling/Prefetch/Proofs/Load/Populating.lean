import Mathlib.Data.List.Forall2
import Mathlib.Data.List.Infix
import Prefetch.Proofs.Load.Answers
import Prefetch.Proofs.Load.Attaching
import Prefetch.Proofs.Load.StepTable
import Prefetch.Source.Scripted

/-!
# Populating — what the rows of a load hold, at every depth

Whatever a source returns, a load that succeeds gives back the base rows, in order, each with one
field for every step that hangs on the base rows and with no other change.  What such a field holds
are rows that the source returned for that very step, each with one field for every step below and
with no other change, except that a row which came through a join table has lost the key of its
owner; and so on.

The pass over a board goes from the last step to the first, so a row has the fields of all steps
below its own before it is attached.

* `Populated` — a row and what has become of it.
* `Carries.setField` — a row with one more field.
* `Carried.attachStep` — one step of the pass gives the rows that it hangs on one more field.
* `carried_of_attachAll` — all steps of the pass.
* `execute_populated` — loads that succeed.
-/

namespace Prefetch

/-! ### Populated rows -/

section Populated

variable (steps : List Step) (fetched : Nat → List Value)

mutual

/-- The second record is the first one with the fields of all steps that hang on a step, or on the
base rows.  `fetched` are the rows that the source returned for each step. -/
inductive Populated : Option Nat → Value → Value → Prop where
  | record {parent : Option Nat} {row out : Value} (value : Step → Value)
    (before : row.isObject = true) (after : out.isObject = true)
    (kept : ∀ name, (∀ s ∈ steps, s.parent = parent → s.relation ≠ name) →
      out.field? name = row.field? name)
    (set : ∀ s ∈ steps, s.parent = parent → out.field? s.relation = some (value s))
    (filled : ∀ s ∈ steps, s.parent = parent → Filled s (value s)) : Populated parent row out

/-- What the field of a step may hold: a list of its rows, or one of them or null where there is at
most one. -/
inductive Filled : Step → Value → Prop where
  | list {s : Step} {items : List Value} (many : s.association.kind ≠ .oneToOne)
    (placed : ∀ item ∈ items, Placed s item) : Filled s (.array items)
  | one {s : Step} {item : Value} (single : s.association.kind = .oneToOne)
    (placed : Placed s item) : Filled s item
  | none {s : Step} (single : s.association.kind = .oneToOne) : Filled s .null

/-- A row of a step where it is attached.  It has lost the key of its owner exactly when it came
through a join table. -/
inductive Placed : Step → Value → Prop where
  | direct {s : Step} {row out : Value} (mem : row ∈ fetched s.index)
    (direct : s.association.joinTable = .none) (populated : Populated (some s.index) row out) :
    Placed s out
  | linked {s : Step} {row out : Value} (mem : row ∈ fetched s.index)
    (linked : s.association.joinTable.isSome = true)
    (populated : Populated (some s.index) (row.eraseField Association.ownerKeyField) out) :
    Placed s out

end

end Populated

/-! ### One field more -/

/-- A row in the course of the pass: it has the fields of the steps that are done. -/
structure Carries (done : List Step) (fits : Step → Value → Prop) (parent : Option Nat)
    (row out : Value) : Prop where
  object : out.isObject = row.isObject
  kept : ∀ name, (∀ s ∈ done, s.parent = parent → s.relation ≠ name) →
    out.field? name = row.field? name
  set : row.isObject = true → ∀ s ∈ done, s.parent = parent →
    ∃ v, out.field? s.relation = some v ∧ fits s v

namespace Carries

variable {done steps : List Step} {fits : Step → Value → Prop} {fetched : Nat → List Value}
  {parent : Option Nat} {row out : Value} {s : Step}

theorem nil (fits : Step → Value → Prop) (parent : Option Nat) (row : Value) :
    Carries [] fits parent row row :=
  ⟨rfl, fun _ _ => rfl, fun _ => nofun⟩

/-- A step that hangs elsewhere. -/
theorem skip (h : Carries done fits parent row out) (hs : s.parent ≠ parent) :
    Carries (s :: done) fits parent row out := by
  refine ⟨h.object, fun name hname => ?_, fun hrow s' hs' hparent => ?_⟩
  · exact h.kept name fun s' hs' => hname s' (List.mem_cons_of_mem s hs')
  · rcases List.mem_cons.1 hs' with rfl | hs'
    · exact absurd hparent hs
    · exact h.set hrow s' hs' hparent

/-- A step that hangs here sets its field and leaves the others alone. -/
theorem setField (h : Carries done fits s.parent row out)
    (hnew : ∀ s' ∈ done, s'.parent = s.parent → s'.relation ≠ s.relation) {v : Value}
    (hv : fits s v) : Carries (s :: done) fits s.parent row (out.setField s.relation v) := by
  refine ⟨?_, fun name hname => ?_, fun hrow s' hs' hparent => ?_⟩
  · rw [Value.isObject_setField, h.object]
  · rw [Value.field?_setField_of_ne (hname s List.mem_cons_self rfl).symm]
    exact h.kept name fun s' hs' => hname s' (List.mem_cons_of_mem s hs')
  · rcases List.mem_cons.1 hs' with rfl | hs'
    · exact ⟨v, Value.field?_setField_self (h.object.trans hrow) _ _, hv⟩
    · rw [Value.field?_setField_of_ne (hnew s' hs' hparent)]
      exact h.set hrow s' hs' hparent

/-- A field that is no relation can be erased before or after. -/
theorem eraseField (h : Carries done fits parent row out) {name : String}
    (hname : ∀ s ∈ done, s.relation ≠ name) :
    Carries done fits parent (row.eraseField name) (out.eraseField name) := by
  refine ⟨?_, fun other hother => ?_, fun hrow s hs hparent => ?_⟩
  · rw [Value.isObject_eraseField, Value.isObject_eraseField, h.object]
  · by_cases he : other = name
    · rw [he, Value.field?_eraseField_self, Value.field?_eraseField_self]
    · rw [Value.field?_eraseField_of_ne he, Value.field?_eraseField_of_ne he, h.kept other hother]
  · rw [Value.isObject_eraseField] at hrow
    rw [Value.field?_eraseField_of_ne (hname s hs)]
    exact h.set hrow s hs hparent

/-- A record that has the fields of all steps that hang on its step. -/
theorem populated (h : Carries done (Filled steps fetched) parent row out)
    (hrow : row.isObject = true) (hsome : ∀ s ∈ done, s ∈ steps)
    (hall : ∀ s ∈ steps, s.parent = parent → s ∈ done) :
    Populated steps fetched parent row out := by
  have hset := h.set hrow
  choose! value hvalue using hset
  refine .record value hrow (h.object.trans hrow) (fun name hname => ?_) (fun s hs hparent => ?_)
    fun s hs hparent => ?_
  · exact h.kept name fun s hs => hname s (hsome s hs)
  · exact (hvalue s (hall s hs hparent) hparent).1
  · exact (hvalue s (hall s hs hparent) hparent).2

end Carries

/-! ### The pass over a board -/

namespace Association

variable {a : Association} {children : List Value}

/-- What belongs to a parent are fetched records as they are attached. -/
theorem exists_of_mem_belonging {parent item : Value} (h : item ∈ a.belonging children parent) :
    ∃ child ∈ children, child.isObject = true ∧ item = a.stripped child := by
  unfold belonging at h
  split at h
  · cases h
  · obtain ⟨child, hchild, rfl⟩ := List.mem_map.1 h
    obtain ⟨hmem, hkey⟩ := List.mem_filter.1 hchild
    exact ⟨child, hmem, isObject_of_keyIn (beq_iff_eq.1 hkey), rfl⟩

/-- A list for many rows; the first row, or null, for at most one. -/
theorem related_cases (a : Association) (rows : List Value) :
    (a.kind ≠ .oneToOne ∧ a.related rows = .array rows) ∨
      (a.kind = .oneToOne ∧ ((∃ row ∈ rows, a.related rows = row) ∨ a.related rows = .null)) := by
  unfold related
  cases hk : a.kind with
  | oneToOne =>
    refine .inr ⟨rfl, ?_⟩
    cases rows with
    | nil => exact .inr rfl
    | cons row rows => exact .inl ⟨row, List.mem_cons_self, rfl⟩
  | oneToMany => exact .inl ⟨nofun, rfl⟩
  | manyToMany => exact .inl ⟨nofun, rfl⟩

end Association

/-- What stands on the right of two related lists has something on the left. -/
theorem exists_left_of_forall₂ {α β : Type} {R : α → β → Prop} {xs : List α} {ys : List β}
    (h : List.Forall₂ R xs ys) {y : β} (hy : y ∈ ys) : ∃ x ∈ xs, R x y := by
  induction h with
  | nil => cases hy
  | @cons x _ xs _ hxy _ ih =>
    rcases List.mem_cons.1 hy with rfl | hy
    · exact ⟨x, List.mem_cons_self, hxy⟩
    · obtain ⟨x', hx', hr⟩ := ih hy
      exact ⟨x', List.mem_cons_of_mem x hx', hr⟩

section Pass

variable {steps done : List Step} {fetched : Nat → List Value} {s : Step}

/-- Fetched rows that have all their fields fill the field of their step. -/
theorem filled_related {children : List Value}
    (hchildren : List.Forall₂ (Carries done (Filled steps fetched) (some s.index))
      (fetched s.index) children)
    (hname : ∀ s' ∈ done, s'.relation ≠ Association.ownerKeyField) (hsome : ∀ s' ∈ done, s' ∈ steps)
    (hall : ∀ s' ∈ steps, s'.parent = some s.index → s' ∈ done) (parent : Value) :
    Filled steps fetched s (s.association.related (s.association.belonging children parent)) := by
  have hplaced : ∀ item ∈ s.association.belonging children parent, Placed steps fetched s item := by
    intro item hitem
    obtain ⟨child, hchild, hobject, rfl⟩ := Association.exists_of_mem_belonging hitem
    obtain ⟨row, hrow, hcarries⟩ := exists_left_of_forall₂ hchildren hchild
    rw [hcarries.object] at hobject
    unfold Association.stripped Association.matchField
    cases hj : s.association.joinTable with
    | none => exact .direct hrow hj (hcarries.populated hobject hsome hall)
    | some j =>
      refine .linked hrow (by rw [hj]; rfl) ((hcarries.eraseField hname).populated ?_ hsome hall)
      rw [Value.isObject_eraseField]
      exact hobject
  rcases s.association.related_cases (s.association.belonging children parent) with
    ⟨hmany, hrelated⟩ | ⟨hsingle, ⟨item, hitem, hrelated⟩ | hrelated⟩
  · rw [hrelated]
    exact .list hmany hplaced
  · rw [hrelated]
    exact .one hsingle (hplaced item hitem)
  · rw [hrelated]
    exact .none hsingle

/-- The pass after some steps: the base rows, and the rows of each step in front, have the fields of
these steps. -/
structure Carried (steps : List Step) (fetched : Nat → List Value) (base : List Value) (count : Nat)
    (done : List Step) (a : Assembly) : Prop where
  base : List.Forall₂ (Carries done (Filled steps fetched) none) base a.base
  rows : ∀ i < count,
    List.Forall₂ (Carries done (Filled steps fetched) (some i)) (fetched i) (a.rowsOf i)

variable {base : List Value} {a a' : Assembly}

/-- One step of the pass gives the rows that it hangs on one more field. -/
theorem Carried.attachStep (h : Carried steps fetched base (s.index + 1) done a)
    (hbefore : ∀ i, s.parent = some i → i < s.index)
    (hname : ∀ s' ∈ done, s'.relation ≠ Association.ownerKeyField) (hsome : ∀ s' ∈ done, s' ∈ steps)
    (hall : ∀ s' ∈ steps, s'.parent = some s.index → s' ∈ done)
    (hnew : ∀ s' ∈ done, s'.parent = s.parent → s'.relation ≠ s.relation)
    (hok : a.attachStep s = .ok a') : Carried steps fetched base s.index (s :: done) a' := by
  have hself : s.parent ≠ some s.index := fun he => Nat.lt_irrefl _ (hbefore _ he)
  have hattaches := Assembly.attaches_of_attachStep hself hok
  have hfill := filled_related (h.rows s.index (Nat.lt_succ_self _)) hname hsome hall
  -- rows of a parent, which get the field, and rows of another
  have hdressed : ∀ {xs ys : List Value},
      List.Forall₂ (Carries done (Filled steps fetched) s.parent) xs ys →
      List.Forall₂ (Carries (s :: done) (Filled steps fetched) s.parent) xs
        (ys.map (s.association.dressed s.relation (a.rowsOf s.index))) := by
    intro xs ys hxs
    rw [List.forall₂_map_right_iff]
    exact hxs.imp fun row out hcarries => hcarries.setField hnew (hfill out)
  have hother : ∀ {parent : Option Nat} {xs ys : List Value}, s.parent ≠ parent →
      List.Forall₂ (Carries done (Filled steps fetched) parent) xs ys →
      List.Forall₂ (Carries (s :: done) (Filled steps fetched) parent) xs ys :=
    fun hne hxs => hxs.imp fun row out hcarries => hcarries.skip hne
  refine ⟨?_, fun i hi => ?_⟩
  · rw [hattaches.base]
    split
    · rename_i hp
      have hbase := h.base
      rw [← hp] at hbase ⊢
      exact hdressed hbase
    · rename_i hp
      exact hother hp h.base
  · rw [hattaches.rows, if_neg (Nat.ne_of_lt hi)]
    have hrows := h.rows i (Nat.lt_succ_of_lt hi)
    split
    · rename_i hp
      rw [← hp] at hrows ⊢
      exact hdressed hrows
    · rename_i hp
      exact hother hp hrows

/-- All steps of the pass. -/
theorem carried_of_attachAll {schema : Schema} {model : String} {front back : List Step}
    (h : Orderly schema model (front ++ back)) (hbranching : Branching (front ++ back))
    (hname : ∀ s ∈ front ++ back, s.relation ≠ Association.ownerKeyField)
    (hrows : ∀ i < (front ++ back).length, a.rowsOf i = fetched i)
    (hok : a.attachAll back = .ok a') :
    Carried (front ++ back) fetched a.base front.length back a' := by
  induction back generalizing front a' with
  | nil =>
    obtain rfl := Except.ok.inj hok
    refine ⟨List.forall₂_same.2 fun row _ => .nil _ _ _, fun i hi => ?_⟩
    rw [hrows i (by simpa using hi)]
    exact List.forall₂_same.2 fun row _ => .nil _ _ _
  | cons s back ih =>
    obtain ⟨a₁, hlater, hok⟩ := Assembly.attachAll_cons_eq_ok hok
    have hindex : s.index = front.length := h.index front.length s (by simp)
    have hs : s ∈ front ++ s :: back := by simp
    have hmem : ∀ s' ∈ back, s' ∈ front ++ s :: back := by
      intro s' hs'
      simp [hs']
    have hsplit : front ++ s :: back = (front ++ [s]) ++ back := by simp
    have hcarried : Carried (front ++ s :: back) fetched a.base (s.index + 1) back a₁ := by
      rw [hsplit] at h hbranching hname hrows ⊢
      rw [hindex, ← List.length_singleton (a := s), ← List.length_append]
      exact ih h hbranching hname hrows hlater
    rw [← hindex]
    refine hcarried.attachStep (h.before s hs) (fun s' hs' => hname s' (hmem s' hs')) hmem
      (fun s' hs' hparent => ?_) (fun s' hs' hparent hrelation => ?_) hok
    · -- a step stands behind the one it hangs on
      have hbefore := h.before s' hs' _ hparent
      rw [hindex] at hbefore
      have hget := h.getElem?_of_mem hs'
      rw [List.getElem?_append_right (by omega), List.getElem?_cons,
        if_neg (by omega)] at hget
      exact List.mem_of_getElem? hget
    · have hsame := hbranching s' (hmem s' hs') s hs hparent hrelation
      have hnodup := h.nodup
      rw [List.nodup_append, List.nodup_cons] at hnodup
      exact hnodup.2.1.1 (hsame ▸ hs')

end Pass

/-! ### Loads -/

namespace Context

open Board

variable {c : Context} {p : Plan} {base rows : List Value} {t : Traffic} {b : Board}
  {settings : Settings} {text model : String} {s : Selection} {allowed : Option Selection}
  {stats : Stats}

/-- Whatever board a run of a plan comes to, its steps branch. -/
theorem Reaches.branching (h : c.Reaches base p t b) (hschema : c.schema.Registered)
    (hread : Selection.parse text = .ok s)
    (hplan : Plan.ofSelection c.schema settings model s allowed = .ok p) : Branching b.steps := by
  obtain ⟨-, -, rfl, -⟩ := Plan.ofSelection_eq_ok hplan
  have horderly := (Plan.exists_tasks_of_ofSelection hschema hplan).1
  obtain ⟨hbranching, hbare⟩ := Plan.branching_of_ofSelection hschema
    (Selection.writable_of_parse hread).wellFormed hplan
  obtain ⟨waves, hafter⟩ := h.exists_after
  rw [← steps_ofPlan] at hbranching hbare
  exact (hafter.branched hschema horderly
    ⟨hbranching, fun up hup hmark _ => hbare up hup hmark⟩).branching

/-- The steps of a plan stay in front. -/
theorem Reaches.steps_prefix (h : c.Reaches base p t b) : p.steps <+: b.steps := by
  induction h with
  | start => rw [steps_ofPlan]
  | wave _ _ run ih =>
    obtain ⟨more, hsteps, -⟩ := steps_runWave run
    rw [hsteps]
    exact ih.trans (List.prefix_append _ _)

/-- No step of a run fetches a relation that no model has. -/
theorem Reaches.relation_ne (h : c.Reaches base p t b) (hschema : c.schema.Registered)
    (hp : Orderly c.schema p.model p.steps) {name : String}
    (hname : ∀ e ∈ c.schema.entries, e.relation ≠ name) : ∀ s ∈ b.steps, s.relation ≠ name := by
  intro s hs
  have hdeclared := (h.levelled hschema hp).orderly.declared s hs
  have hmem := Schema.mem_relationsOf.1 (Schema.mem_relationsOf_of_lookup hdeclared)
  exact hname _ hmem

/-- The rows of a load that succeeds, whatever the source returned.  They are the base rows, in
order, populated with what the source returned for each step, planned or grown; and the source was
asked for the keys of each step and for nothing else. -/
theorem execute_populated (hschema : c.schema.Registered) (hread : Selection.parse text = .ok s)
    (hplan : Plan.ofSelection c.schema settings model s allowed = .ok p)
    (hname : ∀ e ∈ c.schema.entries, e.relation ≠ Association.ownerKeyField)
    (hrun : (c.execute base p).outcome = .ok (rows, stats)) :
    ∃ (t : Traffic) (b : Board) (replies : List Reply),
      c.Reaches base p t b ∧ b.ready = [] ∧ p.steps <+: b.steps ∧
        c.Exchanges c.past (b.asked base c.settings.batchSize) (c.execute base p).issued replies ∧
        List.Forall₂ (Populated b.steps (rowsFor replies) none) base rows := by
  obtain ⟨-, -, hmodel, -⟩ := Plan.ofSelection_eq_ok hplan
  have hp := (Plan.exists_tasks_of_ofSelection hschema hplan).1
  rw [← hmodel] at hp
  obtain ⟨t, b, hreaches, hready, hissued, hend⟩ := execute_eq_ok hschema hp hrun
  have hlevelled := hreaches.levelled hschema hp
  obtain ⟨replies, hexchanges, hrows⟩ := hreaches.exists_replies hschema hp
  refine ⟨t, b, replies, hreaches, hready, hreaches.steps_prefix, hissued ▸ hexchanges, ?_⟩
  obtain ⟨a, ha, rfl, rfl⟩ := conclude_eq_ok hend
  have hfetched : ∀ i < b.steps.length,
      (Assembly.ofBoard base b).rowsOf i = rowsFor replies i := by
    intro i hi
    rw [length_steps] at hi
    have hslot := List.getElem?_eq_getElem hi
    have hindex : b.slots[i].step.index = i :=
      hlevelled.orderly.index i _ (by rw [getElem?_steps, hslot]; rfl)
    rw [Assembly.rowsOf_ofBoard, fetchedRows, hslot, Option.map_some, Option.getD_some,
      hrows _ (List.getElem_mem hi), hindex]
  have hcarried : Carried ([] ++ b.steps) (rowsFor replies) base ([] : List Step).length b.steps a :=
    carried_of_attachAll hlevelled.orderly (hreaches.branching hschema hread hplan)
      (hreaches.relation_ne hschema hp hname) hfetched ha
  obtain ⟨-, -, hcheck, -⟩ := exists_runWaves_of_execute hrun
  have hbase := checkBase_eq_ok_iff.1 hcheck
  have hcarries := (List.forall₂_and_left _ _).2 ⟨hbase, hcarried.base⟩
  exact hcarries.imp fun row out h => h.2.populated h.1 (fun _ hs => hs) fun _ hs _ => hs

/-- A user's groups come through a join table and lose the key of their owner; each of them gets the
field of a step that has grown, and no lead is found. -/
theorem execute_populated_groups :
    let groups : Association :=
      ⟨.manyToMany, "group", "groups", "id", "id", some ⟨"members", "user_id", "group_id"⟩⟩
    let lead : Association := ⟨.oneToOne, "user", "users", "lead_id", "id", none⟩
    let schema : Schema := ⟨[⟨"user", "groups", groups⟩, ⟨"group", "lead", lead⟩]⟩
    let group : Value := .object [("id", .string "g"), ("lead_id", .string "2"),
      (Association.ownerKeyField, .string "1")]
    let s : Selection := { children := [(Selection.named "groups").everything] }
    let c : Context := ⟨schema, {}, .scripted [.ok [group], .ok []], [], none⟩
    let p : Plan := ⟨"user", [⟨0, none, ["groups"], "user", groups, 1, .everything⟩]⟩
    let base : List Value := [.object [("id", .string "1")]]
    let rows : List Value := [.object [("id", .string "1"), ("groups", .array
      [.object [("id", .string "g"), ("lead_id", .string "2"), ("lead", .null)]])]]
    schema.Registered ∧ Selection.parse "groups.*" = .ok s ∧
      Plan.ofSelection schema {} "user" s none = .ok p ∧
      (∀ e ∈ schema.entries, e.relation ≠ Association.ownerKeyField) ∧
      ∃ stats, (c.execute base p).outcome = .ok (rows, stats) ∧
        ∃ (t : Traffic) (b : Board) (replies : List Reply),
          c.Reaches base p t b ∧ b.ready = [] ∧ p.steps <+: b.steps ∧
            c.Exchanges c.past (b.asked base c.settings.batchSize) (c.execute base p).issued
              replies ∧
            List.Forall₂ (Populated b.steps (rowsFor replies) none) base rows := by
  intro groups lead schema group s c p base rows
  have hgroups : Schema.empty.register "user" "groups" groups =
      .ok ⟨[⟨"user", "groups", groups⟩]⟩ := by
    decide +kernel
  have hlead : Schema.register ⟨[⟨"user", "groups", groups⟩]⟩ "group" "lead" lead = .ok schema := by
    decide +kernel
  have hschema : schema.Registered := .register (.register .empty hgroups) hlead
  have hread : Selection.parse "groups.*" = .ok s := by rfl
  have hplan : Plan.ofSelection schema {} "user" s none = .ok p := by rfl
  have hname : ∀ e ∈ schema.entries, e.relation ≠ Association.ownerKeyField := by decide +kernel
  have hrun : (c.execute base p).outcome = .ok (rows, ⟨2, 1, 1, 0, 2, 2⟩) := by cbv
  exact ⟨hschema, hread, hplan, hname, _, hrun,
    execute_populated hschema hread hplan hname hrun⟩

end Context

end Prefetch

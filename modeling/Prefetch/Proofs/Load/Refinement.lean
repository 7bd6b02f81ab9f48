import Prefetch.Proofs.Load.Dressing
import Prefetch.Proofs.Load.Joining
import Prefetch.Proofs.Load.Unfolding

/-!
# Refinement — a run loads what each row would load by itself

Once every step has run, the board has a step for each wanted relation of all rows that were fetched,
and the fetched rows that belong to a parent are the rows joined to it.  The pass that puts the board
together then gives each row what the row-by-row loader gives it.  The induction is on the levels
that the row-by-row loader may go down: a step hangs below a step in front of it, so there are never
more levels than steps.

* `Complete.loadRow_of_below` — one row, if the rows of its fields are loaded as on the board.
* `Complete.loadRow_stripped` — every fetched row.
* `execute_eq_loadRows` — the base rows.
-/

namespace Prefetch

theorem mapM_eq_some {α β : Type} {f : α → Option β} {g : α → β} {xs : List α}
    (h : ∀ x ∈ xs, f x = some (g x)) : xs.mapM f = some (xs.map g) := by
  induction xs with
  | nil => rfl
  | cons x xs ih =>
    rw [List.mapM_cons, h x List.mem_cons_self, ih fun y hy => h y (List.mem_cons_of_mem x hy)]
    rfl

/-! ### Names that stay apart -/

/-- No relation of the steps is called like a column that a step reads or is matched by, and neither
a relation nor a column that is read is called like the field with the owner's key. -/
structure Separate (steps : List Step) : Prop where
  owner : ∀ s ∈ steps, ∀ s' ∈ steps, s'.relation ≠ s.association.ownerColumn
  matched : ∀ s ∈ steps, ∀ s' ∈ steps, s'.relation ≠ s.association.matchField
  key : ∀ s ∈ steps, s.relation ≠ Association.ownerKeyField ∧
    s.association.ownerColumn ≠ Association.ownerKeyField

section Stripped

variable {rows : Nat → List Value} {steps : List Step} {parent : Option Nat} {a : Association}

theorem stripped_dress (hkey : ∀ s ∈ steps, s.relation ≠ Association.ownerKeyField ∧
    s.association.ownerColumn ≠ Association.ownerKeyField) (row : Value) :
    a.stripped (dress rows steps parent row) = dress rows steps parent (a.stripped row) := by
  cases hj : a.joinTable with
  | none => simp [Association.stripped, hj]
  | some j =>
    have hmatch : a.matchField = Association.ownerKeyField := by rw [Association.matchField, hj]
    simp only [Association.stripped, hj, hmatch]
    exact (dress_eraseField hkey row).symm

theorem keyIn_stripped {column : String} (h : column ≠ Association.ownerKeyField) (row : Value) :
    (a.stripped row).keyIn column = row.keyIn column := by
  cases hj : a.joinTable with
  | none => simp [Association.stripped, hj]
  | some j =>
    have hmatch : a.matchField = Association.ownerKeyField := by rw [Association.matchField, hj]
    simp only [Association.stripped, hj, hmatch]
    exact Value.keyIn_eraseField_of_ne h row

/-- What belongs to a parent is dressed before or after it is picked out. -/
theorem belonging_map {f : Value → Value} (hkey : ∀ v, a.ownerKey? (f v) = a.ownerKey? v)
    (hstripped : ∀ v, a.stripped (f v) = f (a.stripped v)) (children : List Value)
    (owner : Value) : a.belonging (children.map f) owner = (a.belonging children owner).map f := by
  unfold Association.belonging
  split
  · rfl
  · rw [List.filter_map, List.map_map, List.map_map]
    have hfilter : ∀ k : JoinKey,
        ((fun child => a.ownerKey? child == some k) ∘ f) = fun child =>
          a.ownerKey? child == some k := by
      intro k
      funext v
      rw [Function.comp_apply, hkey]
    rw [hfilter]
    exact List.map_congr_left fun v _ => hstripped v

theorem joined_congr {tables : Tables} {owner row : Value}
    (h : row.keyIn a.ownerColumn = owner.keyIn a.ownerColumn) :
    tables.joined a row = tables.joined a owner := by
  rw [Tables.joined, Tables.joined, h]

end Stripped

/-! ### Complete boards -/

/-- A board on which every step has run. -/
structure Complete (c : Context) (tables : Tables) (base : List Value) (p : Plan) (s : Selection)
    (b : Board) (tasks : List Task) : Prop where
  levelled : b.Levelled c p
  unfolds : b.Unfolds c.schema p.model s tasks
  fed : b.Fed tables c.settings.batchSize base
  ran : ∀ slot ∈ b.slots, slot.ran = true
  free : tables.FreeOfOwnerKeys
  separate : Separate b.steps

namespace Complete

variable {c : Context} {tables : Tables} {base : List Value} {p : Plan} {s : Selection} {b : Board}
  {tasks : List Task}

/-- The fetched rows that belong to an owner are the rows joined to it. -/
theorem belonging_fetchedRows (h : Complete c tables base p s b tasks) {step : Step}
    (hs : step ∈ b.steps) {owner : Value} (howner : owner ∈ b.ownersOf base step.parent) :
    step.association.belonging (b.fetchedRows step.index) owner =
      tables.joined step.association owner := by
  obtain ⟨slot, hslot, rfl⟩ := h.levelled.exists_slot hs
  have hmem := List.mem_of_getElem? hslot
  have hran := h.ran slot hmem
  have hrows : b.fetchedRows slot.step.index =
      tables.fetched c.settings.batchSize (b.owners base slot.step) slot.step := by
    rw [Board.fetchedRows, hslot]
    exact h.fed.rows slot hmem hran
  rw [hrows]
  rw [← b.owners_eq] at howner
  exact Tables.belonging_fetched h.free (h.fed.served slot hmem hran) howner

/-- No step up to some point hangs on the step at that point. -/
theorem parent_ne (h : Complete c tables base p s b tasks) {front back : List Task} {t : Task}
    (hsplit : tasks = front ++ t :: back) :
    ∀ s ∈ (front ++ [t]).map (·.step), s.parent ≠ some t.step.index := by
  have ho := h.levelled.orderly
  have hsteps : b.steps = front.map (·.step) ++ t.step :: back.map (·.step) := by
    rw [← h.unfolds.steps, hsplit, List.map_append, List.map_cons]
  have hindex : t.step.index = front.length :=
    ho.index front.length t.step (by simp [hsteps])
  intro s' hs' hp
  have hmem : s' ∈ b.steps := by
    rw [hsteps]
    simp only [List.map_append, List.map_cons, List.map_nil, List.mem_append,
      List.mem_singleton] at hs'
    rcases hs' with hs' | rfl
    · exact List.mem_append_left _ hs'
    · simp
  have hlt := ho.before s' hmem _ hp
  obtain ⟨i, hi⟩ := List.mem_iff_getElem?.1 hs'
  have hilt := (List.getElem?_eq_some_iff.1 hi).1
  have hget : b.steps[i]? = some s' := by
    have happ : b.steps = (front ++ [t]).map (·.step) ++ back.map (·.step) := by
      rw [hsteps]
      simp
    rw [happ, List.getElem?_append_left hilt]
    exact hi
  have := ho.index i s' hget
  simp only [List.length_map, List.length_append, List.length_singleton] at hilt
  omega

/-- The rows that go into one field of a row, given how the fetched rows of its step are loaded. -/
theorem mapM_joined (h : Complete c tables base p s b tasks) {front back : List Task} {t : Task}
    (hsplit : tasks = front ++ t :: back) {load : Value → Option Value}
    (hload : ∀ r ∈ b.fetchedRows t.step.index, load (t.step.association.stripped r) =
      some (dress b.fetchedRows b.steps (some t.step.index) (t.step.association.stripped r)))
    {owner row : Value} (howner : owner ∈ b.ownersOf base t.step.parent)
    (hkey : row.keyIn t.step.association.ownerColumn =
      owner.keyIn t.step.association.ownerColumn) :
    (tables.joined t.step.association row).mapM load =
      some (t.step.association.belonging ((b.fetchedRows t.step.index).map
        (dress b.fetchedRows (back.map (·.step)) (some t.step.index))) row) := by
  have hmem : t.step ∈ b.steps := h.unfolds.mem_steps (by simp [hsplit])
  have hall : dress b.fetchedRows (back.map (·.step)) (some t.step.index) =
      dress b.fetchedRows b.steps (some t.step.index) := by
    have hsteps : b.steps = (front ++ [t]).map (·.step) ++ back.map (·.step) := by
      rw [← h.unfolds.steps, hsplit]
      simp
    funext x
    rw [hsteps, dress_append (h.parent_ne hsplit)]
  have hjoined : t.step.association.belonging (b.fetchedRows t.step.index) row =
      tables.joined t.step.association row := by
    rw [Association.belonging_congr hkey, joined_congr hkey]
    exact h.belonging_fetchedRows hmem howner
  have hmatched : ∀ v, t.step.association.ownerKey?
      (dress b.fetchedRows b.steps (some t.step.index) v) = t.step.association.ownerKey? v :=
    keyIn_dress fun s' hs' => h.separate.matched t.step hmem s' hs'
  rw [hall, belonging_map hmatched (fun v => stripped_dress h.separate.key v), hjoined]
  refine mapM_eq_some fun x hx => ?_
  rw [← hjoined] at hx
  unfold Association.belonging at hx
  split at hx
  · cases hx
  · obtain ⟨r, hr, rfl⟩ := List.mem_map.1 hx
    exact hload r (List.mem_filter.1 hr).1

/-- One row, given how the rows of its fields are loaded. -/
theorem loadRow_of_below (h : Complete c tables base p s b tasks) {levels : Nat}
    {parent : Option Nat} {model : String} {node : Selection}
    (hnodes : nodesUnder tasks parent = node.wanted c.schema model)
    (hmodel : ∀ t ∈ tasks, t.step.parent = parent → t.step.owner = model)
    (hbelow : ∀ t ∈ tasks, t.step.parent = parent → ∀ r ∈ b.fetchedRows t.step.index,
      tables.loadRow c.schema levels t.step.association.target t.node
        (t.step.association.stripped r) =
      some (dress b.fetchedRows b.steps (some t.step.index) (t.step.association.stripped r)))
    {owner row : Value} (howner : owner ∈ b.ownersOf base parent)
    (hkeys : ∀ column, column ≠ Association.ownerKeyField →
      row.keyIn column = owner.keyIn column) :
    tables.loadRow c.schema (levels + 1) model node row =
      some (dress b.fetchedRows b.steps parent row) := by
  -- field by field, from the last task to the first
  have hfields : ∀ front back, tasks = front ++ back →
      tables.loadFields c.schema (tables.loadRow c.schema levels) model row
        (nodesUnder back parent) =
      some (dress b.fetchedRows (back.map (·.step)) parent row) := by
    intro front back
    induction back generalizing front with
    | nil => exact fun _ => rfl
    | cons t back ih =>
      intro hsplit
      have hlater := ih (front ++ [t]) (by rw [hsplit, List.append_assoc]; rfl)
      have ht : t ∈ tasks := by simp [hsplit]
      have hmem := h.unfolds.mem_steps ht
      rw [List.map_cons, dress]
      by_cases hp : t.step.parent = parent
      · have hnode : nodesUnder (t :: back) parent = t.node :: nodesUnder back parent := by
          simp [nodesUnder, hp]
        have hlookup : c.schema.lookup model t.node.label = some t.step.association := by
          rw [← hmodel t ht hp, ← (h.unfolds.fits t ht).relation]
          exact h.levelled.orderly.declared t.step hmem
        have hfield := h.mapM_joined hsplit (hbelow t ht hp) (hp ▸ howner)
          (hkeys _ (h.separate.key t.step hmem).2)
        rw [hnode, Tables.loadFields, hlater, hlookup, if_pos hp,
          (h.unfolds.fits t ht).relation]
        simp [hfield]
      · have hnode : nodesUnder (t :: back) parent = nodesUnder back parent := by
          simp [nodesUnder, hp]
        rw [hnode, if_neg hp]
        exact hlater
  rw [Tables.loadRow, ← hnodes, hfields [] tasks rfl, h.unfolds.steps]

theorem owner_eq_target (h : Complete c tables base p s b tasks) {t t' : Task} (ht : t ∈ tasks)
    (ht' : t' ∈ tasks) (hp : t'.step.parent = some t.step.index) :
    t'.step.owner = t.step.association.target := by
  have hmem := h.unfolds.mem_steps ht
  cases h.levelled.orderly.hangs t'.step (h.unfolds.mem_steps ht') with
  | base parent => rw [parent] at hp; cases hp
  | below up mem parent _ owner =>
    have he : up.index = t.step.index := Option.some.inj (parent.symm.trans hp)
    rw [owner, h.levelled.orderly.eq_of_index mem hmem he]

theorem owner_eq_model (h : Complete c tables base p s b tasks) {t : Task} (ht : t ∈ tasks)
    (hp : t.step.parent = none) : t.step.owner = p.model := by
  cases h.levelled.orderly.hangs t.step (h.unfolds.mem_steps ht) with
  | base _ _ owner => exact owner
  | below up _ parent => rw [hp] at parent; cases parent

/-- Below a step with rows hang the nodes that its rows are loaded with. -/
theorem nodesUnder_eq_wanted (h : Complete c tables base p s b tasks) {t : Task} (ht : t ∈ tasks)
    {r : Value} (hr : r ∈ b.fetchedRows t.step.index) :
    nodesUnder tasks (some t.step.index) =
      t.node.wanted c.schema t.step.association.target := by
  have hrows : Board.hasRows b.slots t.step = true := by
    unfold Board.fetchedRows at hr
    unfold Board.hasRows
    cases hslot : b.slots[t.step.index]? with
    | none =>
      rw [hslot] at hr
      cases hr
    | some slot =>
      rw [hslot] at hr
      have hne : slot.rows ≠ [] := List.ne_nil_of_mem hr
      simpa using hne
  rw [h.unfolds.below t ht, if_pos (.inr hrows)]

/-- The fetched rows of a step are loaded by themselves as they are on the board. -/
theorem loadRow_stripped (h : Complete c tables base p s b tasks) (levels : Nat) :
    ∀ t ∈ tasks, b.steps.length ≤ t.step.index + levels → ∀ r ∈ b.fetchedRows t.step.index,
      tables.loadRow c.schema levels t.step.association.target t.node
        (t.step.association.stripped r) =
      some (dress b.fetchedRows b.steps (some t.step.index) (t.step.association.stripped r)) := by
  induction levels with
  | zero =>
    intro t ht hlevels
    have := h.levelled.orderly.index_lt (h.unfolds.mem_steps ht)
    omega
  | succ levels ih =>
    intro t ht hlevels r hr
    refine h.loadRow_of_below (h.nodesUnder_eq_wanted ht hr)
      (fun t' ht' hp => h.owner_eq_target ht ht' hp) (fun t' ht' hp => ?_) hr
      fun column hcolumn => keyIn_stripped hcolumn r
    have := h.levelled.orderly.before t'.step (h.unfolds.mem_steps ht') _ hp
    exact ih t' ht' (by omega)

/-- The pass over the board dresses the base rows. -/
theorem base_of_attachAll (h : Complete c tables base p s b tasks) {a : Assembly}
    (hok : (Assembly.ofBoard base b).attachAll b.steps = .ok a) :
    a.base = base.map (dress b.fetchedRows b.steps none) := by
  have hlength : ([] ++ b.steps).length ≤ (Assembly.ofBoard base b).rows.length := by
    simp [Assembly.ofBoard, Board.steps]
  have hdressed := Assembly.dressed_of_attachAll h.levelled.orderly h.separate.owner hlength hok
  rw [hdressed.base, Assembly.rowsOf_ofBoard]
  rfl

/-- The base rows are loaded by themselves as they are on the board. -/
theorem loadRows_eq (h : Complete c tables base p s b tasks) {levels : Nat}
    (hlevels : b.steps.length < levels) :
    tables.loadRows c.schema levels p.model s base =
      some (base.map (dress b.fetchedRows b.steps none)) := by
  obtain ⟨levels, rfl⟩ : ∃ n, levels = n + 1 := ⟨levels - 1, by omega⟩
  refine mapM_eq_some fun row hrow => ?_
  refine h.loadRow_of_below h.unfolds.base (fun t ht hp => h.owner_eq_model ht hp)
    (fun t ht _ => h.loadRow_stripped levels t ht (by omega)) hrow fun _ _ => rfl

end Complete

/-! ### Runs -/

/-- The columns that an association reads or compares. -/
def Association.columns (a : Association) : List String :=
  match a.joinTable with
  | none => [a.ownerColumn, a.relatedColumn]
  | some j => [a.ownerColumn, a.relatedColumn, j.ownerColumn, j.relatedColumn]

/-- Some association of a schema uses the column. -/
def Schema.UsesColumn (schema : Schema) (column : String) : Prop :=
  ∃ e ∈ schema.entries, column ∈ e.association.columns

instance (schema : Schema) (column : String) : Decidable (schema.UsesColumn column) :=
  inferInstanceAs (Decidable (∃ e ∈ schema.entries, column ∈ e.association.columns))

namespace Context

/-- A run loads relations of this name: some step does, planned or put below another. -/
def Loads (c : Context) (base : List Value) (p : Plan) (relation : String) : Prop :=
  ∃ t b, c.Reaches base p t b ∧ ∃ s ∈ b.steps, s.relation = relation

/-- Loaded relations, columns and the field with the owner's key do not get in each other's way. -/
structure Apart (c : Context) (tables : Tables) (base : List Value) (p : Plan) : Prop where
  /-- No loaded relation is called like a column. -/
  relation : ∀ name, c.Loads base p name → ¬ c.schema.UsesColumn name
  /-- None is called like the field with the owner's key. -/
  key : ¬ c.Loads base p Association.ownerKeyField
  /-- No column is called like that field. -/
  column : ¬ c.schema.UsesColumn Association.ownerKeyField
  /-- No row of a table has that field. -/
  row : tables.FreeOfOwnerKeys

variable {c : Context} {tables : Tables} {latency : Nat} {settings : Settings} {model : String}
  {s : Selection} {allowed : Option Selection} {p : Plan} {base : List Value} {t : Traffic}
  {b : Board}

theorem usesColumn_of_step {schema : Schema} {steps : List Step} (h : Orderly schema model steps)
    {step : Step} (hs : step ∈ steps) {column : String}
    (hcolumn : column ∈ step.association.columns) : schema.UsesColumn column := by
  have hdeclared := Schema.mem_relationsOf_of_lookup (h.declared step hs)
  exact ⟨_, Schema.mem_relationsOf.1 hdeclared, hcolumn⟩

theorem Apart.separate (h : c.Apart tables base p) (hb : c.Reaches base p t b)
    (ho : Orderly c.schema p.model b.steps) : Separate b.steps := by
  have hloads : ∀ s ∈ b.steps, c.Loads base p s.relation := fun s hs => ⟨t, b, hb, s, hs, rfl⟩
  have howner : ∀ s ∈ b.steps, c.schema.UsesColumn s.association.ownerColumn := by
    intro s hs
    refine usesColumn_of_step ho hs ?_
    unfold Association.columns
    split <;> exact List.mem_cons_self
  have hne : ∀ {column : String}, c.schema.UsesColumn column → ∀ s ∈ b.steps,
      s.relation ≠ column := by
    intro column hcolumn s hs he
    exact h.relation column (he ▸ hloads s hs) hcolumn
  have hkey : ∀ s ∈ b.steps, s.relation ≠ Association.ownerKeyField :=
    fun s hs he => h.key (he ▸ hloads s hs)
  refine ⟨fun s hs => hne (howner s hs), fun s hs s' hs' => ?_, fun s hs => ⟨hkey s hs, ?_⟩⟩
  · cases hj : s.association.joinTable with
    | none =>
      rw [Association.matchField, hj]
      refine hne (usesColumn_of_step ho hs ?_) s' hs'
      rw [Association.columns, hj]
      exact List.mem_cons_of_mem _ List.mem_cons_self
    | some j =>
      rw [Association.matchField, hj]
      exact hkey s' hs'
  · exact fun he => h.column (he ▸ howner s hs)

/-- Names stay apart when they do so in the whole schema. -/
theorem apart_of_schema (hschema : c.schema.Registered) (ho : Orderly c.schema p.model p.steps)
    (hrelation : ∀ e ∈ c.schema.entries, ¬ c.schema.UsesColumn e.relation)
    (hkey : ∀ e ∈ c.schema.entries, e.relation ≠ Association.ownerKeyField)
    (hcolumn : ¬ c.schema.UsesColumn Association.ownerKeyField) (hrow : tables.FreeOfOwnerKeys) :
    c.Apart tables base p := by
  have hdeclared : ∀ name, c.Loads base p name → ∃ e ∈ c.schema.entries, e.relation = name := by
    rintro name ⟨t, b, hb, s, hs, rfl⟩
    have hlookup := (hb.levelled hschema ho).orderly.declared s hs
    exact ⟨_, Schema.mem_relationsOf.1 (Schema.mem_relationsOf_of_lookup hlookup), rfl⟩
  refine ⟨fun name hname => ?_, fun hname => ?_, hcolumn, hrow⟩
  · obtain ⟨e, he, rfl⟩ := hdeclared name hname
    exact hrelation e he
  · obtain ⟨e, he, hename⟩ := hdeclared _ hname
    exact hkey e he hename

/-- A successful run over tables returns what loading row by row gives.  The selection may be any
tree that can be planned, the settings and the source's latency are arbitrary. -/
theorem execute_eq_loadRows (hschema : c.schema.Registered)
    (hsource : c.source = tables.source latency)
    (hplan : Plan.ofSelection c.schema settings model s allowed = .ok p)
    (hapart : c.Apart tables base p) {rows : List Value} {stats : Stats}
    (hrun : (c.execute base p).outcome = .ok (rows, stats)) :
    ∃ levels, ∀ more, levels ≤ more → tables.loadRows c.schema more model s base = some rows := by
  obtain ⟨-, -, hmodel, -⟩ := Plan.ofSelection_eq_ok hplan
  have horderly := (Plan.exists_tasks_of_ofSelection hschema hplan).1
  rw [← hmodel] at horderly
  unfold execute at hrun
  split at hrun
  · cases hrun
  · split at hrun
    · cases hrun
    · rename_i t b hwaves
      have begun : c.Reaches base p {} (Board.ofPlan p) := .start
      obtain ⟨t', b', he, hb⟩ | ⟨_, _, _, _, he, -, -⟩ := begun.runWaves (c.waveBound p)
      · rw [hwaves] at he
        obtain ⟨-, he⟩ := Prod.mk.inj he
        obtain rfl := Except.ok.inj he
        have hlevelled := hb.levelled hschema horderly
        obtain ⟨tasks, hunfolds⟩ := hb.exists_unfolds hsource hschema hplan
        have hready := ready_of_runWaves hschema (Board.levelled_ofPlan horderly)
          (Nat.le_add_left _ _) hwaves
        have hcomplete : Complete c tables base p s b tasks :=
          ⟨hlevelled, hunfolds, hb.fed hsource hschema horderly,
            fun slot hs => hlevelled.ran_of_ready hready hs, hapart.row,
            hapart.separate hb hlevelled.orderly⟩
        unfold conclude at hrun
        split at hrun
        · cases hrun
        · rename_i a ha
          obtain ⟨rfl, -⟩ := Prod.mk.inj (Except.ok.inj hrun)
          refine ⟨b.steps.length + 1, fun more hmore => ?_⟩
          rw [hcomplete.base_of_attachAll ha, ← hmodel]
          exact hcomplete.loadRows_eq hmore
      · rw [hwaves] at he
        cases he

/-- Two users with a post each, one of which has a tag, loaded with one key per query. -/
theorem execute_eq_loadRows_tagged :
    let posts : Association := ⟨.oneToMany, "post", "posts", "id", "user_id", none⟩
    let tags : Association :=
      ⟨.manyToMany, "tag", "tags", "id", "id", some ⟨"post_tags", "post_id", "tag_id"⟩⟩
    let schema : Schema := ⟨[⟨"user", "posts", posts⟩, ⟨"post", "tags", tags⟩]⟩
    let tables : Tables := { rows := [
      ("posts", [.object [("id", .string "p"), ("user_id", .string "1")],
        .object [("id", .string "q"), ("user_id", .string "2")]]),
      ("tags", [.object [("id", .string "t")]]),
      ("post_tags", [.object [("post_id", .string "q"), ("tag_id", .string "t")]])] }
    let s : Selection := { children := [(Selection.named "posts").everything] }
    let c : Context := ⟨schema, { batchSize := some 1 }, tables.source 5, [], none⟩
    let p : Plan := ⟨"user", [⟨0, none, ["posts"], "user", posts, 1, .everything⟩]⟩
    let base : List Value := [.object [("id", .string "2")], .object [("id", .string "1")]]
    schema.Registered ∧ c.source = tables.source 5 ∧
      Plan.ofSelection schema c.settings "user" s none = .ok p ∧ c.Apart tables base p ∧
      ∃ rows stats, (c.execute base p).outcome = .ok (rows, stats) ∧
        ∃ levels, ∀ more, levels ≤ more → tables.loadRows schema more "user" s base = some rows := by
  intro posts tags schema tables s c p base
  have hposts : Schema.empty.register "user" "posts" posts = .ok ⟨[⟨"user", "posts", posts⟩]⟩ := by
    decide +kernel
  have htags : Schema.register ⟨[⟨"user", "posts", posts⟩]⟩ "post" "tags" tags = .ok schema := by
    decide +kernel
  have hschema : schema.Registered := .register (.register .empty hposts) htags
  have hplan : Plan.ofSelection schema c.settings "user" s none = .ok p := by rfl
  have hfree : tables.FreeOfOwnerKeys := Tables.freeOfOwnerKeys_of_rows (by decide)
  have hapart : c.Apart tables base p :=
    apart_of_schema hschema (Plan.exists_tasks_of_ofSelection hschema hplan).1 (by decide)
      (by decide) (by decide) hfree
  have hrun : (c.execute base p).outcome = .ok
      ([.object [("id", .string "2"), ("posts", .array [.object [("id", .string "q"),
          ("user_id", .string "2"), ("tags", .array [.object [("id", .string "t")]])]])],
        .object [("id", .string "1"), ("posts", .array [.object [("id", .string "p"),
          ("user_id", .string "1"), ("tags", .array [])]])]],
        ⟨4, 3, 2, 0, 2, 2⟩) := by
    cbv
  exact ⟨hschema, rfl, hplan, hapart, _, _, hrun,
    execute_eq_loadRows hschema rfl hplan hapart hrun⟩

end Context

end Prefetch

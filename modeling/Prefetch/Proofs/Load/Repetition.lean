import Prefetch.Proofs.Load.Attaching
import Prefetch.Proofs.Load.BreakingOff
import Prefetch.Proofs.Load.Populating
import Prefetch.Proofs.Load.Requests

/-!
# Repetition — loading the same once more

Loading onto rows that have already been loaded onto sets each field to the value that it has, as
long as the rows still have their keys.  A field that is named like the column that its own relation,
or another one on the same rows, is joined by takes the key away, and nothing refuses such a name.
The keys of rows further down do not matter: they are fetched anew.

* `withFields_withFields` — fields that take away no key that they need are set once and for all.
* `exists_attachAll_onto` — the pass over a board sets these fields on any base rows.
* `runWaves_onto` — rows with the same keys lead to the same board.
* `load_again` — a load onto the rows of a load, if no relation takes the place of a key.
-/

namespace Prefetch

/-! ### Fields set again -/

theorem Fields.set_of_get?_eq_some {fields : Fields} {name : String} {v : Value}
    (h : get? fields name = some v) : set fields name v = fields := by
  induction fields with
  | nil => cases h
  | cons f fs ih =>
    rw [get?_cons] at h
    rw [set]
    split at h
    · rename_i hf
      rw [if_pos hf, ← Option.some.inj h, ← beq_iff_eq.1 hf]
    · rename_i hf
      rw [if_neg hf, ih h]

namespace Value

theorem setField_of_field?_eq_some {v field : Value} {name : String}
    (h : v.field? name = some field) : v.setField name field = v := by
  cases v with
  | object fields => exact congrArg object (Fields.set_of_get?_eq_some h)
  | _ => rfl

/-- A row with the fields of some steps, the last one first; each step comes with its rows. -/
def withFields : List (Step × List Value) → Value → Value
  | [], v => v
  | (s, rows) :: later, v => s.association.dressed s.relation rows (withFields later v)

section WithFields

variable {fields : List (Step × List Value)} {v : Value} {column : String}

theorem isObject_withFields (fields : List (Step × List Value)) (v : Value) :
    (withFields fields v).isObject = v.isObject := by
  induction fields with
  | nil => rfl
  | cons f fields ih => rw [withFields, Association.dressed, isObject_setField, ih]

theorem isObject_of_mem_map_withFields {base : List Value}
    (h : ∀ row ∈ base, row.isObject = true) (fields : List (Step × List Value)) :
    ∀ row ∈ base.map (withFields fields), row.isObject = true := by
  intro row hrow
  obtain ⟨r, hr, rfl⟩ := List.mem_map.1 hrow
  rw [isObject_withFields, h r hr]

theorem field?_withFields_of_ne (h : ∀ f ∈ fields, f.1.relation ≠ column) (v : Value) :
    (withFields fields v).field? column = v.field? column := by
  induction fields with
  | nil => rfl
  | cons f fields ih =>
    rw [withFields, Association.dressed, field?_setField_of_ne (h f List.mem_cons_self).symm]
    exact ih fun f' hf' => h f' (List.mem_cons_of_mem f hf')

theorem keyIn_withFields_of_ne (h : ∀ f ∈ fields, f.1.relation ≠ column) (v : Value) :
    (withFields fields v).keyIn column = v.keyIn column := by
  rw [keyIn, field?_withFields_of_ne h, keyIn]

/-- Each field holds what belongs to the row, if no field takes the place of a key. -/
theorem field?_withFields (hv : v.isObject = true)
    (hdistinct : (fields.map (·.1.relation)).Nodup)
    (hspare : ∀ f ∈ fields, ∀ g ∈ fields, f.1.relation ≠ g.1.association.ownerColumn) :
    ∀ f ∈ fields, (withFields fields v).field? f.1.relation =
      some (f.1.association.related (f.1.association.belonging f.2 v)) := by
  induction fields with
  | nil => nofun
  | cons g fields ih =>
    obtain ⟨hnew, hdistinct⟩ := List.nodup_cons.1 hdistinct
    have hmem : ∀ {f}, f ∈ fields → f ∈ g :: fields := List.mem_cons_of_mem g
    have hlater := ih hdistinct fun f hf f' hf' => hspare f (hmem hf) f' (hmem hf')
    have hobject : (withFields fields v).isObject = true := by rw [isObject_withFields, hv]
    intro f hf
    rw [withFields, Association.dressed]
    rcases List.mem_cons.1 hf with rfl | hf
    · have hkey := keyIn_withFields_of_ne
        (fun f' hf' => hspare f' (hmem hf') f List.mem_cons_self) v
      rw [field?_setField_self hobject, Association.belonging_congr hkey]
    · have hne : f.1.relation ≠ g.1.relation :=
        fun he => hnew (List.mem_map.2 ⟨f, hf, he⟩)
      rw [field?_setField_of_ne hne]
      exact hlater f hf

/-- Fields that hold what belongs to the row already. -/
theorem withFields_eq_self (h : ∀ f ∈ fields, v.field? f.1.relation =
    some (f.1.association.related (f.1.association.belonging f.2 v))) :
    withFields fields v = v := by
  induction fields with
  | nil => rfl
  | cons f fields ih =>
    rw [withFields, ih fun f' hf' => h f' (List.mem_cons_of_mem f hf'), Association.dressed]
    exact setField_of_field?_eq_some (h f List.mem_cons_self)

/-- Fields that take away no key that they need are set once and for all. -/
theorem withFields_withFields (hv : v.isObject = true)
    (hdistinct : (fields.map (·.1.relation)).Nodup)
    (hspare : ∀ f ∈ fields, ∀ g ∈ fields, f.1.relation ≠ g.1.association.ownerColumn) :
    withFields fields (withFields fields v) = withFields fields v := by
  refine withFields_eq_self fun f hf => ?_
  have hkey := keyIn_withFields_of_ne (fun g hg => hspare g hg f hf) v
  rw [field?_withFields hv hdistinct hspare f hf, Association.belonging_congr hkey]

end WithFields

end Value

/-! ### The pass onto other base rows -/

open Value

/-- The pass over a board sets the fields of the steps that hang on the base rows, whatever these
are. -/
theorem Assembly.exists_attachAll_onto {steps : List Step} {a a' : Assembly}
    (hself : ∀ s ∈ steps, s.parent ≠ some s.index) (h : a.attachAll steps = .ok a') :
    ∃ fields : List (Step × List Value),
      fields.map (·.1) = steps.filter (fun s => s.parent.isNone) ∧
        a'.base = a.base.map (withFields fields) ∧
        ∀ base, (∀ row ∈ base, row.isObject = true) →
          attachAll ⟨base, a.rows⟩ steps = .ok ⟨base.map (withFields fields), a'.rows⟩ := by
  induction steps generalizing a' with
  | nil =>
    obtain rfl := Except.ok.inj h
    have hid : withFields [] = id := rfl
    refine ⟨[], rfl, ?_, fun base _ => ?_⟩
    · rw [hid, List.map_id]
    · rw [hid, List.map_id, attachAll]
  | cons s steps ih =>
    obtain ⟨a₁, hlater, h⟩ := attachAll_cons_eq_ok h
    obtain ⟨fields, hsteps, hbase, honto⟩ :=
      ih (fun s' hs' => hself s' (List.mem_cons_of_mem s hs')) hlater
    have hs := hself s List.mem_cons_self
    have hattaches := attaches_of_attachStep hs h
    cases hp : s.parent with
    | none =>
      refine ⟨(s, a₁.rowsOf s.index) :: fields, ?_, ?_, fun base hrows => ?_⟩
      · rw [List.map_cons, hsteps, List.filter_cons, hp]
        rfl
      · rw [hattaches.base, if_pos hp, hbase, List.map_map]
        rfl
      · have hstep := attachStep_onto hs (isObject_of_mem_map_withFields hrows fields) h
        rw [if_pos hp, List.map_map] at hstep
        rw [attachAll, honto base hrows]
        exact hstep
    | some p =>
      refine ⟨fields, ?_, ?_, fun base hrows => ?_⟩
      · rw [hsteps, List.filter_cons, hp]
        rfl
      · rw [hattaches.base, if_neg (by simp [hp]), hbase]
      · have hstep := attachStep_onto hs (isObject_of_mem_map_withFields hrows fields) h
        rw [if_neg (by simp [hp])] at hstep
        rw [attachAll, honto base hrows]
        exact hstep

/-! ### The same queries -/

namespace Context

open Board

variable {c : Context} {tables : Tables} {latency : Nat} {base base' : List Value}

/-- The context for a source that has received other queries before. -/
def resumed (c : Context) (past : List Issued) : Context :=
  { c with past := past }

/-- Tables do not remember. -/
theorem fetch_resumed (hc : c.source = tables.source latency) (past : List Issued) (t : Traffic)
    (rs : List Request) : (c.resumed past).fetch t rs = c.fetch t rs := by
  have hissue : ∀ t rs, (c.resumed past).issue t rs = c.issue t rs := by
    intro t rs
    induction rs generalizing t with
    | nil => rfl
    | cons r rs ih =>
      rw [issue, issue, ih]
      simp only [resumed, hc, Tables.source]
  have hround : ∀ t rs, (c.resumed past).round t rs = c.round t rs := by
    intro t rs
    unfold round
    rw [hissue]
    rfl
  have hrounds : ∀ t rss, (c.resumed past).rounds t rss = c.rounds t rss := by
    intro t rss
    induction rss generalizing t with
    | nil => rfl
    | cons rs rss ih => simp only [rounds_cons, hround, ih]
  exact hrounds t _

/-- A wave over tables depends on the keys of its steps alone. -/
theorem runWave_onto (hc : c.source = tables.source latency) (past : List Issued) {b : Board}
    {wave : List Step} (hkeys : ∀ s ∈ wave, b.keys base' s = b.keys base s) (t : Traffic) :
    (c.resumed past).runWave base' t b wave = c.runWave base t b wave := by
  have hrequests : b.requests base' c.settings.batchSize wave =
      b.requests base c.settings.batchSize wave := by
    refine List.flatMap_congr fun s hs => ?_
    rw [requestsOf, requestsOf, hkeys s hs]
  have hgrow : ∀ index steps, (c.resumed past).growAll index steps = c.growAll index steps :=
    growAll_congr fun _ _ => rfl
  have hskipped : (wave.filter fun s => (b.keys base' s).isEmpty) =
      wave.filter fun s => (b.keys base s).isEmpty :=
    List.filter_congr fun s hs => by rw [hkeys s hs]
  have hsettle : ∀ replies, (c.resumed past).settleWave base' b wave replies =
      c.settleWave base b wave replies := by
    intro replies
    rw [settleWave, settleWave]
    simp only [hgrow, hskipped]
  rw [runWave_eq_andThen, runWave_eq_andThen, fetch_resumed hc]
  simp only [resumed] at hrequests hsettle ⊢
  rw [hrequests]
  simp only [hsettle]

/-- Rows with the same keys lead to the same board. -/
theorem runWaves_onto (hc : c.source = tables.source latency) (past : List Issued) {b : Board}
    (hkeys : ∀ s ∈ b.steps, s.parent = none → JoinKey.collect base' s.association.ownerColumn =
      JoinKey.collect base s.association.ownerColumn) (n : Nat) (t : Traffic) :
    (c.resumed past).runWaves base' n t b = c.runWaves base n t b := by
  induction n generalizing t b with
  | zero => rfl
  | succ n ih =>
    have hready : ∀ s ∈ b.ready, b.keys base' s = b.keys base s := by
      intro s hs
      rw [keys, keys, owners_eq, owners_eq]
      cases hp : s.parent with
      | none => exact hkeys s (mem_steps_of_mem_ready hs) hp
      | some i => rfl
    rw [runWaves_succ, runWaves_succ, runWave_onto hc past hready]
    split
    · rfl
    · rcases hrun : c.runWave base t b b.ready with ⟨t', e | b'⟩
      · rw [andThen_error, andThen_error]
      · -- new steps do not start from the base rows
        obtain ⟨more, hsteps, hmore⟩ := steps_runWave hrun
        refine ih (fun s hs hp => ?_) t'
        rw [hsteps] at hs
        rcases List.mem_append.1 hs with hs | hs
        · exact hkeys s hs hp
        · obtain ⟨step, -, hgrow⟩ := hmore s hs
          rw [hgrow.parent] at hp
          cases hp

end Context

/-! ### Loads -/

/-- No relation on the base rows has the name of a column that one of them is joined by. -/
def Plan.Spares (p : Plan) : Prop :=
  ∀ s ∈ p.steps, s.parent = none → ∀ s' ∈ p.steps, s'.parent = none →
    s.relation ≠ s'.association.ownerColumn

instance (p : Plan) : Decidable p.Spares :=
  inferInstanceAs (Decidable (∀ s ∈ p.steps, s.parent = none → ∀ s' ∈ p.steps, s'.parent = none →
    s.relation ≠ s'.association.ownerColumn))

namespace Context

open Board

variable {c : Context} {tables : Tables} {latency : Nat} {p : Plan} {base rows : List Value}
  {settings : Settings} {text model : String} {s : Selection} {allowed : Option Selection}
  {stats : Stats}

/-- The steps that start from the base rows are those of the plan. -/
theorem Reaches.mem_plan {t : Traffic} {b : Board} (h : c.Reaches base p t b) :
    ∀ s ∈ b.steps, s.parent = none → s ∈ p.steps :=
  h.forall_steps (fun _ hs _ => hs) fun step s _ hgrow hparent => by
    rw [hgrow.parent] at hparent
    cases hparent

/-- What comes of a board: base rows with the fields of the steps that hang on them, whatever the
base rows are. -/
theorem exists_conclude_onto {b : Board} (ho : Orderly c.schema model b.steps)
    (hbranching : Branching b.steps) (h : conclude base b = .ok (rows, stats)) :
    ∃ fields : List (Step × List Value),
      (∀ f ∈ fields, f.1 ∈ b.steps ∧ f.1.parent = none) ∧ (fields.map (·.1.relation)).Nodup ∧
        rows = base.map (withFields fields) ∧
        ∀ base', (∀ row ∈ base', row.isObject = true) →
          conclude base' b = .ok (base'.map (withFields fields), stats) := by
  obtain ⟨a, ha, rfl, rfl⟩ := conclude_eq_ok h
  obtain ⟨fields, hsteps, hrows, honto⟩ := Assembly.exists_attachAll_onto
    (fun s hs => ho.parent_ne_self hs) ha
  refine ⟨fields, fun f hf => ?_, ?_, hrows, fun base' hbase' => ?_⟩
  · have hmem : f.1 ∈ b.steps.filter fun s => s.parent.isNone := by
      rw [← hsteps]
      exact List.mem_map_of_mem hf
    obtain ⟨hstep, hparent⟩ := List.mem_filter.1 hmem
    exact ⟨hstep, Option.isNone_iff_eq_none.1 hparent⟩
  · have hnodup : ((fields.map (·.1)).map Step.relation).Nodup := by
      rw [hsteps]
      refine (ho.nodup.filter _).map_on fun s hs s' hs' hrelation => ?_
      obtain ⟨hmem, hroot⟩ := List.mem_filter.1 hs
      obtain ⟨hmem', hroot'⟩ := List.mem_filter.1 hs'
      rw [Option.isNone_iff_eq_none] at hroot hroot'
      exact hbranching s hmem s' hmem' (hroot.trans hroot'.symm) hrelation
    rwa [List.map_map] at hnodup
  · have hpass : (Assembly.ofBoard base' b).attachAll (b.slots.map (·.step)) =
        .ok ⟨base'.map (withFields fields), a.rows⟩ := honto base' hbase'
    unfold conclude
    simp only [hpass]

/-- A run onto the rows of a run is the same run. -/
theorem execute_again (hc : c.source = tables.source latency) (hschema : c.schema.Registered)
    (hread : Selection.parse text = .ok s)
    (hplan : Plan.ofSelection c.schema settings model s allowed = .ok p) (hspare : p.Spares)
    (h : (c.execute base p).outcome = .ok (rows, stats)) (past : List Issued) :
    (c.resumed past).execute rows p = c.execute base p := by
  have hp := Plan.orderly_of_ofSelection hschema hplan
  obtain ⟨t, b, hbase, hrun, hreaches, hend⟩ := exists_runWaves_of_execute h
  obtain ⟨fields, hroots, hdistinct, rfl, honto⟩ := exists_conclude_onto
    (hreaches.levelled hschema hp).orderly (hreaches.branching hschema hread hplan) hend
  have hfields : ∀ f ∈ fields, ∀ s ∈ p.steps, s.parent = none →
      f.1.relation ≠ s.association.ownerColumn := by
    intro f hf s hs hparent
    obtain ⟨hstep, hroot⟩ := hroots f hf
    exact hspare f.1 (hreaches.mem_plan f.1 hstep hroot) hroot s hs hparent
  have hrecords := checkBase_eq_ok_iff.1 hbase
  have hloaded := isObject_of_mem_map_withFields hrecords fields
  -- the loaded rows ask for the same keys
  have hkeys : ∀ s ∈ (ofPlan p).steps, s.parent = none →
      JoinKey.collect (base.map (withFields fields)) s.association.ownerColumn =
        JoinKey.collect base s.association.ownerColumn := by
    intro s hs hparent
    rw [steps_ofPlan] at hs
    rw [JoinKey.collect, JoinKey.collect, List.filterMap_map]
    refine congrArg (JoinKey.distinct []) (List.filterMap_congr fun row _ => ?_)
    exact field?_withFields_of_ne (fun f hf => hfields f hf s hs hparent) row
  -- and have the fields that they get
  have hsame : (base.map (withFields fields)).map (withFields fields) =
      base.map (withFields fields) := by
    rw [List.map_map]
    refine List.map_congr_left fun row hrow => withFields_withFields (hrecords row hrow) hdistinct ?_
    intro f hf g hg
    obtain ⟨hstep, hroot⟩ := hroots g hg
    exact hfields f hf g.1 (hreaches.mem_plan g.1 hstep hroot) hroot
  have hagain := (runWaves_onto hc past hkeys (c.waveBound p) {}).trans hrun
  have hend' := honto _ hloaded
  rw [hsame] at hend'
  rw [execute_of_runWaves hbase hrun, execute_of_runWaves (checkBase_eq_ok_iff.2 hloaded) hagain,
    hend, hend']

end Context

namespace Loader

variable {l : Loader} {tables : Tables} {latency : Nat} {past past' : List Issued}
  {model text : String} {allowed scope : Option String} {base rows : List Value} {stats : Stats}

/-- A load over tables that succeeds, and the same load onto its rows, whatever the source has been
asked in between: it asks the same queries and gives the same rows, as long as no relation on the
base rows has the name of a column that one of them is joined by. -/
theorem load_again (hsource : l.source = tables.source latency) (hschema : l.schema.Registered)
    (hspare : ∀ p, l.plan model text allowed = .ok p → p.Spares)
    (h : (l.load past model text allowed scope base).outcome = .ok (rows, stats)) :
    l.load past' model text allowed scope rows = l.load past model text allowed scope base := by
  obtain ⟨s, permitted, p, hread, hp, hplan, hload⟩ := load_eq_ok h
  have hwithin : ((l.context past scope).execute base p).outcome = .ok (rows, stats) := by
    rw [hload] at h
    rwa [Run.within_eq_self h] at h
  have hagain := Context.execute_again (c := l.context past scope) hsource hschema hread hplan
    (hspare p hp) hwithin past'
  rw [hload, hload, ← hagain]
  rfl

/-- A relation that has the name of the column it is joined by: the second load finds no key, asks
nothing and takes the row away. -/
theorem load_again_author :
    let author : Association := ⟨.oneToOne, "User", "users", "author", "id", none⟩
    let schema : Schema := ⟨[⟨"Post", "author", author⟩]⟩
    let ada : Value := .object [("id", .number (.whole 1)), ("name", .string "ada")]
    let tables : Tables := { rows := [("users", [ada])] }
    let l : Loader := ⟨schema, {}, tables.source 0⟩
    let base : List Value := [.object [("author", .number (.whole 1))]]
    let loaded : List Value := [.object [("author", ada)]]
    let run := l.load [] "Post" "author" none none base
    let again := l.load run.issued "Post" "author" none none loaded
    schema.Registered ∧ run.outcome = .ok (loaded, ⟨1, 1, 1, 0, 1, 1⟩) ∧
      again.outcome = .ok ([.object [("author", .null)]], ⟨0, 0, 0, 1, 1, 1⟩) ∧
      again.issued = [] ∧ ∀ stats, again.outcome ≠ .ok (loaded, stats) := by
  intro author schema ada tables l base loaded run again
  have hauthor : Schema.empty.register "Post" "author" author = .ok schema := by decide +kernel
  let s : Selection := { children := [Selection.named "author"] }
  have hread : Selection.parse "author" = .ok s := by rfl
  have hplan : Plan.ofSelection schema {} "Post" s none =
      .ok ⟨"Post", [⟨0, none, ["author"], "Post", author, 1, .none⟩]⟩ := by rfl
  have hrun : (l.load [] "Post" "author" none none base).outcome =
      .ok (loaded, ⟨1, 1, 1, 0, 1, 1⟩) := by
    rw [load_of_plan hread hplan rfl]
    cbv
  have hagain : ∀ past, (l.load past "Post" "author" none none loaded).outcome =
      .ok ([.object [("author", .null)]], ⟨0, 0, 0, 1, 1, 1⟩) := by
    intro past
    rw [load_of_plan hread hplan rfl]
    cbv
  have hissued : ∀ past, (l.load past "Post" "author" none none loaded).issued = [] := by
    intro past
    rw [load_of_plan hread hplan rfl]
    cbv
  refine ⟨.register .empty hauthor, hrun, hagain _, hissued _, fun stats he => ?_⟩
  have hrows : ([.object [("author", .null)]] : List Value) =
      [.object [("author", .object [("id", .number (.whole 1)), ("name", .string "ada")])]] :=
    congrArg Prod.fst (Except.ok.inj ((hagain _).symm.trans he))
  cases hrows

/-- The posts of a user with their authors: the posts lose the column that leads to their authors,
which does not matter, for they are fetched anew. -/
theorem load_again_posts :
    let posts : Association := ⟨.oneToMany, "Post", "posts", "id", "user_id", none⟩
    let author : Association := ⟨.oneToOne, "User", "users", "author", "id", none⟩
    let schema : Schema := ⟨[⟨"User", "posts", posts⟩, ⟨"Post", "author", author⟩]⟩
    let ada : Value := .object [("id", .number (.whole 1))]
    let tables : Tables :=
      { rows := [("users", [ada]),
        ("posts", [.object [("user_id", .number (.whole 1)), ("author", .string "1")]])] }
    let l : Loader := ⟨schema, {}, tables.source 0⟩
    let loaded : List Value := [.object [("id", .number (.whole 1)),
      ("posts", .array [.object [("user_id", .number (.whole 1)), ("author", ada)]])]]
    let p : Plan := ⟨"User", [⟨0, none, ["posts"], "User", posts, 1, .none⟩,
      ⟨1, some 0, ["posts", "author"], "Post", author, 2, .none⟩]⟩
    schema.Registered ∧ l.plan "User" "posts.author" none = .ok p ∧ p.Spares ∧
      (l.load [] "User" "posts.author" none none [ada]).outcome =
        .ok (loaded, ⟨2, 2, 2, 0, 2, 2⟩) ∧
      l.load (l.load [] "User" "posts.author" none none [ada]).issued "User" "posts.author" none none
        loaded = l.load [] "User" "posts.author" none none [ada] := by
  intro posts author schema ada tables l loaded p
  have hposts : Schema.empty.register "User" "posts" posts = .ok ⟨[⟨"User", "posts", posts⟩]⟩ := by
    decide +kernel
  have hauthor : Schema.register ⟨[⟨"User", "posts", posts⟩]⟩ "Post" "author" author =
      .ok schema := by
    decide +kernel
  have hschema : schema.Registered := .register (.register .empty hposts) hauthor
  let s : Selection :=
    { children := [{ Selection.named "posts" with children := [Selection.named "author"] }] }
  have hread : Selection.parse "posts.author" = .ok s := by rfl
  have hresolve : Plan.ofSelection schema {} "User" s none = .ok p := by rfl
  have hplan : l.plan "User" "posts.author" none = .ok p := by
    rw [plan, Selection.read, hread]
    exact hresolve
  have hspare : p.Spares := by decide +kernel
  have hrun : (l.load [] "User" "posts.author" none none [ada]).outcome =
      .ok (loaded, ⟨2, 2, 2, 0, 2, 2⟩) := by
    rw [load_of_plan hread hresolve rfl]
    cbv
  refine ⟨hschema, hplan, hspare, hrun, ?_⟩
  refine load_again rfl hschema (fun q hq => ?_) hrun
  obtain rfl := Except.ok.inj (hplan.symm.trans hq)
  exact hspare

end Loader

end Prefetch

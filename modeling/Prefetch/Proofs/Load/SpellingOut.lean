import Mathlib.Data.Option.Basic
import Prefetch.Proofs.Load.Refusals
import Prefetch.Proofs.Load.Requests
import Prefetch.Proofs.Load.Unrolling

/-!
# SpellingOut — a mark and what it stands for load the same

A mark is followed while a load is under way, below the rows that have come in; a selection without
it is planned in advance.  So a selection that ends with a mark can be written with the first use of
the relation spelled out: `^` as the relation above the same `^`, a bound as the relation above the
next smaller bound, the bound one as the relation alone, and `*` as the relation above every relation
of the model it leads to.  Whenever both ways of writing it load, they give the same rows and ask the
source the same queries in the same order, whatever the source answers.

* `conclude_eq` — boards that agree come to the same rows.
* `text_along` — a path is written with dots.
* `SpellsOut` — a mark and the first use spelled out.
* `SpellsOut.parse_texts` — both read back from how they are written.
* `load_spelledOut` — loads of the two.
-/

namespace Prefetch

/-! ### Boards that agree -/

namespace Assembly

variable {a a' x y : Assembly} {s : Step} {steps : List Step}

theorem attachAll_bare (a : Assembly) (steps : List Step) :
    a.attachAll (steps.map Step.bare) = a.attachAll steps := by
  induction steps with
  | nil => rfl
  | cons s steps ih =>
    rw [List.map_cons, attachAll, attachAll, ih]
    rfl

/-- Two states of the pass with the same rows everywhere. -/
structure Same (x y : Assembly) : Prop where
  base : x.base = y.base
  rows : ∀ i, x.rowsOf i = y.rowsOf i

theorem Same.attachStep {x' y' : Assembly} (h : Same x y) (hself : s.parent ≠ some s.index)
    (hx : x.attachStep s = .ok x') (hy : y.attachStep s = .ok y') : Same x' y' := by
  have hax := attaches_of_attachStep hself hx
  have hay := attaches_of_attachStep hself hy
  refine ⟨?_, fun i => ?_⟩
  · rw [hax.base, hay.base, h.base, h.rows]
  · rw [hax.rows, hay.rows, h.rows, h.rows]

/-- The pass depends on the rows alone. -/
theorem Same.attachAll {x' y' : Assembly} (h : Same x y)
    (hself : ∀ s ∈ steps, s.parent ≠ some s.index) (hx : x.attachAll steps = .ok x')
    (hy : y.attachAll steps = .ok y') : Same x' y' := by
  induction steps generalizing x' y' with
  | nil =>
    obtain rfl := Except.ok.inj hx
    obtain rfl := Except.ok.inj hy
    exact h
  | cons s steps ih =>
    obtain ⟨x₁, hx₁, hx⟩ := attachAll_cons_eq_ok hx
    obtain ⟨y₁, hy₁, hy⟩ := attachAll_cons_eq_ok hy
    have hlater := ih (fun s' hs' => hself s' (List.mem_cons_of_mem s hs')) hx₁ hy₁
    exact hlater.attachStep (hself s List.mem_cons_self) hx hy

/-- Steps without rows that hang on steps without rows change nothing. -/
theorem same_of_attachAll (hself : ∀ s ∈ steps, s.parent ≠ some s.index)
    (hidle : ∀ s ∈ steps, a.rowsOf s.index = [] ∧ ∃ i, s.parent = some i ∧ a.rowsOf i = [])
    (h : a.attachAll steps = .ok a') : Same a a' := by
  induction steps generalizing a' with
  | nil =>
    obtain rfl := Except.ok.inj h
    exact ⟨rfl, fun _ => rfl⟩
  | cons s steps ih =>
    obtain ⟨a₁, ha₁, h⟩ := attachAll_cons_eq_ok h
    have hlater := ih (fun s' hs' => hself s' (List.mem_cons_of_mem s hs'))
      (fun s' hs' => hidle s' (List.mem_cons_of_mem s hs')) ha₁
    have hattaches := attaches_of_attachStep (hself s List.mem_cons_self) h
    obtain ⟨hnone, p, hparent, hup⟩ := hidle s List.mem_cons_self
    refine ⟨?_, fun i => ?_⟩
    · rw [hattaches.base, if_neg (by simp [hparent]), hlater.base]
    · simp only [hattaches.rows, ← hlater.rows, hparent]
      by_cases hi : i = s.index
      · rw [if_pos hi, hi, hnone]
      · by_cases hp : p = i
        · subst hp
          rw [if_neg hi, if_pos rfl, hup, List.map_nil]
        · rw [if_neg hi, if_neg (by simpa using hp)]

end Assembly

/-- Boards that agree come to the same rows. -/
theorem Context.conclude_eq {b b' : Board} {base rows rows' : List Value} {stats stats' : Stats}
    (h : b.Agree b') (hself : ∀ s ∈ b'.steps, s.parent ≠ some s.index)
    (hend : conclude base b = .ok (rows, stats)) (hend' : conclude base b' = .ok (rows', stats')) :
    rows' = rows := by
  obtain ⟨extra, hsteps, hidle⟩ := h.steps
  obtain ⟨a, ha, rfl, -⟩ := conclude_eq_ok hend
  obtain ⟨a', ha', rfl, -⟩ := conclude_eq_ok hend'
  have hbare : ∀ e ∈ b'.steps.map Step.bare, e.parent ≠ some e.index := by
    intro e he
    obtain ⟨s, hs, rfl⟩ := List.mem_map.1 he
    exact hself s hs
  have hpass : (Assembly.ofBoard base b).attachAll (b.steps.map Step.bare) = .ok a := by
    rw [Assembly.attachAll_bare]
    exact ha
  have hpass' : (Assembly.ofBoard base b').attachAll (b'.steps.map Step.bare) = .ok a' := by
    rw [Assembly.attachAll_bare]
    exact ha'
  rw [hsteps] at hbare hpass'
  rw [Assembly.attachAll_append] at hpass'
  split at hpass'
  · cases hpass'
  · rename_i a₁ hextra
    -- the steps behind come first in the pass, and change nothing
    have hsame : Assembly.Same (Assembly.ofBoard base b') a₁ := by
      refine Assembly.same_of_attachAll (fun e he => hbare e (List.mem_append_right _ he))
        (fun e he => ?_) hextra
      simp only [Assembly.rowsOf_ofBoard, ← h.rows]
      exact hidle e he
    have hstart : Assembly.Same (Assembly.ofBoard base b) a₁ := by
      refine ⟨hsame.base, fun i => ?_⟩
      rw [← hsame.rows, Assembly.rowsOf_ofBoard, Assembly.rowsOf_ofBoard, h.rows]
    exact (hstart.attachAll (fun e he => hbare e (List.mem_append_left _ he)) hpass hpass').base.symm

/-! ### How selections are written -/

namespace Selection

variable {path : Path} {nodes : List Selection}

theorem along_ne_nil (h : nodes ≠ []) (path : Path) : along path nodes ≠ [] := by
  cases path with
  | nil => exact h
  | cons name path => exact List.cons_ne_nil _ _

/-- A path is written with dots, and what stands at its end after the last one. -/
theorem text_along (h : nodes ≠ []) (path : Path) :
    text { children := along path nodes } =
      Path.dotted (path ++ [String.ofList (spellLevel nodes)]) := by
  have hlevel : ∀ nodes, text { children := nodes } = String.ofList (spellLevel nodes) := by
    intro nodes
    rw [text, spell, if_neg Bool.false_ne_true]
  rw [hlevel]
  induction path with
  | nil => rw [along, List.nil_append, Path.dotted, String.intercalate_singleton]
  | cons name path ih =>
    have hspell : spellLevel (along (name :: path) nodes) =
        name.toList ++ '.' :: spellLevel (along path nodes) := by
      have hsome : (along path nodes).isEmpty = false := by
        simpa using along_ne_nil h path
      rw [along, spellLevel_single, spell, if_neg Bool.false_ne_true, if_neg Bool.false_ne_true,
        hsome, if_neg Bool.false_ne_true]
    have hrest : path ++ [String.ofList (spellLevel nodes)] ≠ [] := by simp
    rw [Path.dotted] at ih ⊢
    rw [List.cons_append, String.intercalate_cons_of_ne_nil hrest, ← ih, hspell]
    apply String.toList_injective
    simp

example : text { children := along ["posts"] [(named "author").follow (some 2)] } =
    "posts.author.^2" := by
  cbv

theorem wellFormed_above {name : Option String} (hnamed : ∀ node ∈ nodes, node.name ≠ none)
    (hdistinct : Distinct nodes) (h : ∀ node ∈ nodes, node.WellFormed) :
    WellFormed { name := name, children := nodes } := by
  refine .intro ⟨hnamed, hdistinct, ?_, ?_, ?_, ?_⟩ h <;> simp

theorem wellFormed_along (hnamed : ∀ node ∈ nodes, node.name ≠ none) (hdistinct : Distinct nodes)
    (h : ∀ node ∈ nodes, node.WellFormed) (path : Path) {name : Option String} :
    WellFormed { name := name, children := along path nodes } := by
  induction path generalizing name with
  | nil => exact wellFormed_above hnamed hdistinct h
  | cons first path ih =>
    refine wellFormed_above ?_ (distinct_singleton _) ?_
    · simp [along]
    · simpa [along] using ih

/-- A node without children is well-formed, with one mark at most and no bound without `^`. -/
theorem wellFormed_leaf {s : Selection} (hname : s.name ≠ none) (hleaf : s.children = [])
    (hmark : ¬ (s.recursive = true ∧ s.wildcard = true))
    (hbound : s.limit ≠ none → s.recursive = true) : s.WellFormed := by
  refine .intro ⟨?_, ?_, fun _ => hleaf, hmark, hbound, fun h => absurd h hname⟩ ?_
  · simp [hleaf]
  · rw [hleaf]
    exact distinct_nil
  · simp [hleaf]

end Selection

/-! ### Marks and what they stand for -/

/-- A selection that ends with a mark, and the selection with the first use of the relation spelled
out, for rows of a model. -/
inductive SpellsOut (schema : Schema) (model : String) : Selection → Selection → Prop where
  /-- `path.name.^` and `path.name.name.^`. -/
  | again (path : Path) (name : String) :
    SpellsOut schema model { children := Selection.along path [(Selection.named name).follow none] }
      { children := Selection.along (path ++ [name]) [(Selection.named name).follow none] }
  /-- `path.name.^N` and `path.name.name.^(N-1)`, for `N` of two or more. -/
  | bounded (path : Path) (name : String) {most : Nat} (more : 1 ≤ most) :
    SpellsOut schema model
      { children := Selection.along path [(Selection.named name).follow (some (most + 1))] }
      { children := Selection.along (path ++ [name]) [(Selection.named name).follow (some most)] }
  /-- `path.name.^1` and `path.name`. -/
  | once (path : Path) (name : String) :
    SpellsOut schema model
      { children := Selection.along path [(Selection.named name).follow (some 1)] }
      { children := Selection.along path [Selection.named name] }
  /-- `path.name.*` and `path.name.[first.*, …, last.*]`, with all relations of the model that the
  path leads to, as declared. -/
  | everything (path : Path) (name : String) {target : String}
    (leads : schema.modelAlong model (path ++ [name]) = some target) :
    SpellsOut schema model { children := Selection.along path [(Selection.named name).everything] }
      { children := Selection.along (path ++ [name])
          ((schema.namesOf target).map fun r => (Selection.named r).everything) }

variable {schema : Schema} {model : String} {s s' : Selection}

/-- Spelled out, a mark is the relation above what the mark asks for next. -/
theorem SpellsOut.exists_wanted (h : SpellsOut schema model s s') :
    ∃ path name leaf kids, leaf.name = some name ∧ leaf.children = [] ∧
      (∀ target, schema.modelAlong model (path ++ [name]) = some target →
        kids = leaf.wanted schema target) ∧
      s = { children := Selection.along path [leaf] } ∧
      s' = { children := Selection.along (path ++ [name]) kids } := by
  cases h with
  | again path name => exact ⟨path, name, _, _, rfl, rfl, fun _ _ => rfl, rfl, rfl⟩
  | @bounded path name most more =>
    refine ⟨path, name, _, _, rfl, rfl, fun target _ => ?_, rfl, rfl⟩
    have hmost : ¬ most + 1 ≤ 1 := by omega
    simp only [Selection.wanted, Selection.follow, Selection.named, Bool.false_eq_true, if_false,
      if_true, if_neg hmost, Nat.add_sub_cancel]
  | once path name =>
    refine ⟨path, name, _, [], rfl, rfl, fun _ _ => rfl, rfl, ?_⟩
    rw [Selection.along_append]
    rfl
  | everything path name leads =>
    refine ⟨path, name, _, _, rfl, rfl, fun target htarget => ?_, rfl, rfl⟩
    obtain rfl := Option.some.inj (leads.symm.trans htarget)
    rfl

section Texts

open Selection

/-- Both read back from how they are written, as far as names and bounds can be written at all. -/
theorem SpellsOut.parse_texts (hschema : schema.Registered) (h : SpellsOut schema model s s')
    (hs : Everywhere Spellable s) (hs' : Everywhere Spellable s') :
    parse s.text = .ok s ∧ parse s'.text = .ok s' := by
  have hfollow : ∀ name limit, ((named name).follow limit).WellFormed := fun name limit =>
    wellFormed_leaf nofun rfl nofun fun _ => rfl
  have heverything : ∀ name, (named name).everything.WellFormed := fun name =>
    wellFormed_leaf nofun rfl nofun (absurd rfl)
  have hnamed : ∀ name, (named name).WellFormed := fun name =>
    wellFormed_leaf nofun rfl nofun (absurd rfl)
  -- one leaf at the end of a path
  have hsingle : ∀ path (leaf : Selection), leaf.name ≠ none → leaf.WellFormed →
      WellFormed { children := along path [leaf] } := by
    intro path leaf hname hleaf
    refine wellFormed_along ?_ (distinct_singleton leaf) ?_ path
    · simpa using hname
    · simpa using hleaf
  have hwellFormed : s.WellFormed ∧ s'.WellFormed ∧ s.name = none ∧ s'.name = none := by
    cases h with
    | again path name =>
      exact ⟨hsingle _ _ nofun (hfollow name none), hsingle _ _ nofun (hfollow name none), rfl, rfl⟩
    | @bounded path name most _ =>
      exact ⟨hsingle _ _ nofun (hfollow name (some (most + 1))),
        hsingle _ _ nofun (hfollow name (some most)), rfl, rfl⟩
    | once path name =>
      exact ⟨hsingle _ _ nofun (hfollow name (some 1)), hsingle _ _ nofun (hnamed name), rfl, rfl⟩
    | @everything path name target _ =>
      refine ⟨hsingle _ _ nofun (heverything name), wellFormed_along ?_ ?_ ?_ _, rfl, rfl⟩
      · simp [named, Selection.everything]
      · rw [Distinct, List.map_map]
        exact (hschema.nodup_namesOf target).map (Option.some_injective _)
      · simpa using fun r _ => heverything r
  obtain ⟨hw, hw', hroot, hroot'⟩ := hwellFormed
  exact ⟨parse_text_of_writable ⟨hroot, hw, hs⟩, parse_text_of_writable ⟨hroot', hw', hs'⟩⟩

end Texts

/-! ### Loads -/

namespace Context

open Board

theorem fetchedRows_ofPlan (p : Plan) (i : Nat) : (ofPlan p).fetchedRows i = [] := by
  rw [fetchedRows, ofPlan, List.getElem?_map]
  cases p.steps[i]? <;> rfl

variable {c : Context} {p p' : Plan} {base rows rows' : List Value} {settings : Settings}
  {allowed allowed' : Option Selection} {stats stats' : Stats}

/-- A run of a plan that succeeds, from the first board to the last. -/
theorem exists_ends_of_execute (hschema : c.schema.Registered)
    (hp : Orderly c.schema p.model p.steps)
    (h : (c.execute base p).outcome = .ok (rows, stats)) :
    ∃ t b, c.Ends base {} (.ofPlan p) t b ∧ b.Levelled c p ∧ (c.execute base p).issued = t.issued ∧
      conclude base b = .ok (rows, stats) := by
  obtain ⟨t, b, hbase, hrun, hreaches, hend⟩ := exists_runWaves_of_execute h
  have hready := ready_of_runWaves hschema (levelled_ofPlan hp) (Nat.le_add_left _ _) hrun
  refine ⟨t, b, ends_of_runWaves hrun hready, hreaches.levelled hschema hp, ?_, hend⟩
  rw [execute_of_runWaves hbase hrun]

/-- Runs of the plans for a mark and for the mark spelled out. -/
theorem execute_spelledOut (hschema : c.schema.Registered) (hs : SpellsOut c.schema model s s')
    (hplan : Plan.ofSelection c.schema settings model s allowed = .ok p)
    (hplan' : Plan.ofSelection c.schema settings model s' allowed' = .ok p')
    (h : (c.execute base p).outcome = .ok (rows, stats))
    (h' : (c.execute base p').outcome = .ok (rows', stats')) :
    rows' = rows ∧ (c.execute base p').issued = (c.execute base p).issued := by
  obtain ⟨path, name, leaf, kids, hname, hleaf, hkids, rfl, rfl⟩ := hs.exists_wanted
  obtain ⟨front, step, below, hsteps, hsteps', hunrolls⟩ :=
    Plan.exists_unrolls hschema hname hleaf hkids hplan hplan'
  have hp := (Plan.exists_tasks_of_ofSelection hschema hplan).1
  have hp' := (Plan.exists_tasks_of_ofSelection hschema hplan').1
  obtain ⟨-, -, rfl, -⟩ := Plan.ofSelection_eq_ok hplan
  obtain ⟨-, -, hmodel', -⟩ := Plan.ofSelection_eq_ok hplan'
  rw [← hmodel'] at hp'
  obtain ⟨t, b, hends, -, hissued, hend⟩ := exists_ends_of_execute hschema hp h
  obtain ⟨t', b', hends', hb', hissued', hend'⟩ := exists_ends_of_execute hschema hp' h'
  have hahead : Ahead front step below (.ofPlan p) (.ofPlan p') := by
    have hstep : step ∈ p.steps := by rw [hsteps]; simp
    refine ⟨⟨fun i => ?_, rfl⟩, hp.depth_pos hstep, ?_, ?_⟩
    · rw [fetchedRows_ofPlan, fetchedRows_ofPlan]
    · rw [steps_ofPlan, hsteps]
    · rw [steps_ofPlan, hsteps']
  obtain ⟨rfl, hagree⟩ := hahead.ends hschema hunrolls (levelled_ofPlan hp) (levelled_ofPlan hp')
    hends hends'
  exact ⟨conclude_eq hagree (fun e he => hb'.orderly.parent_ne_self he) hend hend',
    hissued'.trans hissued.symm⟩

end Context

namespace Loader

variable {l : Loader} {past : List Issued} {model : String} {scope : Option String}
  {base rows rows' : List Value} {s s' : Selection} {run run' : Run} {stats stats' : Stats}

/-- A load of a selection that succeeds is the run of a plan for it. -/
theorem Gives.eq_ok (hrun : l.Gives past model scope base s run)
    (h : run.outcome = .ok (rows, stats)) :
    ∃ permitted p, Plan.ofSelection l.schema l.settings model s permitted = .ok p ∧
      run = (l.context past scope).execute base p := by
  have hrequest : ∃ r : LoadRequest, r.selection = s ∧
      run = l.loadRequest past model r scope base := by
    cases hrun with
    | request r => exact ⟨r, rfl, rfl⟩
    | text text allowed =>
      cases allowed with
      | none => exact ⟨_, rfl, rfl⟩
      | some allowed => exact ⟨_, selection_allow _ allowed, rfl⟩
  obtain ⟨r, rfl, rfl⟩ := hrequest
  obtain ⟨-, p, hplan, hload⟩ := loadRequest_eq_ok h
  rw [hload] at h
  exact ⟨r.allowed, p, hplan, (hload past base).trans (Run.within_eq_self h)⟩

/-- Loads that ask for a mark and for the mark spelled out, in text or as a tree, whatever is allowed
and whatever the source answers.  If both succeed, they give the same rows and have asked the source
the same queries, in the same order and at the same times. -/
theorem load_spelledOut (hschema : l.schema.Registered) (hs : SpellsOut l.schema model s s')
    (hrun : l.Gives past model scope base s run) (hrun' : l.Gives past model scope base s' run')
    (h : run.outcome = .ok (rows, stats)) (h' : run'.outcome = .ok (rows', stats')) :
    rows' = rows ∧ run'.issued = run.issued := by
  obtain ⟨permitted, p, hplan, rfl⟩ := hrun.eq_ok h
  obtain ⟨permitted', p', hplan', rfl⟩ := hrun'.eq_ok h'
  exact Context.execute_spelledOut (c := l.context past scope) hschema hs hplan hplan' h h'

/-- A node and the two nodes above it, asked for with `up.^` and with `up.up.^`; the source answers
by the number of the query. -/
theorem load_spelledOut_up :
    let up : Association := ⟨.oneToOne, "node", "nodes", "up_id", "id", none⟩
    let schema : Schema := ⟨[⟨"node", "up", up⟩]⟩
    let node (id up : Nat) : List (String × Value) :=
      [("id", .number (.whole id)), ("up_id", .number (.whole up))]
    let source : Source := .scripted [.ok [.object (node 2 3)], .ok [.object (node 3 4)]]
    let l : Loader := ⟨schema, {}, source⟩
    let base : List Value := [.object (node 1 2)]
    let s : Selection := { children := Selection.along [] [(Selection.named "up").follow none] }
    let s' : Selection := { children := Selection.along ["up"] [(Selection.named "up").follow none] }
    let run := l.load [] "node" "up.^" none none base
    let run' := l.load [] "node" "up.up.^" none none base
    let rows : List Value := [.object (node 1 2 ++
      [("up", .object (node 2 3 ++ [("up", .object (node 3 4 ++ [("up", .null)]))]))])]
    schema.Registered ∧ SpellsOut schema "node" s s' ∧
      l.Gives [] "node" none base s run ∧ l.Gives [] "node" none base s' run' ∧
      (∃ stats, run.outcome = .ok (rows, stats)) ∧ (∃ stats, run'.outcome = .ok (rows, stats)) ∧
      run.issued.map (·.query.keys) =
        [[.number (.whole 2)], [.number (.whole 3)], [.number (.whole 4)]] ∧
      run'.issued = run.issued := by
  intro up schema node source l base s s' run run' rows
  have hup : Schema.empty.register "node" "up" up = .ok schema := by decide +kernel
  have hschema : schema.Registered := .register .empty hup
  have hspells : SpellsOut schema "node" s s' := .again [] "up"
  have hread : Selection.parse "up.^" = .ok s := by rfl
  have hread' : Selection.parse "up.up.^" = .ok s' := by rfl
  have hgives : l.Gives [] "node" none base s (l.load [] "node" "up.^" none none base) := by
    have htext : l.Gives [] "node" none base _ (l.load [] "node" "up.^" none none base) :=
      .text "up.^" none
    rwa [LoadRequest.select_of_parse hread] at htext
  have hgives' : l.Gives [] "node" none base s' (l.load [] "node" "up.up.^" none none base) := by
    have htext : l.Gives [] "node" none base _ (l.load [] "node" "up.up.^" none none base) :=
      .text "up.up.^" none
    rwa [LoadRequest.select_of_parse hread'] at htext
  have hplan : Plan.ofSelection schema {} "node" s none =
      .ok ⟨"node", [⟨0, none, ["up"], "node", up, 1, .again none 1⟩]⟩ := by rfl
  have hplan' : Plan.ofSelection schema {} "node" s' none =
      .ok ⟨"node", [⟨0, none, ["up"], "node", up, 1, .none⟩,
        ⟨1, some 0, ["up", "up"], "node", up, 2, .again none 1⟩]⟩ := by rfl
  have hrun : (l.load [] "node" "up.^" none none base).outcome = .ok (rows, ⟨3, 2, 2, 0, 3, 3⟩) := by
    rw [load_of_plan hread hplan rfl]
    cbv
  have hrun' : (l.load [] "node" "up.up.^" none none base).outcome =
      .ok (rows, ⟨3, 2, 2, 0, 3, 3⟩) := by
    rw [load_of_plan hread' hplan' rfl]
    cbv
  have hkeys : (l.load [] "node" "up.^" none none base).issued.map (·.query.keys) =
      [[.number (.whole 2)], [.number (.whole 3)], [.number (.whole 4)]] := by
    rw [load_of_plan hread hplan rfl]
    cbv
  exact ⟨hschema, hspells, hgives, hgives', ⟨_, hrun⟩, ⟨_, hrun'⟩, hkeys,
    (load_spelledOut (l := l) hschema hspells hgives hgives' hrun hrun').2⟩

end Loader

end Prefetch

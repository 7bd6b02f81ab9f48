import Prefetch.Loader
import Prefetch.Proofs.Load.Dispatch
import Prefetch.Proofs.Load.Requests
import Prefetch.Proofs.Plan.Tasks
import Prefetch.Proofs.Selection.Coverage
import Prefetch.Source.Memory
import Prefetch.Source.Scripted

/-!
# Refusals — errors that come up before any query, and the one that may come up later

A load is refused by its request or by its plan, and then the source is asked for nothing.  Queries
fail in other ways, and so do rows that cannot be attached.  What is left is growth.  A recursive
relation is looked up on the model it leads to each time it is used again; the plan has made sure of
the first time only.  So a relation that leads through two models that declare it to one that does not
ends a run with an unknown relation after queries have been issued.

* `grow_eq_error` — growth knows a single error of this kind.
* `Pursued.of_grows` — a recursive step past the first use is below one of the same relation.
* `issued_eq_nil_or_strands` — a load that ends so has issued no query, or has run into such a model.
-/

namespace Prefetch

open Selection

/-- The relation of a recursive node leads through two models that declare it to one that does not. -/
structure Schema.Strands (schema : Schema) (s : Selection) (relation target : String) : Prop where
  requested : ∃ path node, Occurs s path node ∧ node.recursive = true ∧ node.label = relation
  declared : ∃ model first second, schema.lookup model relation = some first ∧
    schema.lookup first.target relation = some second ∧ second.target = target
  missing : schema.lookup target relation = none

/-! ### Queries fail in other ways -/

namespace Context

variable {c : Context} {t t' : Traffic} {e : Error}

/-- The errors of an exchange: a query has failed, or has taken too long. -/
inductive OfQuery : Error → Prop where
  | failed (relation : String) (fault : Source.Fault) : OfQuery (.queryFailed relation fault)
  | late (relation : String) (after : Nat) : OfQuery (.timeout relation after)

theorem OfQuery.isPreExecution (h : OfQuery e) : e.isPreExecution = false := by
  cases h <;> rfl

theorem ofQuery_of_gather {answers : List (Request × Except Source.Fault (List Value))}
    (h : gather answers = .error e) : OfQuery e := by
  induction answers with
  | nil => cases h
  | cons answer answers ih =>
    obtain ⟨r, fault | rows⟩ := answer
    · obtain rfl := Except.error.inj h
      exact .failed _ _
    · rw [gather] at h
      split at h
      · rename_i e' he
        obtain rfl := Except.error.inj h
        exact ih he
      · cases h

theorem ofQuery_of_round {rs : List Request} (h : c.round t rs = (t', .error e)) : OfQuery e := by
  unfold round at h
  split at h
  · obtain ⟨-, he⟩ := Prod.mk.inj h
    cases rs with
    | nil => cases he
    | cons r rs =>
      obtain rfl := Except.error.inj he
      exact .late _ _
  · exact ofQuery_of_gather (Prod.mk.inj h).2

theorem ofQuery_of_rounds {rss : List (List Request)} (h : c.rounds t rss = (t', .error e)) :
    OfQuery e := by
  induction rss generalizing t with
  | nil => cases h
  | cons rs rss ih =>
    rw [rounds] at h
    split at h
    · rename_i t₁ e₁ hround
      obtain ⟨-, he⟩ := Prod.mk.inj h
      obtain rfl := Except.error.inj he
      exact ofQuery_of_round hround
    · split at h
      · rename_i t₂ e₂ hrest
        obtain ⟨rfl, he⟩ := Prod.mk.inj h
        obtain rfl := Except.error.inj he
        exact ih hrest
      · cases h

/-! ### Growth -/

/-- What a recursive step that is followed runs into. -/
theorem again_eq_error_iff {step : Step} {index level : Nat} {limit : Option Nat} :
    c.again step index limit level = .error e ↔
      c.schema.lookup step.association.target step.relation = none ∧
        e = .unknownRelation step.association.target step.relation := by
  unfold again Schema.require
  cases c.schema.lookup step.association.target step.relation <;> simp [eq_comm]

/-- Growth knows a single error that should come up before any query: a recursive relation is not
declared on the model that it leads to. -/
theorem grow_eq_error {step : Step} {index : Nat} (h : c.grow step index = .error e)
    (hpre : e.isPreExecution = true) :
    (∃ limit level, step.growth = .again limit level) ∧
      c.schema.lookup step.association.target step.relation = none ∧
      e = .unknownRelation step.association.target step.relation := by
  unfold grow at h
  split at h
  · cases h
  · rename_i most level hg
    split at h
    · cases h
    · exact ⟨⟨_, _, hg⟩, again_eq_error_iff.1 h⟩
  · rename_i level hg
    split at h
    · obtain rfl := Except.error.inj h
      cases hpre
    · exact ⟨⟨_, _, hg⟩, again_eq_error_iff.1 h⟩
  · split at h
    · cases h
    · split at h
      · obtain rfl := Except.error.inj h
        cases hpre
      · cases h

/-- An error of growth is one of a step that grows. -/
theorem growAll_eq_error {steps : List Step} {index : Nat} (h : c.growAll index steps = .error e) :
    ∃ step ∈ steps, c.grow step index = .error e := by
  obtain ⟨front, step, back, rfl, hstop, -⟩ :=
    List.findSome?_eq_some_iff.1 ((growAll_eq_error_iff index).1 h)
  exact ⟨step, List.mem_append_right front List.mem_cons_self, (grow_eq_error_iff index).2 hstop⟩

end Context

/-! ### Recursive steps -/

/-- What a recursive step has behind it: a node asks for its relation, and either the relation is
declared once more where it leads, or it has already led from a model to the step's own. -/
structure Pursued (schema : Schema) (s : Selection) (step : Step) : Prop where
  declared : schema.lookup step.owner step.relation = some step.association
  again : ∀ limit level, step.growth = .again limit level →
    (∃ path node, Occurs s path node ∧ node.recursive = true ∧ node.label = step.relation) ∧
    ((∃ a, schema.lookup step.association.target step.relation = some a) ∨
      ∃ model a, schema.lookup model step.relation = some a ∧ a.target = step.owner)

namespace Pursued

variable {schema : Schema} {s : Selection} {step below : Step}

theorem of_resolves {p : Plan.Pending} (hp : ∃ path, Occurs s path p.node)
    (h : Plan.Resolves schema p step) : Pursued schema s step := by
  refine ⟨by rw [h.owner, h.relation, h.declared], fun limit level hg => ?_⟩
  rcases h.growth with ⟨-, he⟩ | ⟨-, hr, -, a, ha⟩ | ⟨-, -, he⟩
  · cases hg.symm.trans he
  · obtain ⟨path, ho⟩ := hp
    exact ⟨⟨path, p.node, ho, hr, h.relation.symm⟩, .inl ⟨a, h.relation ▸ ha⟩⟩
  · cases hg.symm.trans he

/-- A recursive step that is put below another is below one of the same relation. -/
theorem of_grows {c : Context} (hschema : c.schema.Registered) (h : Pursued c.schema s step)
    (hg : c.Grows step below) : Pursued c.schema s below := by
  refine ⟨hschema.lookup_of_mem_relationsOf hg.declared, fun limit level hagain => ?_⟩
  rcases hg.growth with ⟨limit', level', hstep, -, hrelation, -⟩ | ⟨-, he, -⟩
  · rw [hrelation]
    exact ⟨(h.again limit' level' hstep).1, .inr ⟨_, _, h.declared, hg.owner.symm⟩⟩
  · cases hagain.symm.trans he

/-- A recursive relation that is missing where it leads has been followed twice. -/
theorem strands (h : Pursued schema s step) {limit : Option Nat} {level : Nat}
    (hg : step.growth = .again limit level)
    (hmissing : schema.lookup step.association.target step.relation = none) :
    schema.Strands s step.relation step.association.target := by
  obtain ⟨hnode, ⟨a, ha⟩ | ⟨model, a, ha, howner⟩⟩ := h.again limit level hg
  · cases hmissing.symm.trans ha
  · exact ⟨hnode, ⟨model, a, step.association, ha, howner ▸ h.declared, rfl⟩, hmissing⟩

/-- All steps of a plan have it. -/
theorem of_ofSelection (hschema : schema.Registered) {settings : Settings} {model : String}
    {allowed : Option Selection} {p : Plan}
    (h : Plan.ofSelection schema settings model s allowed = .ok p) :
    ∀ step ∈ p.steps, Pursued schema s step := by
  obtain ⟨-, -, -, -, ⟨-, hsteps⟩ | ⟨-, hsteps⟩⟩ := Plan.ofSelection_eq_ok h
  · have hdeclared := (Plan.orderly_everyRelation hschema model).declared
    rw [hsteps]
    intro step hs
    refine ⟨hdeclared step hs, fun limit level hg => ?_⟩
    obtain ⟨i, hi, rfl⟩ := List.mem_mapIdx.1 hs
    cases hg
  · have step : ∀ p step, (∃ path, Occurs s path p.node) → Plan.Resolves schema p step →
        Pursued schema s step ∧
          ∀ q ∈ Plan.pendingBelow step p.node, ∃ path, Occurs s path q.node := by
      rintro p step ⟨path, ho⟩ hr
      refine ⟨.of_resolves ⟨path, ho⟩ hr, fun q hq => ?_⟩
      obtain ⟨c, hc, rfl⟩ := List.mem_map.1 hq
      exact ⟨_, ho.child hc⟩
    refine Plan.forall_of_resolveLevels step hsteps fun q hq => ?_
    obtain ⟨c, hc, rfl⟩ := List.mem_map.1 hq
    exact ⟨_, Occurs.root.child hc⟩

end Pursued

/-! ### Runs -/

namespace Context

open Board

variable {c : Context} {p : Plan} {base : List Value} {t t' : Traffic} {b : Board} {e : Error}
  {s : Selection}

/-- A wave that ends so has brought rows, so queries have been issued, and one of its steps has run
into a model that does not declare its relation. -/
theorem runWave_eq_error (h : c.Reaches base p t b) (hschema : c.schema.Registered)
    (hp : Orderly c.schema p.model p.steps) (hpursued : ∀ step ∈ b.steps, Pursued c.schema s step)
    (run : c.runWave base t b b.ready = (t', .error e)) (hpre : e.isPreExecution = true) :
    t'.issued ≠ [] ∧ ∃ relation target, e = .unknownRelation target relation ∧
      c.schema.Strands s relation target := by
  unfold runWave at run
  split at run
  · rename_i t₁ e₁ hf
    obtain ⟨-, he⟩ := Prod.mk.inj run
    obtain rfl := Except.error.inj he
    cases hpre.symm.trans (ofQuery_of_rounds hf).isPreExecution
  · rename_i t₁ replies hf
    obtain ⟨rfl, hs⟩ := Prod.mk.inj run
    unfold settleWave at hs
    simp only at hs
    split at hs
    · rename_i e₁ hg
      obtain rfl := Except.error.inj hs
      obtain ⟨step, hstep, hi⟩ := growAll_eq_error hg
      obtain ⟨hready, hrows⟩ := List.mem_filter.1 hstep
      have hmem := mem_steps_of_mem_ready hready
      obtain ⟨⟨limit, level, hgrowth⟩, hmissing, he⟩ := grow_eq_error hi hpre
      refine ⟨?_, step.relation, step.association.target, he,
        (hpursued step hmem).strands hgrowth hmissing⟩
      -- the rows of the step came with some reply
      have hcame := (hasRows_store_iff h hschema hp hready).1 hrows
      obtain ⟨sent, hissued, hexMore⟩ := exists_exchanges_of_fetch hf
      rw [hissued]
      refine List.append_ne_nil_of_right_ne_nil _ (hexMore.sent_ne_nil ?_)
      rintro rfl
      exact hcame rfl
    · cases hs

/-- A run that ends so has issued queries and has run into a model that does not declare a recursive
relation. -/
theorem execute_eq_error (hschema : c.schema.Registered) {settings : Settings} {model : String}
    {allowed : Option Selection} (hplan : Plan.ofSelection c.schema settings model s allowed = .ok p)
    (h : (c.execute base p).outcome = .error e) (hpre : e.isPreExecution = true) :
    (c.execute base p).issued ≠ [] ∧ ∃ relation target, e = .unknownRelation target relation ∧
      c.schema.Strands s relation target := by
  have horderly := Plan.orderly_of_ofSelection hschema hplan
  unfold execute at h ⊢
  split at h
  · obtain rfl := Except.error.inj h
    cases hpre
  · have begun : c.Reaches base p {} (Board.ofPlan p) := .start
    obtain ⟨t', b', he, -⟩ | ⟨t₁, b₁, t', e', he, hreach, hwave⟩ :=
      begun.runWaves (c.waveBound p)
    · simp only [he] at h
      unfold conclude at h
      split at h
      · obtain rfl := Except.error.inj h
        cases hpre
      · cases h
    · simp only [he] at h ⊢
      obtain rfl := Except.error.inj h
      have hpursued := hreach.forall_steps (Pursued.of_ofSelection hschema hplan)
        fun _ _ => Pursued.of_grows hschema
      exact runWave_eq_error hreach hschema horderly hpursued hwave hpre

end Context

namespace Loader

variable {l : Loader} {past : List Issued} {model : String} {r : LoadRequest}
  {scope : Option String} {base : List Value} {e : Error}

theorem eq_of_within {run : Run} {limit : Option Nat} {label : String}
    (h : (run.within limit label).outcome = .error e) (hpre : e.isPreExecution = true) :
    run.within limit label = run := by
  unfold Run.within at h ⊢
  split
  · rfl
  · split
    · rfl
    · rename_i most hlate
      simp only [if_neg hlate] at h
      obtain rfl := Except.error.inj h
      cases hpre

/-- A request whose load ends so was refused, or its plan was, and no query has been issued; or a
recursive relation has run into a model that does not declare it. -/
theorem loadRequest_eq_error (hschema : l.schema.Registered)
    (h : (l.loadRequest past model r scope base).outcome = .error e)
    (hpre : e.isPreExecution = true) :
    (l.loadRequest past model r scope base).issued = [] ∨
      (l.loadRequest past model r scope base).issued ≠ [] ∧
        ∃ relation target, e = .unknownRelation target relation ∧
          l.schema.Strands r.selection relation target := by
  unfold loadRequest at h ⊢
  split at h
  · exact .inl rfl
  · unfold loadSelection at h ⊢
    split at h
    · exact .inl rfl
    · rename_i p hplan
      have hwithin := eq_of_within h hpre
      rw [hwithin] at h ⊢
      exact .inr (Context.execute_eq_error (c := l.context past scope) hschema hplan h hpre)

/-- The loads of a selection: one that a request has put together, or one given in text. -/
inductive Gives (l : Loader) (past : List Issued) (model : String) (scope : Option String)
    (base : List Value) : Selection → Run → Prop where
  | request (r : LoadRequest) :
    Gives l past model scope base r.selection (l.loadRequest past model r scope base)
  | text (text : String) (allowed : Option String) :
    Gives l past model scope base (LoadRequest.select {} text).selection
      (l.load past model text allowed scope base)

theorem selection_allow (r : LoadRequest) (text : String) :
    (r.allow text).selection = r.selection := by
  unfold LoadRequest.allow
  split <;> rfl

/-- A load that ends with an error of a kind that comes up before any query has issued none, with
one exception: where a recursive relation leads through two models that declare it to one that does
not, the load has issued queries and ends with an unknown relation. -/
theorem issued_eq_nil_or_strands (hschema : l.schema.Registered) {s : Selection} {run : Run}
    (hrun : l.Gives past model scope base s run) (h : run.outcome = .error e)
    (hpre : e.isPreExecution = true) :
    run.issued = [] ∨
      run.issued ≠ [] ∧ ∃ relation target, e = .unknownRelation target relation ∧
        l.schema.Strands s relation target := by
  cases hrun with
  | request r => exact loadRequest_eq_error hschema h hpre
  | text text allowed =>
    cases allowed with
    | none => exact loadRequest_eq_error hschema h hpre
    | some allowed =>
      rw [← selection_allow _ allowed]
      exact loadRequest_eq_error hschema h hpre

/-- Three models in a row, the last of which does not declare the relation that is followed. -/
theorem unknownRelation_after_two_queries :
    let first : Association := ⟨.oneToOne, "B", "bs", "b_id", "id", none⟩
    let second : Association := ⟨.oneToOne, "C", "cs", "c_id", "id", none⟩
    let schema : Schema := ⟨[⟨"A", "next", first⟩, ⟨"B", "next", second⟩]⟩
    let tables : Tables := { rows := [
      ("bs", [.object [("id", .string "b"), ("c_id", .string "c")]]),
      ("cs", [.object [("id", .string "c")]])] }
    let l : Loader := ⟨schema, {}, tables.source 0⟩
    let run := l.load [] "A" "next.^" none none [.object [("b_id", .string "b")]]
    schema.Registered ∧ run.outcome = .error (.unknownRelation "C" "next") ∧
      (Error.unknownRelation "C" "next").isPreExecution = true ∧
      run.issued.map (·.query.table) = ["bs", "cs"] := by
  intro first second schema tables l run
  have hfirst : Schema.empty.register "A" "next" first = .ok ⟨[⟨"A", "next", first⟩]⟩ := by
    decide +kernel
  have hsecond : Schema.register ⟨[⟨"A", "next", first⟩]⟩ "B" "next" second = .ok schema := by
    decide +kernel
  let s : Selection := { children := [(named "next").follow none] }
  have hread : parse "next.^" = .ok s := by rfl
  have hplan : Plan.ofSelection schema {} "A" s none =
      .ok ⟨"A", [⟨0, none, ["next"], "A", first, 1, .again none 1⟩]⟩ := by rfl
  have hrun : (l.load [] "A" "next.^" none none [.object [("b_id", .string "b")]]).outcome =
      .error (.unknownRelation "C" "next") := by
    rw [load_of_plan hread hplan rfl]
    cbv
  have hissued : (l.load [] "A" "next.^" none none [.object [("b_id", .string "b")]]).issued.map
      (·.query.table) = ["bs", "cs"] := by
    rw [load_of_plan hread hplan rfl]
    cbv
  exact ⟨.register (.register .empty hfirst) hsecond, hrun, rfl, hissued⟩

/-- The same for a recursion with a bound, which a request asks for, over a source that is told what
to answer. -/
theorem issued_eq_nil_or_strands_request :
    let first : Association := ⟨.oneToOne, "B", "bs", "b_id", "id", none⟩
    let second : Association := ⟨.oneToMany, "C", "cs", "id", "b_id", none⟩
    let schema : Schema := ⟨[⟨"A", "next", first⟩, ⟨"B", "next", second⟩]⟩
    let l : Loader := ⟨schema, { batchSize := some 1 }, Source.scripted
      [.ok [.object [("id", .string "b")]], .ok [.object [("b_id", .string "b")]]]⟩
    let r : LoadRequest := { selection := { children := [(named "next").follow (some 3)] } }
    let run := l.loadRequest [] "A" r (some "tx") [.object [("b_id", .string "b")]]
    schema.Registered ∧ l.Gives [] "A" (some "tx") [.object [("b_id", .string "b")]] r.selection run ∧
      run.outcome = .error (.unknownRelation "C" "next") ∧
      (Error.unknownRelation "C" "next").isPreExecution = true ∧
      (run.issued = [] ∨ run.issued ≠ [] ∧ ∃ relation target,
        Error.unknownRelation "C" "next" = .unknownRelation target relation ∧
          schema.Strands r.selection relation target) := by
  intro first second schema l r run
  have hfirst : Schema.empty.register "A" "next" first = .ok ⟨[⟨"A", "next", first⟩]⟩ := by
    decide +kernel
  have hsecond : Schema.register ⟨[⟨"A", "next", first⟩]⟩ "B" "next" second = .ok schema := by
    decide +kernel
  have hschema : schema.Registered := .register (.register .empty hfirst) hsecond
  have hplan : Plan.ofSelection schema { batchSize := some 1 } "A" r.selection none =
      .ok ⟨"A", [⟨0, none, ["next"], "A", first, 1, .again (some 3) 1⟩]⟩ := by rfl
  have hrun : (l.loadRequest [] "A" r (some "tx") [.object [("b_id", .string "b")]]).outcome =
      .error (.unknownRelation "C" "next") := by
    rw [loadRequest_of_plan rfl hplan]
    cbv
  exact ⟨hschema, .request r, hrun, rfl,
    issued_eq_nil_or_strands (l := l) hschema (.request r) hrun rfl⟩

end Loader

end Prefetch

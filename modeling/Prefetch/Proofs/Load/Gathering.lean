import Prefetch.Proofs.Load.Requests
import Prefetch.Proofs.Selection.Merging

/-!
# Gathering — a request put together call by call

A request takes in one text after the other: some say what to load, others what is allowed.  As long
as every call succeeds it stands for the merge of what was asked for, and a single load of that merge
in its canonical text does the same.  The first call that fails decides everything: what was asked
for until then stays as it is, and the load is refused with the error of that call.

* `call_of_failed` — nothing reaches a request that has failed.
* `Gathered.call` — a call that succeeds keeps a request what its calls make of it.
* `loadRequest_ofCalls` — what the load of a request comes to, whatever the calls.
-/

namespace Prefetch

namespace Selection

/-- A selection with one more, given in text, merged into it. -/
def including (s : Selection) (text : String) : Except Error Selection :=
  match read text with
  | .error e => .error e
  | .ok t => s.mergeWith t

/-- The merge of some texts, one after the other. -/
def mergeTexts (texts : List String) : Except Error Selection :=
  texts.foldlM including root

theorem writable_root : root.Writable :=
  writable_of_parse (s := "") rfl

/-- What a text adds to a selection that can be written leaves one that can be written. -/
theorem writable_including {s m : Selection} {text : String} (hs : s.Writable)
    (h : s.including text = .ok m) : m.Writable := by
  unfold including read mergeWith at h
  cases hparse : parse text with
  | error e =>
    rw [hparse] at h
    cases h
  | ok t =>
    rw [hparse] at h
    cases hmerge : s.merge t with
    | error fault =>
      simp only [hmerge] at h
      cases h
    | ok merged =>
      simp only [hmerge] at h
      obtain rfl := Except.ok.inj h
      exact writable_merge hs (writable_of_parse hparse) hmerge

end Selection

namespace LoadRequest

open Selection

/-- One call on a request. -/
inductive Call where
  /-- Asks for more, in text. -/
  | select (text : String)
  /-- Sets what is allowed, in text. -/
  | allow (text : String)

/-- A request after one more call. -/
def call (r : LoadRequest) : Call → LoadRequest
  | .select text => r.select text
  | .allow text => r.allow text

/-- The request that some calls put together. -/
def ofCalls (calls : List Call) : LoadRequest :=
  calls.foldl call {}

/-- The texts that say what to load. -/
def selected (calls : List Call) : List String :=
  calls.filterMap fun
    | .select text => some text
    | .allow _ => none

/-- The texts that say what is allowed. -/
def permitted (calls : List Call) : List String :=
  calls.filterMap fun
    | .select _ => none
    | .allow text => some text

/-- A call fails when its text is no selection, or is one that cannot be merged into what has been
asked for. -/
inductive Call.Fails (s : Selection) : Call → Error → Prop where
  | select {text : String} {e : Error} (h : s.including text = .error e) : Fails s (.select text) e
  | allow {text : String} {e : Error} (h : read text = .error e) : Fails s (.allow text) e

/-- No call fails, and what is asked for comes to `s`. -/
structure Succeed (calls : List Call) (s : Selection) : Prop where
  merged : mergeTexts (selected calls) = .ok s
  read : ∀ text ∈ permitted calls, ∃ a, Selection.read text = .ok a

/-! ### One call -/

variable {r : LoadRequest} {e : Error}

theorem ofCalls_append (calls : List Call) (c : Call) :
    ofCalls (calls ++ [c]) = (ofCalls calls).call c := by
  simp [ofCalls, List.foldl_append]

theorem mergeTexts_append {texts : List String} {s : Selection} (h : mergeTexts texts = .ok s)
    (text : String) : mergeTexts (texts ++ [text]) = s.including text := by
  unfold mergeTexts at h ⊢
  rw [List.foldlM_append, h]
  exact bind_pure (s.including text)

/-- A request that has not failed takes in what a text adds. -/
theorem select_eq (h : r.error = none) (text : String) :
    r.select text =
      match r.selection.including text with
      | .error e => r.fail e
      | .ok m => { r with selection := m } := by
  unfold select addSelection including
  simp only [h, Option.isSome_none, Bool.false_eq_true, if_false]
  cases read text <;> rfl

theorem allow_of_error {text : String} (h : read text = .error e) : r.allow text = r.fail e := by
  rw [allow, h]

theorem allow_of_ok {text : String} {a : Selection} (h : read text = .ok a) :
    r.allow text = { r with allowed := some a } := by
  rw [allow, h]
  rfl

/-- Once a call has failed its error stays, and nothing more is asked for. -/
theorem call_of_failed (h : r.error = some e) (c : Call) :
    (r.call c).error = some e ∧ (r.call c).selection = r.selection := by
  cases c with
  | select text =>
    rw [call, select_of_error (by rw [h]; rfl)]
    exact ⟨h, rfl⟩
  | allow text =>
    rw [call]
    cases hread : read text with
    | error e' =>
      rw [allow_of_error hread, fail, h]
      exact ⟨rfl, rfl⟩
    | ok a =>
      rw [allow_of_ok hread]
      exact ⟨h, rfl⟩

/-- A call that fails leaves its error, and what was asked for before. -/
theorem call_of_fails {c : Call} (h : r.error = none) (hc : c.Fails r.selection e) :
    (r.call c).error = some e ∧ (r.call c).selection = r.selection := by
  have hfail : (r.fail e).error = some e ∧ (r.fail e).selection = r.selection := by
    rw [fail, h]
    exact ⟨rfl, rfl⟩
  cases hc with
  | select hi =>
    rw [call, select_eq h, hi]
    exact hfail
  | allow hread =>
    rw [call, allow_of_error hread]
    exact hfail

/-! ### Calls that succeed -/

/-- A request is what calls that all succeed make of it. -/
structure Gathered (calls : List Call) (r : LoadRequest) : Prop where
  succeed : Succeed calls r.selection
  writable : r.selection.Writable
  /-- The last call counts for what is allowed. -/
  allowed : readOptional (permitted calls).getLast? = .ok r.allowed
  sound : r.error = none

namespace Gathered

variable {calls : List Call}

theorem start : Gathered [] {} where
  succeed := ⟨rfl, nofun⟩
  writable := writable_root
  allowed := rfl
  sound := rfl

theorem select (h : Gathered calls r) {text : String} {m : Selection}
    (hm : r.selection.including text = .ok m) :
    Gathered (calls ++ [.select text]) (r.select text) := by
  have hselected : selected (calls ++ [.select text]) = selected calls ++ [text] := by
    simp [selected, List.filterMap_append]
  have hpermitted : permitted (calls ++ [.select text]) = permitted calls := by
    simp [permitted, List.filterMap_append]
  rw [select_eq h.sound, hm]
  refine ⟨⟨?_, ?_⟩, writable_including h.writable hm, ?_, h.sound⟩
  · rw [hselected, mergeTexts_append h.succeed.merged, hm]
  · rw [hpermitted]
    exact h.succeed.read
  · rw [hpermitted]
    exact h.allowed

theorem allow (h : Gathered calls r) {text : String} {a : Selection} (ha : read text = .ok a) :
    Gathered (calls ++ [.allow text]) (r.allow text) := by
  have hselected : selected (calls ++ [.allow text]) = selected calls := by
    simp [selected, List.filterMap_append]
  have hpermitted : permitted (calls ++ [.allow text]) = permitted calls ++ [text] := by
    simp [permitted, List.filterMap_append]
  rw [allow_of_ok ha]
  refine ⟨⟨?_, ?_⟩, h.writable, ?_, h.sound⟩
  · rw [hselected]
    exact h.succeed.merged
  · rw [hpermitted]
    intro text' htext
    rcases List.mem_append.1 htext with htext | htext
    · exact h.succeed.read text' htext
    · obtain rfl := List.mem_singleton.1 htext
      exact ⟨a, ha⟩
  · rw [hpermitted, List.getLast?_append, List.getLast?_singleton, Option.some_or, readOptional, ha]

/-- A call on a request that has not failed fails, or is taken in. -/
theorem call (h : Gathered calls r) (c : Call) :
    (∃ e, c.Fails r.selection e) ∨ Gathered (calls ++ [c]) (r.call c) := by
  cases c with
  | select text =>
    cases hi : r.selection.including text with
    | error e => exact .inl ⟨e, .select hi⟩
    | ok m => exact .inr (h.select hi)
  | allow text =>
    cases hread : read text with
    | error e => exact .inl ⟨e, .allow hread⟩
    | ok a => exact .inr (h.allow hread)

/-- The load of such a request is a single load in canonical text. -/
theorem loadRequest_eq (h : Gathered calls r) (l : Loader) (past : List Issued) (model : String)
    (scope : Option String) (base : List Value) :
    l.loadRequest past model r scope base =
      l.load past model r.selection.text (permitted calls).getLast? scope base := by
  have hselect := select_of_parse (parse_text_of_writable h.writable)
  have hallowed := h.allowed
  have hsound := h.sound
  obtain ⟨s, allowed, error⟩ := r
  simp only at hselect hallowed hsound ⊢
  subst hsound
  unfold Loader.load
  rw [hselect]
  cases hlast : (permitted calls).getLast? with
  | none =>
    rw [hlast] at hallowed
    obtain rfl := Except.ok.inj hallowed
    rfl
  | some text =>
    rw [hlast, readOptional] at hallowed
    cases hread : read text with
    | error e =>
      rw [hread] at hallowed
      cases hallowed
    | ok a =>
      rw [hread] at hallowed
      obtain rfl := Except.ok.inj hallowed
      simp only [LoadRequest.allow, hread, allowSelection]

end Gathered

/-! ### All calls -/

/-- Calls all succeed, or there is a first one that fails and decides what the request is. -/
theorem exists_fails_or_gathered (calls : List Call) :
    (∃ front c back s e, calls = front ++ c :: back ∧ Succeed front s ∧ c.Fails s e ∧
      (ofCalls calls).selection = s ∧ (ofCalls calls).error = some e) ∨
    Gathered calls (ofCalls calls) := by
  induction calls using List.reverseRecOn with
  | nil => exact .inr .start
  | append_singleton calls c ih =>
    rw [ofCalls_append]
    obtain ⟨front, d, back, s, e, rfl, hs, hd, hselection, herror⟩ | h := ih
    · obtain ⟨herror', hsame⟩ := call_of_failed herror c
      exact .inl ⟨front, d, back ++ [c], s, e, by simp, hs, hd, hsame.trans hselection, herror'⟩
    · obtain ⟨e, he⟩ | h' := h.call c
      · obtain ⟨herror, hselection⟩ := call_of_fails h.sound he
        exact .inl ⟨calls, c, [], _, e, rfl, h.succeed, he, hselection, herror⟩
      · exact .inr h'

end LoadRequest

open LoadRequest in
/-- The load of a request, whatever calls have put it together.  If some call fails, the first that
does decides: the request asks for the merge of the texts before it, and its load is refused with the
error of that call, before any query.  If none fails, the request asks for the merge of all texts, and
its load is a single load of that merge, in canonical text, under what the last call allowed: with the
same queries, the same rows and the same error. -/
theorem Loader.loadRequest_ofCalls (l : Loader) (past : List Issued) (model : String)
    (scope : Option String) (base : List Value) (calls : List Call) :
    (∃ front c back s e, calls = front ++ c :: back ∧ Succeed front s ∧ c.Fails s e ∧
      (ofCalls calls).selection = s ∧
        l.loadRequest past model (ofCalls calls) scope base = .refused e) ∨
    ∃ s, Succeed calls s ∧ (ofCalls calls).selection = s ∧
      l.loadRequest past model (ofCalls calls) scope base =
        l.load past model s.text (permitted calls).getLast? scope base := by
  obtain ⟨front, c, back, s, e, hcalls, hs, hc, hselection, herror⟩ | h :=
    exists_fails_or_gathered calls
  · refine .inl ⟨front, c, back, s, e, hcalls, hs, hc, hselection, ?_⟩
    rw [Loader.loadRequest, herror]
  · exact .inr ⟨_, h.succeed, rfl, h.loadRequest_eq l past model scope base⟩

/-- What follows a call that fails is not asked for, even where it could be. -/
example : (LoadRequest.ofCalls [.select "posts.tags", .allow "posts.*", .select "posts.^",
    .select "roles", .allow "["]).selection.text = "posts.tags" := by cbv

end Prefetch

import Typeset.Proofs.Database.Declared
import Typeset.Proofs.Definition.Built

/-!
# Leaving failing schemes out, or stopping at the first

Whether a scheme directive fails is a matter of that directive and the database. So
the two ways to compile a file agree: the lenient one leaves out the directives that
fail, with a warning for each, and the strict one stops at the first of them. Once
they are taken out of the file the strict one makes the same definition as well.
-/

namespace Typeset

/-- What a directive is compiled into, if it is a scheme directive. -/
def Directive.compile? (db : Database) (d : Directive) : Option (Except SchemeError Scheme) :=
  d.schemeSource?.map fun source => source.compile db

/-- The scheme of a directive, if it has one that does not fail. -/
def Directive.scheme? (db : Database) (d : Directive) : Option Scheme :=
  match d.compile? db with
  | some (.ok scheme) => some scheme
  | _ => none

/-- Why the scheme of a directive fails, if it does. -/
def Directive.failure? (db : Database) (d : Directive) : Option SchemeError :=
  match d.compile? db with
  | some (.error e) => some e
  | _ => none

/-- The warning that a directive is left out for a reason. -/
def Directive.skipWarning (d : Directive) (e : SchemeError) : Note :=
  ⟨.warning, none, "Line " ++ toString d.line ++ ": " ++ e.message ++ "; scheme skipped"⟩

/-- The warnings among the notes of a computation. -/
def Logged.warnings {ε α : Type} (x : Logged ε α) : List Note :=
  x.notes.filter fun n => n.importance == .warning

variable {db : Database}

/-- A directive is not a scheme directive, or it has its scheme, or it fails. -/
theorem Directive.compile?_cases (db : Database) (d : Directive) :
    (d.schemeSource? = none ∧ d.scheme? db = none ∧ d.failure? db = none) ∨
    (∃ source scheme, d.schemeSource? = some source ∧ source.compile db = .ok scheme ∧
      d.scheme? db = some scheme ∧ d.failure? db = none) ∨
    (∃ source e, d.schemeSource? = some source ∧ source.compile db = .error e ∧
      d.scheme? db = none ∧ d.failure? db = some e) := by
  cases hsource : d.schemeSource? with
  | none => simp [scheme?, failure?, compile?, hsource]
  | some source =>
    cases hcompile : source.compile db with
    | ok scheme => simp [scheme?, failure?, compile?, hsource, hcompile]
    | error e => simp [scheme?, failure?, compile?, hsource, hcompile]

/-- The scheme of a directive can be added to any definition. -/
theorem Directive.isNamed_of_scheme? {d : Directive} {s : Scheme}
    (h : d.scheme? db = some s) : s.IsNamed := by
  rcases d.compile?_cases db with ⟨_, hscheme, _⟩ | ⟨source, scheme, _, hcompile, hscheme, _⟩ |
    ⟨_, _, _, _, hscheme, _⟩
  · cases hscheme.symm.trans h
  · cases hscheme.symm.trans h
    exact (SchemeSource.of_compile_eq_ok hcompile).2.2
  · cases hscheme.symm.trans h

/-- A directive that fails is a scheme directive. -/
theorem Directive.exists_content_of_failure? {d : Directive} {e : SchemeError}
    (h : d.failure? db = some e) : ∃ tc symbols isIdentifier template,
      d.content = .scheme isIdentifier tc symbols template := by
  unfold failure? compile? schemeSource? at h
  split at h
  · rename_i hsome
    split at hsome
    · rename_i isIdentifier tc symbols template hcontent
      exact ⟨tc, symbols, isIdentifier, template, hcontent⟩
    · cases hsome
  · cases h

namespace Logged

variable {ε α β : Type}

/-- A value that is made from that of a computation. -/
theorem outcome_bind_pure {x : Logged ε α} {a : α} (h : x.outcome = .ok a) (f : α → β) :
    (x >>= fun a => pure (f a)).outcome = .ok (f a) := by
  rw [outcome_bind, h]
  rfl

/-- The warnings of two steps are those of the first and then those of the second. -/
theorem warnings_bind_of_outcome {x : Logged ε α} {a : α} (h : x.outcome = .ok a)
    (f : α → Logged ε β) : (x >>= f).warnings = x.warnings ++ (f a).warnings := by
  rw [warnings, notes_bind_of_outcome h, List.filter_append]
  rfl

/-- Making a value from that of a computation gives no warning. -/
theorem warnings_bind_pure {x : Logged ε α} {a : α} (h : x.outcome = .ok a) (f : α → β) :
    (x >>= fun a => pure (f a)).warnings = x.warnings := by
  rw [warnings_bind_of_outcome h]
  exact List.append_nil _

end Logged

namespace Definition

/-- The lenient compiler keeps the schemes that do not fail, and leaves out the
directives of the others. -/
theorem outcome_compileSchemes_lenient (db : Database) (ds : List Directive) :
    (compileSchemes db false ds).outcome =
      .ok (ds.filterMap (·.scheme? db), ds.filter fun d => (d.failure? db).isSome) := by
  induction ds with
  | nil => rfl
  | cons d ds ih =>
    unfold compileSchemes
    rcases d.compile?_cases db with ⟨hsource, hscheme, hfailure⟩ |
      ⟨source, scheme, hsource, hcompile, hscheme, hfailure⟩ |
      ⟨source, e, hsource, hcompile, hscheme, hfailure⟩
    · simp only [hsource, List.filterMap_cons, List.filter_cons, hscheme, hfailure, ih]
      rfl
    · simp only [hsource, hcompile, List.filterMap_cons, List.filter_cons, hscheme, hfailure]
      exact Logged.outcome_bind_pure ih _
    · simp only [hsource, hcompile, List.filterMap_cons, List.filter_cons, hscheme, hfailure]
      exact Logged.outcome_bind_pure ih _

/-- The strict compiler fails as the first scheme that fails, and has nothing to leave
out if none does. -/
theorem outcome_compileSchemes_strict (db : Database) (ds : List Directive) :
    (compileSchemes db true ds).outcome =
      match ds.findSome? (·.failure? db) with
      | some e => .error e
      | none => .ok (ds.filterMap (·.scheme? db), []) := by
  induction ds with
  | nil => rfl
  | cons d ds ih =>
    unfold compileSchemes
    rcases d.compile?_cases db with ⟨hsource, hscheme, hfailure⟩ |
      ⟨source, scheme, hsource, hcompile, hscheme, hfailure⟩ |
      ⟨source, e, hsource, hcompile, hscheme, hfailure⟩
    · simp only [hsource, List.filterMap_cons, List.findSome?_cons, hscheme, hfailure, ih]
    · simp only [hsource, hcompile, List.filterMap_cons, List.findSome?_cons, hscheme, hfailure]
      cases hfirst : ds.findSome? (·.failure? db) with
      | none =>
        rw [hfirst] at ih
        exact Logged.outcome_bind_pure ih _
      | some e =>
        rw [hfirst] at ih
        rw [Logged.outcome_bind, Logged.outcome_bind, ih]
        rfl
    · simp only [hsource, hcompile, List.findSome?_cons, hfailure]
      rfl

/-- The lenient compiler warns of each directive that fails. -/
theorem warnings_compileSchemes_lenient (ds : List Directive) :
    (compileSchemes db false ds).warnings =
      ds.filterMap fun d => (d.failure? db).map d.skipWarning := by
  induction ds with
  | nil => rfl
  | cons d ds ih =>
    have houtcome := outcome_compileSchemes_lenient db ds
    unfold compileSchemes
    rcases d.compile?_cases db with ⟨hsource, _, hfailure⟩ |
      ⟨source, scheme, hsource, hcompile, _, hfailure⟩ |
      ⟨source, e, hsource, hcompile, _, hfailure⟩
    · simp only [hsource, List.filterMap_cons, hfailure, Option.map_none, ih]
    · simp only [hsource, hcompile, List.filterMap_cons, hfailure, Option.map_none]
      rw [Logged.warnings_bind_of_outcome rfl, Logged.warnings_bind_pure houtcome, ih]
      rfl
    · simp only [hsource, hcompile, List.filterMap_cons, hfailure, Option.map_some]
      change (Logged.warn _ >>= fun _ => _).warnings = _
      rw [Logged.warnings_bind_of_outcome rfl, Logged.warnings_bind_pure houtcome, ih]
      rfl

/-- The warnings of directives that fail, one for each. -/
theorem forall₂_skipWarning (ds : List Directive) :
    List.Forall₂ (fun d note => ∃ e, d.failure? db = some e ∧ note = d.skipWarning e)
      (ds.filter fun d => (d.failure? db).isSome)
      (ds.filterMap fun d => (d.failure? db).map d.skipWarning) := by
  induction ds with
  | nil => exact .nil
  | cons d ds ih =>
    cases hfailure : d.failure? db with
    | none => simpa [hfailure] using ih
    | some e => simpa [hfailure] using ih

/-- The text of a role does not change with the directives that fail. -/
theorem lastText?_filter (role : TextRole) (ds : List Directive) :
    lastText? role (ds.filter fun d => (d.failure? db).isNone) = lastText? role ds := by
  unfold lastText?
  rw [List.filterMap_filter]
  congr 1
  apply List.filterMap_congr
  intro d _
  cases hfailure : d.failure? db with
  | none => rfl
  | some e =>
    obtain ⟨tc, symbols, isIdentifier, template, hcontent⟩ :=
      Directive.exists_content_of_failure? hfailure
    simp [hcontent]

/-- Directives that fail set no text. -/
theorem withTexts_filter (settings : Settings) (ds : List Directive) :
    withTexts db settings (ds.filter fun d => (d.failure? db).isNone) =
      withTexts db settings ds := by
  simp only [withTexts, lastText?_filter]

/-- Directives that fail have no schemes. -/
theorem filterMap_scheme?_filter (ds : List Directive) :
    (ds.filter fun d => (d.failure? db).isNone).filterMap (·.scheme? db) =
      ds.filterMap (·.scheme? db) := by
  rw [List.filterMap_filter]
  apply List.filterMap_congr
  intro d _
  rcases d.compile?_cases db with ⟨_, hscheme, hfailure⟩ | ⟨_, _, _, _, hscheme, hfailure⟩ |
    ⟨_, _, _, _, hscheme, hfailure⟩
  all_goals simp [hscheme, hfailure]

/-- Schemes that were compiled can be put together into a definition. -/
theorem exists_build (db : Database) (start : Definition) (ds : List Directive) :
    ∃ d, (build start (ds.filterMap (·.scheme? db))).outcome = .ok d := by
  rw [outcome_build]
  apply exists_foldlM_add_iff.mpr
  intro s hs
  obtain ⟨d, _, hscheme⟩ := List.mem_filterMap.mp hs
  exact d.isNamed_of_scheme? hscheme

/-- Compiling ends with the definition that is built from the schemes. -/
theorem outcome_compile_of_ok {settings : Settings} {strict : Bool} {ds : List Directive}
    {schemes : List Scheme} {skipped : List Directive} {d : Definition}
    (hschemes : (compileSchemes db strict ds).outcome = .ok (schemes, skipped))
    (hbuild : (build (withTexts db settings ds) schemes).outcome = .ok d) :
    (compile db settings strict ds).outcome = .ok ⟨d, skipped⟩ :=
  Logged.outcome_bind_eq_ok.mpr ⟨_, hschemes,
    Logged.outcome_bind_eq_ok.mpr ⟨(), rfl, Logged.outcome_bind_pure hbuild _⟩⟩

/-- Compiling fails as its schemes do. -/
theorem outcome_compile_of_error {settings : Settings} {strict : Bool} {ds : List Directive}
    {e : SchemeError} (hschemes : (compileSchemes db strict ds).outcome = .error e) :
    (compile db settings strict ds).outcome = .error e := by
  rw [compile, Logged.outcome_bind, hschemes]
  rfl

/-- Once the schemes are compiled no further warning is given. -/
theorem warnings_compile {settings : Settings} {strict : Bool} {ds : List Directive}
    {schemes : List Scheme} {skipped : List Directive} {d : Definition}
    (hschemes : (compileSchemes db strict ds).outcome = .ok (schemes, skipped))
    (hbuild : (build (withTexts db settings ds) schemes).outcome = .ok d) :
    (compile db settings strict ds).warnings = (compileSchemes db strict ds).warnings := by
  have hfold : (Logged.ofExcept (schemes.foldlM add (withTexts db settings ds))).outcome = .ok d := by
    rw [← hbuild, outcome_build]
    rfl
  have hbuilt : (build (withTexts db settings ds) schemes).warnings = [] := by
    rw [build, Logged.warnings_bind_of_outcome hfold]
    rfl
  rw [compile, Logged.warnings_bind_of_outcome hschemes, Logged.warnings_bind_of_outcome rfl,
    Logged.warnings_bind_pure hbuild, hbuilt]
  exact List.append_nil _

/-- The first failure is that of the first directive that fails. -/
theorem findSome?_failure_of_filter {ds rest : List Directive} {d : Directive}
    (h : ds.filter (fun d => (d.failure? db).isSome) = d :: rest) :
    ∃ e, d.failure? db = some e ∧ ds.findSome? (·.failure? db) = some e := by
  obtain ⟨before, after, rfl, hbefore, hd, _⟩ := List.filter_eq_cons_iff.mp h
  obtain ⟨e, he⟩ := Option.isSome_iff_exists.mp hd
  have hnone : before.findSome? (·.failure? db) = none := by
    rw [List.findSome?_eq_none_iff]
    intro d' hd'
    simpa using hbefore d' hd'
  refine ⟨e, he, ?_⟩
  rw [List.findSome?_append, hnone, Option.none_or, List.findSome?_cons, he]

/-- Where no directive fails the strict compiler makes the definition that is built from
all schemes. -/
theorem outcome_compile_strict {settings : Settings} {ds : List Directive} {d : Definition}
    (hds : ∀ d ∈ ds, d.failure? db = none)
    (hbuild : (build (withTexts db settings ds) (ds.filterMap (·.scheme? db))).outcome = .ok d) :
    (compile db settings true ds).outcome = .ok ⟨d, []⟩ := by
  have hschemes := outcome_compileSchemes_strict db ds
  rw [List.findSome?_eq_none_iff.mpr hds] at hschemes
  exact outcome_compile_of_ok hschemes hbuild

/-- The strict compiler fails as the first directive that fails. -/
theorem outcome_compile_strict_of_filter {settings : Settings} {ds rest : List Directive}
    {d : Directive} (h : ds.filter (fun d => (d.failure? db).isSome) = d :: rest) :
    ∃ e, d.failure? db = some e ∧ (compile db settings true ds).outcome = .error e := by
  obtain ⟨e, he, hfirst⟩ := findSome?_failure_of_filter h
  have hschemes := outcome_compileSchemes_strict db ds
  rw [hfirst] at hschemes
  exact ⟨e, he, outcome_compile_of_error hschemes⟩

/-- The lenient compiler makes a definition of every list of directives. What it leaves
out are the directives that fail, each with one warning that names its line. The strict
compiler fails exactly if there are any, as the first of them does, and makes the same
definition of the others. -/
theorem strict_and_lenient_agree (db : Database) (settings : Settings) (ds : List Directive) :
    ∃ compiled, (compile db settings false ds).outcome = .ok compiled ∧
      compiled.skipped = ds.filter (fun d => (d.failure? db).isSome) ∧
      ((∃ e, (compile db settings true ds).outcome = .error e) ↔ compiled.skipped ≠ []) ∧
      (∀ d rest, compiled.skipped = d :: rest → ∃ e, d.failure? db = some e ∧
        (compile db settings true ds).outcome = .error e) ∧
      (compile db settings true (ds.filter fun d => d ∉ compiled.skipped)).outcome =
        .ok ⟨compiled.definition, []⟩ ∧
      List.Forall₂ (fun d note => ∃ e, d.failure? db = some e ∧ note = d.skipWarning e)
        compiled.skipped (compile db settings false ds).warnings := by
  obtain ⟨d, hd⟩ := exists_build db (withTexts db settings ds) ds
  have hlenient := outcome_compileSchemes_lenient db ds
  refine ⟨_, outcome_compile_of_ok hlenient hd, rfl, ?_, ?_, ?_, ?_⟩
  · constructor
    · rintro ⟨e, he⟩ hnone
      have hds : ∀ d ∈ ds, d.failure? db = none := by
        intro d' hd'
        simpa using List.filter_eq_nil_iff.mp hnone d' hd'
      rw [outcome_compile_strict hds hd] at he
      cases he
    · intro hsome
      obtain ⟨d', rest, hskipped⟩ := List.exists_cons_of_ne_nil hsome
      obtain ⟨e, _, he⟩ := outcome_compile_strict_of_filter hskipped
      exact ⟨e, he⟩
  · intro d' rest hskipped
    exact outcome_compile_strict_of_filter hskipped
  · have hkept : (ds.filter fun d => d ∉ ds.filter fun d => (d.failure? db).isSome) =
        ds.filter fun d => (d.failure? db).isNone := by
      apply List.filter_congr
      intro d' hd'
      cases hfailure : d'.failure? db with
      | none => simp [hfailure]
      | some e => simp [hd', hfailure]
    rw [hkept]
    apply outcome_compile_strict
    · intro d' hd'
      exact Option.isNone_iff_eq_none.mp (List.mem_filter.mp hd').2
    · rw [withTexts_filter, filterMap_scheme?_filter]
      exact hd
  · rw [warnings_compile hlenient hd, warnings_compileSchemes_lenient]
    exact forall₂_skipWarning ds

/-- Three scheme directives, the second one for a symbol that the small database does
not declare. -/
def sampleFailing : List Directive :=
  [⟨.scheme true "c" ["x"] " x ", 1⟩, ⟨.scheme true "c" ["z"] " z ", 2⟩,
    ⟨.scheme false "c" ["x", "+", "y"] " #x# ", 3⟩]

/-- The second directive is left out with a warning, or stops the compilation. -/
example :
    (compile .sample {} false sampleFailing).outcome.map (fun compiled =>
        (compiled.definition.schemesOf "c", compiled.skipped)) =
      .ok ([⟨true, "c", .node "cx" "c" [], "x", 1⟩, ⟨false, "c", Database.sampleSum, "#x#", 3⟩],
        [⟨.scheme true "c" ["z"] " z ", 2⟩]) ∧
    (compile .sample {} false sampleFailing).warnings =
      [⟨.warning, none, "Line 2: Unknown symbol z; scheme skipped"⟩] ∧
    (compile .sample {} true sampleFailing).outcome = .error (.unknownSymbol "z") := by
  decide +kernel

end Definition

end Typeset

import Typeset.Proofs.Database.Declared
import Typeset.Proofs.Definition.Strictness
import Typeset.Proofs.Directive.Concatenation

/-!
# Compiling definition files side by side

A scheme is compiled alike wherever it stands, and blanks and comments are nothing to
the compiler. So a file and a text behind it are compiled into what both are compiled
into alone: in every bucket the schemes of the first stand before those of the second,
and where both say something about an identifier or a string, the second one counts.
-/

namespace Typeset

/-- The same scheme, so many lines further down. -/
def Scheme.below (n : Nat) (s : Scheme) : Scheme := { s with line := s.line + n }

/-- The string of a definition that the texts of a role set. -/
def Definition.textOf (d : Definition) : TextRole → String
  | .typecodes => ""
  | .command => d.command
  | .display => d.display
  | .inlined => d.inlined
  | .header => d.header

/-- Some directive of a list is a text of the role. -/
def TextRole.IsSetIn (role : TextRole) (ds : List Directive) : Prop :=
  ∃ d ∈ ds, ∃ text, d.content = .text role text

/-- A definition that joins two others. The second one is made of the directives, and
its schemes stand so many lines further down in the joined definition. -/
structure Definition.Joins (joined first second : Definition) (n : Nat)
    (ds : List Directive) : Prop where
  /-- In every bucket the schemes of the first stand before those of the second. -/
  schemesOf_eq : ∀ tc,
    joined.schemesOf tc = first.schemesOf tc ++ (second.schemesOf tc).map (·.below n)
  /-- An identifier is that of the second, if it is one there. -/
  get?_identifiers : ∀ l,
    joined.identifiers.get? l = (second.identifiers.get? l).or (first.identifiers.get? l)
  /-- A string that the directives set is that of the second. -/
  textOf_eq_second : ∀ role : TextRole, role.IsSetIn ds → joined.textOf role = second.textOf role
  /-- Any other string is that of the first. -/
  textOf_eq_first : ∀ role : TextRole, ¬role.IsSetIn ds → joined.textOf role = first.textOf role

variable {db : Database}

/-- A scheme is compiled alike on every line. -/
theorem SchemeSource.compile_below (db : Database) (source : SchemeSource) (n : Nat) :
    { source with line := source.line + n }.compile db =
      (source.compile db).map (·.below n) := by
  obtain ⟨isIdentifier, tc, symbols, template, line⟩ := source
  unfold compile undeclared? candidates
  dsimp only
  cases (tc :: symbols).find? fun t => !db.isSymbol t with
  | some t => rfl
  | none =>
    cases db.readAs symbols (if db.typecodes.contains tc then [tc] else db.typecodes) true with
    | error e => rfl
    | ok pattern =>
      cases isIdentifier with
      | false => rfl
      | true =>
        simp only [if_true, Scheme.identifierLabel]
        split <;> rfl

/-- A directive has the same scheme further down. -/
theorem Directive.scheme?_below (d : Directive) (n : Nat) :
    (d.below n).scheme? db = (d.scheme? db).map (·.below n) := by
  obtain ⟨content, line⟩ := d
  unfold scheme? compile? schemeSource?
  cases content with
  | blank => rfl
  | text role text => rfl
  | scheme isIdentifier tc symbols template =>
    have hcompile :=
      SchemeSource.compile_below db ⟨isIdentifier, tc, symbols, template, line⟩ n
    simp only [Directive.below, Option.map_some, hcompile]
    cases SchemeSource.compile db ⟨isIdentifier, tc, symbols, template, line⟩ <;> rfl

/-- The schemes of directives come from those that say something. -/
theorem filterMap_scheme?_telling (ds : List Directive) :
    (telling ds).filterMap (·.scheme? db) = ds.filterMap (·.scheme? db) := by
  unfold telling
  rw [List.filterMap_filter]
  apply List.filterMap_congr
  rintro ⟨content, line⟩ _
  cases content <;> rfl

/-- The schemes of directives further down are the same further down. -/
theorem filterMap_scheme?_below (n : Nat) (ds : List Directive) :
    (ds.map (·.below n)).filterMap (·.scheme? db) =
      (ds.filterMap (·.scheme? db)).map (·.below n) := by
  rw [List.filterMap_map, List.map_filterMap]
  exact List.filterMap_congr fun d _ => d.scheme?_below n

/-- The last text of a role comes from the directives that say something. -/
theorem lastText?_telling (role : TextRole) (ds : List Directive) :
    lastText? role (telling ds) = lastText? role ds := by
  unfold lastText? telling
  rw [List.filterMap_filter]
  apply congrArg List.getLast?
  apply List.filterMap_congr
  rintro ⟨content, line⟩ _
  cases content <;> rfl

/-- The last text of a role is the same further down. -/
theorem lastText?_below (role : TextRole) (n : Nat) (ds : List Directive) :
    lastText? role (ds.map (·.below n)) = lastText? role ds := by
  unfold lastText?
  rw [List.filterMap_map]
  rfl

/-- The last text of two lists is that of the second, if it has one. -/
theorem lastText?_append (role : TextRole) (ds ds' : List Directive) :
    lastText? role (ds ++ ds') = (lastText? role ds').or (lastText? role ds) := by
  unfold lastText?
  rw [List.filterMap_append, List.getLast?_append]

/-- There is a last text of a role if some directive sets it. -/
theorem lastText?_eq_none_iff {role : TextRole} {ds : List Directive} :
    lastText? role ds = none ↔ ¬role.IsSetIn ds := by
  unfold lastText? TextRole.IsSetIn
  rw [List.getLast?_eq_none_iff, List.filterMap_eq_nil_iff]
  constructor
  · rintro hnone ⟨d, hd, text, htext⟩
    have := hnone d hd
    rw [htext] at this
    simp at this
  · intro hnone d hd
    split
    · rename_i r text htext
      rw [if_neg]
      rintro rfl
      exact hnone ⟨d, hd, text, htext⟩
    · rfl

namespace Definition

variable {settings : Settings}

/-- The strings of a definition are told from the last texts of each role. -/
theorem textOf_withTexts_congr {ds ds' : List Directive} {role : TextRole}
    (h : lastText? role ds = lastText? role ds') :
    (withTexts db settings ds).textOf role = (withTexts db settings ds').textOf role := by
  cases role <;> simp [withTexts, textOf, h]

/-- Adding a scheme leaves the strings as they are. -/
theorem textOf_of_add {d d' : Definition} {s : Scheme} (h : d.add s = .ok d')
    (role : TextRole) : d'.textOf role = d.textOf role := by
  unfold add at h
  split at h
  · cases hlabel : s.identifierLabel with
    | error e =>
      rw [hlabel] at h
      cases h
    | ok l =>
      rw [hlabel] at h
      cases h
      cases role <;> rfl
  · cases h
    cases role <;> rfl

/-- Building a definition leaves the strings as they are. -/
theorem textOf_of_build {start d : Definition} {schemes : List Scheme}
    (h : (build start schemes).outcome = .ok d) (role : TextRole) :
    d.textOf role = start.textOf role := by
  rw [outcome_build] at h
  induction schemes generalizing start with
  | nil =>
    cases h
    rfl
  | cons s more ih =>
    rw [List.foldlM_cons] at h
    cases hadd : start.add s with
    | error e => simp [hadd, bind, Except.bind] at h
    | ok next =>
      rw [hadd] at h
      rw [ih h, textOf_of_add hadd]

/-- The lenient compiler builds a definition from the schemes that do not fail, and
takes its strings from the last texts. -/
theorem exists_compile_lenient (db : Database) (settings : Settings) (ds : List Directive) :
    ∃ compiled, (compile db settings false ds).outcome = .ok compiled ∧
      compiled.definition.IsBuiltFrom db (ds.filterMap (·.scheme? db)) ∧
      ∀ role, compiled.definition.textOf role = (withTexts db settings ds).textOf role := by
  obtain ⟨d, hd⟩ := exists_build db (withTexts db settings ds) ds
  refine ⟨_, outcome_compile_of_ok (outcome_compileSchemes_lenient db ds) hd, ?_, ?_⟩
  · exact ⟨withTexts db settings ds, rfl, rfl, rfl, hd⟩
  · exact textOf_of_build hd

variable {first second joined : Definition} {schemes schemes' : List Scheme} {n : Nat}

/-- The buckets of two lists of schemes side by side. -/
theorem IsBuiltFrom.schemesOf_append (hfirst : first.IsBuiltFrom db schemes)
    (hsecond : second.IsBuiltFrom db schemes')
    (hjoined : joined.IsBuiltFrom db (schemes ++ schemes'.map (·.below n))) (tc : Typecode) :
    joined.schemesOf tc = first.schemesOf tc ++ (second.schemesOf tc).map (·.below n) := by
  rw [hjoined.schemesOf_eq, hfirst.schemesOf_eq, hsecond.schemesOf_eq]
  unfold bucketOf
  rw [List.filter_append, List.filter_map]
  rfl

/-- The identifiers of two lists of schemes side by side. -/
theorem IsBuiltFrom.get?_identifiers_append (hfirst : first.IsBuiltFrom db schemes)
    (hsecond : second.IsBuiltFrom db schemes')
    (hjoined : joined.IsBuiltFrom db (schemes ++ schemes'.map (·.below n))) (l : Label) :
    joined.identifiers.get? l = (second.identifiers.get? l).or (first.identifiers.get? l) := by
  rw [hjoined.get?_identifiers, hfirst.get?_identifiers, hsecond.get?_identifiers]
  unfold schemesFor
  rw [List.filter_append, List.getLast?_append, List.filter_map, List.getLast?_map,
    Option.map_or, Option.map_map]
  rfl

/-- Directives that say what others say and then what further ones say are compiled into
a definition that joins those of the two. -/
theorem exists_joins_of_telling {all ds ds' : List Directive}
    (h : telling all = telling ds ++ (telling ds').map (·.below n)) (db : Database)
    (settings : Settings) :
    ∃ first second joined, (compile db settings false ds).outcome = .ok first ∧
      (compile db settings false ds').outcome = .ok second ∧
      (compile db settings false all).outcome = .ok joined ∧
      joined.definition.Joins first.definition second.definition n ds' := by
  obtain ⟨first, hfirst, hbuilt, htexts⟩ := exists_compile_lenient db settings ds
  obtain ⟨second, hsecond, hbuilt', htexts'⟩ := exists_compile_lenient db settings ds'
  obtain ⟨joined, hjoined, hbuiltAll, htextsAll⟩ := exists_compile_lenient db settings all
  have hschemes : all.filterMap (·.scheme? db) =
      ds.filterMap (·.scheme? db) ++ (ds'.filterMap (·.scheme? db)).map (·.below n) := by
    rw [← filterMap_scheme?_telling, h, List.filterMap_append, filterMap_scheme?_below,
      filterMap_scheme?_telling, filterMap_scheme?_telling]
  have hlast : ∀ role, lastText? role all = (lastText? role ds').or (lastText? role ds) := by
    intro role
    rw [← lastText?_telling, h, lastText?_append, lastText?_below, lastText?_telling,
      lastText?_telling]
  rw [hschemes] at hbuiltAll
  refine ⟨first, second, joined, hfirst, hsecond, hjoined, ?_, ?_, ?_, ?_⟩
  · exact hbuilt.schemesOf_append hbuilt' hbuiltAll
  · exact hbuilt.get?_identifiers_append hbuilt' hbuiltAll
  · intro role hset
    have hsome : lastText? role ds' ≠ none := fun hnone => lastText?_eq_none_iff.mp hnone hset
    obtain ⟨text, htext⟩ := Option.ne_none_iff_exists'.mp hsome
    rw [htextsAll, htexts']
    apply textOf_withTexts_congr
    rw [hlast, htext, Option.some_or]
  · intro role hset
    rw [htextsAll, htexts]
    apply textOf_withTexts_congr
    rw [hlast, lastText?_eq_none_iff.mpr hset, Option.none_or]

/-- A file and a text behind it are read and compiled as each of them alone. The
directives of both that say something are those of the file and then those of the text,
further down by the lines of the file, and what remains of both is what remains of the
text. They are compiled into a definition that joins those of the file and of the
text. -/
theorem files_concatenate {verbose : Bool} {a : List Char} {ds : List Directive}
    (ha : (parseDefinition verbose a).outcome = .ok ds) (b : List Char) (db : Database)
    (settings : Settings) :
    telling (readDirectives (a ++ b)).directives =
        telling ds ++ (telling (readDirectives b).directives).map (·.below (Text.lineFeeds a)) ∧
      (readDirectives (a ++ b)).remaining = (readDirectives b).remaining ∧
      ∃ first second joined,
        (compile db settings false ds).outcome = .ok first ∧
        (compile db settings false (readDirectives b).directives).outcome = .ok second ∧
        (compile db settings false (readDirectives (a ++ b)).directives).outcome = .ok joined ∧
        joined.definition.Joins first.definition second.definition (Text.lineFeeds a)
          (readDirectives b).directives := by
  obtain ⟨items, rfl, _, rfl⟩ := parseDefinition_eq_ok_iff_settled.mp ha
  obtain ⟨hremaining, htelling⟩ := readFrom_behind 1 items b
  rw [readFrom_add] at hremaining htelling
  rw [telling_below] at htelling
  exact ⟨htelling, hremaining, exists_joins_of_telling htelling db settings⟩

/-- A file that ends with a blank. -/
def sampleFile : List Char := "$h one $.\n$i c x $: x $. ".toList

/-- A text that begins with a blank, sets the same string once more, and ends with a
dollar that begins no directive. -/
def sampleText : List Char := " \n$h two $. $s c x + y $: #x# $. $".toList

/-- The blanks between the sample file and the sample text are read as one run, the
schemes of the text move down by one line behind those of the file, the identifier of
the file stays, and the header of the text counts. -/
theorem files_concatenate_sample :
    (parseDefinition false sampleFile).outcome =
        .ok [⟨.text .header " one ", 1⟩, ⟨.blank, 1⟩, ⟨.scheme true "c" ["x"] " x ", 2⟩,
          ⟨.blank, 2⟩] ∧
      telling (readDirectives (sampleFile ++ sampleText)).directives =
        [⟨.text .header " one ", 1⟩, ⟨.scheme true "c" ["x"] " x ", 2⟩,
          ⟨.text .header " two ", 3⟩, ⟨.scheme false "c" ["x", "+", "y"] " #x# ", 3⟩] ∧
      (readDirectives (sampleFile ++ sampleText)).remaining = ['$'] ∧
      ∃ second joined,
        (compile .sample {} false (readDirectives sampleText).directives).outcome = .ok second ∧
        (compile .sample {} false (readDirectives (sampleFile ++ sampleText)).directives).outcome =
          .ok joined ∧
        joined.definition.textOf .header = second.definition.textOf .header ∧
        second.definition.schemesOf "c" = [⟨false, "c", Database.sampleSum, "#x#", 2⟩] ∧
        joined.definition.schemesOf "c" =
          [⟨true, "c", .node "cx" "c" [], "x", 2⟩, ⟨false, "c", Database.sampleSum, "#x#", 3⟩] ∧
        second.definition.identifiers.get? "cx" = none ∧
        joined.definition.identifiers.get? "cx" = some "c" := by
  have hfile : (parseDefinition false sampleFile).outcome =
      .ok [⟨.text .header " one ", 1⟩, ⟨.blank, 1⟩, ⟨.scheme true "c" ["x"] " x ", 2⟩,
        ⟨.blank, 2⟩] := by
    decide +kernel
  have htext : readDirectives sampleText =
      ⟨[⟨.blank, 1⟩, ⟨.text .header " two ", 2⟩, ⟨.blank, 2⟩,
        ⟨.scheme false "c" ["x", "+", "y"] " #x# ", 2⟩, ⟨.blank, 2⟩], ['$'], 2⟩ := by
    decide +kernel
  obtain ⟨htelling, hremaining, first, second, joined, hfirst, hsecond, hjoined, hjoins⟩ :=
    files_concatenate hfile sampleText .sample {}
  have hset : TextRole.IsSetIn .header (readDirectives sampleText).directives := by
    rw [htext]
    exact ⟨⟨.text .header " two ", 2⟩, by simp, " two ", rfl⟩
  have hcompiled : ∀ {ds compiled schemes identifier},
      (compile .sample {} false ds).outcome = .ok compiled →
      (compile .sample {} false ds).outcome.map (fun c =>
        (c.definition.schemesOf "c", c.definition.identifiers.get? "cx")) =
          .ok (schemes, identifier) →
      compiled.definition.schemesOf "c" = schemes ∧
        compiled.definition.identifiers.get? "cx" = identifier := by
    intro ds compiled schemes identifier houtcome hmap
    rw [houtcome] at hmap
    exact Prod.mk.inj (Except.ok.inj hmap)
  obtain ⟨hschemes, hidentifier⟩ :
      first.definition.schemesOf "c" = [⟨true, "c", .node "cx" "c" [], "x", 2⟩] ∧
        first.definition.identifiers.get? "cx" = some "c" :=
    hcompiled hfirst (by decide +kernel)
  obtain ⟨hschemes', hidentifier'⟩ :
      second.definition.schemesOf "c" = [⟨false, "c", Database.sampleSum, "#x#", 2⟩] ∧
        second.definition.identifiers.get? "cx" = none :=
    hcompiled hsecond (by decide +kernel)
  rw [htext] at htelling hremaining
  refine ⟨hfile, htelling, hremaining, second, joined, hsecond, hjoined,
    hjoins.textOf_eq_second _ hset, hschemes', ?_, hidentifier', ?_⟩
  · rw [hjoins.schemesOf_eq, hschemes, hschemes']
    rfl
  · rw [hjoins.get?_identifiers, hidentifier, hidentifier']
    rfl

end Definition

end Typeset

import Typeset.Definition.Compile

/-!
# What a compiled definition holds

Schemes are compiled one by one and put into the bucket of their typecode. So
every scheme of a bucket was read under the typecode of the bucket, and every
identifier has a scheme of its own in the bucket it is registered with.
-/

namespace Typeset

/-- A scheme that was read with a database. -/
structure Scheme.IsReadWith (db : Database) (s : Scheme) : Prop where
  /-- Under a typecode of the grammar, and no other, its pattern was read. -/
  pattern_read : s.typecode ∈ db.typecodes →
    ∃ symbols, db.readAs symbols [s.typecode] true = .ok s.pattern
  /-- The pattern of an identifier scheme has no parts. -/
  pattern_atomic : s.isIdentifier = true → s.pattern.children = []

/-- The label of an identifier scheme is that of its pattern, which has no
parts. -/
theorem Scheme.of_identifierLabel {s : Scheme} {l : Label} (h : s.identifierLabel = .ok l) :
    l = s.pattern.label ∧ s.pattern.children = [] := by
  unfold identifierLabel at h
  split at h
  · cases h
  · rename_i hsymbol
    cases h
    have hlength : ¬s.pattern.children.length ≠ 0 := fun hne => hsymbol (.inr hne)
    exact ⟨rfl, List.length_eq_zero_iff.mp (by omega)⟩

/-- An identifier scheme names a symbol; a pattern scheme need not. -/
def Scheme.IsNamed (s : Scheme) : Prop :=
  s.isIdentifier = true → ∃ l, s.identifierLabel = .ok l

/-- Of a pattern scheme no symbol is asked for. -/
theorem Scheme.isNamed_of_pattern {s : Scheme} (h : s.isIdentifier = false) : s.IsNamed := by
  intro hidentifier
  rw [h] at hidentifier
  cases hidentifier

/-- The scheme of a directive has the pattern that was read under the typecodes it may
have, and names a symbol if it is an identifier scheme. -/
theorem SchemeSource.of_compile_eq_ok {db : Database} {source : SchemeSource} {s : Scheme}
    (h : source.compile db = .ok s) :
    s.typecode = source.typecode ∧
      db.readAs source.symbols (source.candidates db) true = .ok s.pattern ∧ s.IsNamed := by
  unfold compile at h
  split at h
  · cases h
  · split at h
    · cases h
    · rename_i pattern hread
      dsimp only at h
      split at h
      · cases hlabel : Scheme.identifierLabel
            ⟨source.isIdentifier, source.typecode, pattern,
              String.ofList (Text.trim source.template.toList), source.line⟩ with
        | error e =>
          rw [hlabel] at h
          cases h
        | ok l =>
          rw [hlabel] at h
          cases h
          exact ⟨rfl, hread, fun _ => ⟨l, hlabel⟩⟩
      · rename_i hpattern
        cases h
        exact ⟨rfl, hread, Scheme.isNamed_of_pattern (by simpa using hpattern)⟩

/-- A scheme that was compiled was read with the database. -/
theorem SchemeSource.isReadWith_of_compile {db : Database} {source : SchemeSource} {s : Scheme}
    (h : source.compile db = .ok s) : s.IsReadWith db := by
  obtain ⟨htypecode, hread, hnamed⟩ := of_compile_eq_ok h
  constructor
  · intro hmem
    rw [htypecode] at hmem ⊢
    rw [candidates, if_pos (by simpa using hmem)] at hread
    exact ⟨source.symbols, hread⟩
  · intro hidentifier
    obtain ⟨l, hlabel⟩ := hnamed hidentifier
    exact (Scheme.of_identifierLabel hlabel).2

namespace Definition

/-- A definition whose buckets and identifiers are filled by schemes that were
read with a database. -/
structure IsIndexed (db : Database) (d : Definition) : Prop where
  /-- The definition is about the database. -/
  database_eq : d.database = db
  /-- A bucket holds schemes of its typecode, which were read. -/
  of_mem_schemesOf : ∀ {tc s}, s ∈ d.schemesOf tc → s.typecode = tc ∧ s.IsReadWith db
  /-- An identifier has a scheme in the bucket of its typecode. -/
  exists_scheme : ∀ {l tc}, d.identifiers.get? l = some tc →
    ∃ s ∈ d.schemesOf tc, s.isIdentifier = true ∧ s.pattern.label = l

/-- The bucket of a scheme's typecode is there once the scheme is added, with the
scheme at its end. -/
theorem get?_schemes_addToBucket (d : Definition) (s : Scheme) (tc : Typecode) :
    (d.addToBucket s).schemes.get? tc =
      if tc = s.typecode then some (d.schemesOf tc ++ [s]) else d.schemes.get? tc := by
  rw [addToBucket, Table.get?_set]
  split
  · rename_i htc
    rw [htc]
    rfl
  · rfl

/-- A scheme goes to the end of the bucket of its typecode. -/
theorem schemesOf_addToBucket (d : Definition) (s : Scheme) (tc : Typecode) :
    (d.addToBucket s).schemesOf tc =
      if tc = s.typecode then d.schemesOf tc ++ [s] else d.schemesOf tc := by
  rw [schemesOf, get?_schemes_addToBucket]
  split <;> rfl

/-- A bucket keeps its schemes. -/
theorem mem_schemesOf_addToBucket {d : Definition} {s t : Scheme} {tc : Typecode}
    (h : t ∈ d.schemesOf tc) : t ∈ (d.addToBucket s).schemesOf tc := by
  rw [schemesOf_addToBucket]
  split
  · exact List.mem_append_left _ h
  · exact h

/-- The new scheme is in the bucket of its typecode. -/
theorem mem_schemesOf_addToBucket_self (d : Definition) (s : Scheme) :
    s ∈ (d.addToBucket s).schemesOf s.typecode := by
  rw [schemesOf_addToBucket, if_pos rfl]
  exact List.mem_append_right _ List.mem_cons_self

/-- A bucket has schemes only if the typecode is in the table. -/
theorem get?_schemes_of_mem {d : Definition} {tc : Typecode} {s : Scheme}
    (h : s ∈ d.schemesOf tc) : d.schemes.get? tc = some (d.schemesOf tc) := by
  unfold schemesOf at h ⊢
  cases hget : d.schemes.get? tc with
  | none => simp [hget] at h
  | some schemes => rfl

/-- Putting a scheme that was read into its bucket. -/
theorem IsIndexed.addToBucket {db : Database} {d : Definition} {s : Scheme}
    (h : d.IsIndexed db) (hs : s.IsReadWith db) : (d.addToBucket s).IsIndexed db where
  database_eq := h.database_eq
  of_mem_schemesOf := by
    intro tc t ht
    rw [schemesOf_addToBucket] at ht
    split at ht
    · rename_i htc
      rcases List.mem_append.mp ht with ht | ht
      · exact h.of_mem_schemesOf ht
      · obtain rfl := List.mem_singleton.mp ht
        exact ⟨htc.symm, hs⟩
    · exact h.of_mem_schemesOf ht
  exists_scheme := by
    intro l tc hl
    obtain ⟨t, ht, hidentifier, hlabel⟩ := h.exists_scheme hl
    exact ⟨t, mem_schemesOf_addToBucket ht, hidentifier, hlabel⟩

/-- Adding a scheme that was read. -/
theorem IsIndexed.add {db : Database} {d d' : Definition} {s : Scheme} (h : d.IsIndexed db)
    (hs : s.IsReadWith db) (ha : d.add s = .ok d') : d'.IsIndexed db := by
  unfold Definition.add at ha
  split at ha
  · rename_i hidentifier
    cases hlabel : s.identifierLabel with
    | error e =>
      rw [hlabel] at ha
      cases ha
    | ok l =>
      rw [hlabel] at ha
      cases ha
      have hbucket := h.addToBucket hs
      refine ⟨hbucket.database_eq, hbucket.of_mem_schemesOf, ?_⟩
      intro l' tc hl
      change (d.identifiers.set l s.typecode).get? l' = some tc at hl
      rw [Table.get?_set] at hl
      split at hl
      · rename_i heq
        cases hl
        refine ⟨s, mem_schemesOf_addToBucket_self d s, hidentifier, ?_⟩
        rw [heq, (Scheme.of_identifierLabel hlabel).1]
      · exact hbucket.exists_scheme hl
  · cases ha
    exact h.addToBucket hs

/-- Adding schemes that were read, one after the other. -/
theorem IsIndexed.foldlM {db : Database} {schemes : List Scheme} :
    ∀ {d d' : Definition}, d.IsIndexed db → (∀ s ∈ schemes, s.IsReadWith db) →
      schemes.foldlM Definition.add d = .ok d' → d'.IsIndexed db := by
  induction schemes with
  | nil =>
    intro d d' h _ hfold
    cases hfold
    exact h
  | cons s more ih =>
    intro d d' h hs hfold
    rw [List.foldlM_cons] at hfold
    cases hadd : d.add s with
    | error e => simp [hadd, bind, Except.bind] at hfold
    | ok next =>
      rw [hadd] at hfold
      have hnext := h.add (hs s List.mem_cons_self) hadd
      exact ih hnext (fun t ht => hs t (List.mem_cons_of_mem _ ht)) hfold

/-- A definition without schemes. -/
theorem isIndexed_withTexts (db : Database) (settings : Settings) (ds : List Directive) :
    (withTexts db settings ds).IsIndexed db where
  database_eq := rfl
  of_mem_schemesOf := by
    intro tc s hs
    simp [withTexts, schemesOf, Table.empty, Table.get?] at hs
  exists_scheme := by
    intro l tc hl
    simp [withTexts, Table.empty, Table.get?] at hl

/-- Every scheme of a list of directives was read. -/
theorem isReadWith_of_compileSchemes {db : Database} {strict : Bool} {ds : List Directive} :
    ∀ {schemes skipped}, (compileSchemes db strict ds).outcome = .ok (schemes, skipped) →
      ∀ s ∈ schemes, s.IsReadWith db := by
  induction ds with
  | nil =>
    intro schemes skipped h s hs
    cases h
    simp at hs
  | cons d ds ih =>
    intro schemes skipped h
    unfold compileSchemes at h
    split at h
    · exact ih h
    · rename_i source _
      split at h
      · rename_i scheme hcompile
        obtain ⟨_, _, h⟩ := Logged.outcome_bind_eq_ok.mp h
        obtain ⟨⟨more, left⟩, hmore, h⟩ := Logged.outcome_bind_eq_ok.mp h
        cases h
        intro s hs
        rcases List.mem_cons.mp hs with rfl | hs
        · exact SchemeSource.isReadWith_of_compile hcompile
        · exact ih hmore s hs
      · split at h
        · cases h
        · obtain ⟨_, _, h⟩ := Logged.outcome_bind_eq_ok.mp h
          obtain ⟨⟨more, left⟩, hmore, h⟩ := Logged.outcome_bind_eq_ok.mp h
          cases h
          exact ih hmore

/-- Building adds the schemes one after the other. -/
theorem outcome_build (start : Definition) (schemes : List Scheme) :
    (build start schemes).outcome = schemes.foldlM Definition.add start := by
  unfold build
  rw [Logged.outcome_bind]
  cases h : schemes.foldlM Definition.add start with
  | error e => rfl
  | ok d => rfl

/-- A compiled definition is filled by schemes that were read with the
database. -/
theorem isIndexed_of_compile {db : Database} {settings : Settings} {strict : Bool}
    {ds : List Directive} {compiled : Compiled}
    (h : (compile db settings strict ds).outcome = .ok compiled) :
    compiled.definition.IsIndexed db := by
  unfold compile at h
  obtain ⟨⟨schemes, skipped⟩, hschemes, h⟩ := Logged.outcome_bind_eq_ok.mp h
  obtain ⟨_, _, h⟩ := Logged.outcome_bind_eq_ok.mp h
  obtain ⟨d, hbuild, h⟩ := Logged.outcome_bind_eq_ok.mp h
  cases h
  rw [outcome_build] at hbuild
  exact (isIndexed_withTexts db settings ds).foldlM (isReadWith_of_compileSchemes hschemes) hbuild

end Definition

end Typeset

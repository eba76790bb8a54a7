import Typeset.Proofs.Database.Spelling
import Typeset.Proofs.Definition.Built
import Typeset.Proofs.Definition.Calls
import Typeset.Proofs.Definition.Termination

/-!
# What an error tells

An error of a render is the own error of one of the renders below it: its
typecode has no schemes, or no scheme of its typecode applies to its formula.
Whatever is handed on is rendered under the typecode of an identifier, and this
has schemes; so only the render at the top can want for them. The other errors
spell the formula that no scheme applies to, and where it is part of what was
read it can be spelled.
-/

namespace Typeset.Definition

variable {d : Definition} {settings : Settings} {db : Database} {schemes : List Scheme}
  {c c' : Call} {tc : Typecode} {f : Formula}

/-- A formula that can be spelled is shown as it is spelled. -/
theorem unmatched_of_spell {symbols : List Symbol} (hf : d.database.spell f = .ok symbols)
    (tc : Typecode) : d.unmatched tc f = .noMatch f tc (" ".intercalate symbols) := by
  rw [unmatched, formulaText, hf]

/-- That no scheme applies is never told as a want of schemes. -/
theorem unmatched_ne_noSchemes (d : Definition) (tc tc' : Typecode) (f : Formula) :
    d.unmatched tc f ≠ .noSchemes tc' := by
  unfold unmatched formulaText
  cases d.database.spell f with
  | ok symbols => simp
  | error e => cases e <;> simp

/-- The typecode of an identifier has a bucket, and there are schemes in it. -/
theorem IsBuiltFrom.exists_bucket (hd : d.IsBuiltFrom db schemes) {l : Label}
    (hl : d.identifiers.get? l = some tc) :
    ∃ bucket, d.schemes.get? tc = some bucket ∧ bucket ≠ [] := by
  obtain ⟨s, hs, htc⟩ := hd.exists_scheme hl
  refine ⟨_, hd.get?_schemes_of_mem hs htc, ?_⟩
  exact List.ne_nil_of_mem (List.mem_filter.mpr ⟨hs, by simpa using htc⟩)

/-- A render that is reached from one with a bucket has a bucket. -/
theorem IsBuiltFrom.isSome_of_reaches (hd : d.IsBuiltFrom db schemes) (h : d.Reaches c c')
    (hc : (d.schemes.get? c.typecode).isSome) : (d.schemes.get? c'.typecode).isSome := by
  rcases h.below.1 with rfl | ⟨l, hl⟩
  · exact hc
  · obtain ⟨bucket, hbucket, _⟩ := hd.exists_bucket hl
    rw [hbucket]
    rfl

/-- A render wants for schemes exactly if its own typecode has none. -/
theorem IsBuiltFrom.run_eq_noSchemes_iff (hd : d.IsBuiltFrom db schemes) :
    d.run settings c = .error (.noSchemes tc) ↔
      tc = c.typecode ∧ d.schemes.get? c.typecode = none := by
  constructor
  · intro herror
    cases hbucket : d.schemes.get? c.typecode with
    | none =>
      rw [run_eq, formatWith, hbucket] at herror
      cases herror
      exact ⟨rfl, rfl⟩
    | some bucket =>
      obtain ⟨c', hreach, ⟨hnone, _⟩ | ⟨_, hown⟩⟩ := exists_reaches_of_run_eq_error herror
      · have hsome := hd.isSome_of_reaches hreach (by rw [hbucket]; rfl)
        rw [hnone] at hsome
        cases hsome
      · exact absurd hown.symm (d.unmatched_ne_noSchemes _ _ _)
  · rintro ⟨rfl, hnone⟩
    rw [run_eq, formatWith, hnone]
    rfl

/-- No render that another one asks for wants for schemes. -/
theorem IsBuiltFrom.run_ne_noSchemes_of_calls (hd : d.IsBuiltFrom db schemes)
    (h : d.Calls c c') (tc : Typecode) : d.run settings c' ≠ .error (.noSchemes tc) := by
  intro herror
  obtain ⟨l, hl⟩ := h.registered
  obtain ⟨bucket, hbucket, _⟩ := hd.exists_bucket hl
  have hnone := (hd.run_eq_noSchemes_iff.mp herror).2
  rw [hbucket] at hnone
  cases hnone

/-- Where every sub-formula can be spelled, an error is a want of schemes for
the formula itself, or spells a sub-formula that no scheme applies to. -/
theorem noSchemes_or_noMatch_of_run_eq_error (hd : d.IsBuiltFrom db schemes)
    (hspell : ∀ g ∈ c.formula.subformulas, ∃ symbols, db.spell g = .ok symbols)
    {e : RenderError} (he : d.run settings c = .error e) :
    e = .noSchemes c.typecode ∨
      ∃ g tc' symbols, e = .noMatch g tc' (" ".intercalate symbols) ∧
        db.spell g = .ok symbols ∧ g ∈ c.formula.subformulas ∧
        (tc' = c.typecode ∨ ∃ l, d.identifiers.get? l = some tc') := by
  obtain ⟨c', hreach, hown⟩ := exists_reaches_of_run_eq_error he
  obtain ⟨hplace, hbelow⟩ := hreach.below
  rcases hown with ⟨_, rfl⟩ | ⟨_, rfl⟩
  · exact .inl (by rw [(hd.run_eq_noSchemes_iff.mp he).1])
  · obtain ⟨symbols, hsymbols⟩ := hspell c'.formula hbelow
    have htext : d.database.spell c'.formula = .ok symbols := by rw [hd.database_eq, hsymbols]
    refine .inr ⟨c'.formula, c'.typecode, symbols, unmatched_of_spell htext _, hsymbols, hbelow, ?_⟩
    exact hplace.imp_left fun heq => by rw [heq]

/-- The errors of rendering are precise. The bucket of a typecode holds its
schemes in order, an identifier has the typecode of its last scheme, and
wherever an identifier sends a formula there are schemes. So no render that
another asks for wants for schemes. A formula that was read wants for them
exactly if the typecode it is rendered under has none; any other error names
one of its sub-formulas, spelled out, under that typecode or under the one of
an identifier. -/
theorem errors_are_precise (hd : d.IsBuiltFrom db schemes) :
    ((∀ tc, d.schemes.get? tc =
        if bucketOf schemes tc = [] then none else some (bucketOf schemes tc)) ∧
      (∀ l, d.identifiers.get? l = (schemesFor schemes l).getLast?.map (·.typecode)) ∧
      ∀ l tc, d.identifiers.get? l = some tc →
        ∃ bucket, d.schemes.get? tc = some bucket ∧ bucket ≠ []) ∧
    (∀ settings c c', d.Calls c c' → ∀ tc, d.run settings c' ≠ .error (.noSchemes tc)) ∧
    (db.DeclaredOnce → ∀ symbols typecodes asserted f,
      db.readAs symbols typecodes asserted = .ok f → ∀ settings tc,
        (∀ tc', d.format settings tc f [] = .error (.noSchemes tc') ↔
          tc' = tc ∧ d.schemes.get? tc = none) ∧
        ∀ e, d.format settings tc f [] = .error e → e = .noSchemes tc ∨
          ∃ g tc' symbols', e = .noMatch g tc' (" ".intercalate symbols') ∧
            db.spell g = .ok symbols' ∧ g ∈ f.subformulas ∧
            (tc' = tc ∨ ∃ l, d.identifiers.get? l = some tc')) := by
  refine ⟨⟨hd.get?_schemes, hd.get?_identifiers, fun l tc hl => hd.exists_bucket hl⟩, ?_, ?_⟩
  · intro settings c c' hcall
    exact hd.run_ne_noSchemes_of_calls hcall
  · intro hdb symbols typecodes asserted f hf settings tc
    have hspell : ∀ g ∈ f.subformulas, ∃ symbols', db.spell g = .ok symbols' := by
      intro g hg
      exact hdb.consistent.exists_spell_of_readAs hf hg
    constructor
    · intro tc'
      exact hd.run_eq_noSchemes_iff (c := ⟨tc, f, []⟩)
    · intro e he
      exact noSchemes_or_noMatch_of_run_eq_error (c := ⟨tc, f, []⟩) hd hspell he

/-- The definition for sums has no schemes for well-formed expressions, which
an equation of the small database is read as. -/
theorem errors_are_precise_sampleSums :
    sampleSums.IsBuiltFrom .sample sampleSchemes ∧ Database.sample.DeclaredOnce ∧
      Database.sample.readAs ["x", "+", "y", "=", "x"] ["w"] false =
        .ok Database.sampleEquation ∧
      sampleSums.format {} "w" Database.sampleEquation [] = .error (.noSchemes "w") := by
  have hread : Database.sample.readAs ["x", "+", "y", "=", "x"] ["w"] false =
      .ok Database.sampleEquation := by
    decide +kernel
  refine ⟨isBuiltFrom_sampleSums, Database.declaredOnce_sample, hread, ?_⟩
  have hprecise := (errors_are_precise isBuiltFrom_sampleSums).2.2
    Database.declaredOnce_sample _ _ _ _ hread {} "w"
  exact (hprecise.1 "w").mpr ⟨rfl, rfl⟩

/-- Under the typecode of classes the scheme for a bare variable would hand the
equation on as it is, so no scheme applies to it. -/
example : sampleSums.format {} "c" Database.sampleEquation [] =
    .error (.noMatch Database.sampleEquation "c" "x + y = x") := by
  decide +kernel

end Typeset.Definition

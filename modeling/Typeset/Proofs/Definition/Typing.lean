import Typeset.Proofs.Definition.Calls
import Typeset.Proofs.Definition.Covering

/-!
# Renders keep to types

Matching looks at labels alone, never at typecodes. Yet where a pattern is a
derivation tree, a variable in it stands where a derivation tree of the
variable's typecode stands, for a label is that of one rule of one typecode. So
with a definition that typesets every variable under its own typecode, a render
of a derivation tree asks for renders of derivation trees only, each under the
typecode that it is derived under.
-/

namespace Typeset.Definition

open Grammar

variable {d : Definition} {c c' : Call}

/-- A call is about a derivation tree of the typecode, which is one of the
grammar. -/
structure Typed (d : Definition) (c : Call) : Prop where
  /-- The typecode is one of the grammar. -/
  typecode_mem : c.typecode ∈ d.database.typecodes
  /-- The formula is derived under it. -/
  derived : ∃ symbols, Derives d.database.grammar anyRule c.typecode c.formula symbols

/-- What a scheme hands on of a derivation tree is a derivation tree of the typecode
that it is handed on under. -/
theorem IsSuited.typed_of_passedOn (h : d.IsSuited) {s : Scheme} (hc : d.Typed c)
    (hs : s ∈ d.schemesOf c.typecode)
    (hpassed : (c'.typecode, c'.formula) ∈ d.passedOn s c.formula) : d.Typed c' := by
  obtain ⟨_, bindings, l, hm, hl, hidentifier⟩ := mem_passedOn_iff.mp hpassed
  obtain ⟨symbols, hderives⟩ := hc.derived
  obtain ⟨x, v, symbols', hv, rfl, hg⟩ :=
    h.wellBound_of_match? hc.typecode_mem hs hderives hm _ hl
  -- The identifier of the variable is registered with the variable's own typecode.
  have htc : v.typecode = c'.typecode :=
    Option.some.inj ((h.identifier_eq hv).symm.trans hidentifier)
  exact ⟨htc ▸ h.typecode_mem hv, symbols', htc ▸ hg⟩

/-- A render of a derivation tree asks for renders of derivation trees. -/
theorem IsSuited.typed_of_calls (h : d.IsSuited) (hc : d.Typed c) (hcall : d.Calls c c') :
    d.Typed c' := by
  obtain ⟨⟨s, hs, hpassed⟩, _, _⟩ := calls_iff.mp hcall
  exact h.typed_of_passedOn hc hs hpassed

/-- All renders below a render of a derivation tree are of derivation trees. -/
theorem IsSuited.typed_of_reaches (h : d.IsSuited) (hc : d.Typed c) (hreach : d.Reaches c c') :
    d.Typed c' := by
  induction hreach with
  | refl => exact hc
  | tail _ hcall ih => exact h.typed_of_calls ih hcall

/-- Matching preserves types. Take a database in which no label is declared twice and
no variable has the provable typecode. Where a derivation tree matches another one, of
the same typecode unless a rule is at the root of the pattern, what is bound to a label
is a derivation tree of the typecode of the floating hypothesis with that label. And
with a compiled definition that typesets every variable under its own typecode, all
renders that a render of a derivation tree of a typecode of the grammar reaches, and it
asks for no other, are of derivation trees of the typecode that they are under. -/
theorem matching_preserves_types {db : Database} (hdb : db.DeclaredOnce)
    (hprovable : ∀ s v, db.grammar.floatings.get? s = some v → v.typecode ≠ db.provable) :
    (∀ tc tc' p f spelling symbols bindings, Derives db.grammar anyRule tc p spelling →
      Derives db.grammar anyRule tc' f symbols → tc = tc' ∨ db.isVariable p.label = false →
      db.match? p f = some bindings → ∀ l g, (l, g) ∈ bindings.entries →
      ∃ v symbols', db.floatings.get? l = some v ∧
        db.statements.get? l = some ⟨l, .floating, [v.typecode, v.symbol]⟩ ∧
        Derives db.grammar anyRule v.typecode g symbols') ∧
    ∀ settings strict directives compiled,
      (compile db settings strict directives).outcome = .ok compiled →
      (∀ s v, db.grammar.floatings.get? s = some v →
        compiled.definition.identifiers.get? v.label = some v.typecode) →
      ∀ c, c.typecode ∈ db.typecodes →
        (∃ symbols, Derives db.grammar anyRule c.typecode c.formula symbols) →
        (∀ outcome, (∀ c', compiled.definition.Calls c c' →
            outcome c' = compiled.definition.run settings c') →
          (compiled.definition.formatWith settings id c.typecode c.formula fun tc g _ =>
            guarded c outcome tc g) = compiled.definition.run settings c) ∧
        ∀ c', compiled.definition.Reaches c c' → c'.typecode ∈ db.typecodes ∧
          ∃ symbols, Derives db.grammar anyRule c'.typecode c'.formula symbols := by
  have hconsistent := hdb.consistent
  constructor
  · intro tc tc' p f spelling symbols bindings hp hf hroot hm l g hl
    obtain rfl : tc = tc' := by
      rcases hroot with htc | hroot
      · exact htc
      · exact hconsistent.typecode_eq_of_match? hp hf hroot hm
    obtain ⟨x, v, symbols', hv, rfl, hg⟩ := hconsistent.wellBound_of_match? hp hf hm _ hl
    have hfloating := (hconsistent.variable_floating hv).2
    exact ⟨v, symbols', hfloating, (hconsistent.floating_stored hfloating).2, hg⟩
  · intro settings strict directives compiled hcompiled hidentifiers c htc hc
    have hindexed := isIndexed_of_compile hcompiled
    obtain ⟨d, skipped⟩ := compiled
    obtain rfl : d.database = db := hindexed.database_eq
    have hsuited : d.IsSuited :=
      { consistent := hconsistent
        indexed := hindexed
        typecode_ne := fun hv => hprovable _ _ hv
        identifier_eq := fun hv => hidentifiers _ _ hv }
    refine ⟨fun outcome h => formatWith_eq_run h, ?_⟩
    intro c' hreach
    have htyped := hsuited.typed_of_reaches ⟨htc, hc⟩ hreach
    exact ⟨htyped.typecode_mem, htyped.derived⟩

/-- The small database and its definition are an instance: in an equation the pattern
for equations binds its variables to classes, and the render of the equation reaches
that of the sum in it. -/
theorem matching_preserves_types_sample :
    (∃ v symbols, Database.sample.floatings.get? "cx" = some v ∧
      Database.sample.statements.get? "cx" = some ⟨"cx", .floating, [v.typecode, v.symbol]⟩ ∧
      Derives Database.sample.grammar anyRule v.typecode Database.sampleSum symbols) ∧
    sampleTexts.Reaches ⟨"w", Database.sampleEquation, []⟩
      ⟨"c", Database.sampleSum, [("w", .of Database.sampleEquation)]⟩ ∧
    ∃ symbols, Derives Database.sample.grammar anyRule "c" Database.sampleSum symbols := by
  have hcompiled : (compile .sample { defaultHeader := "" } true sampleDirectives).outcome =
      .ok ⟨sampleTexts, []⟩ := by decide +kernel
  have hvariables : ∀ e ∈ Database.sample.grammar.floatings.entries,
      e.2.typecode ≠ Database.sample.provable ∧
        sampleTexts.identifiers.get? e.2.label = some e.2.typecode := by decide
  have hequation : Derives Database.sample.grammar anyRule "w" Database.sampleEquation
      ["x", "+", "y", "=", "x"] := Database.derives_sampleEquation.mono fun _ _ _ => trivial
  have hpattern : Derives Database.sample.grammar anyRule "w"
      (Database.sample.grammar.generic "w" ⟨"eq", ["x", "=", "y"]⟩) ["x", "=", "y"] :=
    derives_generic (r := ⟨"eq", ["x", "=", "y"]⟩) (by decide) trivial
  have hmatch : Database.sample.match?
      (Database.sample.grammar.generic "w" ⟨"eq", ["x", "=", "y"]⟩) Database.sampleEquation =
        some ⟨[("cx", Database.sampleSum), ("cy", .node "cx" "c" [])]⟩ := by rfl
  have hreach : sampleTexts.Reaches ⟨"w", Database.sampleEquation, []⟩
      ⟨"c", Database.sampleSum, [("w", .of Database.sampleEquation)]⟩ := by
    apply Relation.ReflTransGen.single
    refine calls_iff.mpr ⟨⟨_, List.mem_singleton.mpr rfl, ?_⟩, rfl, by decide⟩
    exact mem_passedOn_iff.mpr
      ⟨rfl, ⟨[("cx", Database.sampleSum), ("cy", .node "cx" "c" [])]⟩, "cx", by rfl, by simp, rfl⟩
  obtain ⟨hbound, hcalls⟩ := matching_preserves_types Database.declaredOnce_sample
    fun s v hv => (hvariables (s, v) (Table.mem_of_get? hv)).1
  have hcalls' := hcalls _ _ _ _ hcompiled
    (fun s v hv => (hvariables (s, v) (Table.mem_of_get? hv)).2)
    ⟨"w", Database.sampleEquation, []⟩ (by decide) ⟨_, hequation⟩
  exact ⟨hbound "w" "w" _ _ _ _ _ hpattern hequation (.inl rfl) hmatch "cx" _ (by simp), hreach,
    (hcalls'.2 _ hreach).2⟩

end Typeset.Definition

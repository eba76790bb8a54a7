import Typeset.Proofs.Database.Grounded
import Typeset.Proofs.Formula.Distinct

/-!
# The syntax steps of a statement

The formula of a statement and its syntax steps are taken from one reading of its body,
under the logic typecode if the statement is provable, and under its own typecode if
not. Framing the formula as provable changes the tag of its root alone. So a statement
has steps exactly if it has a formula, and these steps build the formula.
-/

namespace Typeset.Database

variable {db : Database} {s : Statement} {tc : Typecode}

/-- The typecode that the body of a statement is read under. -/
def readingTypecode (db : Database) (tc : Typecode) : Typecode :=
  if tc == db.provable then db.logic else tc

/-- Symbols that have no reading under a typecode cannot be read as it. -/
theorem readAs_singleton_of_none {symbols : List Symbol}
    (h : db.grammar.read? tc symbols = none) (asserted : Bool) :
    db.readAs symbols [tc] asserted = .error ⟨symbols, [tc]⟩ := by
  cases hread : db.readAs symbols [tc] asserted with
  | ok f =>
    obtain ⟨f', hsome, _⟩ := of_readAs_singleton hread
    rw [h] at hsome
    cases hsome
  | error e => rw [(of_readAs_eq_error hread).1]

/-- To note what cannot be read ends well. -/
theorem outcome_noteUnreadable_bind {α : Type} (s : Statement) (e : Unreadable) (a : α) :
    (noteUnreadable s e >>= fun _ => pure a).outcome = .ok a := by
  have hnoted : (noteUnreadable s e).outcome = .ok () := by
    unfold noteUnreadable Logged.detail Logged.write
    rfl
  rw [Logged.outcome_bind, hnoted, Except.bind, Logged.outcome_pure]

/-- The formula of a statement is what its body is read as, with another tag at the root
if the statement is provable. -/
theorem outcome_formulaOf (db : Database) (htc : s.typecode? = some tc) :
    ∃ tag : Formula → Typecode, (db.formulaOf s).outcome =
      .ok ((db.grammar.read? (db.readingTypecode tc) s.body).map fun f => f.retag (tag f)) := by
  have hreading : (if tc == db.provable then db.readAs s.body [db.logic] true
      else db.readAs s.body [tc] false) =
      db.readAs s.body [db.readingTypecode tc] (tc == db.provable) := by
    unfold readingTypecode
    by_cases hp : (tc == db.provable) = true
    · rw [if_pos hp, if_pos hp, hp]
    · rw [if_neg hp, if_neg hp, Bool.eq_false_iff.mpr hp]
  rw [formulaOf_eq htc, hreading]
  cases hread : db.grammar.read? (db.readingTypecode tc) s.body with
  | none =>
    rw [readAs_singleton_of_none hread]
    exact ⟨fun f => f.typecode, outcome_noteUnreadable_bind s _ none⟩
  | some f =>
    obtain ⟨tag, htag⟩ := db.exists_framed_eq_retag (tc == db.provable) (db.readingTypecode tc) f
    rw [readAs_singleton_of_read? db hread, htag]
    exact ⟨fun _ => tag, rfl⟩

/-- The syntax steps of a statement are the distinct sub-formulas of what its body is
read as. -/
theorem outcome_syntaxSteps (htc : s.typecode? = some tc) :
    (db.syntaxSteps s).outcome = .ok
      (((db.grammar.read? (db.readingTypecode tc) s.body).map fun f =>
        Formula.distinct f.subformulas).getD []) := by
  have htypecode : s.typecode = .ok tc := by
    rw [Statement.typecode, htc]
  have hreading : (if tc == db.provable then db.logic else tc) = db.readingTypecode tc := rfl
  unfold syntaxSteps
  rw [htypecode, Logged.ofExcept_ok_bind, hreading]
  cases hread : db.grammar.read? (db.readingTypecode tc) s.body with
  | none =>
    rw [readAs_singleton_of_none hread]
    exact outcome_noteUnreadable_bind s _ []
  | some f =>
    rw [readAs_singleton_of_read? db hread]
    rfl

/-- The statements of a database that is accepted have a typecode. Every statement with a
typecode has syntax steps exactly if it has a formula, and the steps build the formula:
they are its sub-formulas, each once, parts before what they are parts of and the formula
itself last. -/
theorem syntaxSteps_build_formula {provable logic : Typecode} {source : List Char}
    {db : Database} (hread : read provable logic source = .ok db) :
    (∀ l s, db.statements.get? l = some s → s.math ≠ []) ∧
      ∀ s : Statement, s.math ≠ [] → ∃ (formula? : Option Formula) (steps : List Formula),
        (db.formulaOf s).outcome = .ok formula? ∧ (db.syntaxSteps s).outcome = .ok steps ∧
          (steps = [] ↔ formula? = none) ∧ ∀ f, formula? = some f → Formula.AreSteps steps f := by
  refine ⟨fun l s hs => (grounded_of_read hread).math_ne_nil hs, ?_⟩
  intro s hs
  obtain ⟨tc, body, hmath⟩ := List.exists_cons_of_ne_nil hs
  have htc : s.typecode? = some tc := by
    rw [Statement.typecode?, hmath]
    rfl
  obtain ⟨tag, hformula⟩ := outcome_formulaOf db htc
  refine ⟨_, _, hformula, outcome_syntaxSteps htc, ?_⟩
  cases db.grammar.read? (db.readingTypecode tc) s.body with
  | none => exact ⟨⟨fun _ => rfl, fun _ => rfl⟩, fun f hf => by cases hf⟩
  | some f =>
    have hsteps := Formula.areSteps_distinct f
    obtain ⟨last, hlast, _⟩ := hsteps.exists_last
    refine ⟨⟨fun hnil => ?_, fun hnone => by cases hnone⟩, ?_⟩
    · change Formula.distinct f.subformulas = [] at hnil
      rw [hnil] at hlast
      cases hlast
    · rintro _ ⟨⟩
      exact hsteps.retag _

/-- The equation of the sum and the first variable has four steps: the variables, each
once, the sum, and the equation. -/
theorem syntaxSteps_build_formula_sample :
    read "|-" "w" sampleSource = .ok sample ∧
      (sample.syntaxSteps ⟨"thm", .provable, ["|-", "x", "+", "y", "=", "x"]⟩).outcome =
        .ok [.node "cx" "c" [], .node "cy" "c" [], sampleSum, sampleEquation] ∧
      (sample.formulaOf ⟨"thm", .provable, ["|-", "x", "+", "y", "=", "x"]⟩).outcome =
        .ok (some (sampleEquation.retag "|-")) ∧
      Formula.AreSteps [.node "cx" "c" [], .node "cy" "c" [], sampleSum, sampleEquation]
        (sampleEquation.retag "|-") := by
  have hread : read "|-" "w" sampleSource = .ok sample := by
    decide +kernel
  have hsteps : (sample.syntaxSteps ⟨"thm", .provable, ["|-", "x", "+", "y", "=", "x"]⟩).outcome =
      .ok [.node "cx" "c" [], .node "cy" "c" [], sampleSum, sampleEquation] := by
    decide +kernel
  have hformula : (sample.formulaOf ⟨"thm", .provable, ["|-", "x", "+", "y", "=", "x"]⟩).outcome =
      .ok (some (sampleEquation.retag "|-")) := by
    decide +kernel
  obtain ⟨formula?, steps, hformula', hsteps', _, hbuild⟩ :=
    (syntaxSteps_build_formula hread).2 ⟨"thm", .provable, ["|-", "x", "+", "y", "=", "x"]⟩
      (by simp)
  obtain rfl := Except.ok.inj (hformula.symm.trans hformula')
  obtain rfl := Except.ok.inj (hsteps.symm.trans hsteps')
  exact ⟨hread, hsteps, hformula, hbuild _ rfl⟩

end Typeset.Database

import Typeset.Backend
import Typeset.Proofs.Database.Parsing

/-!
# Spelling undoes reading

The parser tells variables from constants by the hypothesis of a symbol, and
labels the nodes that it makes; spelling goes back from labels to hypotheses
and statements. Where no label is declared twice the two agree at every node,
so a formula that was read is spelled by the symbols it was read from. Nothing
is asked of the grammar here, not even that a search of it ends.
-/

namespace Typeset.Database

open Grammar

/-- A node has the parts that its statement asks for: none if it stands for a
variable, and one for each occurrence of a variable in the body if it stands
for an axiom. -/
def IsFull (db : Database) (f : Formula) : Prop :=
  ∃ s, db.statements.get? f.label = some s ∧
    (s.kind = .floating ∧ f.children = [] ∨
      s.kind = .axiomatic ∧
        f.children.length = s.body.countP fun x => (db.grammar.floatings.get? x).isSome)

variable {db : Database} {usable : Typecode → Rule → Prop}

/-- A tree is spelled by the symbols that it derives, and the spellings of the
parts of a body are woven into the symbols that the body derives. -/
theorem Consistent.spell_all (h : db.Consistent) :
    (∀ {tc : Typecode} {f : Formula} {symbols : List Symbol},
      Derives db.grammar usable tc f symbols → db.spell f = .ok symbols) ∧
    (∀ {body : List Symbol} {parts : List Formula} {symbols : List Symbol},
      DerivesParts db.grammar usable body parts symbols →
      weave db.grammar body (db.spellAll parts) = .ok symbols) := by
  apply derives_induction (P := fun _ f symbols => db.spell f = .ok symbols)
    (Q := fun body parts symbols => weave db.grammar body (db.spellAll parts) = .ok symbols)
  · intro s v hv
    obtain ⟨hsymbol, hlabel⟩ := h.variable_floating hv
    rw [spell, hlabel]
    simp only [hsymbol]
  · intro tc r parts symbols hr _ _ hparts
    have hfloat := h.get?_floatings_of_mem hr
    have hstored := (h.rule_stored hr).2
    rw [spell, hfloat, hstored]
    exact hparts
  · rw [weave]
  · intro s body parts symbols hs _ hparts
    exact weave_constant (variableTypecode?_eq_none_iff.mp hs) hparts
  · intro s body tc f front parts symbols hs _ _ hf hparts
    obtain ⟨v, hv, _⟩ := variableTypecode?_eq_some_iff.mp hs
    rw [spellAll, hf]
    exact weave_variable hv hparts

/-- A tree is spelled by the symbols that it derives. -/
theorem Consistent.spell_of_derives (h : db.Consistent) {tc : Typecode} {f : Formula}
    {symbols : List Symbol} (hf : Derives db.grammar usable tc f symbols) :
    db.spell f = .ok symbols :=
  h.spell_all.1 hf

/-- A derivation tree has at its root the parts that its statement asks for. -/
theorem Consistent.isFull_of_derives (h : db.Consistent) {tc : Typecode} {f : Formula}
    {symbols : List Symbol} (hf : Derives db.grammar usable tc f symbols) : db.IsFull f := by
  cases hf with
  | leaf hv => exact ⟨_, (h.floating_stored (h.variable_floating hv).2).2, .inl ⟨rfl, rfl⟩⟩
  | rule hr _ hp => exact ⟨_, (h.rule_stored hr).2, .inr ⟨rfl, hp.length_parts⟩⟩

/-- The tag of the root does not matter for the spelling. -/
theorem spell_retag (db : Database) (tc : Typecode) (f : Formula) :
    db.spell (f.retag tc) = db.spell f := by
  cases f
  rw [Formula.retag, spell, spell]

/-- A formula that is framed is spelled as before. -/
theorem spell_framed (db : Database) (asserted : Bool) (tc : Typecode) (f : Formula) :
    db.spell (db.framed asserted tc f) = db.spell f := by
  obtain ⟨tag, heq⟩ := db.exists_framed_eq_retag asserted tc f
  rw [heq, spell_retag]

/-- Every sub-formula of what was read is a derivation tree, except that its
root may be under another tag. -/
theorem exists_derives_of_readAs {symbols : List Symbol} {typecodes : List Typecode}
    {asserted : Bool} {f n : Formula} (hf : db.readAs symbols typecodes asserted = .ok f)
    (hn : n ∈ f.subformulas) :
    ∃ tc f' symbols' tag, Derives db.grammar db.grammar.busyRule tc f' symbols' ∧
      n = f'.retag tag := by
  obtain ⟨_, tc, _, f', _, _, hread, rfl⟩ := of_readAs_eq_ok hf
  have hderives := derives_of_read? hread
  obtain ⟨tag, heq⟩ := db.exists_framed_eq_retag asserted tc f'
  rw [heq] at hn
  rcases Formula.mem_subformulas_iff.mp hn with rfl | hbelow
  · exact ⟨_, _, _, tag, hderives, rfl⟩
  · rw [Formula.children_retag] at hbelow
    obtain ⟨tc', symbols', hn'⟩ := exists_derives_of_subformula.1 hderives n
      (Formula.mem_subformulas_iff.mpr (.inr hbelow))
    exact ⟨tc', n, symbols', n.typecode, hn', (Formula.retag_typecode n).symm⟩

/-- What was read is spelled as it was written. -/
theorem Consistent.spell_of_readAs (h : db.Consistent) {symbols : List Symbol}
    {typecodes : List Typecode} {asserted : Bool} {f : Formula}
    (hf : db.readAs symbols typecodes asserted = .ok f) : db.spell f = .ok symbols := by
  obtain ⟨_, _, _, f', _, _, hread, rfl⟩ := of_readAs_eq_ok hf
  rw [spell_framed]
  exact h.spell_of_derives (derives_of_read? hread)

/-- Every sub-formula of what was read can be spelled. -/
theorem Consistent.exists_spell_of_readAs (h : db.Consistent) {symbols : List Symbol}
    {typecodes : List Typecode} {asserted : Bool} {f n : Formula}
    (hf : db.readAs symbols typecodes asserted = .ok f) (hn : n ∈ f.subformulas) :
    ∃ symbols', db.spell n = .ok symbols' := by
  obtain ⟨_, f', symbols', tag, hderives, rfl⟩ := exists_derives_of_readAs hf hn
  exact ⟨symbols', by rw [spell_retag, h.spell_of_derives hderives]⟩

/-- What was read has the parts that its statements ask for. -/
theorem Consistent.isFull_of_readAs (h : db.Consistent) {symbols : List Symbol}
    {typecodes : List Typecode} {asserted : Bool} {f : Formula}
    (hf : db.readAs symbols typecodes asserted = .ok f) : ∀ n ∈ f.subformulas, db.IsFull n := by
  intro n hn
  obtain ⟨_, f', _, tag, hderives, rfl⟩ := exists_derives_of_readAs hf hn
  rw [IsFull, Formula.label_retag, Formula.children_retag]
  exact h.isFull_of_derives hderives

/-- A formula that was read under one typecode carries it, unless it is
asserted under the logic typecode and carries the provable one. -/
theorem typecode_of_readAs {symbols : List Symbol} {tc : Typecode} {asserted : Bool}
    {f : Formula} (hf : db.readAs symbols [tc] asserted = .ok f) :
    f.typecode = if asserted && tc == db.logic then db.provable else tc := by
  obtain ⟨f', hread, rfl⟩ := of_readAs_singleton hf
  unfold framed
  split
  · cases f'
    rfl
  · exact (derives_of_read? hread).typecode_eq

/-- The reading that the formula of a statement is taken from. -/
theorem formulaOf_eq {s : Statement} {tc : Typecode} (htc : s.typecode? = some tc) :
    db.formulaOf s =
      match if tc == db.provable then db.readAs s.body [db.logic] true
        else db.readAs s.body [tc] false with
      | .ok f => pure (some f)
      | .error e => do
        noteUnreadable s e
        return none := by
  unfold formulaOf Statement.typecode
  rw [htc]
  rfl

/-- The formula of a statement was read from the body of the statement, and is
shown under the typecode of the statement. Nothing is noted about it. -/
theorem of_formulaOf {s : Statement} {f : Formula}
    (hf : (db.formulaOf s).outcome = .ok (some f)) :
    ∃ tc typecodes asserted, s.typecode? = some tc ∧
      db.readAs s.body typecodes asserted = .ok f ∧
      (if tc == db.provable then db.provable else f.typecode) = tc ∧
      db.formulaOf s = pure (some f) := by
  cases htc : s.typecode? with
  | none =>
    unfold formulaOf Statement.typecode at hf
    rw [htc] at hf
    cases hf
  | some tc =>
    rw [formulaOf_eq htc] at hf ⊢
    split at hf
    · rename_i f' hread
      cases hf
      by_cases hp : tc = db.provable
      · subst hp
        rw [if_pos (beq_self_eq_true _)] at hread
        exact ⟨_, _, _, rfl, hread, if_pos (beq_self_eq_true _), rfl⟩
      · have hne : ¬(tc == db.provable) = true := by simpa using hp
        rw [if_neg hne] at hread
        refine ⟨_, _, _, rfl, hread, ?_, rfl⟩
        rw [if_neg hne]
        exact typecode_of_readAs hread
    · cases hf

/-- The plain markup of a statement is that of its formula. -/
theorem renderStatement_of_formulaOf {target : Target} {s : Statement} {f : Formula}
    (hs : target.resolve db = .ok s) (hf : db.formulaOf s = pure (some f)) (settings : Settings)
    (asserted : Bool) :
    Backend.renderStatement .plain db settings target asserted =
      Logged.ofExcept (Backend.renderFormula .plain db settings f asserted) := by
  rw [Backend.renderStatement, hs, Logged.ofExcept_ok_bind, hf]
  rfl

/-- The plain markup of a formula that can be spelled. -/
theorem renderFormula_of_spell {f : Formula} {symbols : List Symbol}
    (hf : db.spell f = .ok symbols) (settings : Settings) (asserted : Bool) :
    Backend.renderFormula .plain db settings f asserted =
      .ok ("<pre>" ++ Text.escape (if asserted then db.provable else f.typecode) ++ " " ++
        Text.escape (" ".intercalate symbols) ++ "</pre>") := by
  rw [Backend.renderFormula, Backend.symbolsOf, hf]
  rfl

/-- Spelling undoes reading wherever no label is declared twice, whatever the
grammar. Every node of a formula that was read has the parts that its statement
asks for, and the formula is spelled by the symbols that it was read from. So
the plain markup of a statement that can be read, given or named, shows the
statement's own math. -/
theorem spelling_undoes_reading {db : Database} (hdb : db.DeclaredOnce) :
    (∀ symbols typecodes asserted f, db.readAs symbols typecodes asserted = .ok f →
      (∀ n ∈ f.subformulas, db.IsFull n) ∧ db.spell f = .ok symbols) ∧
    (∀ settings target s f, target.resolve db = .ok s →
      (db.formulaOf s).outcome = .ok (some f) →
      ∃ tc, s.typecode? = some tc ∧
        Backend.renderStatement .plain db settings target (tc == db.provable) =
          pure ("<pre>" ++ Text.escape tc ++ " " ++ Text.escape (" ".intercalate s.body) ++
            "</pre>")) := by
  have h := hdb.consistent
  constructor
  · intro symbols typecodes asserted f hf
    exact ⟨h.isFull_of_readAs hf, h.spell_of_readAs hf⟩
  · intro settings target s f hs hf
    obtain ⟨tc, typecodes, asserted, htc, hread, hshown, hformula⟩ := of_formulaOf hf
    refine ⟨tc, htc, ?_⟩
    rw [renderStatement_of_formulaOf hs hformula, renderFormula_of_spell (h.spell_of_readAs hread),
      hshown]
    rfl

/-- The small database reads a sum and spells it again. -/
theorem spelling_undoes_reading_sample :
    sample.DeclaredOnce ∧ ∃ f, sample.readAs ["x", "+", "y", "+", "x"] ["w", "c"] false = .ok f ∧
      sample.spell f = .ok ["x", "+", "y", "+", "x"] := by
  have hread : (sample.readAs ["x", "+", "y", "+", "x"] ["w", "c"] false).toOption.isSome := by
    decide +kernel
  refine ⟨declaredOnce_sample, ?_⟩
  cases hf : sample.readAs ["x", "+", "y", "+", "x"] ["w", "c"] false with
  | error e => simp [hf, Except.toOption] at hread
  | ok f => exact ⟨f, rfl, ((spelling_undoes_reading declaredOnce_sample).1 _ _ _ f hf).2⟩

end Typeset.Database

import Typeset.Proofs.Database.Spelling

/-!
# What every database that is read can rely on

Labels may be declared again, so the statement under a label need not be the
one that a rule of the grammar came from. Some things hold all the same: no
statement is without math, and whatever the tables name by its label is stored
under it. So a formula that was read never has a label that is unknown. Its
spelling can only fail where a node has fewer parts than the statement that is
now stored under its label has variables, and this takes a rule whose label was
declared again with more of them.
-/

namespace Typeset.Database

open Grammar

/-- A statement is stored under a label. -/
def IsStored (db : Database) (l : Label) : Prop := ∃ s, db.statements.get? l = some s

/-- What the tables name is there, and every statement has math. -/
structure Grounded (db : Database) : Prop where
  /-- No statement is without math. -/
  math_ne_nil : ∀ {l : Label} {s : Statement}, db.statements.get? l = some s → s.math ≠ []
  /-- The hypothesis of a variable is one of the floating hypotheses. -/
  variable_floating : ∀ {x : Symbol} {v : Floating}, db.grammar.floatings.get? x = some v →
    ∃ v', db.floatings.get? v.label = some v'
  /-- There is a statement under the label of every rule. -/
  rule_stored : ∀ {tc : Typecode} {r : Rule}, r ∈ db.grammar.rulesOf tc → db.IsStored r.label
  /-- The hypotheses of an assertion are stored. -/
  hypothesis_stored : ∀ {l : Label} {ls : List Label}, db.hypotheses.get? l = some ls →
    ∀ h ∈ ls, db.IsStored h

/-- The tables of the reader are grounded, and what the open blocks suppose is
stored. -/
structure Reader.Grounded (r : Reader) : Prop where
  /-- The tables are grounded. -/
  database : r.database.Grounded
  /-- What a block supposes is stored. -/
  blocks : ∀ block ∈ r.blocks, ∀ h ∈ block, r.database.IsStored h

/-- The reader begins with nothing. -/
theorem Reader.grounded_start (provable logic : Typecode) :
    (Reader.start provable logic).Grounded := by
  constructor
  · constructor <;> simp [Reader.start, Table.empty, Table.get?, Grammar.rulesOf]
  · simp [Reader.start]

/-- Storing a statement keeps what is stored. -/
theorem IsStored.of_set {db db' : Database} {s : Statement} {l : Label} (h : db.IsStored l)
    (hs : db'.statements = db.statements.set s.label s) : db'.IsStored l := by
  unfold IsStored
  rw [hs, Table.get?_set]
  split
  · exact ⟨s, rfl⟩
  · exact h

/-- A statement is stored under its label. -/
theorem isStored_of_set {db db' : Database} {s : Statement}
    (hs : db'.statements = db.statements.set s.label s) : db'.IsStored s.label :=
  ⟨s, by rw [hs, Table.get?_set_self]⟩

/-- A statement that is added keeps the tables grounded, whether its label is new
or not. -/
theorem Grounded.addStatement {db db' : Database} {s : Statement} (h : db.Grounded)
    (ha : db.addStatement s = .ok db') : db'.Grounded := by
  obtain ⟨tc, body, hmath, hp, hs, hhyps, hcases⟩ := addStatement_cases ha
  have hstored : ∀ {l : Label}, db.IsStored l → db'.IsStored l := fun hl => hl.of_set hs
  constructor
  · intro l t ht
    rw [hs, Table.get?_set] at ht
    split at ht
    · cases ht
      rw [hmath]
      exact List.cons_ne_nil _ _
    · exact h.math_ne_nil ht
  · intro x v hv
    rcases hcases with ⟨y, -, -, hf, hg, -⟩ | ⟨-, -, hf, hg, -⟩ | ⟨hf, hg, -⟩
    · rw [hg, Grammar.get?_floatings_addVariable] at hv
      rw [hf, Table.get?_set]
      split at hv
      · cases hv
        exact ⟨_, if_pos rfl⟩
      · obtain ⟨v', hv'⟩ := h.variable_floating hv
        split
        · exact ⟨_, rfl⟩
        · exact ⟨v', hv'⟩
    · rw [hg, Grammar.floatings_addRule] at hv
      rw [hf]
      exact h.variable_floating hv
    · rw [hg] at hv
      rw [hf]
      exact h.variable_floating hv
  · intro tc' r hr
    rcases hcases with ⟨y, -, -, -, hg, -⟩ | ⟨-, -, -, hg, -⟩ | ⟨-, hg, -⟩
    · rw [hg, Grammar.rulesOf_addVariable] at hr
      exact hstored (h.rule_stored hr)
    · rw [hg, Grammar.rulesOf_addRule] at hr
      split at hr
      · rcases List.mem_append.mp hr with hr | hr
        · exact hstored (h.rule_stored hr)
        · rw [List.mem_singleton.mp hr]
          exact isStored_of_set hs
      · exact hstored (h.rule_stored hr)
    · rw [hg] at hr
      exact hstored (h.rule_stored hr)
  · intro l ls hl t ht
    rw [hhyps] at hl
    exact hstored (h.hypothesis_stored hl t ht)

/-- Other tables with the same contents are grounded too, if the hypotheses in
them are stored. -/
theorem Grounded.of_agrees {db db' : Database} (h : db.Grounded) (ha : db.Agrees db')
    (hhyps : ∀ {l : Label} {ls : List Label}, db'.hypotheses.get? l = some ls →
      ∀ t ∈ ls, db.IsStored t) : db'.Grounded where
  math_ne_nil := by
    rw [ha.statements_eq]
    exact h.math_ne_nil
  variable_floating := by
    rw [ha.grammar_eq, ha.floatings_eq]
    exact h.variable_floating
  rule_stored := by
    unfold IsStored
    rw [ha.grammar_eq, ha.statements_eq]
    exact h.rule_stored
  hypothesis_stored := by
    unfold IsStored at hhyps ⊢
    rw [ha.statements_eq]
    exact hhyps

/-- What is in scope stands in a block. -/
theorem Reader.mem_block_of_mem_inScope {r : Reader} {l : Label} (h : l ∈ r.inScope) :
    ∃ block ∈ r.blocks, l ∈ block := by
  obtain ⟨block, hblock, hl⟩ := List.mem_flatten.mp h
  exact ⟨block, List.mem_reverse.mp hblock, hl⟩

/-- What stands in the blocks after a hypothesis was declared is the hypothesis
or stood there before. -/
theorem Reader.mem_addHypothesis {label l : Label} {blocks : List (List Label)}
    {block : List Label} (hblock : block ∈ addHypothesis label blocks) (hl : l ∈ block) :
    l = label ∨ ∃ block' ∈ blocks, l ∈ block' := by
  cases blocks with
  | nil =>
    rw [addHypothesis, List.mem_singleton] at hblock
    subst hblock
    exact .inl (List.mem_singleton.mp hl)
  | cons first outer =>
    rw [addHypothesis, List.mem_cons] at hblock
    rcases hblock with rfl | hblock
    · rcases List.mem_append.mp hl with hl | hl
      · exact .inr ⟨first, List.mem_cons_self, hl⟩
      · exact .inl (List.mem_singleton.mp hl)
    · exact .inr ⟨block, List.mem_cons_of_mem _ hblock, hl⟩

/-- A word keeps the reader grounded. -/
theorem Reader.Grounded.step {r r' : Reader} {w : Text.Word} (h : r.Grounded)
    (hstep : r.step w = .ok r') : r'.Grounded := by
  rcases Reader.step_cases hstep with ⟨-, hagrees, hhyps, hblocks⟩ |
      ⟨s, db, -, hadd, hagrees, hscopes⟩
  · constructor
    · refine h.database.of_agrees hagrees ?_
      rw [hhyps]
      exact h.database.hypothesis_stored
    · intro block hblock l hl
      unfold IsStored
      rw [hagrees.statements_eq]
      rcases hblocks block hblock with rfl | hold
      · cases hl
      · exact h.blocks block hold l hl
  · obtain ⟨_, _, _, _, hs, hdbhyps, _⟩ := addStatement_cases hadd
    have hdb := h.database.addStatement hadd
    have hold : ∀ block ∈ r.blocks, ∀ l ∈ block, db.IsStored l :=
      fun block hblock l hl => (h.blocks block hblock l hl).of_set hs
    have hlift : ∀ {l : Label}, db.IsStored l → r'.database.IsStored l := by
      unfold IsStored
      rw [hagrees.statements_eq]
      exact id
    rcases hscopes with ⟨hhyps, hblocks⟩ | ⟨hhyps, hblocks⟩
    · constructor
      · refine hdb.of_agrees hagrees ?_
        rw [hhyps]
        exact hdb.hypothesis_stored
      · intro block hblock l hl
        rcases hblocks with heq | heq
        · rw [heq] at hblock
          exact hlift (hold block hblock l hl)
        · rw [heq] at hblock
          rcases Reader.mem_addHypothesis hblock hl with rfl | ⟨block', hblock', hl'⟩
          · exact hlift (isStored_of_set hs)
          · exact hlift (hold block' hblock' l hl')
    · constructor
      · refine hdb.of_agrees hagrees ?_
        intro l ls hl t ht
        rw [hhyps, Table.get?_set] at hl
        split at hl
        · cases hl
          obtain ⟨block, hblock, htblock⟩ := Reader.mem_block_of_mem_inScope ht
          exact hold block hblock t htblock
        · exact hdb.hypothesis_stored hl t ht
      · intro block hblock l hl
        rw [hblocks] at hblock
        exact hlift (hold block hblock l hl)

/-- Words keep the reader grounded. -/
theorem Reader.Grounded.foldlM {words : List Text.Word} :
    ∀ {r r' : Reader}, r.Grounded → words.foldlM Reader.step r = .ok r' → r'.Grounded := by
  induction words with
  | nil =>
    intro r r' h hfold
    cases hfold
    exact h
  | cons w words ih =>
    intro r r' h hfold
    rw [List.foldlM_cons] at hfold
    cases hstep : r.step w with
    | error e => simp [hstep, bind, Except.bind] at hfold
    | ok next =>
      rw [hstep] at hfold
      exact ih (h.step hstep) hfold

/-- Every database that is read is grounded. -/
theorem grounded_of_read {provable logic : Typecode} {source : List Char} {db : Database}
    (h : read provable logic source = .ok db) : db.Grounded := by
  obtain ⟨reader, hfold, hfinish⟩ := read_eq_ok_iff.mp h
  rw [Reader.database_finish hfinish]
  exact ((Reader.grounded_start provable logic).foldlM hfold).database

/-- How many symbols of a body are variables. -/
def variableCount (db : Database) (body : List Symbol) : Nat :=
  body.countP fun x => (db.grammar.floatings.get? x).isSome

/-- Whatever rule of the grammar made a node, the node has enough parts to be
spelled: its label is that of a floating hypothesis, or the statement that is
stored under it has no more variables than the rule. -/
def Spellable (db : Database) : Prop :=
  ∀ tc, ∀ r ∈ db.grammar.rulesOf tc, (∃ v, db.floatings.get? r.label = some v) ∨
    ∃ s, db.statements.get? r.label = some s ∧ db.variableCount s.body ≤ db.variableCount r.body

/-- Where no label is declared twice everything can be spelled. -/
theorem DeclaredOnce.spellable {db : Database} (h : db.DeclaredOnce) : db.Spellable := by
  intro tc r hr
  exact .inr ⟨_, (h.consistent.rule_stored hr).2, Nat.le_refl _⟩

/-- What comes of spelling: symbols, or a missing part, which takes a database
that cannot spell everything. -/
def Spells (db : Database) (x : Except SpellError (List Symbol)) : Prop :=
  (∃ symbols, x = .ok symbols) ∨ x = .error .missingPart ∧ ¬db.Spellable

/-- Parts that are spelled are woven into a body unless there are too few of
them. -/
theorem spells_weave {db : Database} (body : List Symbol)
    {parts : List (Except SpellError (List Symbol))} (hparts : ∀ p ∈ parts, db.Spells p)
    (hfew : parts.length < db.variableCount body → ¬db.Spellable) :
    db.Spells (weave db.grammar body parts) := by
  induction body generalizing parts with
  | nil => exact .inl ⟨[], rfl⟩
  | cons x body ih =>
    cases hx : db.grammar.floatings.get? x with
    | none =>
      have hcount : db.variableCount (x :: body) = db.variableCount body := by
        simp [variableCount, hx]
      rw [hcount] at hfew
      rcases ih hparts hfew with ⟨symbols, hok⟩ | ⟨herror, hnot⟩
      · exact .inl ⟨x :: symbols, weave_constant hx hok⟩
      · refine .inr ⟨?_, hnot⟩
        rw [weave.eq_def]
        simp [hx, herror, bind, Except.bind]
    | some v =>
      have hcount : db.variableCount (x :: body) = db.variableCount body + 1 := by
        simp [variableCount, hx]
      cases parts with
      | nil =>
        refine .inr ⟨?_, hfew (by rw [hcount]; exact Nat.succ_pos _)⟩
        rw [weave.eq_def]
        simp [hx]
      | cons part parts =>
        obtain ⟨hpart, hmore⟩ := List.forall_mem_cons.mp hparts
        have hfew' : parts.length < db.variableCount body → ¬db.Spellable := by
          intro hlt
          apply hfew
          rw [hcount, List.length_cons]
          omega
        rcases hpart with ⟨front, rfl⟩ | ⟨rfl, hnot⟩
        · rcases ih hmore hfew' with ⟨symbols, hok⟩ | ⟨herror, hnot⟩
          · exact .inl ⟨front ++ symbols, weave_variable hx hok⟩
          · refine .inr ⟨?_, hnot⟩
            rw [weave.eq_def]
            simp [hx, herror, bind, Except.bind]
        · refine .inr ⟨?_, hnot⟩
          rw [weave.eq_def]
          simp [hx, bind, Except.bind]

/-- Every formula of a list is spelled. -/
theorem length_spellAll (db : Database) (fs : List Formula) :
    (db.spellAll fs).length = fs.length := by
  induction fs with
  | nil => rfl
  | cons f fs ih => rw [spellAll, List.length_cons, List.length_cons, ih]

/-- A tree that the grammar derives is spelled, or lacks a part: its labels are
all stored. -/
theorem Grounded.spells_all {db : Database} (h : db.Grounded)
    {usable : Typecode → Rule → Prop} :
    (∀ {tc : Typecode} {f : Formula} {symbols : List Symbol},
      Derives db.grammar usable tc f symbols → db.Spells (db.spell f)) ∧
    (∀ {body : List Symbol} {parts : List Formula} {symbols : List Symbol},
      DerivesParts db.grammar usable body parts symbols →
      ∀ p ∈ db.spellAll parts, db.Spells p) := by
  apply derives_induction (P := fun _ f _ => db.Spells (db.spell f))
    (Q := fun _ parts _ => ∀ p ∈ db.spellAll parts, db.Spells p)
  · intro s v hv
    obtain ⟨v', hv'⟩ := h.variable_floating hv
    rw [spell, hv']
    exact .inl ⟨_, rfl⟩
  · intro tc r parts symbols hr _ hp hparts
    rw [spell]
    cases hfloat : db.floatings.get? r.label with
    | some v => exact .inl ⟨_, rfl⟩
    | none =>
      obtain ⟨s, hs⟩ := h.rule_stored hr
      rw [hs]
      refine spells_weave s.body hparts ?_
      intro hlt hspellable
      have hcount : parts.length = db.variableCount r.body := hp.length_parts
      rw [length_spellAll, hcount] at hlt
      rcases hspellable tc r hr with ⟨v, hv⟩ | ⟨s', hs', hle⟩
      · rw [hfloat] at hv
        cases hv
      · rw [hs] at hs'
        cases hs'
        omega
  · simp [spellAll]
  · intro s body parts symbols _ _ hparts
    exact hparts
  · intro s body tc f front parts symbols _ _ _ hf hparts
    rw [spellAll]
    exact List.forall_mem_cons.mpr ⟨hf, hparts⟩

/-- Every sub-formula of what was read is spelled, or lacks a part. -/
theorem Grounded.spells_of_readAs {db : Database} (h : db.Grounded) {symbols : List Symbol}
    {typecodes : List Typecode} {asserted : Bool} {f n : Formula}
    (hf : db.readAs symbols typecodes asserted = .ok f) (hn : n ∈ f.subformulas) :
    db.Spells (db.spell n) := by
  obtain ⟨_, f', _, tag, hderives, rfl⟩ := exists_derives_of_readAs hf hn
  rw [spell_retag]
  exact h.spells_all.1 hderives

end Typeset.Database

import Typeset.Proofs.Database.Declared
import Typeset.Proofs.Database.Outline

/-!
# The reader follows the outline

The reader sees words only and keeps one list of hypotheses for every open
block. Over the words of a declaration it goes from one state outside of
everything to another one: the statements of the declaration are stored, and
the innermost block has what the declaration supposes. A block inside leaves
the lists of the blocks around it as they were, so what it supposes is gone
behind it.
-/

namespace Typeset.Database

open Text

/-- The reader goes over words with the given texts from every state of one kind
to a state of another, without an error. -/
def Leads (P : Reader → Prop) (tokens : List String) (Q : Reader → Prop) : Prop :=
  ∀ (r : Reader) (ws : List Word), P r → ws.map (fun w => String.ofList w.text) = tokens →
    ∃ r', ws.foldlM Reader.step r = .ok r' ∧ Q r'

section Leads

variable {P Q R : Reader → Prop}

/-- No word leads nowhere else. -/
theorem Leads.nil : Leads P [] P := by
  intro r ws hr hws
  rw [List.map_eq_nil_iff.mp hws]
  exact ⟨r, rfl, hr⟩

/-- A single word leads where a step leads. -/
theorem Leads.word {t : String}
    (h : ∀ (r : Reader) (w : Word), P r → String.ofList w.text = t →
      ∃ r', r.step w = .ok r' ∧ Q r') : Leads P [t] Q := by
  intro r ws hr hws
  obtain ⟨w, rfl, hw⟩ := List.map_eq_singleton_iff.mp hws
  obtain ⟨r', hstep, hr'⟩ := h r w hr hw
  refine ⟨r', ?_, hr'⟩
  rw [List.foldlM_cons, hstep]
  rfl

/-- One way after the other. -/
theorem Leads.append {first second : List String} (h : Leads P first Q)
    (h' : Leads Q second R) : Leads P (first ++ second) R := by
  intro r ws hr hws
  obtain ⟨front, back, rfl, hfront, hback⟩ := List.map_eq_append_iff.mp hws
  obtain ⟨r', hfold, hr'⟩ := h r front hr hfront
  obtain ⟨r'', hfold', hr''⟩ := h' r' back hr' hback
  refine ⟨r'', ?_, hr''⟩
  rw [List.foldlM_append, hfold]
  exact hfold'

/-- A word and then the rest of the way. -/
theorem Leads.cons {t : String} {tokens : List String} (h : Leads P [t] Q)
    (h' : Leads Q tokens R) : Leads P (t :: tokens) R :=
  h.append h'

/-- Words that lead nowhere else one by one lead nowhere else. -/
theorem Leads.words {tokens : List String} (h : ∀ t ∈ tokens, Leads P [t] P) :
    Leads P tokens P := by
  induction tokens with
  | nil => exact .nil
  | cons t tokens ih =>
    obtain ⟨ht, htokens⟩ := List.forall_mem_cons.mp h
    exact ht.cons (ih htokens)

end Leads

/-- What a database stores of a list of statements. -/
structure Stores (provable : Typecode) (ss : List Statement) (db : Database) : Prop where
  /-- The provable typecode. -/
  provable_eq : db.provable = provable
  /-- The statements, under their labels, in order. -/
  statements_eq : db.statements.entries = ss.map fun s => (s.label, s)
  /-- The typecodes of the grammar, in order of first appearance. -/
  typecodes_eq : db.typecodes = (ss.filterMap (syntaxTypecode? provable)).eraseDups
  /-- The rules of every typecode, in order. -/
  rules_eq : ∀ tc, db.grammar.rulesOf tc = ss.filterMap (syntaxRule? provable tc)

/-- What a database holds of statements, each with the hypotheses that it rests
on. -/
structure Holds (provable : Typecode) (done : List (Statement × List Statement))
    (db : Database) : Prop extends Stores provable (done.map (·.1)) db where
  /-- The hypotheses of every assertion. -/
  hypotheses_eq : db.hypotheses.entries =
    (done.filter (·.1.kind.isAssertion)).map fun p => (p.1.label, p.2.map (·.label))

/-- Adding a typecode adds it behind the others, unless it is one of them or the
provable one. -/
theorem typecodes_addTypecode {db : Database} {tcs : List Typecode}
    (h : db.typecodes = tcs.eraseDups) (tc : Typecode) :
    (db.addTypecode tc).typecodes =
      (tcs ++ ((some tc).filter (· != db.provable)).toList).eraseDups := by
  unfold addTypecode
  by_cases hp : tc = db.provable
  · have hfilter : ((some tc).filter (· != db.provable)).toList = [] := by
      simp [Option.filter, hp]
    rw [if_pos (by simp [hp]), hfilter, List.append_nil, h]
  · have hfilter : ((some tc).filter (· != db.provable)).toList = [tc] := by
      simp [Option.filter, hp]
    rw [hfilter, List.eraseDups_append, h]
    by_cases hmem : tc ∈ tcs
    · have hremoved : [tc].removeAll tcs = [] := by simp [List.removeAll, hmem]
      rw [if_pos (by simp [hmem]), hremoved, List.eraseDups_nil, List.append_nil, h]
    · have hremoved : [tc].removeAll tcs = [tc] := by simp [List.removeAll, hmem]
      rw [if_neg (by simp [hmem, hp]), hremoved]
      rfl

section Stores

variable {provable : Typecode} {ss : List Statement} {db db' : Database} {s : Statement}

/-- A database that differs from one before in what a statement with a new label
adds stores the statement behind the others. -/
theorem Stores.of_added (h : Stores provable ss db) (hfresh : s.label ∉ ss.map (·.label))
    (hp : db'.provable = db.provable) (hs : db'.statements = db.statements.set s.label s)
    (ht : db'.typecodes =
      (ss.filterMap (syntaxTypecode? provable) ++ (syntaxTypecode? provable s).toList).eraseDups)
    (hr : ∀ tc, db'.grammar.rulesOf tc =
      db.grammar.rulesOf tc ++ (syntaxRule? provable tc s).toList) :
    Stores provable (ss ++ [s]) db' where
  provable_eq := hp.trans h.provable_eq
  statements_eq := by
    have hkeys : s.label ∉ db.statements.keys := by
      rw [Table.keys, h.statements_eq, List.map_map]
      exact hfresh
    rw [hs, Table.entries_set_of_notMem hkeys, h.statements_eq, List.map_append]
    rfl
  typecodes_eq := by
    rw [ht, List.filterMap_append]
    cases hone : syntaxTypecode? provable s <;> simp [hone]
  rules_eq := by
    intro tc
    rw [hr, h.rules_eq, List.filterMap_append]
    cases hone : syntaxRule? provable tc s <;> simp [hone]

/-- A statement that adds nothing to the grammar is only stored. -/
theorem Stores.of_stored (h : Stores provable ss db) (hfresh : s.label ∉ ss.map (·.label))
    (htc : syntaxTypecode? provable s = none) (hrule : ∀ tc, syntaxRule? provable tc s = none) :
    Stores provable (ss ++ [s]) { db with statements := db.statements.set s.label s } := by
  refine h.of_added hfresh rfl rfl ?_ ?_
  · rw [htc, Option.toList_none, List.append_nil]
    exact h.typecodes_eq
  · intro tc
    rw [hrule, Option.toList_none, List.append_nil]

/-- A floating hypothesis or an axiom is stored with its typecode. -/
theorem Stores.of_typed (h : Stores provable ss db) (hfresh : s.label ∉ ss.map (·.label))
    (hkind : s.kind = .floating ∨ s.kind = .axiomatic) {tc : Typecode}
    (htypecode : s.typecode? = some tc) (hp : db'.provable = db.provable)
    (hs : db'.statements = db.statements.set s.label s) (ht : db'.typecodes = db.typecodes)
    (hr : ∀ tc', db'.grammar.rulesOf tc' =
      db.grammar.rulesOf tc' ++ (syntaxRule? provable tc' s).toList) :
    Stores provable (ss ++ [s]) (db'.addTypecode tc) := by
  have hadded : syntaxTypecode? provable s = (some tc).filter (· != db'.provable) := by
    rw [syntaxTypecode?, if_pos hkind, htypecode, hp, h.provable_eq]
  refine h.of_added hfresh ?_ ?_ ?_ ?_
  · rw [addTypecode_eq]
    exact hp
  · rw [addTypecode_eq]
    exact hs
  · rw [hadded]
    exact typecodes_addTypecode (ht.trans h.typecodes_eq) tc
  · intro tc'
    rw [addTypecode_eq]
    exact hr tc'

/-- Only axioms add rules. -/
theorem syntaxRule?_of_kind_ne (hkind : s.kind ≠ .axiomatic) (tc : Typecode) :
    syntaxRule? provable tc s = none := by
  simp [syntaxRule?, hkind]

/-- An assertion of the logic adds no rule. -/
theorem syntaxRule?_of_provable (htypecode : s.typecode? = some provable) (tc : Typecode) :
    syntaxRule? provable tc s = none := by
  rw [syntaxRule?, if_neg]
  rintro ⟨-, hsome, hne⟩
  rw [htypecode] at hsome
  exact hne (Option.some.inj hsome).symm

/-- A syntax axiom adds a rule for its own typecode. -/
theorem syntaxRule?_of_syntax {tc : Typecode} (hkind : s.kind = .axiomatic)
    (htypecode : s.typecode? = some tc) (hne : tc ≠ provable) (tc' : Typecode) :
    (syntaxRule? provable tc' s).toList = if tc' = tc then [⟨s.label, s.body⟩] else [] := by
  rw [syntaxRule?, htypecode]
  by_cases heq : tc' = tc
  · subst heq
    rw [if_pos rfl, if_pos ⟨hkind, rfl, hne⟩]
    rfl
  · rw [if_neg heq, if_neg (by rintro ⟨-, hsome, -⟩; exact heq (Option.some.inj hsome).symm)]
    rfl

/-- A statement with a typecode, and with one variable if it is a floating
hypothesis, is stored behind the others. -/
theorem Stores.addStatement (h : Stores provable ss db) {tc : Typecode} {body : List Symbol}
    (hmath : s.math = tc :: body) (hone : s.kind = .floating → ∃ v, body = [v])
    (hfresh : s.label ∉ ss.map (·.label)) :
    ∃ db', db.addStatement s = .ok db' ∧ Stores provable (ss ++ [s]) db' ∧
      db'.hypotheses = db.hypotheses := by
  have htypecode : s.typecode? = some tc := by
    rw [Statement.typecode?, hmath]
    rfl
  have hbody : s.body = body := by
    rw [Statement.body, hmath]
    rfl
  unfold Database.addStatement
  rw [hmath]
  dsimp only
  cases hkind : s.kind with
  | floating =>
    obtain ⟨v, rfl⟩ := hone hkind
    refine ⟨_, rfl, h.of_typed hfresh (.inl hkind) htypecode rfl rfl rfl ?_, ?_⟩
    · intro tc'
      rw [syntaxRule?_of_kind_ne (by simp [hkind]), Option.toList_none, List.append_nil]
      rfl
    · rw [addTypecode_eq]
  | essential | provable =>
    exact ⟨_, rfl, h.of_stored hfresh (by simp [syntaxTypecode?, hkind])
      (syntaxRule?_of_kind_ne (by simp [hkind])), rfl⟩
  | axiomatic =>
    by_cases heq : tc = db.provable
    · have hlogic : s.typecode? = some provable := by
        rw [htypecode, heq, h.provable_eq]
      have hnone : syntaxTypecode? provable s = none := by
        simp [syntaxTypecode?, hlogic]
      exact ⟨_, if_pos (by simp [heq]),
        h.of_stored hfresh hnone (syntaxRule?_of_provable hlogic), rfl⟩
    · refine ⟨_, if_neg (by simp [heq]),
        h.of_typed hfresh (.inr hkind) htypecode rfl rfl rfl ?_, ?_⟩
      · intro tc'
        rw [Grammar.rulesOf_addRule,
          syntaxRule?_of_syntax hkind htypecode (h.provable_eq ▸ heq), hbody]
        by_cases hsame : tc' = tc
        · rw [if_pos hsame, if_pos hsame, hsame]
        · rw [if_neg hsame, if_neg hsame, List.append_nil]
      · rw [addTypecode_eq]

end Stores

/-- The reader is in some condition, in blocks that suppose the given statements,
the innermost block first, and holds what it read. -/
structure Stands (condition : Reader → Prop) (provable : Typecode) (blocks : List (List Statement))
    (done : List (Statement × List Statement)) (r : Reader) : Prop where
  /-- The condition. -/
  condition : condition r
  /-- What the open blocks suppose. -/
  blocks_eq : r.blocks = blocks.map (·.map (·.label))
  /-- What was read so far. -/
  holds : Holds provable done r.database

/-- The reader is outside of everything. -/
def Reader.IsOutside (r : Reader) : Prop := r.place = .outside

/-- The reader has a label that waits for its statement. -/
def Reader.IsLabelled (label : Label) (r : Reader) : Prop :=
  r.place = .outside ∧ r.label = some label

/-- The reader is inside a comment. -/
def Reader.IsInComment (r : Reader) : Prop := ∃ opened read, r.place = .comment opened read

/-- The reader is inside a list of symbols. -/
def Reader.IsInSymbols (r : Reader) : Prop :=
  ∃ list opened read, r.place = .symbols list opened read

/-- The reader is inside a statement and has read the given words of it. -/
def Reader.IsInStatement (kind : StatementKind) (label : Label) (read : List Symbol)
    (r : Reader) : Prop :=
  ∃ opened, r.place = .statement kind label opened read

/-- Outside of everything a step takes the word as one that stands there. -/
theorem Reader.step_of_isOutside {r : Reader} (h : r.IsOutside) (w : Word) :
    r.step w = Reader.stepOutside { r with line := r.line + lineFeeds w.gap }
      (String.ofList w.text) := by
  unfold Reader.step
  rw [h]

/-- A plain word is none that begins with a dollar. -/
theorem PlainWord.text_ne (word : PlainWord) {s : String} (hs : s.toList.head? = some '$') :
    word.text ≠ s := by
  rintro rfl
  exact word.plain hs

/-- A plain word is a label for what follows. -/
theorem Reader.stepOutside_plain (r : Reader) (word : PlainWord) :
    r.stepOutside word.text = .ok { r with label := some word.text } := by
  have hlist : SymbolList.ofKeyword? word.text = none := by
    rw [SymbolList.ofKeyword?, List.find?_eq_none]
    intro k _ hk
    exact word.text_ne (by cases k <;> decide) (beq_iff_eq.mp hk).symm
  have hkind : StatementKind.ofKeyword? word.text = none := by
    rw [StatementKind.ofKeyword?, List.find?_eq_none]
    intro k _ hk
    exact word.text_ne (by cases k <;> decide) (beq_iff_eq.mp hk).symm
  have hcomment : word.text ≠ "$(" := word.text_ne (by decide)
  have hopen : word.text ≠ "$\x7b" := word.text_ne (by decide)
  have hclose : word.text ≠ "$\x7d" := word.text_ne (by decide)
  unfold Reader.stepOutside
  rw [hlist, hkind, if_neg (by simpa using hcomment), if_neg (by simpa using hopen),
    if_neg (by simpa using hclose)]
  exact if_neg (by simpa using word.plain)

/-- The word that opens a list opens it. -/
theorem Reader.stepOutside_list (r : Reader) (list : SymbolList) :
    r.stepOutside list.keyword = .ok { r with place := .symbols list r.line [] } := by
  cases list <;> rfl

/-- The keyword of a statement opens one, under the label that waits. -/
theorem Reader.stepOutside_statement {r : Reader} {label : Label} (h : r.label = some label)
    (kind : StatementKind) :
    r.stepOutside kind.keyword = .ok { r with place := .statement kind label r.line [] } := by
  unfold Reader.stepOutside
  cases kind <;> exact h ▸ rfl

/-- Inside a statement the closing word ends it. -/
theorem Reader.step_of_isInStatement {r : Reader} {kind : StatementKind} {label : Label}
    {opened : Nat} {read : List Symbol} (h : r.place = .statement kind label opened read)
    {w : Word} (hw : String.ofList w.text = "$.") :
    r.step w = Reader.endStatement { r with line := r.line + lineFeeds w.gap } kind label opened
      read := by
  unfold Reader.step
  dsimp only
  rw [h, hw]
  rfl

variable {provable : Typecode} {blocks : List (List Statement)}
  {done : List (Statement × List Statement)}

/-- A comment says nothing about statements. -/
theorem leads_comment (words : List CommentWord) :
    Leads (Stands Reader.IsOutside provable blocks done) (Declaration.comment words).tokens
      (Stands Reader.IsOutside provable blocks done) := by
  have hopen : Leads (Stands Reader.IsOutside provable blocks done) ["$("]
      (Stands Reader.IsInComment provable blocks done) := by
    refine .word fun r w hr hw => ?_
    rw [Reader.step_of_isOutside hr.condition, hw]
    exact ⟨_, rfl, ⟨_, _, rfl⟩, hr.blocks_eq, hr.holds⟩
  have hword : ∀ t ∈ words.map (·.text), Leads (Stands Reader.IsInComment provable blocks done) [t]
      (Stands Reader.IsInComment provable blocks done) := by
    intro t ht
    refine .word fun r w hr hw => ?_
    obtain ⟨v, -, rfl⟩ := List.mem_map.mp ht
    obtain ⟨opened, read, hplace⟩ := hr.condition
    unfold Reader.step
    dsimp only
    rw [hplace, hw]
    exact ⟨_, if_neg (by simp [v.ne_close]), ⟨_, _, rfl⟩, hr.blocks_eq, hr.holds⟩
  have hclose : Leads (Stands Reader.IsInComment provable blocks done) ["$)"]
      (Stands Reader.IsOutside provable blocks done) := by
    refine .word fun r w hr hw => ?_
    obtain ⟨opened, read, hplace⟩ := hr.condition
    unfold Reader.step
    dsimp only
    rw [hplace, hw]
    have hholds := hr.holds
    exact ⟨_, rfl, rfl, hr.blocks_eq, ⟨⟨hholds.provable_eq, hholds.statements_eq,
      hholds.typecodes_eq, hholds.rules_eq⟩, hholds.hypotheses_eq⟩⟩
  exact hopen.cons ((Leads.words hword).append hclose)

/-- A list of symbols says nothing about statements. -/
theorem leads_symbols (list : SymbolList) (symbols : List PlainWord) :
    Leads (Stands Reader.IsOutside provable blocks done)
      (Declaration.symbols list symbols).tokens
      (Stands Reader.IsOutside provable blocks done) := by
  have hopen : Leads (Stands Reader.IsOutside provable blocks done) [list.keyword]
      (Stands Reader.IsInSymbols provable blocks done) := by
    refine .word fun r w hr hw => ?_
    rw [Reader.step_of_isOutside hr.condition, hw, Reader.stepOutside_list]
    exact ⟨_, rfl, ⟨_, _, _, rfl⟩, hr.blocks_eq, hr.holds⟩
  have hword : ∀ t ∈ plainTexts symbols, Leads (Stands Reader.IsInSymbols provable blocks done) [t]
      (Stands Reader.IsInSymbols provable blocks done) := by
    intro t ht
    refine .word fun r w hr hw => ?_
    obtain ⟨v, -, rfl⟩ := List.mem_map.mp ht
    have hne : v.text ≠ "$." := v.text_ne (by decide)
    obtain ⟨list, opened, read, hplace⟩ := hr.condition
    unfold Reader.step
    dsimp only
    rw [hplace, hw]
    exact ⟨_, if_neg (by simpa using hne), ⟨_, _, _, rfl⟩, hr.blocks_eq, hr.holds⟩
  have hclose : Leads (Stands Reader.IsInSymbols provable blocks done) ["$."]
      (Stands Reader.IsOutside provable blocks done) := by
    refine .word fun r w hr hw => ?_
    obtain ⟨list, opened, read, hplace⟩ := hr.condition
    unfold Reader.step
    dsimp only
    rw [hplace, hw]
    have hholds := hr.holds
    cases list <;> exact ⟨_, rfl, rfl, hr.blocks_eq, ⟨⟨hholds.provable_eq, hholds.statements_eq,
      hholds.typecodes_eq, hholds.rules_eq⟩, hholds.hypotheses_eq⟩⟩
  exact hopen.cons ((Leads.words hword).append hclose)

/-- The math of a sentence stands before its proof. -/
theorem Sentence.takeWhile_words (s : Sentence) :
    (s.math ++ s.proofWords).takeWhile (· != "$=") = s.math := by
  have hmath : ∀ t ∈ s.math, (t != "$=") = true := by
    intro t ht
    rw [Sentence.math, List.mem_cons] at ht
    rcases ht with rfl | ht
    · simpa using s.typecode.text_ne (by decide)
    · obtain ⟨v, -, rfl⟩ := List.mem_map.mp ht
      simpa using v.text_ne (by decide)
  rw [List.takeWhile_append_of_pos hmath]
  cases s <;> simp [Sentence.proofWords]

/-- No word of a sentence ends it. -/
theorem Sentence.ne_end_of_mem {s : Sentence} {t : String} (h : t ∈ s.math ++ s.proofWords) :
    t ≠ "$." := by
  rw [List.mem_append, Sentence.math, List.mem_cons] at h
  rcases h with (rfl | h) | h
  · exact s.typecode.text_ne (by decide)
  · obtain ⟨v, -, rfl⟩ := List.mem_map.mp h
    exact v.text_ne (by decide)
  · cases s with
    | provable tc body proof =>
      rcases List.mem_cons.mp h with rfl | h
      · decide
      · obtain ⟨v, -, rfl⟩ := List.mem_map.mp h
        exact v.text_ne (by decide)
    | _ => cases h

/-- Inside a statement words are read one behind the other. -/
theorem leads_inStatement (kind : StatementKind) (label : Label) {words : List String}
    (hwords : ∀ t ∈ words, t ≠ "$.") (read : List Symbol) :
    Leads (Stands (Reader.IsInStatement kind label read) provable blocks done) words
      (Stands (Reader.IsInStatement kind label (read ++ words)) provable blocks done) := by
  induction words generalizing read with
  | nil =>
    rw [List.append_nil]
    exact .nil
  | cons t words ih =>
    obtain ⟨ht, hwords⟩ := List.forall_mem_cons.mp hwords
    have hword : Leads (Stands (Reader.IsInStatement kind label read) provable blocks done) [t]
        (Stands (Reader.IsInStatement kind label (read ++ [t])) provable blocks done) := by
      refine .word fun r w hr hw => ?_
      obtain ⟨opened, hplace⟩ := hr.condition
      unfold Reader.step
      dsimp only
      rw [hplace, hw]
      exact ⟨_, if_neg (by simpa using ht), ⟨_, rfl⟩, hr.blocks_eq, hr.holds⟩
    have hrest := ih hwords (read ++ [t])
    rw [List.append_assoc] at hrest
    exact hword.cons hrest

/-- The hypotheses of all open blocks in the order of declaration. -/
def inScope (blocks : List (List Statement)) : List Statement := blocks.reverse.flatten

/-- What the innermost block supposes further comes last. -/
theorem inScope_append (block more : List Statement) (outer : List (List Statement)) :
    inScope ((block ++ more) :: outer) = inScope (block :: outer) ++ more := by
  simp [inScope]

/-- A new block supposes nothing yet. -/
theorem inScope_nil_cons (blocks : List (List Statement)) :
    inScope ([] :: blocks) = inScope blocks := by
  simp [inScope]

/-- The hypotheses that the reader has in scope are those of the open blocks. -/
theorem Reader.inScope_eq {r : Reader} (h : r.blocks = blocks.map (·.map (·.label))) :
    r.inScope = (Database.inScope blocks).map (·.label) := by
  rw [Reader.inScope, h, ← List.map_reverse, Database.inScope, List.map_flatten]

/-- A statement that asserts nothing rests on no hypotheses. -/
theorem Holds.of_stores {db : Database} (h : Holds provable done db) {db' : Database}
    {s : Statement} (hs : Stores provable (done.map (·.1) ++ [s]) db')
    (hkind : s.kind.isAssertion = false) (hhyps : db'.hypotheses = db.hypotheses) :
    Holds provable (done ++ [(s, [])]) db' where
  toStores := by
    rw [List.map_append]
    exact hs
  hypotheses_eq := by
    have hfilter : [(s, ([] : List Statement))].filter (·.1.kind.isAssertion) = [] := by
      simp [hkind]
    rw [hhyps, h.hypotheses_eq, List.filter_append, hfilter, List.append_nil]

/-- An assertion rests on the hypotheses that are set for it. -/
theorem Holds.of_asserted {db : Database} (h : Holds provable done db) {db' : Database}
    {s : Statement} (hs : Stores provable (done.map (·.1) ++ [s]) db')
    (hkind : s.kind.isAssertion = true) (hfresh : s.label ∉ done.map (·.1.label))
    (hhyps : db'.hypotheses = db.hypotheses) (hyps : List Statement) :
    Holds provable (done ++ [(s, hyps)])
      { db' with hypotheses := db'.hypotheses.set s.label (hyps.map (·.label)) } where
  toStores := by
    rw [List.map_append]
    exact ⟨hs.provable_eq, hs.statements_eq, hs.typecodes_eq, hs.rules_eq⟩
  hypotheses_eq := by
    have hkeys : s.label ∉ db'.hypotheses.keys := by
      rw [hhyps, Table.keys, h.hypotheses_eq, List.map_map]
      intro hmem
      obtain ⟨p, hp, hlabel⟩ := List.mem_map.mp hmem
      exact hfresh (List.mem_map.mpr ⟨p, (List.mem_filter.mp hp).1, hlabel⟩)
    have hfilter : [(s, hyps)].filter (·.1.kind.isAssertion) = [(s, hyps)] := by
      simp [hkind]
    rw [Table.entries_set_of_notMem hkeys, hhyps, h.hypotheses_eq, List.filter_append, hfilter,
      List.map_append]
    rfl

/-- The end of a sentence stores its statement under the label. An assertion
gets the hypotheses in scope; what is supposed is added to the innermost
block. -/
theorem leads_end (label : PlainWord) (s : Sentence) {block : List Statement}
    {outer : List (List Statement)} (hfresh : label.text ∉ done.map (·.1.label)) :
    Leads
      (Stands (Reader.IsInStatement s.kind label.text (s.math ++ s.proofWords)) provable
        (block :: outer) done) ["$."]
      (Stands Reader.IsOutside provable
        ((block ++ (Declaration.sentence label s).hypotheses) :: outer)
        (done ++ (Declaration.sentence label s).scoped (inScope (block :: outer)))) := by
  refine .word fun r w hr hw => ?_
  obtain ⟨opened, hplace⟩ := hr.condition
  have hone : (s.statement label).kind = .floating → ∃ v, plainTexts s.body = [v] := by
    cases s with
    | floating tc v => exact fun _ => ⟨v.text, rfl⟩
    | _ => exact fun h => by cases h
  have hfresh' : (s.statement label).label ∉ (done.map (·.1)).map (·.label) := by
    rw [List.map_map]
    exact hfresh
  obtain ⟨db, hadd, hstores, hhyps⟩ := hr.holds.addStatement rfl hone hfresh'
  have hscope := Reader.inScope_eq hr.blocks_eq
  have hadd' : r.database.addStatement ⟨label.text, s.kind, s.math⟩ = .ok db := hadd
  rw [Reader.step_of_isInStatement hplace hw, Reader.endStatement, s.takeWhile_words]
  dsimp only
  rw [hadd']
  cases s with
  | floating tc v =>
    refine ⟨_, rfl, rfl, ?_, hr.holds.of_stores hstores rfl hhyps⟩
    rw [Declaration.hypotheses, List.append_nil]
    · exact hr.blocks_eq
    · simp
  | essential tc body =>
    refine ⟨_, rfl, rfl, ?_, hr.holds.of_stores hstores rfl hhyps⟩
    have hblocks := hr.blocks_eq
    rw [List.map_cons] at hblocks
    dsimp only
    rw [hblocks, Declaration.hypotheses, List.map_cons, List.map_append]
    rfl
  | axiomatic tc body | provable tc body proof =>
    refine ⟨_, rfl, rfl, ?_, ?_⟩
    · rw [Declaration.hypotheses, List.append_nil]
      · exact hr.blocks_eq
      · simp
    · have hholds := hr.holds.of_asserted hstores rfl hfresh hhyps (inScope (block :: outer))
      rw [← hscope] at hholds
      exact hholds

/-- Over a labelled sentence its statement is stored. -/
theorem leads_sentence (label : PlainWord) (s : Sentence) {block : List Statement}
    {outer : List (List Statement)} (hfresh : label.text ∉ done.map (·.1.label)) :
    Leads (Stands Reader.IsOutside provable (block :: outer) done)
      (Declaration.sentence label s).tokens
      (Stands Reader.IsOutside provable
        ((block ++ (Declaration.sentence label s).hypotheses) :: outer)
        (done ++ (Declaration.sentence label s).scoped (inScope (block :: outer)))) := by
  have hlabel : Leads (Stands Reader.IsOutside provable (block :: outer) done) [label.text]
      (Stands (Reader.IsLabelled label.text) provable (block :: outer) done) := by
    refine .word fun r w hr hw => ?_
    rw [Reader.step_of_isOutside hr.condition, hw, Reader.stepOutside_plain]
    exact ⟨_, rfl, ⟨hr.condition, rfl⟩, hr.blocks_eq, hr.holds⟩
  have hopen : Leads (Stands (Reader.IsLabelled label.text) provable (block :: outer) done)
      [s.kind.keyword]
      (Stands (Reader.IsInStatement s.kind label.text []) provable (block :: outer) done) := by
    refine .word fun r w hr hw => ?_
    obtain ⟨hplace, hwaits⟩ := hr.condition
    have hwaits' : Reader.label { r with line := r.line + lineFeeds w.gap } = some label.text :=
      hwaits
    rw [Reader.step_of_isOutside hplace, hw, Reader.stepOutside_statement hwaits']
    exact ⟨_, rfl, ⟨_, rfl⟩, hr.blocks_eq, hr.holds⟩
  have hwords : ∀ t ∈ s.math ++ s.proofWords, t ≠ "$." := fun t => s.ne_end_of_mem
  have hmath : Leads
      (Stands (Reader.IsInStatement s.kind label.text []) provable (block :: outer) done)
      (s.math ++ s.proofWords) _ := leads_inStatement s.kind label.text hwords []
  exact hlabel.cons (hopen.cons (hmath.append (leads_end label s hfresh)))

/-- Over a block its outline is read, and behind it nothing of what is supposed
inside remains. -/
theorem leads_block {inner : List Declaration} {done' : List (Statement × List Statement)}
    {more : List Statement} {block : List Statement} {outer : List (List Statement)}
    (h : Leads (Stands Reader.IsOutside provable ([] :: block :: outer) done) (tokensAll inner)
      (Stands Reader.IsOutside provable (more :: block :: outer) done')) :
    Leads (Stands Reader.IsOutside provable (block :: outer) done) (Declaration.block inner).tokens
      (Stands Reader.IsOutside provable (block :: outer) done') := by
  have hopen : Leads (Stands Reader.IsOutside provable (block :: outer) done) ["$\x7b"]
      (Stands Reader.IsOutside provable ([] :: block :: outer) done) := by
    refine .word fun r w hr hw => ?_
    rw [Reader.step_of_isOutside hr.condition, hw]
    exact ⟨_, rfl, hr.condition, congrArg ([] :: ·) hr.blocks_eq, hr.holds⟩
  have hclose : Leads (Stands Reader.IsOutside provable (more :: block :: outer) done') ["$\x7d"]
      (Stands Reader.IsOutside provable (block :: outer) done') := by
    refine .word fun r w hr hw => ?_
    have hblocks := hr.blocks_eq
    rw [Reader.step_of_isOutside hr.condition, hw]
    unfold Reader.stepOutside
    dsimp only
    rw [hblocks]
    exact ⟨_, rfl, hr.condition, rfl, hr.holds⟩
  exact hopen.cons (h.append hclose)

mutual

/-- Over the words of a declaration its statements are stored with their
hypotheses, and the innermost block has what the declaration supposes. -/
theorem leads_declaration :
    ∀ (d : Declaration) (block : List Statement) (outer : List (List Statement))
      (done : List (Statement × List Statement)),
      (done.map (·.1.label) ++ d.statements.map (·.label)).Nodup →
      Leads (Stands Reader.IsOutside provable (block :: outer) done) d.tokens
        (Stands Reader.IsOutside provable ((block ++ d.hypotheses) :: outer)
          (done ++ d.scoped (inScope (block :: outer))))
  | .comment words, block, outer, done, _ => by
    rw [Declaration.hypotheses, Declaration.scoped, List.append_nil, List.append_nil]
    · exact leads_comment words
    all_goals simp
  | .symbols list symbols, block, outer, done, _ => by
    rw [Declaration.hypotheses, Declaration.scoped, List.append_nil, List.append_nil]
    · exact leads_symbols list symbols
    all_goals simp
  | .sentence label s, block, outer, done, hnodup => by
    have hfresh : label.text ∉ done.map (·.1.label) := by
      intro hmem
      exact (List.nodup_append'.mp hnodup).2.2 hmem List.mem_cons_self
    exact leads_sentence label s hfresh
  | .block inner, block, outer, done, hnodup => by
    have hinner := leads_all inner [] (block :: outer) done hnodup
    rw [inScope_nil_cons] at hinner
    rw [Declaration.hypotheses, List.append_nil]
    · exact leads_block hinner
    · simp

/-- Over the words of an outline its statements are stored with their
hypotheses, and the innermost block has what the outline supposes. -/
theorem leads_all :
    ∀ (ds : List Declaration) (block : List Statement) (outer : List (List Statement))
      (done : List (Statement × List Statement)),
      (done.map (·.1.label) ++ (statementsAll ds).map (·.label)).Nodup →
      Leads (Stands Reader.IsOutside provable (block :: outer) done) (tokensAll ds)
        (Stands Reader.IsOutside provable ((block ++ hypothesesAll ds) :: outer)
          (done ++ scopedAll (inScope (block :: outer)) ds))
  | [], block, outer, done, _ => by
    rw [hypothesesAll, List.flatMap_nil, scopedAll, List.append_nil, List.append_nil]
    exact .nil
  | d :: ds, block, outer, done, hnodup => by
    rw [statementsAll, List.map_append, ← List.append_assoc] at hnodup
    have hlabels : (done ++ d.scoped (inScope (block :: outer))).map (·.1.label) =
        done.map (·.1.label) ++ d.statements.map (·.label) := by
      rw [List.map_append, ← d.map_fst_scoped (inScope (block :: outer)), List.map_map]
      rfl
    have hd := leads_declaration d block outer done (List.nodup_append'.mp hnodup).1
    have hds := leads_all ds (block ++ d.hypotheses) outer _ (hlabels ▸ hnodup)
    rw [inScope_append, List.append_assoc, List.append_assoc] at hds
    exact hd.append hds

end

/-- Where labels are different and hypotheses are stored, the hypotheses of a
statement are those that it rests on. -/
theorem Holds.hypothesesOf_eq {db : Database} (h : Holds provable done db)
    (hnodup : (done.map (·.1.label)).Nodup)
    (hnil : ∀ p ∈ done, p.1.kind.isAssertion = false → p.2 = [])
    (hstored : ∀ p ∈ done, ∀ s ∈ p.2, s ∈ done.map (·.1)) {p : Statement × List Statement}
    (hp : p ∈ done) : db.hypothesesOf p.1.label = p.2 := by
  have hkeys : db.hypotheses.keys =
      (done.filter (·.1.kind.isAssertion)).map (·.1.label) := by
    rw [Table.keys, h.hypotheses_eq, List.map_map]
    rfl
  unfold hypothesesOf
  cases hkind : p.1.kind.isAssertion with
  | true =>
    have hfound : db.hypotheses.get? p.1.label = some (p.2.map (·.label)) := by
      refine Table.get?_of_mem ?_ ?_
      · rw [hkeys]
        exact hnodup.sublist (List.filter_sublist.map _)
      · rw [h.hypotheses_eq]
        exact List.mem_map.mpr ⟨p, List.mem_filter.mpr ⟨hp, hkind⟩, rfl⟩
    have hlookup : ∀ s ∈ p.2, db.statements.get? s.label = some s := by
      intro s hs
      refine Table.get?_of_mem ?_ ?_
      · rw [Table.keys, h.statements_eq, List.map_map, List.map_map]
        exact hnodup
      · rw [h.statements_eq]
        exact List.mem_map.mpr ⟨s, hstored p hp s hs, rfl⟩
    rw [hfound, Option.getD_some, List.filterMap_map]
    exact (List.filterMap_congr hlookup).trans List.filterMap_some
  | false =>
    have hnone : db.hypotheses.get? p.1.label = none := by
      apply Table.get?_of_notMem
      rw [hkeys]
      intro hmem
      obtain ⟨q, hq, hlabel⟩ := List.mem_map.mp hmem
      obtain ⟨hq, hqkind⟩ := List.mem_filter.mp hq
      have heq : q = p := List.inj_on_of_nodup_map hnodup hq hp hlabel
      rw [heq, hkind] at hqkind
      cases hqkind
    rw [hnone, hnil p hp hkind]
    rfl

/-- A source that is written with the words of an outline, whose labels are
different, is read. The statements are stored in order and without their proofs;
the typecodes of floating hypotheses and axioms, the provable one apart, are
listed once each as they first appear; the rules of every typecode come in
order; and each assertion has the hypotheses that are supposed before it in its
own block or in one around it, while other statements have none. -/
theorem read_follows_outline {provable logic : Typecode} {ds : List Declaration}
    {source : List Char} (hsource : Writes (tokensAll ds) source)
    (hlabels : ((statementsAll ds).map (·.label)).Nodup) :
    ∃ db, read provable logic source = .ok db ∧
      db.statements.values = statementsAll ds ∧
      db.typecodes = ((statementsAll ds).filterMap (syntaxTypecode? provable)).eraseDups ∧
      (∀ tc, db.grammar.rulesOf tc = (statementsAll ds).filterMap (syntaxRule? provable tc)) ∧
      ∀ p ∈ scopedAll [] ds, db.hypothesesOf p.1.label = p.2 := by
  have hwords := map_words_of_writes (fun w => isWord_of_mem_tokensAll) hsource
  have hstart : Stands Reader.IsOutside provable [[]] [] (Reader.start provable logic) :=
    ⟨rfl, rfl, ⟨rfl, rfl, rfl, fun _ => rfl⟩, rfl⟩
  obtain ⟨r, hfold, hr⟩ := leads_all ds [] [] [] hlabels _ _ hstart hwords
  have hstatements : (scopedAll [] ds).map (·.1) = statementsAll ds := map_fst_scopedAll [] ds
  have hholds : Holds provable (scopedAll [] ds) r.database := hr.holds
  have hfinish : r.finish (lineFeeds source + 1) = .ok r.database := by
    unfold Reader.finish
    rw [hr.condition]
    dsimp only
    rw [hr.blocks_eq]
    exact if_neg (by simp)
  refine ⟨r.database, ?_, ?_, ?_, ?_, ?_⟩
  · change ((Text.words source).foldlM Reader.step (Reader.start provable logic) >>= fun reader =>
      reader.finish (Text.lineFeeds source + 1)) = .ok r.database
    rw [hfold]
    exact hfinish
  · rw [Table.values, hholds.statements_eq, hstatements, List.map_map]
    exact List.map_id _
  · rw [hholds.typecodes_eq, hstatements]
  · intro tc
    rw [hholds.rules_eq, hstatements]
  · intro p hp
    refine hholds.hypothesesOf_eq ?_ ?_ ?_ hp
    · rw [← hstatements, List.map_map] at hlabels
      exact hlabels
    · exact fun q hq hkind => eq_nil_of_mem_scopedAll hkind hq
    · intro q hq s hs
      rw [hstatements]
      exact (mem_of_mem_scopedAll hq hs).resolve_left List.not_mem_nil

/-- A plain word from its text. -/
def PlainWord.ofText (s : String) (h : IsWord s ∧ s.toList.head? ≠ some '$') : PlainWord :=
  ⟨⟨s, h.1⟩, h.2⟩

/-- An outer block that supposes something, with an inner block that supposes
more, and an assertion behind each. -/
def nestedOutline : List Declaration :=
  let wff := PlainWord.ofText "wff" (by decide)
  let turnstile := PlainWord.ofText "|-" (by decide)
  let p := PlainWord.ofText "p" (by decide)
  let q := PlainWord.ofText "q" (by decide)
  [.symbols .ofVariables [p, q],
    .sentence (.ofText "wp" (by decide)) (.floating wff p),
    .sentence (.ofText "wq" (by decide)) (.floating wff q),
    .block [
      .sentence (.ofText "h1" (by decide)) (.essential turnstile [p]),
      .block [
        .sentence (.ofText "h2" (by decide)) (.essential turnstile [q]),
        .sentence (.ofText "inner" (by decide)) (.axiomatic turnstile [p, q])],
      .sentence (.ofText "outer" (by decide)) (.provable turnstile [q] [p])],
    .sentence (.ofText "after" (by decide)) (.axiomatic turnstile [p])]

/-- The assertions of the nested outline have the hypotheses of the blocks that
they stand in. -/
theorem read_follows_nestedOutline :
    ∃ db, read "|-" "wff" ((tokensAll nestedOutline).flatMap fun w => ' ' :: w.toList) = .ok db ∧
      db.statements.values.map (·.label) = ["wp", "wq", "h1", "h2", "inner", "outer", "after"] ∧
      db.typecodes = ["wff"] ∧
      db.hypothesesOf "inner" = [⟨"h1", .essential, ["|-", "p"]⟩, ⟨"h2", .essential, ["|-", "q"]⟩] ∧
      db.hypothesesOf "outer" = [⟨"h1", .essential, ["|-", "p"]⟩] ∧
      db.hypothesesOf "after" = [] := by
  obtain ⟨db, hread, hvalues, htypecodes, -, hhypotheses⟩ :=
    @read_follows_outline "|-" "wff" nestedOutline _ (writes_spaced _) (by decide)
  refine ⟨db, hread, ?_, ?_, ?_, ?_, ?_⟩
  · rw [hvalues]
    decide
  · rw [htypecodes]
    decide
  · exact hhypotheses (⟨"inner", .axiomatic, ["|-", "p", "q"]⟩, _) (by decide)
  · exact hhypotheses (⟨"outer", .provable, ["|-", "q"]⟩, _) (by decide)
  · exact hhypotheses (⟨"after", .axiomatic, ["|-", "p"]⟩, _) (by decide)

end Typeset.Database

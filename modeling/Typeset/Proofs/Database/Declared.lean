import Mathlib.Data.List.Nodup
import Typeset.Database.Read
import Typeset.Proofs.Grammar.Uniqueness

/-!
# Databases that declare every label once

The tables of a database are filled statement by statement. While no label
comes a second time they agree: a hypothesis that gives a variable its
typecode is stored under its label, and so is the axiom behind every rule of
the grammar. Parsing goes by symbols and typecodes, spelling and matching by
labels; this agreement is what ties them together.
-/

namespace Typeset

namespace Database

/-- The label of the statement that a word ends, if it ends one. -/
def Reader.ended? (r : Reader) (w : Text.Word) : Option Label :=
  match r.place with
  | .statement _ label _ _ => if String.ofList w.text == "$." then some label else none
  | _ => none

/-- The labels that are declared by words, in order, as far as these can be
read. -/
def Reader.declares (r : Reader) : List Text.Word → List Label
  | [] => []
  | w :: ws =>
    (r.ended? w).toList ++
      match r.step w with
      | .ok r' => r'.declares ws
      | .error _ => []

/-- The reader before the first word. -/
def Reader.start (provable logic : Typecode) : Reader :=
  { database := { provable := provable, logic := logic } }

/-- A source is accepted if its words lead the reader to where it may end. -/
theorem read_eq_ok_iff {provable logic : Typecode} {source : List Char} {db : Database} :
    read provable logic source = .ok db ↔
      ∃ r, (Text.words source).foldlM Reader.step (Reader.start provable logic) = .ok r ∧
        r.finish (Text.lineFeeds source + 1) = .ok db := by
  change ((Text.words source).foldlM Reader.step (Reader.start provable logic) >>= fun r =>
    r.finish (Text.lineFeeds source + 1)) = .ok db ↔ _
  cases (Text.words source).foldlM Reader.step (Reader.start provable logic) with
  | error e => simp [bind, Except.bind]
  | ok r => simp [bind, Except.bind]

/-- A word and further ones lead where the further ones lead from behind the first. -/
theorem Reader.foldlM_cons_eq_ok_iff {w : Text.Word} {ws : List Text.Word} {r r' : Reader} :
    (w :: ws).foldlM Reader.step r = .ok r' ↔
      ∃ next, r.step w = .ok next ∧ ws.foldlM Reader.step next = .ok r' := by
  rw [List.foldlM_cons]
  cases r.step w with
  | error e => simp [bind, Except.bind]
  | ok next => simp [bind, Except.bind]

/-- Words side by side lead where the second ones lead from where the first ones
do. -/
theorem Reader.foldlM_append_eq_ok_iff {front back : List Text.Word} {r r' : Reader} :
    (front ++ back).foldlM Reader.step r = .ok r' ↔
      ∃ next, front.foldlM Reader.step r = .ok next ∧ back.foldlM Reader.step next = .ok r' := by
  rw [List.foldlM_append]
  cases front.foldlM Reader.step r with
  | error e => simp [bind, Except.bind]
  | ok next => simp [bind, Except.bind]

/-- The labels that a source declares, in order. -/
def declaredLabels (provable logic : Typecode) (source : List Char) : List Label :=
  (Reader.start provable logic).declares (Text.words source)

/-- A database that was read from a source in which no label is declared
twice. -/
def DeclaredOnce (db : Database) : Prop :=
  ∃ provable logic source, read provable logic source = .ok db ∧
    (declaredLabels provable logic source).Nodup

/-- The tables of a database agree about labels. -/
structure Consistent (db : Database) : Prop where
  /-- A floating hypothesis is stored as a statement under its label. -/
  floating_stored : ∀ {l : Label} {v : Floating}, db.floatings.get? l = some v →
    v.label = l ∧ db.statements.get? l = some ⟨l, .floating, [v.typecode, v.symbol]⟩
  /-- The hypothesis of a variable is one of the floating hypotheses. -/
  variable_floating : ∀ {s : Symbol} {v : Floating}, db.grammar.floatings.get? s = some v →
    v.symbol = s ∧ db.floatings.get? v.label = some v
  /-- A rule is stored as an axiom under its label, and is not provable. -/
  rule_stored : ∀ {tc : Typecode} {r : Rule}, r ∈ db.grammar.rulesOf tc →
    tc ≠ db.provable ∧ db.statements.get? r.label = some ⟨r.label, .axiomatic, tc :: r.body⟩
  /-- The rules of a typecode have different labels. -/
  labels_nodup : ∀ tc, ((db.grammar.rulesOf tc).map (·.label)).Nodup
  /-- The typecode of a floating hypothesis is one of the grammar, unless it is
  the provable one. -/
  typecode_mem : ∀ {l : Label} {v : Floating}, db.floatings.get? l = some v →
    v.typecode ≠ db.provable → v.typecode ∈ db.typecodes

/-- Two databases that differ at most in symbols, markup and hypotheses of
assertions. -/
structure Agrees (db db' : Database) : Prop where
  /-- The provable typecode. -/
  provable_eq : db'.provable = db.provable
  /-- The statements. -/
  statements_eq : db'.statements = db.statements
  /-- The floating hypotheses. -/
  floatings_eq : db'.floatings = db.floatings
  /-- The grammar. -/
  grammar_eq : db'.grammar = db.grammar
  /-- The typecodes of the grammar. -/
  typecodes_eq : db'.typecodes = db.typecodes

/-- Symbols, markup and hypotheses of assertions do not matter for the
agreement of the tables. -/
theorem Consistent.of_agrees {db db' : Database} (h : db.Consistent) (ha : db.Agrees db') :
    db'.Consistent := by
  obtain ⟨hp, hs, hf, hg, ht⟩ := ha
  constructor
  · rw [hf, hs]
    exact h.floating_stored
  · rw [hf, hg]
    exact h.variable_floating
  · rw [hp, hs, hg]
    exact h.rule_stored
  · rw [hg]
    exact h.labels_nodup
  · rw [hp, hf, ht]
    exact h.typecode_mem

/-- The tables of an empty database agree. -/
theorem consistent_start (provable logic : Typecode) :
    (Reader.start provable logic).database.Consistent := by
  constructor <;> simp [Reader.start, Table.empty, Table.get?, Grammar.rulesOf]

/-- A typecode is added unless it is the provable one. -/
theorem mem_typecodes_addTypecode {db : Database} {tc tc' : Typecode}
    (h : tc' ∈ db.typecodes ∨ tc' = tc ∧ tc ≠ db.provable) :
    tc' ∈ (db.addTypecode tc).typecodes := by
  unfold addTypecode
  split
  · rename_i hc
    simp only [Bool.or_eq_true, beq_iff_eq, List.contains_iff_mem] at hc
    rcases h with h | ⟨rfl, hne⟩
    · exact h
    · exact hc.resolve_left hne
  · rcases h with h | ⟨rfl, _⟩
    · exact List.mem_append_left _ h
    · simp

/-- Adding a typecode changes the typecodes only. -/
theorem addTypecode_eq (db : Database) (tc : Typecode) :
    db.addTypecode tc = { db with typecodes := (db.addTypecode tc).typecodes } := by
  unfold addTypecode
  split <;> rfl

/-- What a statement can do to the tables: a floating hypothesis declares its
variable, a syntax axiom adds a rule, and any other statement is only
stored. -/
theorem addStatement_cases {db db' : Database} {s : Statement}
    (h : db.addStatement s = .ok db') :
    ∃ tc body, s.math = tc :: body ∧
      db'.provable = db.provable ∧ db'.statements = db.statements.set s.label s ∧
      db'.hypotheses = db.hypotheses ∧
      ((∃ x, s.kind = .floating ∧ body = [x] ∧
          db'.floatings = db.floatings.set s.label ⟨s.label, tc, x⟩ ∧
          db'.grammar = db.grammar.addVariable ⟨s.label, tc, x⟩ ∧
          ∀ tc', tc' ∈ db.typecodes ∨ tc' = tc ∧ tc ≠ db.provable → tc' ∈ db'.typecodes) ∨
        (s.kind = .axiomatic ∧ tc ≠ db.provable ∧ db'.floatings = db.floatings ∧
          db'.grammar = db.grammar.addRule tc ⟨s.label, body⟩ ∧
          ∀ tc' ∈ db.typecodes, tc' ∈ db'.typecodes) ∨
        (db'.floatings = db.floatings ∧ db'.grammar = db.grammar ∧
          db'.typecodes = db.typecodes)) := by
  unfold addStatement at h
  split at h
  · simp at h
  · rename_i tc body hmath
    refine ⟨tc, body, hmath, ?_⟩
    dsimp only at h
    split at h
    · rename_i x hkind
      cases h
      refine ⟨by rw [addTypecode_eq], by rw [addTypecode_eq], by rw [addTypecode_eq],
        .inl ⟨x, hkind, rfl, ?_⟩⟩
      refine ⟨by rw [addTypecode_eq], by rw [addTypecode_eq], ?_⟩
      intro tc' htc'
      exact mem_typecodes_addTypecode htc'
    · simp at h
    · rename_i hkind
      split at h
      · cases h
        exact ⟨rfl, rfl, rfl, .inr (.inr ⟨rfl, rfl, rfl⟩)⟩
      · rename_i hne
        cases h
        refine ⟨by rw [addTypecode_eq], by rw [addTypecode_eq], by rw [addTypecode_eq],
          .inr (.inl ⟨hkind, ?_⟩)⟩
        refine ⟨by simpa using hne, by rw [addTypecode_eq], by rw [addTypecode_eq], ?_⟩
        intro tc' htc'
        exact mem_typecodes_addTypecode (.inl htc')
    · cases h
      exact ⟨rfl, rfl, rfl, .inr (.inr ⟨rfl, rfl, rfl⟩)⟩

/-- Storing a statement under a new label hides no other statement. -/
theorem get?_set_of_fresh {db : Database} {s t : Statement} {l : Label}
    (hfresh : db.statements.get? s.label = none) (h : db.statements.get? l = some t) :
    (db.statements.set s.label s).get? l = some t := by
  have hne : l ≠ s.label := by
    rintro rfl
    simp [hfresh] at h
  rw [Table.get?_set_of_ne hne, h]

section Added

variable {db db' : Database} {s : Statement}

/-- A rule is still stored when a statement with a new label was added. -/
theorem Consistent.rule_kept (h : db.Consistent) (hfresh : db.statements.get? s.label = none)
    (hp : db'.provable = db.provable) (hs : db'.statements = db.statements.set s.label s)
    {tc : Typecode} {r : Rule} (hr : r ∈ db.grammar.rulesOf tc) :
    tc ≠ db'.provable ∧
      db'.statements.get? r.label = some ⟨r.label, .axiomatic, tc :: r.body⟩ := by
  obtain ⟨hne, hstored⟩ := h.rule_stored hr
  rw [hp, hs]
  exact ⟨hne, get?_set_of_fresh hfresh hstored⟩

/-- A floating hypothesis is still stored when a statement with a new label was
added. -/
theorem Consistent.floating_kept (h : db.Consistent) (hfresh : db.statements.get? s.label = none)
    (hs : db'.statements = db.statements.set s.label s) {l : Label} {v : Floating}
    (hv : db.floatings.get? l = some v) :
    v.label = l ∧ db'.statements.get? l = some ⟨l, .floating, [v.typecode, v.symbol]⟩ := by
  obtain ⟨hl, hstored⟩ := h.floating_stored hv
  rw [hs]
  exact ⟨hl, get?_set_of_fresh hfresh hstored⟩

/-- Declaring a variable under a new label keeps the agreement of the tables. -/
theorem Consistent.of_variable (h : db.Consistent) (hfresh : db.statements.get? s.label = none)
    {tc : Typecode} {x : Symbol} (hkind : s.kind = .floating) (hmath : s.math = [tc, x])
    (hp : db'.provable = db.provable) (hs : db'.statements = db.statements.set s.label s)
    (hf : db'.floatings = db.floatings.set s.label ⟨s.label, tc, x⟩)
    (hg : db'.grammar = db.grammar.addVariable ⟨s.label, tc, x⟩)
    (ht : ∀ tc', tc' ∈ db.typecodes ∨ tc' = tc ∧ tc ≠ db.provable → tc' ∈ db'.typecodes) :
    db'.Consistent := by
  constructor
  · intro l v hv
    rw [hf, Table.get?_set] at hv
    split at hv
    · rename_i hl
      cases hv
      refine ⟨hl.symm, ?_⟩
      rw [hs, hl, Table.get?_set_self]
      exact congrArg some (by cases s; simp_all)
    · exact h.floating_kept hfresh hs hv
  · intro y v hv
    rw [hg, Grammar.get?_floatings_addVariable] at hv
    split at hv
    · rename_i hy
      cases hv
      exact ⟨hy.symm, by rw [hf, Table.get?_set_self]⟩
    · obtain ⟨hsymbol, hlabel⟩ := h.variable_floating hv
      have hne : v.label ≠ s.label := by
        intro heq
        have hstored := (h.floating_stored hlabel).2
        rw [heq, hfresh] at hstored
        cases hstored
      exact ⟨hsymbol, by rw [hf, Table.get?_set_of_ne hne, hlabel]⟩
  · intro tc' r hr
    rw [hg, Grammar.rulesOf_addVariable] at hr
    exact h.rule_kept hfresh hp hs hr
  · intro tc'
    rw [hg, Grammar.rulesOf_addVariable]
    exact h.labels_nodup tc'
  · intro l v hv hne
    rw [hf, Table.get?_set] at hv
    rw [hp] at hne
    apply ht
    split at hv
    · cases hv
      exact .inr ⟨rfl, hne⟩
    · exact .inl (h.typecode_mem hv hne)

/-- Adding a rule under a new label keeps the agreement of the tables. -/
theorem Consistent.of_rule (h : db.Consistent) (hfresh : db.statements.get? s.label = none)
    {tc : Typecode} {body : List Symbol} (hkind : s.kind = .axiomatic)
    (hmath : s.math = tc :: body) (hne : tc ≠ db.provable) (hp : db'.provable = db.provable)
    (hs : db'.statements = db.statements.set s.label s) (hf : db'.floatings = db.floatings)
    (hg : db'.grammar = db.grammar.addRule tc ⟨s.label, body⟩)
    (ht : ∀ tc' ∈ db.typecodes, tc' ∈ db'.typecodes) : db'.Consistent := by
  constructor
  · intro l v hv
    rw [hf] at hv
    exact h.floating_kept hfresh hs hv
  · intro y v hv
    rw [hg, Grammar.floatings_addRule] at hv
    rw [hf]
    exact h.variable_floating hv
  · intro tc' r hr
    rw [hg, Grammar.rulesOf_addRule] at hr
    split at hr
    · rename_i htc
      subst htc
      rcases List.mem_append.mp hr with hr | hr
      · exact h.rule_kept hfresh hp hs hr
      · obtain rfl := List.mem_singleton.mp hr
        refine ⟨by rw [hp]; exact hne, ?_⟩
        rw [hs, Table.get?_set_self]
        exact congrArg some (by cases s; simp_all)
    · exact h.rule_kept hfresh hp hs hr
  · intro tc'
    rw [hg, Grammar.rulesOf_addRule]
    split
    · rw [List.map_append, List.nodup_append']
      refine ⟨h.labels_nodup tc, List.nodup_singleton _, ?_⟩
      intro l hl hl'
      obtain ⟨r, hr, rfl⟩ := List.mem_map.mp hl
      have hstored := (h.rule_stored hr).2
      have heq : r.label = s.label := by simpa using hl'
      rw [heq, hfresh] at hstored
      cases hstored
    · exact h.labels_nodup tc'
  · intro l v hv hne'
    rw [hf] at hv
    rw [hp] at hne'
    exact ht _ (h.typecode_mem hv hne')

/-- Storing any other statement under a new label keeps the agreement of the
tables. -/
theorem Consistent.of_stored (h : db.Consistent) (hfresh : db.statements.get? s.label = none)
    (hp : db'.provable = db.provable) (hs : db'.statements = db.statements.set s.label s)
    (hf : db'.floatings = db.floatings) (hg : db'.grammar = db.grammar)
    (ht : db'.typecodes = db.typecodes) : db'.Consistent := by
  constructor
  · intro l v hv
    rw [hf] at hv
    exact h.floating_kept hfresh hs hv
  · rw [hf, hg]
    exact h.variable_floating
  · intro tc r hr
    rw [hg] at hr
    exact h.rule_kept hfresh hp hs hr
  · rw [hg]
    exact h.labels_nodup
  · rw [hf, hp, ht]
    exact h.typecode_mem

/-- A statement with a new label keeps the agreement of the tables. -/
theorem Consistent.addStatement (h : db.Consistent) (hfresh : db.statements.get? s.label = none)
    (ha : db.addStatement s = .ok db') : db'.Consistent := by
  obtain ⟨tc, body, hmath, hp, hs, _, hcases⟩ := addStatement_cases ha
  rcases hcases with ⟨x, hkind, rfl, hf, hg, ht⟩ | ⟨hkind, hne, hf, hg, ht⟩ | ⟨hf, hg, ht⟩
  · exact h.of_variable hfresh hkind hmath hp hs hf hg ht
  · exact h.of_rule hfresh hkind hmath hne hp hs hf hg ht
  · exact h.of_stored hfresh hp hs hf hg ht

end Added

/-- Words outside of everything declare nothing. They open blocks without
hypotheses and close blocks. -/
theorem Reader.of_stepOutside {r r' : Reader} {word : String}
    (h : r.stepOutside word = .ok r') :
    r'.database = r.database ∧ ∀ block ∈ r'.blocks, block = [] ∨ block ∈ r.blocks := by
  unfold Reader.stepOutside at h
  split at h
  · cases h
    exact ⟨rfl, fun _ => .inr⟩
  · split at h
    · cases h
      exact ⟨rfl, fun _ => List.mem_cons.mp⟩
    · split at h
      · split at h
        · rename_i closed outer more hblocks
          cases h
          exact ⟨rfl, fun _ hb => .inr (by rw [hblocks]; exact List.mem_cons_of_mem _ hb)⟩
        · cases h
      · split at h
        · cases h
          exact ⟨rfl, fun _ => .inr⟩
        · split at h
          · cases h
            exact ⟨rfl, fun _ => .inr⟩
          · cases h
        · split at h
          · cases h
          · cases h
            exact ⟨rfl, fun _ => .inr⟩

/-- What the end of a statement does to hypotheses: an assertion gets those in
scope, and an essential hypothesis is added to the innermost block. -/
def Reader.Scopes (r : Reader) (label : Label) (db : Database) (r' : Reader) : Prop :=
  (r'.database.hypotheses = db.hypotheses ∧
      (r'.blocks = r.blocks ∨ r'.blocks = addHypothesis label r.blocks)) ∨
    r'.database.hypotheses = db.hypotheses.set label r.inScope ∧ r'.blocks = r.blocks

/-- Ending a statement adds it under its label. -/
theorem Reader.endStatement_cases {r r' : Reader} {kind : StatementKind} {label : Label}
    {opened : Nat} {words : List Symbol} (h : r.endStatement kind label opened words = .ok r') :
    ∃ (s : Statement) (db : Database), s.label = label ∧ r.database.addStatement s = .ok db ∧
      db.Agrees r'.database ∧ r.Scopes s.label db r' := by
  unfold Reader.endStatement at h
  split at h
  · cases h
  · rename_i db hdb
    refine ⟨_, db, rfl, hdb, ?_⟩
    split at h
    · cases h
      exact ⟨⟨rfl, rfl, rfl, rfl, rfl⟩, .inl ⟨rfl, .inl rfl⟩⟩
    · cases h
      exact ⟨⟨rfl, rfl, rfl, rfl, rfl⟩, .inl ⟨rfl, .inr rfl⟩⟩
    · cases h
      exact ⟨⟨rfl, rfl, rfl, rfl, rfl⟩, .inr ⟨rfl, rfl⟩⟩
    · cases h
      exact ⟨⟨rfl, rfl, rfl, rfl, rfl⟩, .inr ⟨rfl, rfl⟩⟩

/-- What a word can do: it ends a statement, which is added under its label, or
it leaves the tables as they are and at most opens or closes a block. -/
theorem Reader.step_cases {r r' : Reader} {w : Text.Word} (h : r.step w = .ok r') :
    (r.ended? w = none ∧ r.database.Agrees r'.database ∧
        r'.database.hypotheses = r.database.hypotheses ∧
        ∀ block ∈ r'.blocks, block = [] ∨ block ∈ r.blocks) ∨
      ∃ (s : Statement) (db : Database), r.ended? w = some s.label ∧
        r.database.addStatement s = .ok db ∧ db.Agrees r'.database ∧ r.Scopes s.label db r' := by
  unfold Reader.step at h
  unfold Reader.ended?
  dsimp only at h
  split at h
  · rename_i hplace
    obtain ⟨hdb, hblocks⟩ := Reader.of_stepOutside h
    rw [hplace, hdb]
    exact .inl ⟨rfl, ⟨rfl, rfl, rfl, rfl, rfl⟩, rfl, hblocks⟩
  · rename_i hplace
    rw [hplace]
    refine .inl ⟨rfl, ?_⟩
    split at h
    · cases h
      exact ⟨⟨rfl, rfl, rfl, rfl, rfl⟩, rfl, fun _ => .inr⟩
    · cases h
      exact ⟨⟨rfl, rfl, rfl, rfl, rfl⟩, rfl, fun _ => .inr⟩
  · rename_i list opened read hplace
    rw [hplace]
    refine .inl ⟨rfl, ?_⟩
    split at h
    · cases h
      cases list <;> exact ⟨⟨rfl, rfl, rfl, rfl, rfl⟩, rfl, fun _ => .inr⟩
    · cases h
      exact ⟨⟨rfl, rfl, rfl, rfl, rfl⟩, rfl, fun _ => .inr⟩
  · rename_i kind label opened read hplace
    rw [hplace]
    dsimp only
    split at h
    · rename_i hend
      obtain ⟨s, db, hlabel, hadd, hagrees, hscopes⟩ := Reader.endStatement_cases h
      exact .inr ⟨s, db, by rw [if_pos hend, hlabel], hadd, hagrees, hscopes⟩
    · rename_i hend
      cases h
      exact .inl ⟨if_neg hend, ⟨rfl, rfl, rfl, rfl, rfl⟩, rfl, fun _ => .inr⟩

/-- The labels of a list are all that statements are stored under. -/
def Covers (seen : List Label) (db : Database) : Prop :=
  ∀ l s, db.statements.get? l = some s → l ∈ seen

/-- One word keeps the agreement of the tables if it declares no label that was
seen before. -/
theorem Reader.consistent_step {r r' : Reader} {w : Text.Word} {seen : List Label}
    (h : r.step w = .ok r') (hr : r.database.Consistent) (hcovers : Covers seen r.database)
    (hnew : ∀ l ∈ (r.ended? w).toList, l ∉ seen) :
    r'.database.Consistent ∧ Covers (seen ++ (r.ended? w).toList) r'.database := by
  rcases Reader.step_cases h with ⟨hend, hagrees, _, _⟩ | ⟨s, db, hend, hadd, hagrees, _⟩
  · refine ⟨hr.of_agrees hagrees, ?_⟩
    intro l t ht
    rw [hagrees.statements_eq] at ht
    exact List.mem_append_left _ (hcovers l t ht)
  · have hfresh : r.database.statements.get? s.label = none := by
      cases hstored : r.database.statements.get? s.label with
      | none => rfl
      | some t => exact absurd (hcovers _ _ hstored) (hnew _ (by simp [hend]))
    refine ⟨(hr.addStatement hfresh hadd).of_agrees hagrees, ?_⟩
    intro l t ht
    obtain ⟨_, _, _, _, hstatements, _⟩ := addStatement_cases hadd
    rw [hagrees.statements_eq, hstatements, Table.get?_set] at ht
    split at ht
    · rename_i hl
      simp [hend, hl]
    · exact List.mem_append_left _ (hcovers l t ht)

/-- Words that declare no label twice, and none that was seen before, keep the
agreement of the tables. -/
theorem Reader.consistent_of_foldlM {words : List Text.Word} :
    ∀ {r r' : Reader} {seen : List Label}, words.foldlM Reader.step r = .ok r' →
      r.database.Consistent → Covers seen r.database → (seen ++ r.declares words).Nodup →
      r'.database.Consistent := by
  induction words with
  | nil =>
    intro r r' seen h hr _ _
    cases h
    exact hr
  | cons w words ih =>
    intro r r' seen h hr hcovers hnodup
    rw [List.foldlM_cons] at h
    cases hstep : r.step w with
    | error e => simp [hstep, bind, Except.bind] at h
    | ok next =>
      rw [hstep] at h
      simp only [Reader.declares, hstep] at hnodup
      rw [← List.append_assoc] at hnodup
      have hnew : ∀ l ∈ (r.ended? w).toList, l ∉ seen := by
        intro l hl hseen
        have hdisjoint := List.nodup_append'.mp (List.nodup_append'.mp hnodup).1
        exact hdisjoint.2.2 hseen hl
      obtain ⟨hnext, hcovers⟩ := Reader.consistent_step hstep hr hcovers hnew
      exact ih h hnext hcovers hnodup

/-- The end of a source changes nothing. -/
theorem Reader.database_finish {r : Reader} {line : Nat} {db : Database}
    (h : r.finish line = .ok db) : db = r.database := by
  unfold Reader.finish at h
  split at h
  · cases h
  · cases h
  · cases h
  · split at h
    · cases h
    · cases h
      rfl

/-- Where no label is declared twice the tables agree. -/
theorem DeclaredOnce.consistent {db : Database} (h : db.DeclaredOnce) : db.Consistent := by
  obtain ⟨provable, logic, source, hread, hnodup⟩ := h
  obtain ⟨reader, hfold, hfinish⟩ := read_eq_ok_iff.mp hread
  rw [Reader.database_finish hfinish]
  have hcovers : Covers [] (Reader.start provable logic).database := by
    intro l s hs
    simp [Reader.start, Table.empty, Table.get?] at hs
  exact Reader.consistent_of_foldlM hfold (consistent_start provable logic) hcovers
    (by simpa [declaredLabels] using hnodup)

/-- The label of a rule is not that of a floating hypothesis. -/
theorem Consistent.get?_floatings_of_mem {db : Database} (h : db.Consistent) {tc : Typecode}
    {r : Rule} (hr : r ∈ db.grammar.rulesOf tc) : db.floatings.get? r.label = none := by
  have hrule := (h.rule_stored hr).2
  cases hfloat : db.floatings.get? r.label with
  | none => rfl
  | some v =>
    have hstored := (h.floating_stored hfloat).2
    rw [hrule] at hstored
    simp at hstored

/-- Where the tables agree every label of the grammar stands for one thing. -/
theorem Consistent.distinct {db : Database} (h : db.Consistent) : db.grammar.Distinct where
  labels_nodup := h.labels_nodup
  rule_eq := by
    intro tc tc' r r' hr hr' hlabel
    have hstored := (h.rule_stored hr).2
    rw [hlabel, (h.rule_stored hr').2] at hstored
    cases r
    cases r'
    simp_all
  floating_eq := by
    intro s s' v v' hv hv' hlabel
    obtain ⟨hs, hstored⟩ := h.variable_floating hv
    obtain ⟨hs', hstored'⟩ := h.variable_floating hv'
    rw [hlabel, hstored'] at hstored
    cases hstored
    exact ⟨hs.symm.trans hs', rfl⟩
  label_ne := by
    intro s v tc r hv hr hlabel
    have hfloat := (h.floating_stored (h.variable_floating hv).2).2
    rw [hlabel, (h.rule_stored hr).2] at hfloat
    simp at hfloat

/-- The source of a small database: classes with sums, and their equations. -/
def sampleSource : List Char :=
  ("$c c w + = $. $v x y $. cx $f c x $. cy $f c y $. " ++
    "add $a c x + y $. eq $a w x = y $.").toList

/-- What the small source declares. -/
def sample : Database where
  provable := "|-"
  logic := "w"
  constants := ["c", "w", "+", "="]
  variableSymbols := ["x", "y"]
  statements := ⟨[("cx", ⟨"cx", .floating, ["c", "x"]⟩), ("cy", ⟨"cy", .floating, ["c", "y"]⟩),
    ("add", ⟨"add", .axiomatic, ["c", "x", "+", "y"]⟩),
    ("eq", ⟨"eq", .axiomatic, ["w", "x", "=", "y"]⟩)]⟩
  floatings := ⟨[("cx", ⟨"cx", "c", "x"⟩), ("cy", ⟨"cy", "c", "y"⟩)]⟩
  grammar :=
    { floatings := ⟨[("x", ⟨"cx", "c", "x"⟩), ("y", ⟨"cy", "c", "y"⟩)]⟩
      rules := ⟨[("c", [⟨"add", ["x", "+", "y"]⟩]), ("w", [⟨"eq", ["x", "=", "y"]⟩])]⟩ }
  typecodes := ["c", "w"]
  hypotheses := ⟨[("add", []), ("eq", [])]⟩

/-- The small source declares no label twice. -/
theorem declaredOnce_sample : sample.DeclaredOnce :=
  ⟨"|-", "w", sampleSource, by decide +kernel, by decide +kernel⟩

/-- The sum of the two variables. -/
def sampleSum : Formula := .node "add" "c" [.node "cx" "c" [], .node "cy" "c" []]

/-- The equation of the sum and the first variable. -/
def sampleEquation : Formula := .node "eq" "w" [sampleSum, .node "cx" "c" []]

/-- The sum is derived by the rule for sums. -/
theorem derives_sampleSum :
    Grammar.Derives sample.grammar sample.grammar.busyRule "c" sampleSum ["x", "+", "y"] := by
  have hx : Grammar.Derives sample.grammar sample.grammar.busyRule "c" (.node "cx" "c" []) ["x"] :=
    .leaf (v := ⟨"cx", "c", "x"⟩) rfl
  have hy : Grammar.Derives sample.grammar sample.grammar.busyRule "c" (.node "cy" "c" []) ["y"] :=
    .leaf (v := ⟨"cy", "c", "y"⟩) rfl
  exact .rule (r := ⟨"add", ["x", "+", "y"]⟩) (by decide) (by rfl)
    (.part rfl hx (.constant rfl (.part rfl hy .nil)))

/-- The equation is derived by the rule for equations. -/
theorem derives_sampleEquation :
    Grammar.Derives sample.grammar sample.grammar.busyRule "w" sampleEquation
      ["x", "+", "y", "=", "x"] := by
  have hx : Grammar.Derives sample.grammar sample.grammar.busyRule "c" (.node "cx" "c" []) ["x"] :=
    .leaf (v := ⟨"cx", "c", "x"⟩) rfl
  exact .rule (r := ⟨"eq", ["x", "=", "y"]⟩) (by decide) (by rfl)
    (.part rfl derives_sampleSum (.constant rfl (.part rfl hx .nil)))

end Database

end Typeset

import Typeset.Database.Read
import Typeset.Proofs.Text.Runs

/-!
# Outlines of databases

An outline is what a source declares, as a tree: lists of symbols, labelled
sentences, comments, and blocks with an outline of their own inside. It knows
nothing of a reader. From the tree one reads off the words that it is written
with, the statements in order, and for each of them the hypotheses that it
rests on: a hypothesis goes on to the end of the block that it stands in, blocks
inside included.
-/

namespace Typeset.Database

open Text

/-- A word is not empty, and no blank is in it. -/
def IsWord (s : String) : Prop := s.toList ≠ [] ∧ ∀ c ∈ s.toList, isBlank c = false

-- Only the characters of the word are looked at, not all characters there are.
instance : DecidablePred IsWord := fun s =>
  have : Decidable (∀ c ∈ s.toList, isBlank c = false) := List.decidableBAll _ s.toList
  inferInstanceAs (Decidable (s.toList ≠ [] ∧ ∀ c ∈ s.toList, isBlank c = false))

/-- A word of a source. -/
structure SourceWord where
  /-- The word. -/
  text : String
  /-- It is one. -/
  isWord : IsWord text

/-- A word that does not begin like a keyword: a symbol, a label or a word of a
proof. -/
structure PlainWord extends SourceWord where
  /-- The first character is no dollar. -/
  plain : text.toList.head? ≠ some '$'

/-- A word that may stand in a comment. -/
structure CommentWord extends SourceWord where
  /-- The word does not close the comment. -/
  ne_close : text ≠ "$)"

/-- What a labelled sentence says. The proof of a provable one is written down
but says nothing. -/
inductive Sentence where
  /-- Gives a variable its typecode. -/
  | floating (typecode variableSymbol : PlainWord)
  /-- Supposes something. -/
  | essential (typecode : PlainWord) (body : List PlainWord)
  /-- Asserts something without a proof. -/
  | axiomatic (typecode : PlainWord) (body : List PlainWord)
  /-- Asserts something with a proof. -/
  | provable (typecode : PlainWord) (body proof : List PlainWord)

/-- A declaration of a source. -/
inductive Declaration where
  /-- A comment. -/
  | comment (words : List CommentWord)
  /-- A list of symbols. -/
  | symbols (list : SymbolList) (symbols : List PlainWord)
  /-- A labelled sentence. -/
  | sentence (label : PlainWord) (sentence : Sentence)
  /-- A block. -/
  | block (inner : List Declaration)

/-- The words of a list, as texts. -/
def plainTexts (ws : List PlainWord) : List String := ws.map (·.text)

namespace Sentence

/-- The kind of a sentence. -/
def kind : Sentence → StatementKind
  | floating .. => .floating
  | essential .. => .essential
  | axiomatic .. => .axiomatic
  | provable .. => .provable

/-- The typecode of a sentence. -/
def typecode : Sentence → PlainWord
  | floating tc _ => tc
  | essential tc _ => tc
  | axiomatic tc _ => tc
  | provable tc _ _ => tc

/-- What stands after the typecode and before the proof. -/
def body : Sentence → List PlainWord
  | floating _ v => [v]
  | essential _ body => body
  | axiomatic _ body => body
  | provable _ body _ => body

/-- The words of the proof with the mark before it, if there is a proof. -/
def proofWords : Sentence → List String
  | provable _ _ proof => "$=" :: plainTexts proof
  | _ => []

/-- The math of a sentence. -/
def math (s : Sentence) : List Symbol := s.typecode.text :: plainTexts s.body

/-- The statement that a sentence with a label makes. -/
def statement (s : Sentence) (label : PlainWord) : Statement := ⟨label.text, s.kind, s.math⟩

end Sentence

mutual

/-- The words that a declaration is written with. -/
def Declaration.tokens : Declaration → List String
  | .comment words => "$(" :: (words.map (·.text) ++ ["$)"])
  | .symbols list symbols => list.keyword :: (plainTexts symbols ++ ["$."])
  | .sentence label s =>
    label.text :: s.kind.keyword :: (s.math ++ s.proofWords ++ ["$."])
  | .block inner => "$\x7b" :: (tokensAll inner ++ ["$\x7d"])

/-- The words that an outline is written with. -/
def tokensAll : List Declaration → List String
  | [] => []
  | d :: ds => d.tokens ++ tokensAll ds

end

mutual

/-- The statements of a declaration, in order. -/
def Declaration.statements : Declaration → List Statement
  | .sentence label s => [s.statement label]
  | .block inner => statementsAll inner
  | _ => []

/-- The statements of an outline, in order. -/
def statementsAll : List Declaration → List Statement
  | [] => []
  | d :: ds => d.statements ++ statementsAll ds

end

/-- What a declaration supposes for all that follows it in its block. -/
def Declaration.hypotheses : Declaration → List Statement
  | .sentence label (.essential tc body) => [Sentence.statement (.essential tc body) label]
  | _ => []

mutual

/-- The statements of a declaration with the hypotheses that each rests on: an
assertion on all in scope, others on none. -/
def Declaration.scoped (inScope : List Statement) :
    Declaration → List (Statement × List Statement)
  | .sentence label s => [(s.statement label, if s.kind.isAssertion then inScope else [])]
  | .block inner => scopedAll inScope inner
  | _ => []

/-- The statements of an outline with the hypotheses that each rests on. What a
declaration supposes is in scope of those after it; what is supposed inside a
block is not in scope behind the block. -/
def scopedAll (inScope : List Statement) :
    List Declaration → List (Statement × List Statement)
  | [] => []
  | d :: ds => d.scoped inScope ++ scopedAll (inScope ++ d.hypotheses) ds

end

/-- All that is supposed in an outline outside of its blocks. -/
def hypothesesAll (ds : List Declaration) : List Statement := ds.flatMap Declaration.hypotheses

/-- The typecode that a statement adds to the grammar: that of a floating
hypothesis or an axiom, unless it is the provable one. -/
def syntaxTypecode? (provable : Typecode) (s : Statement) : Option Typecode :=
  if s.kind = .floating ∨ s.kind = .axiomatic then s.typecode?.filter (· != provable) else none

/-- The rule that a statement adds to those of a typecode. -/
def syntaxRule? (provable tc : Typecode) (s : Statement) : Option Rule :=
  if s.kind = .axiomatic ∧ s.typecode? = some tc ∧ tc ≠ provable then some ⟨s.label, s.body⟩
  else none

/-- A text writes words: blanks stand before, between and behind them, and no
two of them touch. -/
inductive Writes : List String → List Char → Prop where
  /-- Blanks write no word. -/
  | nil {gap : List Char} (hgap : ∀ c ∈ gap, isBlank c = true) : Writes [] gap
  /-- Blanks, a word, and behind it a text that is empty or begins with a blank. -/
  | cons {gap rest : List Char} {word : String} {words : List String}
      (hgap : ∀ c ∈ gap, isBlank c = true) (hrest : Writes words rest)
      (hstop : StopsAt (!isBlank ·) rest) :
      Writes (word :: words) (gap ++ (word.toList ++ rest))

/-- Words that are written in a text are those that the text is cut into. -/
theorem map_words_of_writes {words : List String} {source : List Char}
    (hwords : ∀ w ∈ words, IsWord w) (h : Writes words source) :
    (Text.words source).map (fun w => String.ofList w.text) = words := by
  induction h with
  | nil hgap =>
    rename_i gap
    have hnil : gap.dropWhile isBlank = [] := by
      rw [← List.append_nil gap]
      exact dropWhile_append hgap (stopsAt_nil _)
    rw [Text.words.eq_def]
    split
    · rfl
    · rename_i hcons
      rw [hnil] at hcons
      cases hcons
  | cons hgap hrest hstop ih =>
    rename_i gap rest word words
    obtain ⟨⟨hne, hsolid⟩, hwords⟩ := List.forall_mem_cons.mp hwords
    obtain ⟨c, cs, hc⟩ := List.exists_cons_of_ne_nil hne
    have hstopGap : StopsAt isBlank (word.toList ++ rest) := by
      rw [hc, List.cons_append, stopsAt_cons]
      exact hsolid c (by rw [hc]; exact List.mem_cons_self)
    have hcs : ∀ d ∈ cs, (!isBlank d) = true := by
      intro d hd
      rw [hsolid d (by rw [hc]; exact List.mem_cons_of_mem _ hd)]
      rfl
    have hdrop : (gap ++ (word.toList ++ rest)).dropWhile isBlank = c :: (cs ++ rest) := by
      rw [dropWhile_append hgap hstopGap, hc, List.cons_append]
    rw [Text.words.eq_def]
    split
    · rename_i hnil
      rw [hdrop] at hnil
      cases hnil
    · rename_i d ds hcons
      rw [hdrop] at hcons
      cases hcons
      rw [List.map_cons, takeWhile_append hcs hstop, dropWhile_append hcs hstop, ih hwords, ← hc,
        String.ofList_toList]

/-- Words with a space before each of them are written. -/
theorem writes_spaced (words : List String) :
    Writes words (words.flatMap fun w => ' ' :: w.toList) := by
  induction words with
  | nil => exact .nil (by simp)
  | cons w words ih =>
    have hstop : StopsAt (!isBlank ·) (words.flatMap fun w => ' ' :: w.toList) := by
      cases words with
      | nil => exact stopsAt_nil _
      | cons w words => exact stopsAt_cons.mpr (by decide)
    exact @Writes.cons [' '] _ w words (List.forall_mem_singleton.mpr (by decide)) ih hstop

/-- The words of a list are words. -/
theorem isWord_of_mem_plainTexts {ws : List PlainWord} {w : String} (h : w ∈ plainTexts ws) :
    IsWord w := by
  obtain ⟨v, -, rfl⟩ := List.mem_map.mp h
  exact v.isWord

/-- The words of a sentence are words. -/
theorem Sentence.isWord_of_mem {s : Sentence} {w : String} (h : w ∈ s.math ++ s.proofWords) :
    IsWord w := by
  rw [List.mem_append, Sentence.math, List.mem_cons] at h
  rcases h with (rfl | h) | h
  · exact s.typecode.isWord
  · exact isWord_of_mem_plainTexts h
  · cases s with
    | provable tc body proof =>
      rcases List.mem_cons.mp h with rfl | h
      · decide
      · exact isWord_of_mem_plainTexts h
    | _ => cases h

mutual

/-- A declaration is written with words. -/
theorem Declaration.isWord_of_mem_tokens {w : String} :
    ∀ {d : Declaration}, w ∈ d.tokens → IsWord w
  | .comment words, h => by
    simp only [Declaration.tokens, List.mem_cons, List.mem_append, List.mem_map,
      List.not_mem_nil, or_false] at h
    rcases h with rfl | ⟨v, -, rfl⟩ | rfl
    · decide
    · exact v.isWord
    · decide
  | .symbols list symbols, h => by
    simp only [Declaration.tokens, List.mem_cons, List.mem_append, List.not_mem_nil,
      or_false] at h
    rcases h with rfl | h | rfl
    · cases list <;> decide
    · exact isWord_of_mem_plainTexts h
    · decide
  | .sentence label s, h => by
    rw [Declaration.tokens, List.mem_cons, List.mem_cons, List.mem_append,
      List.mem_singleton] at h
    rcases h with rfl | rfl | h | rfl
    · exact label.isWord
    · generalize s.kind = k
      cases k <;> decide
    · exact s.isWord_of_mem h
    · decide
  | .block inner, h => by
    rw [Declaration.tokens, List.mem_cons, List.mem_append, List.mem_singleton] at h
    rcases h with rfl | h | rfl
    · decide
    · exact isWord_of_mem_tokensAll h
    · decide

/-- An outline is written with words. -/
theorem isWord_of_mem_tokensAll {w : String} :
    ∀ {ds : List Declaration}, w ∈ tokensAll ds → IsWord w
  | [], h => by cases h
  | d :: ds, h => by
    rw [tokensAll, List.mem_append] at h
    rcases h with h | h
    · exact Declaration.isWord_of_mem_tokens h
    · exact isWord_of_mem_tokensAll h

end

mutual

/-- The statements of a declaration are those that have their hypotheses. -/
theorem Declaration.map_fst_scoped (inScope : List Statement) :
    ∀ d : Declaration, (d.scoped inScope).map (·.1) = d.statements
  | .comment _ => rfl
  | .symbols _ _ => rfl
  | .sentence _ _ => rfl
  | .block inner => map_fst_scopedAll inScope inner

/-- The statements of an outline are those that have their hypotheses. -/
theorem map_fst_scopedAll (inScope : List Statement) :
    ∀ ds : List Declaration, (scopedAll inScope ds).map (·.1) = statementsAll ds
  | [] => rfl
  | d :: ds => by
    rw [scopedAll, statementsAll, List.map_append, d.map_fst_scoped, map_fst_scopedAll]

end

/-- What a declaration supposes is one of its statements. -/
theorem Declaration.mem_statements_of_mem_hypotheses {d : Declaration} {s : Statement}
    (h : s ∈ d.hypotheses) : s ∈ d.statements := by
  cases d with
  | sentence label sentence =>
    cases sentence with
    | essential tc body => exact h
    | _ => cases h
  | _ => cases h

mutual

/-- In a declaration only assertions rest on hypotheses. -/
theorem Declaration.eq_nil_of_mem_scoped {p : Statement × List Statement}
    (hkind : p.1.kind.isAssertion = false) :
    ∀ {d : Declaration} {inScope : List Statement}, p ∈ d.scoped inScope → p.2 = []
  | .comment _, _, hp => by cases hp
  | .symbols _ _, _, hp => by cases hp
  | .sentence _ _, _, hp => by
    obtain rfl := List.mem_singleton.mp hp
    exact if_neg (Bool.eq_false_iff.mp hkind)
  | .block _, _, hp => eq_nil_of_mem_scopedAll hkind hp

/-- In an outline only assertions rest on hypotheses. -/
theorem eq_nil_of_mem_scopedAll {p : Statement × List Statement}
    (hkind : p.1.kind.isAssertion = false) :
    ∀ {ds : List Declaration} {inScope : List Statement}, p ∈ scopedAll inScope ds → p.2 = []
  | [], _, hp => by cases hp
  | d :: ds, _, hp => by
    rw [scopedAll, List.mem_append] at hp
    rcases hp with hp | hp
    · exact Declaration.eq_nil_of_mem_scoped hkind hp
    · exact eq_nil_of_mem_scopedAll hkind hp

end

mutual

/-- A hypothesis that a statement of a declaration rests on was in scope before
or is one of the declaration's statements. -/
theorem Declaration.mem_of_mem_scoped {p : Statement × List Statement} {h : Statement} :
    ∀ {d : Declaration} {inScope : List Statement}, p ∈ d.scoped inScope → h ∈ p.2 →
      h ∈ inScope ∨ h ∈ d.statements
  | .comment _, _, hp, _ => by cases hp
  | .symbols _ _, _, hp, _ => by cases hp
  | .sentence _ _, _, hp, hh => by
    obtain rfl := List.mem_singleton.mp hp
    dsimp only at hh
    split at hh
    · exact .inl hh
    · cases hh
  | .block _, _, hp, hh => mem_of_mem_scopedAll hp hh

/-- A hypothesis that a statement of an outline rests on was in scope before or
is one of the outline's statements. -/
theorem mem_of_mem_scopedAll {p : Statement × List Statement} {h : Statement} :
    ∀ {ds : List Declaration} {inScope : List Statement}, p ∈ scopedAll inScope ds → h ∈ p.2 →
      h ∈ inScope ∨ h ∈ statementsAll ds
  | [], _, hp, _ => by cases hp
  | d :: ds, _, hp, hh => by
    rw [scopedAll, List.mem_append] at hp
    rw [statementsAll, List.mem_append]
    rcases hp with hp | hp
    · rcases Declaration.mem_of_mem_scoped hp hh with hh | hh
      · exact .inl hh
      · exact .inr (.inl hh)
    · rcases mem_of_mem_scopedAll hp hh with hh | hh
      · rcases List.mem_append.mp hh with hh | hh
        · exact .inl hh
        · exact .inr (.inl (Declaration.mem_statements_of_mem_hypotheses hh))
      · exact .inr (.inr hh)

end

end Typeset.Database

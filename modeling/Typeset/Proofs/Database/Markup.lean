import Typeset.Database.Markup
import Typeset.Proofs.Directive.Layout
import Typeset.Proofs.Text.Quoted

/-!
# Definitions of markup as they are written

A definition is written with a symbol and one or more strings, all of them quoted with
either quote. Wherever the reader looks behind a quoted string there is a blank, a plus
sign or a semicolon and no quote, so every string ends where it was closed. What a string
holds is never looked at from outside: neither the words of a definition in it nor quotes
or semicolons make a difference.
-/

namespace Typeset.Database

open Text

/-- Blanks that may be missing. -/
structure Spaces where
  /-- The characters. -/
  chars : List Char
  /-- All of them are blank. -/
  all : ∀ c ∈ chars, isBlank c = true

/-- A string with the quote that it is written between. -/
structure QuotedText where
  /-- The quote. -/
  mark : Char
  /-- It is one of the two. -/
  isQuote_mark : isQuote mark = true
  /-- The string, without the mark that ends a comment. -/
  text : Unmarked ['$', ')']

/-- The string between its quotes. -/
def QuotedText.chars (t : QuotedText) : List Char := quote t.mark t.text.chars

/-- A plus sign with the blanks around it. -/
structure Joint where
  /-- The blanks before. -/
  before : Spaces
  /-- The blanks behind. -/
  behind : Spaces

/-- The characters of a joint. -/
def Joint.chars (j : Joint) : List Char := j.before.chars ++ '+' :: j.behind.chars

/-- Further strings of a value, each behind a joint. -/
def joinedChars (more : List (Joint × QuotedText)) : List Char :=
  more.flatMap fun p => p.1.chars ++ p.2.chars

/-- A definition of markup as it is written. -/
structure WrittenDefinition where
  /-- The blanks behind the word that begins it. -/
  afterKeyword : Stretch isBlank
  /-- The symbol. -/
  symbol : QuotedText
  /-- The blanks behind the symbol. -/
  afterSymbol : Stretch isBlank
  /-- The blanks before the value. -/
  beforeValue : Stretch isBlank
  /-- The first string of the value. -/
  first : QuotedText
  /-- The other strings. -/
  more : List (Joint × QuotedText)
  /-- The blanks before the semicolon. -/
  beforeEnd : Spaces

namespace WrittenDefinition

/-- The text of the value. -/
def valueChars (d : WrittenDefinition) : List Char :=
  d.first.chars ++ (joinedChars d.more ++ d.beforeEnd.chars)

/-- The characters behind the symbol. -/
def clauseChars (d : WrittenDefinition) : List Char :=
  d.afterSymbol.chars ++ ("as".toList ++ (d.beforeValue.chars ++ (d.valueChars ++ [';'])))

/-- The characters of a definition. -/
def chars (d : WrittenDefinition) : List Char :=
  "althtmldef".toList ++ (d.afterKeyword.chars ++ (d.symbol.chars ++ d.clauseChars))

/-- The strings of the value. -/
def values (d : WrittenDefinition) : List (List Char) :=
  d.first.text.chars :: d.more.map fun p => p.2.text.chars

/-- What the definition says: the markup of the symbol is the strings joined. -/
def definition (d : WrittenDefinition) : SymbolDefinition :=
  ⟨String.ofList d.symbol.text.chars, String.ofList d.values.flatten⟩

end WrittenDefinition

/-- A blank is no quote. -/
theorem isQuote_of_isBlank {c : Char} (h : isBlank c = true) : isQuote c = false := by
  by_contra hquote
  simp only [isQuote, Bool.not_eq_false, Bool.or_eq_true, beq_iff_eq] at hquote
  rcases hquote with rfl | rfl <;> cases h

/-- A quote is not blank. -/
theorem isBlank_of_isQuote {q : Char} (hq : isQuote q = true) : isBlank q = false := by
  by_contra hblank
  rw [isQuote_of_isBlank (by simpa using hblank)] at hq
  cases hq

/-- A character that is no quote is another one than a quote. -/
theorem beq_of_isQuote {q : Char} (hq : isQuote q = true) {c : Char} (hc : isQuote c = false) :
    (c == q) = false := by
  rw [beq_eq_false_iff_ne]
  rintro rfl
  rw [hc] at hq
  cases hq

variable {q : Char} {rest : List Char}

@[simp] theorem joinedChars_nil : joinedChars [] = [] := rfl

/-- Further strings begin with a joint. -/
theorem joinedChars_cons_append (p : Joint × QuotedText) (more : List (Joint × QuotedText))
    (rest : List Char) : joinedChars (p :: more) ++ rest =
      p.1.chars ++ (p.2.chars ++ (joinedChars more ++ rest)) := by
  simp only [joinedChars, List.flatMap_cons, List.append_assoc]

/-- A joint begins with blanks, if with any, and goes on with a plus sign. -/
theorem Joint.chars_append (j : Joint) (rest : List Char) :
    j.chars ++ rest = j.before.chars ++ '+' :: (j.behind.chars ++ rest) := by
  rw [chars, List.append_assoc, List.cons_append]

/-- Where no quote stands there is none with blanks before it. -/
theorem Spaces.stopsAt_quote (g : Spaces) (hq : isQuote q = true)
    (hrest : StopsAt (· == q) rest) : StopsAt (· == q) (g.chars ++ rest) := by
  cases hg : g.chars with
  | nil => exact hrest
  | cons c cs =>
    have hc : isBlank c = true := g.all c (by rw [hg]; exact List.mem_cons_self)
    rw [List.cons_append, stopsAt_cons]
    exact beq_of_isQuote hq (isQuote_of_isBlank hc)

/-- Behind a string of a value there is no quote. -/
theorem stopsAt_joinedChars (hq : isQuote q = true) (more : List (Joint × QuotedText))
    (hrest : StopsAt (· == q) rest) : StopsAt (· == q) (joinedChars more ++ rest) := by
  cases more with
  | nil => exact hrest
  | cons p more =>
    rw [joinedChars_cons_append, Joint.chars_append]
    exact p.1.before.stopsAt_quote hq (stopsAt_cons.mpr (beq_of_isQuote hq (by decide)))

/-- A quoted string begins with its quote. -/
theorem QuotedText.exists_cons (t : QuotedText) (rest : List Char) :
    ∃ tail, t.chars ++ rest = t.mark :: tail :=
  ⟨_, quote_append t.mark t.text.chars rest⟩

/-- A quoted string begins with no blank. -/
theorem QuotedText.stopsAt_blank (t : QuotedText) (rest : List Char) :
    StopsAt isBlank (t.chars ++ rest) := by
  obtain ⟨tail, htail⟩ := t.exists_cons rest
  rw [htail, stopsAt_cons]
  exact isBlank_of_isQuote t.isQuote_mark

/-- Blanks are dropped up to what is not blank. -/
theorem Spaces.trimStart_append (g : Spaces) (hrest : StopsAt isBlank rest) :
    trimStart (g.chars ++ rest) = rest := dropWhile_append g.all hrest

/-- A joint is dropped as a whole. -/
theorem skipJoint_chars (j : Joint) (hrest : StopsAt isBlank rest) :
    skipJoint (j.chars ++ rest) = rest := by
  have hplus : StopsAt isBlank ('+' :: (j.behind.chars ++ rest)) := stopsAt_cons.mpr (by decide)
  have htrim : trimStart (j.chars ++ rest) = '+' :: (j.behind.chars ++ rest) := by
    rw [j.chars_append, j.before.trimStart_append hplus]
  unfold skipJoint
  rw [htrim]
  exact j.behind.trimStart_append hrest

/-- Where no plus sign stands only blanks are dropped. -/
theorem skipJoint_spaces (g : Spaces) (hblank : StopsAt isBlank rest)
    (hplus : StopsAt (· == '+') rest) : skipJoint (g.chars ++ rest) = rest := by
  unfold skipJoint
  rw [g.trimStart_append hblank]
  split
  · rw [stopsAt_cons] at hplus
    cases hplus
  · rfl

/-- What stands behind a value, read from behind one of its strings. -/
def behindString? (s : List Char) : Option (List Char) :=
  match skipJoint s with
  | ';' :: rest => some rest
  | _ => skipValue? (skipJoint s)

/-- The closings of a string are tried in order. -/
theorem skipValue?_cons (hq : isQuote q = true) (s : List Char) :
    skipValue? (q :: s) = (closings q s).findSome? fun closing => behindString? closing.rest := by
  rw [skipValue?, if_pos hq]
  refine (List.findSome?_subtype fun _ _ => rfl).trans ?_
  rw [List.unattach_attach]
  rfl

/-- A quoted string ends where it was closed. -/
theorem skipValue?_chars (t : QuotedText) {after : List Char}
    (hafter : StopsAt (· == t.mark) after) (hrest : behindString? after = some rest) :
    skipValue? (t.chars ++ after) = some rest := by
  obtain ⟨closings, hclosings⟩ := exists_closings hafter t.text.chars
  rw [QuotedText.chars, quote_append, skipValue?_cons t.isQuote_mark, hclosings,
    List.findSome?_cons, hrest]

/-- The strings of a value are read up to the semicolon behind the last one. -/
theorem skipValue?_joined (t : QuotedText) (more : List (Joint × QuotedText)) (g : Spaces)
    (rest : List Char) :
    skipValue? (t.chars ++ (joinedChars more ++ (g.chars ++ ';' :: rest))) = some rest := by
  have hend : ∀ q, isQuote q = true → StopsAt (· == q) (g.chars ++ ';' :: rest) := fun q hq =>
    g.stopsAt_quote hq (stopsAt_cons.mpr (beq_of_isQuote hq (by decide)))
  induction more generalizing t with
  | nil =>
    have hbehind : behindString? (g.chars ++ ';' :: rest) = some rest := by
      unfold behindString?
      rw [skipJoint_spaces g (stopsAt_cons.mpr (by decide)) (stopsAt_cons.mpr (by decide))]
      rfl
    exact skipValue?_chars t (hend _ t.isQuote_mark) hbehind
  | cons p more ih =>
    obtain ⟨j, t'⟩ := p
    obtain ⟨tail, htail⟩ := t'.exists_cons (joinedChars more ++ (g.chars ++ ';' :: rest))
    refine skipValue?_chars t
      (stopsAt_joinedChars t.isQuote_mark _ (hend _ t.isQuote_mark)) ?_
    unfold behindString?
    rw [joinedChars_cons_append, skipJoint_chars j (t'.stopsAt_blank _), ih t', htail]
    split
    · rename_i heq
      have hmark := t'.isQuote_mark
      rw [(List.cons.inj heq).1] at hmark
      cases hmark
    · rfl

/-- The strings of a value are joined. -/
theorem joinQuoted_joined (t : QuotedText) (more : List (Joint × QuotedText)) (g : Spaces) :
    joinQuoted (t.chars ++ (joinedChars more ++ g.chars)) =
      t.text.chars ++ (more.map fun p => p.2.text.chars).flatten := by
  have hend : ∀ q, isQuote q = true → StopsAt (· == q) g.chars := by
    intro q hq
    have hstop := g.stopsAt_quote hq (stopsAt_nil (· == q))
    rwa [List.append_nil] at hstop
  induction more generalizing t with
  | nil =>
    have hspaces := joinQuoted_append (fun c hc => isQuote_of_isBlank (g.all c hc)) []
    rw [List.append_nil] at hspaces
    rw [joinedChars_nil, List.nil_append, QuotedText.chars,
      joinQuoted_quote t.isQuote_mark (hend _ t.isQuote_mark), hspaces, joinQuoted]
    rfl
  | cons p more ih =>
    obtain ⟨j, t'⟩ := p
    have hjoint : ∀ c ∈ j.chars, isQuote c = false := by
      intro c hc
      rw [Joint.chars, List.mem_append, List.mem_cons] at hc
      rcases hc with hc | rfl | hc
      · exact isQuote_of_isBlank (j.before.all c hc)
      · decide
      · exact isQuote_of_isBlank (j.behind.all c hc)
    rw [QuotedText.chars, joinQuoted_quote t.isQuote_mark
      (stopsAt_joinedChars t.isQuote_mark _ (hend _ t.isQuote_mark)), joinedChars_cons_append,
      joinQuoted_append hjoint, ih t', List.map_cons, List.flatten_cons]

namespace WrittenDefinition

variable (d : WrittenDefinition)

/-- The value of a definition is read as it was written. -/
theorem value?_valueChars (rest : List Char) :
    value? (d.valueChars ++ ';' :: rest) = some (d.valueChars, rest) := by
  have hskip : skipValue? (d.valueChars ++ ';' :: rest) = some rest := by
    rw [valueChars, List.append_assoc, List.append_assoc]
    exact skipValue?_joined d.first d.more d.beforeEnd rest
  have hlength : (d.valueChars ++ ';' :: rest).length - rest.length - 1 = d.valueChars.length := by
    rw [List.length_append, List.length_cons]
    omega
  rw [value?, hskip, Option.map_some, hlength, List.take_left' rfl]

/-- Blanks of which there is one at least are dropped up to what is not blank. -/
theorem skipBlanks?_append (g : Stretch isBlank) (hrest : StopsAt isBlank rest) :
    skipBlanks? (g.chars ++ rest) = some rest := by
  have hne : ¬g.chars.isEmpty = true := by
    rw [List.isEmpty_iff]
    exact g.ne_nil
  rw [skipBlanks?, takeWhile_append g.all hrest, if_neg hne, trimStart,
    dropWhile_append g.all hrest]

/-- What stands behind the symbol of a definition, before a further text. -/
theorem clauseChars_append (rest : List Char) : d.clauseChars ++ rest = d.afterSymbol.chars ++
    ("as".toList ++ (d.beforeValue.chars ++ (d.valueChars ++ ';' :: rest))) := by
  simp only [clauseChars, List.append_assoc, List.singleton_append]

/-- A definition before a further text. -/
theorem chars_append (rest : List Char) : d.chars ++ rest = "althtmldef".toList ++
    (d.afterKeyword.chars ++ (d.symbol.chars ++ (d.clauseChars ++ rest))) := by
  unfold chars
  -- The word is made a variable, or each rewrite would take it apart.
  generalize "althtmldef".toList = word
  simp only [List.append_assoc]

/-- What stands behind the symbol of a definition is read as it was written. -/
theorem valueClause?_clauseChars (rest : List Char) :
    valueClause? (d.clauseChars ++ rest) = some (d.valueChars, rest) := by
  have hvalue : StopsAt isBlank (d.valueChars ++ ';' :: rest) := by
    rw [valueChars, List.append_assoc]
    exact d.first.stopsAt_blank _
  have has : StopsAt isBlank ("as".toList ++
      (d.beforeValue.chars ++ (d.valueChars ++ ';' :: rest))) := stopsAt_cons.mpr (by decide)
  unfold valueClause?
  rw [clauseChars_append, skipBlanks?_append d.afterSymbol has, Option.bind_eq_bind,
    Option.bind_some, stripStart?_eq_some_iff.mpr rfl, Option.bind_some,
    skipBlanks?_append d.beforeValue hvalue, Option.bind_some, value?_valueChars]

/-- A definition is read as it was written. -/
theorem definition?_chars (rest : List Char) :
    definition? (d.chars ++ rest) = some (d.definition, rest) := by
  have hsymbol : StopsAt isBlank (d.symbol.chars ++ (d.clauseChars ++ rest)) :=
    d.symbol.stopsAt_blank _
  have hclause : StopsAt (· == d.symbol.mark) (d.clauseChars ++ rest) := by
    rw [clauseChars, List.append_assoc]
    exact d.afterSymbol.stopsAt
      (fun c hc => beq_of_isQuote d.symbol.isQuote_mark (isQuote_of_isBlank hc)) _
  obtain ⟨closings, hclosings⟩ := exists_closings hclause d.symbol.text.chars
  have hmarkup : joinQuoted d.valueChars = d.values.flatten :=
    joinQuoted_joined d.first d.more d.beforeEnd
  unfold definition?
  rw [chars_append, stripStart?_eq_some_iff.mpr rfl, Option.bind_eq_bind, Option.bind_some,
    skipBlanks?_append d.afterKeyword hsymbol, Option.bind_some, QuotedText.chars, quote_append]
  dsimp only
  rw [if_pos d.symbol.isQuote_mark, hclosings, List.findSome?_cons]
  dsimp only
  rw [valueClause?_clauseChars, Option.map_some, undouble_body, hmarkup]
  rfl

end WrittenDefinition

/-- Blanks are no other characters. -/
theorem notMem_of_isBlank {g : List Char} (hg : ∀ c ∈ g, isBlank c = true) {c : Char}
    (hc : isBlank c = false) : c ∉ g := by
  intro hmem
  rw [hg c hmem] at hc
  cases hc

/-- Blanks bring no end of a comment to the text behind them. -/
theorem not_isInfix_blank_append {g : List Char} (hg : ∀ c ∈ g, isBlank c = true)
    (hrest : ¬['$', ')'] <:+: rest) : ¬['$', ')'] <:+: g ++ rest :=
  not_isInfix_append_of_notMem (notMem_of_isBlank hg (by decide)) hrest

/-- A string brings no end of a comment to the text behind it. -/
theorem QuotedText.not_isInfix_append (t : QuotedText) (hrest : ¬['$', ')'] <:+: rest) :
    ¬['$', ')'] <:+: t.chars ++ rest := by
  have hne : ∀ c, isQuote c = false → c ≠ t.mark := by
    rintro c hc rfl
    rw [t.isQuote_mark] at hc
    cases hc
  exact not_isInfix_quote_append (hne '$' (by decide)) (hne ')' (by decide)) t.text.free hrest

/-- The strings of a value bring no end of a comment to the text behind them. -/
theorem not_isInfix_joinedChars_append (more : List (Joint × QuotedText))
    (hrest : ¬['$', ')'] <:+: rest) : ¬['$', ')'] <:+: joinedChars more ++ rest := by
  induction more with
  | nil => exact hrest
  | cons p more ih =>
    have hbehind := not_isInfix_blank_append p.1.behind.all (p.2.not_isInfix_append ih)
    rw [joinedChars_cons_append, Joint.chars_append]
    exact not_isInfix_blank_append p.1.before.all (not_isInfix_cons.mpr ⟨by simp, hbehind⟩)

namespace WrittenDefinition

variable (d : WrittenDefinition)

/-- A definition brings no end of a comment to the text behind it. -/
theorem not_isInfix_append (hrest : ¬['$', ')'] <:+: rest) : ¬['$', ')'] <:+: d.chars ++ rest := by
  have hend : ¬['$', ')'] <:+: ';' :: rest := not_isInfix_cons.mpr ⟨by simp, hrest⟩
  have hvalue : ¬['$', ')'] <:+: d.valueChars ++ ';' :: rest := by
    rw [valueChars, List.append_assoc, List.append_assoc]
    exact d.first.not_isInfix_append
      (not_isInfix_joinedChars_append d.more (not_isInfix_blank_append d.beforeEnd.all hend))
  have hclause : ¬['$', ')'] <:+: d.clauseChars ++ rest := by
    rw [clauseChars_append]
    exact not_isInfix_blank_append d.afterSymbol.all (not_isInfix_append_of_notMem (by decide)
      (not_isInfix_blank_append d.beforeValue.all hvalue))
  rw [chars_append]
  exact not_isInfix_append_of_notMem (by decide) (not_isInfix_blank_append d.afterKeyword.all
    (d.symbol.not_isInfix_append hclause))

end WrittenDefinition

/-- As many characters are passed over as are told. -/
theorem definitionsFrom_length (front rest : List Char) :
    definitionsFrom front.length (front ++ rest) = definitionsFrom 0 rest := by
  induction front with
  | nil => rfl
  | cons c front ih => exact ih

/-- A definition is read where its first letter stands and nowhere else. -/
theorem definitionsFrom_append_of_notMem {s : List Char} (hs : 'a' ∉ s) (rest : List Char) :
    definitionsFrom 0 (s ++ rest) = definitionsFrom 0 rest := by
  induction s with
  | nil => rfl
  | cons c s ih =>
    rw [List.mem_cons, not_or] at hs
    have hnone : definition? (c :: (s ++ rest)) = none := by
      have hstrip : stripStart? "althtmldef".toList (c :: (s ++ rest)) = none := by
        rw [Option.eq_none_iff_forall_ne_some]
        intro tail htail
        exact hs.1 (List.cons.inj (stripStart?_eq_some_iff.mp htail)).1.symm
      unfold definition?
      rw [hstrip]
      rfl
    rw [List.cons_append, definitionsFrom, hnone]
    exact ih hs.2

/-- A definition is read, and then what stands behind it. -/
theorem definitionsFrom_chars (d : WrittenDefinition) (rest : List Char) :
    definitionsFrom 0 (d.chars ++ rest) = d.definition :: definitionsFrom 0 rest := by
  have hread := d.definition?_chars rest
  obtain ⟨tail, htail⟩ : ∃ tail, d.chars = 'a' :: tail := ⟨_, rfl⟩
  have hlength : (tail ++ rest).length - rest.length = tail.length := by
    rw [List.length_append, Nat.add_sub_cancel]
  rw [htail, List.cons_append] at hread ⊢
  rw [definitionsFrom, hread]
  dsimp only
  rw [hlength, definitionsFrom_length]

/-- The characters of definitions, each with blanks before it. -/
def writtenChars (written : List (Stretch isBlank × WrittenDefinition)) : List Char :=
  written.flatMap fun p => p.1.chars ++ p.2.chars

/-- Definitions begin with blanks. -/
theorem writtenChars_cons_append (p : Stretch isBlank × WrittenDefinition)
    (written : List (Stretch isBlank × WrittenDefinition)) (rest : List Char) :
    writtenChars (p :: written) ++ rest =
      p.1.chars ++ (p.2.chars ++ (writtenChars written ++ rest)) := by
  simp only [writtenChars, List.flatMap_cons, List.append_assoc]

/-- Definitions are read one after the other. -/
theorem definitionsFrom_writtenChars (written : List (Stretch isBlank × WrittenDefinition))
    {s : List Char} (hs : 'a' ∉ s) :
    definitionsFrom 0 (writtenChars written ++ s) = written.map fun p => p.2.definition := by
  induction written with
  | nil =>
    have hnone := definitionsFrom_append_of_notMem hs []
    rwa [List.append_nil] at hnone
  | cons p written ih =>
    rw [writtenChars_cons_append,
      definitionsFrom_append_of_notMem (notMem_of_isBlank p.1.all (by decide)),
      definitionsFrom_chars, ih, List.map_cons]

/-- Definitions bring no end of a comment to the text behind them. -/
theorem not_isInfix_writtenChars_append (written : List (Stretch isBlank × WrittenDefinition))
    (hrest : ¬['$', ')'] <:+: rest) : ¬['$', ')'] <:+: writtenChars written ++ rest := by
  induction written with
  | nil => exact hrest
  | cons p written ih =>
    rw [writtenChars_cons_append]
    exact not_isInfix_blank_append p.1.all (p.2.not_isInfix_append ih)

/-- A comment that defines markup, as it is written: a mark of its own and definitions,
with blanks between them. -/
structure MarkupComment where
  /-- The blanks behind the mark that opens the comment. -/
  before : Stretch isBlank
  /-- The definitions, each with blanks before it. -/
  written : List (Stretch isBlank × WrittenDefinition)
  /-- The blanks before the mark that closes the comment. -/
  after : Stretch isBlank

namespace MarkupComment

variable (m : MarkupComment)

/-- The text between the marks of the comment. -/
def inside : List Char :=
  m.before.chars ++ ('$' :: 't' :: (writtenChars m.written ++ m.after.chars))

/-- The comment with its marks. -/
def chars : List Char := "$(".toList ++ (m.inside ++ "$)".toList)

/-- What the definitions say. -/
def definitions : List SymbolDefinition := m.written.map fun p => p.2.definition

/-- The definitions of a comment are read as they were written. -/
theorem definitionsOfComment_inside : definitionsOfComment m.inside = m.definitions := by
  have hletter : ∀ g : Stretch isBlank, 'a' ∉ g.chars :=
    fun g => notMem_of_isBlank g.all (by decide)
  have htrim : trimStart m.inside = '$' :: 't' :: (writtenChars m.written ++ m.after.chars) :=
    dropWhile_append m.before.all (stopsAt_cons.mpr (by decide))
  have hmark := definitionsFrom_append_of_notMem (s := ['$', 't']) (by decide)
    (writtenChars m.written ++ m.after.chars)
  unfold definitionsOfComment
  rw [htrim]
  change definitionsFrom 0 m.inside = _
  rw [inside, definitionsFrom_append_of_notMem (hletter m.before)]
  exact hmark.trans (definitionsFrom_writtenChars m.written (hletter m.after))

/-- The mark that closes a comment is nowhere between its marks. -/
theorem not_isInfix_inside : ¬['$', ')'] <:+: m.inside := by
  have hafter : ¬['$', ')'] <:+: m.after.chars ++ [] :=
    not_isInfix_blank_append m.after.all (by simp)
  rw [List.append_nil] at hafter
  have hwritten := not_isInfix_writtenChars_append m.written hafter
  exact not_isInfix_blank_append m.before.all
    (not_isInfix_cons.mpr ⟨by simp, not_isInfix_cons.mpr ⟨by simp, hwritten⟩⟩)

end MarkupComment

end Typeset.Database

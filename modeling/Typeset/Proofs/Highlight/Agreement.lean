import Typeset.Proofs.Directive.Exactness
import Typeset.Proofs.Highlight.Rules

/-!
# Tokens follow directives

The highlighter and the reader of definition files never meet: one keeps a
stack of modes and takes the next token by the first rule that fits, the other
searches for the marks. On a file that can be read they agree all the same. Each
item of the layout is shown as tokens of its own, from the outermost mode to
the outermost mode, and they say what the directive of the item says.
-/

namespace Typeset.Highlight

open Text Layout

/-- The tokens that show what a directive says. -/
inductive Shows : Content → List Token → Prop where
  /-- A run of blanks is one token. -/
  | gap (s : List Char) : Shows .blank [⟨.blank, s⟩]
  /-- A comment is one token. -/
  | comment (s : List Char) : Shows .blank [⟨.comment, s⟩]
  /-- A scheme is its keyword, blanks and names, a mark, pieces of the template
  and placeholders, and a mark. The names are the symbols. -/
  | scheme {isIdentifier : Bool} {typecode : Symbol} {symbols : List Symbol} {template : String}
      {math body : List Token} (hmath : ∀ t ∈ math, t.kind = .blank ∨ t.kind = .name)
      (hnames : (math.filter (·.kind == .name)).map (·.text) =
        (typecode :: symbols).map String.toList)
      (hbody : ∀ t ∈ body, t.kind = .template ∨ t.kind = .variableName)
      (htemplate : body.flatMap (·.text) = template.toList) :
      Shows (.scheme isIdentifier typecode symbols template)
        (⟨.keyword, ['$', schemeLetter isIdentifier]⟩ :: (math ++
          ⟨.punctuation, ['$', ':']⟩ :: (body ++ [⟨.punctuation, ['$', '.']⟩])))
  /-- A text is its keyword, pieces of the text, and a mark. -/
  | text {role : TextRole} {text : String} {body : List Token}
      (hbody : ∀ t ∈ body, t.kind = .text) (htext : body.flatMap (·.text) = text.toList) :
      Shows (.text role text)
        (⟨.declaration, ['$', role.letter]⟩ :: (body ++ [⟨.punctuation, ['$', '.']⟩]))

/-- No token that shows what a directive says is an error. -/
theorem Shows.kind_ne_error {c : Content} {ts : List Token} (h : Shows c ts) {t : Token}
    (ht : t ∈ ts) : t.kind ≠ .error := by
  cases h with
  | gap s => simp_all
  | comment s => simp_all
  | scheme hmath hnames hbody htemplate =>
    have hmath' := hmath t
    have hbody' := hbody t
    simp only [List.mem_cons, List.mem_append, List.not_mem_nil, or_false] at ht
    rcases ht with rfl | ht | rfl | ht | rfl
    · simp
    · rcases hmath' ht with h | h <;> simp [h]
    · simp
    · rcases hbody' ht with h | h <;> simp [h]
    · simp
  | text hbody htext =>
    have hbody' := hbody t
    simp only [List.mem_cons, List.mem_append, List.not_mem_nil, or_false] at ht
    rcases ht with rfl | ht | rfl
    · simp
    · simp [hbody' ht]
    · simp

/-- A mark of two characters does not stand where a text begins that it is not in,
even if the mark follows the text. -/
theorem not_isPrefix_of_free {a b : Char} (hab : a ≠ b) {body : List Char} (hne : body ≠ [])
    (hfree : ¬[a, b] <:+: body) (rest : List Char) : ¬[a, b] <+: body ++ a :: b :: rest := by
  intro hprefix
  obtain ⟨c, body, rfl⟩ := List.exists_cons_of_ne_nil hne
  rw [List.cons_append, List.cons_prefix_cons] at hprefix
  obtain ⟨rfl, hprefix⟩ := hprefix
  cases body with
  | nil => exact hab (List.cons_prefix_cons.mp hprefix).1.symm
  | cons d body =>
    rw [List.cons_append, List.cons_prefix_cons] at hprefix
    obtain ⟨rfl, -⟩ := hprefix
    exact hfree ⟨[], body, rfl⟩

/-- Where a body stands before a mark, a front that is a single character or holds
none with which the mark begins does not reach over the body. -/
theorem exists_of_front {a : Char} {body mark front rest : List Char} (hne : body ≠ [])
    (hsplit : body ++ a :: mark = front ++ rest) (hfront : front.length = 1 ∨ a ∉ front) :
    ∃ body', body = front ++ body' ∧ rest = body' ++ a :: mark := by
  rcases List.append_eq_append_iff.mp hsplit with ⟨past, hpast, htail⟩ | ⟨body', hbody, hrest⟩
  · cases past with
    | nil => exact ⟨[], by simpa using hpast.symm, by simpa using htail.symm⟩
    | cons c past =>
      -- Now the front holds all of the body and the character after it.
      exfalso
      obtain ⟨rfl, -⟩ := List.cons.inj htail
      rcases hfront with hone | hnot
      · have := List.length_pos_iff.mpr hne
        simp only [hpast, List.length_append, List.length_cons] at hone
        omega
      · exact hnot (by simp [hpast])
  · exact ⟨body', hbody, hrest⟩

/-- A body is read up to its mark, and what is read of it is the body: a rule
that goes on takes characters of the body alone, since it takes one only or
none that is a dollar. -/
theorem ReadsBody.exists_tokens {mode : Mode} {kinds : List Kind} (h : ReadsBody mode kinds)
    {body : List Char} (hfree : ¬['$', '.'] <:+: body) (rest : List Char) :
    ∃ ts, lexFrom [mode, .root] (body ++ '$' :: '.' :: rest) =
        ts ++ ⟨.punctuation, ['$', '.']⟩ :: lexFrom [.root] rest ∧
      (∀ t ∈ ts, t.kind ∈ kinds) ∧ ts.flatMap (·.text) = body := by
  by_cases hnil : body = []
  · subst hnil
    obtain ⟨r, hmatch, hkind, hmove⟩ := h.ends rest
    refine ⟨[], ?_, by simp, rfl⟩
    change lexFrom [mode, .root] (['$', '.'] ++ rest) = _
    rw [lexFrom_append (by simp) hmatch, hkind, hmove]
    rfl
  · have hmark := not_isPrefix_of_free (by decide) hnil hfree rest
    obtain ⟨r, front, rest', hsplit, hfront, hone, hmatch, hkind, hmove⟩ :=
      h.goes_on (body ++ '$' :: '.' :: rest) (by simp) hmark
    obtain ⟨body', hbody, hrest'⟩ := exists_of_front hnil hsplit hone
    have hlt : body'.length < body.length := by
      have := List.length_pos_iff.mpr hfront
      rw [hbody, List.length_append]
      omega
    have hfree' : ¬['$', '.'] <:+: body' := by
      intro hinside
      exact hfree (hinside.trans (hbody ▸ List.suffix_append front body').isInfix)
    obtain ⟨ts, hlex, hkinds, htext⟩ := h.exists_tokens hfree' rest
    rw [hsplit] at hmatch ⊢
    refine ⟨⟨r.kind, front⟩ :: ts, ?_, ?_, ?_⟩
    · rw [lexFrom_append hfront hmatch, hmove, Move.apply, hrest', hlex, List.cons_append]
    · intro t ht
      rcases List.mem_cons.mp ht with rfl | ht
      · exact hkind
      · exact hkinds t ht
    · rw [List.flatMap_cons, htext, hbody]
termination_by body.length

/-- In the math of a scheme a run of blanks is one token. -/
theorem lexFrom_gap (g : Blanks) {rest : List Char} (hrest : StopsAt isBlank rest) :
    lexFrom [.math, .root] (g.chars ++ rest) =
      ⟨.blank, g.chars⟩ :: lexFrom [.math, .root] rest := by
  have hmark : literal "$:" (g.chars ++ rest) = none :=
    literal_eq_none (b := ':') (by decide) (not_isPrefix_of_stopsAt (g.stopsAt (fun c hc => by
      rw [beq_eq_false_iff_ne]
      rintro rfl
      exact absurd hc (by decide)) rest))
  have hname : run isNameChar (g.chars ++ rest) = none :=
    run_of_stopsAt (g.stopsAt (fun _ => isMathChar_of_isLayoutBlank) rest)
  have hblank : run isBlank (g.chars ++ rest) = some g.chars.length :=
    run_append g.ne_nil (fun c hc => isBlank_of_isLayoutBlank (g.all c hc)) hrest
  refine lexFrom_append (r := ⟨run isBlank, .blank, .stay⟩) g.ne_nil ?_
  rw [rules, firstMatch_of_none hmark, firstMatch_of_none hname, firstMatch_of_some hblank]

/-- In the math of a scheme a symbol is one token. -/
theorem lexFrom_symbol (w : MathWord) {rest : List Char} (hrest : StopsAt isMathChar rest) :
    lexFrom [.math, .root] (w.chars ++ rest) =
      ⟨.name, w.chars⟩ :: lexFrom [.math, .root] rest := by
  have hmark : literal "$:" (w.chars ++ rest) = none :=
    literal_eq_none (b := ':') (by decide) (not_isPrefix_of_stopsAt (w.stopsAt (fun c hc => by
      rw [beq_eq_false_iff_ne]
      exact (of_isMathChar hc).2.2) rest))
  have hname : run isNameChar (w.chars ++ rest) = some w.chars.length :=
    run_append w.ne_nil w.all hrest
  refine lexFrom_append (r := ⟨run isNameChar, .name, .stay⟩) w.ne_nil ?_
  rw [rules, firstMatch_of_none hmark, firstMatch_of_some hname]

/-- The tokens of symbols with gaps before them. -/
def mathTokens (words : List (Blanks × MathWord)) : List Token :=
  words.flatMap fun w => [⟨.blank, w.1.chars⟩, ⟨.name, w.2.chars⟩]

/-- Symbols with gaps before them are read one by one, up to the gap before the
mark. -/
theorem lexFrom_mathChars (words : List (Blanks × MathWord)) (after : Blanks) {rest : List Char}
    (hrest : StopsAt isBlank rest) :
    lexFrom [.math, .root] (mathChars words ++ (after.chars ++ rest)) =
      mathTokens words ++ ⟨.blank, after.chars⟩ :: lexFrom [.math, .root] rest := by
  induction words with
  | nil => exact lexFrom_gap after hrest
  | cons p words ih =>
    obtain ⟨g, w⟩ := p
    have hsplit : mathChars ((g, w) :: words) ++ (after.chars ++ rest) =
        g.chars ++ (w.chars ++ (mathChars words ++ (after.chars ++ rest))) := by
      simp [mathChars]
    have hgap : StopsAt isMathChar (mathChars words ++ (after.chars ++ rest)) := by
      cases words with
      | nil => exact after.stopsAt (fun _ => isMathChar_of_isLayoutBlank) rest
      | cons p words =>
        rw [mathChars, List.flatMap_cons, List.append_assoc, List.append_assoc]
        exact p.1.stopsAt (fun _ => isMathChar_of_isLayoutBlank) _
    rw [hsplit, lexFrom_gap g (w.stopsAt (fun _ => isBlank_of_isMathChar) _),
      lexFrom_symbol w hgap, ih]
    rfl

/-- A token of symbols with gaps is blank or a name. -/
theorem kind_of_mem_mathTokens {words : List (Blanks × MathWord)} {t : Token}
    (h : t ∈ mathTokens words) : t.kind = .blank ∨ t.kind = .name := by
  obtain ⟨w, -, ht⟩ := List.mem_flatMap.mp h
  simp only [List.mem_cons, List.not_mem_nil, or_false] at ht
  rcases ht with rfl | rfl
  · exact .inl rfl
  · exact .inr rfl

/-- The names among the tokens of symbols with gaps are the symbols. -/
theorem names_mathTokens (words : List (Blanks × MathWord)) :
    ((mathTokens words).filter (·.kind == .name)).map (·.text) = words.map (·.2.chars) := by
  induction words with
  | nil => rfl
  | cons p words ih =>
    rw [List.map_cons, ← ih]
    rfl

/-- The tokens of symbols with gaps are written like these. -/
theorem text_mathTokens (words : List (Blanks × MathWord)) :
    (mathTokens words).flatMap (·.text) = mathChars words := by
  induction words with
  | nil => rfl
  | cons p words ih =>
    rw [mathChars, List.flatMap_cons, ← mathChars, ← ih]
    simp [mathTokens]

/-- Outside of directives a run of blanks is one token. -/
theorem lexFrom_blanks (g : Blanks) {rest : List Char} (hrest : StopsAt isBlank rest) :
    lexFrom [.root] (g.chars ++ rest) = ⟨.blank, g.chars⟩ :: lexFrom [.root] rest := by
  obtain ⟨c, cs, hc, hblank⟩ := g.exists_cons
  have hne : c ≠ '$' := by
    rintro rfl
    exact absurd hblank (by decide)
  have hcomment : comment (g.chars ++ rest) = none := by
    apply comment_eq_none
    rw [hc, List.cons_append, List.cons_prefix_cons]
    exact fun h => hne h.1.symm
  have hscheme : schemeKeyword (g.chars ++ rest) = none := by
    rw [hc, List.cons_append, schemeKeyword]
    intro k d tail heq
    exact hne (List.cons.inj heq).1
  have htext : textKeyword (g.chars ++ rest) = none := by
    rw [hc, List.cons_append, textKeyword]
    intro k tail heq
    exact hne (List.cons.inj heq).1
  have hrun : run isBlank (g.chars ++ rest) = some g.chars.length :=
    run_append g.ne_nil (fun c hc => isBlank_of_isLayoutBlank (g.all c hc)) hrest
  refine lexFrom_append (r := ⟨run isBlank, .blank, .stay⟩) g.ne_nil ?_
  rw [rules, firstMatch_of_none hcomment, firstMatch_of_none hscheme, firstMatch_of_none htext,
    firstMatch_of_some hrun]

/-- A comment is one token. -/
theorem lexFrom_comment (body : Unmarked ['$', ')']) (rest : List Char) :
    lexFrom [.root] ((Item.comment body).chars ++ rest) =
      ⟨.comment, (Item.comment body).chars⟩ :: lexFrom [.root] rest := by
  refine lexFrom_append (r := ⟨comment, .comment, .stay⟩) (by simp [Item.chars]) ?_
  rw [rules, firstMatch_of_some (comment_append body rest)]

/-- The keyword of a scheme, before a blank, enters the math of the scheme. -/
theorem lexFrom_schemeKeyword (isIdentifier : Bool) {c : Char} (hc : isBlank c = true)
    (rest : List Char) :
    lexFrom [.root] ('$' :: schemeLetter isIdentifier :: c :: rest) =
      ⟨.keyword, ['$', schemeLetter isIdentifier]⟩ :: lexFrom [.math, .root] (c :: rest) := by
  have hcomment : comment ('$' :: schemeLetter isIdentifier :: c :: rest) = none := by
    apply comment_eq_none
    rw [List.cons_prefix_cons, List.cons_prefix_cons]
    cases isIdentifier <;> exact fun h => absurd h.2.1 (by decide)
  have hkey : schemeKeyword ('$' :: schemeLetter isIdentifier :: c :: rest) = some 2 := by
    rw [schemeKeyword, hc]
    cases isIdentifier <;> rfl
  change lexFrom [.root] (['$', schemeLetter isIdentifier] ++ c :: rest) = _
  refine lexFrom_append (r := ⟨schemeKeyword, .keyword, .enter .math⟩) (by simp) ?_
  change firstMatch _ ('$' :: schemeLetter isIdentifier :: c :: rest) = _
  rw [rules, firstMatch_of_none hcomment, firstMatch_of_some hkey]
  rfl

/-- The mark behind the math of a scheme enters its template. -/
theorem lexFrom_separator (rest : List Char) :
    lexFrom [.math, .root] ('$' :: ':' :: rest) =
      ⟨.punctuation, ['$', ':']⟩ :: lexFrom [.template, .root] rest := by
  have hmark : literal "$:" ('$' :: ':' :: rest) = some 2 := literal_append (by decide) rest
  change lexFrom [.math, .root] (['$', ':'] ++ rest) = _
  refine lexFrom_append (r := ⟨literal "$:", .punctuation, .change .template⟩) (by simp) ?_
  change firstMatch _ ('$' :: ':' :: rest) = _
  rw [rules, firstMatch_of_some hmark]
  rfl

/-- The keyword of a text enters the text. -/
theorem lexFrom_textKeyword (role : TextRole) (rest : List Char) :
    lexFrom [.root] ('$' :: role.letter :: rest) =
      ⟨.declaration, ['$', role.letter]⟩ :: lexFrom [.text, .root] rest := by
  have hcomment : comment ('$' :: role.letter :: rest) = none := by
    apply comment_eq_none
    rw [List.cons_prefix_cons, List.cons_prefix_cons]
    cases role <;> exact fun h => absurd h.2.1 (by decide)
  have hscheme : schemeKeyword ('$' :: role.letter :: rest) = none := by
    cases rest with
    | nil => rfl
    | cons c rest => cases role <;> rfl
  have hkey : textKeyword ('$' :: role.letter :: rest) = some 2 := by
    cases role <;> rfl
  change lexFrom [.root] (['$', role.letter] ++ rest) = _
  refine lexFrom_append (r := ⟨textKeyword, .declaration, .enter .text⟩) (by simp) ?_
  change firstMatch _ ('$' :: role.letter :: rest) = _
  rw [rules, firstMatch_of_none hcomment, firstMatch_of_none hscheme, firstMatch_of_some hkey]
  rfl

/-- Before the given rest an item of a layout is read by itself, and its tokens show
what it says. -/
def ReadsItem (i : Item) (rest : List Char) : Prop :=
  ∃ ts, lexFrom [.root] (i.chars ++ rest) = ts ++ lexFrom [.root] rest ∧
    Shows i.content ts ∧ ts.flatMap (·.text) = i.chars

/-- A scheme is read as its keyword, the tokens of its math and its gaps, the mark
between pattern and template, and the tokens of the template. -/
theorem readsItem_scheme (isIdentifier : Bool) (before : Blanks) (first : MathWord)
    (more : List (Blanks × MathWord)) (after : Blanks) (template : Unmarked ['$', '.'])
    (rest : List Char) :
    ReadsItem (.scheme isIdentifier before first more after template) rest := by
  obtain ⟨body, hbody, hkinds, htext⟩ := readsBody_template.exists_tokens template.free rest
  have hstop : StopsAt isBlank ('$' :: ':' :: (template.chars ++ '$' :: '.' :: rest)) :=
    stopsAt_cons.mpr (by decide)
  have hmath := lexFrom_mathChars ((before, first) :: more) after hstop
  have hchars : (Item.scheme isIdentifier before first more after template).chars ++ rest =
      '$' :: schemeLetter isIdentifier :: (mathChars ((before, first) :: more) ++
        (after.chars ++ '$' :: ':' :: (template.chars ++ '$' :: '.' :: rest))) := by
    simp [Item.chars, mathChars]
  obtain ⟨c, cs, hc, hblank⟩ := before.exists_cons
  have hkey :
      lexFrom [.root] ((Item.scheme isIdentifier before first more after template).chars ++ rest) =
        ⟨.keyword, ['$', schemeLetter isIdentifier]⟩ ::
        lexFrom [.math, .root] (mathChars ((before, first) :: more) ++
          (after.chars ++ '$' :: ':' :: (template.chars ++ '$' :: '.' :: rest))) := by
    rw [hchars, mathChars, List.flatMap_cons, hc]
    exact lexFrom_schemeKeyword isIdentifier (isBlank_of_isLayoutBlank hblank) _
  refine ⟨⟨.keyword, ['$', schemeLetter isIdentifier]⟩ ::
    ((mathTokens ((before, first) :: more) ++ [⟨.blank, after.chars⟩]) ++
      ⟨.punctuation, ['$', ':']⟩ :: (body ++ [⟨.punctuation, ['$', '.']⟩])), ?_, ?_, ?_⟩
  · rw [hkey, hmath, lexFrom_separator, hbody]
    simp
  · refine .scheme ?_ ?_ ?_ ?_
    · intro t ht
      rcases List.mem_append.mp ht with ht | ht
      · exact kind_of_mem_mathTokens ht
      · exact .inl (by rw [List.mem_singleton.mp ht])
    · rw [List.filter_append, List.map_append, names_mathTokens]
      simp [MathWord.symbol]
    · intro t ht
      simpa using hkinds t ht
    · rw [htext, String.toList_ofList]
  · have hwords := text_mathTokens ((before, first) :: more)
    simp [htext, hwords, Item.chars, mathChars]

/-- A text is read as its keyword, the tokens of its body and its end mark. -/
theorem readsItem_text (role : TextRole) (body : Unmarked ['$', '.']) (rest : List Char) :
    ReadsItem (.text role body) rest := by
  obtain ⟨ts, hts, hkinds, htext⟩ := readsBody_text.exists_tokens body.free rest
  refine ⟨⟨.declaration, ['$', role.letter]⟩ :: (ts ++ [⟨.punctuation, ['$', '.']⟩]), ?_, ?_, ?_⟩
  · have hchars : (Item.text role body).chars ++ rest =
        '$' :: role.letter :: (body.chars ++ '$' :: '.' :: rest) := by
      simp [Item.chars]
    rw [hchars, lexFrom_textKeyword, hts]
    simp
  · exact .text (fun t ht => by simpa using hkinds t ht) (by rw [htext, String.toList_ofList])
  · simp [Item.chars, htext]

/-- Every item of a layout is read by itself, a run of blanks if no blank follows. -/
theorem readsItem (i : Item) {rest : List Char}
    (hrest : ∀ g, i = .gap g → StopsAt isBlank rest) : ReadsItem i rest := by
  cases i with
  | gap g =>
    exact ⟨[⟨.blank, g.chars⟩], lexFrom_blanks g (hrest g rfl), .gap _, by simp [Item.chars]⟩
  | comment body =>
    exact ⟨[⟨.comment, (Item.comment body).chars⟩], lexFrom_comment body rest, .comment _, by simp⟩
  | scheme isIdentifier before first more after template =>
    exact readsItem_scheme isIdentifier before first more after template rest
  | text role body => exact readsItem_text role body rest

/-- In lists that are related place by place, everything on the right is related
to something. -/
theorem exists_of_mem_right {α β : Type} {R : α → β → Prop} {as : List α} {bs : List β}
    (h : List.Forall₂ R as bs) {b : β} (hb : b ∈ bs) : ∃ a, R a b := by
  induction h with
  | nil => cases hb
  | cons hab _ ih =>
    rcases List.mem_cons.mp hb with rfl | hb
    · exact ⟨_, hab⟩
    · exact ih hb

/-- A settled layout is shown item by item. -/
theorem exists_groups {items : Layout} (h : Settled items []) (line : Nat) :
    ∃ groups : List (List Token), lexFrom [.root] (chars items) = groups.flatten ∧
      List.Forall₂ (fun span ts => Shows span.1.content ts ∧ ts.flatMap (·.text) = span.2)
        (Layout.spansFrom line items) groups := by
  induction items generalizing line with
  | nil =>
    refine ⟨[], ?_, .nil⟩
    rw [chars_nil, lexFrom.eq_def]
    rfl
  | cons i items ih =>
    obtain ⟨hends, hitems⟩ := h
    obtain ⟨groups, hlex, hgroups⟩ := ih hitems (line + lineFeeds i.chars)
    have hrest : ∀ g, i = .gap g → StopsAt isBlank (chars items) := by
      rintro g rfl
      exact stopsAt_chars (by decide) fun g' more => ne_gap_of_stopsAt hends g' more
    obtain ⟨ts, hts, hshows, htext⟩ := readsItem i hrest
    refine ⟨ts :: groups, ?_, .cons ⟨hshows, htext⟩ hgroups⟩
    rw [chars_cons, hts, hlex, List.flatten_cons]

/-- On a definition file that can be read the tokens of the highlighter, cut
into groups, follow the directives one by one: each group is written with the
characters that its directive was taken from and shows what it says. No
character of the file is left out, and no token is an error. -/
theorem tokens_follow_directives {verbose : Bool} {s : List Char} {ds : List Directive}
    (h : (parseDefinition verbose s).outcome = .ok ds) :
    ∃ groups : List (List Token), lex s = groups.flatten ∧
      List.Forall₂ (fun span ts => Shows span.1.content ts ∧ ts.flatMap (·.text) = span.2)
        (spans s) groups ∧
      (spans s).map (·.1) = ds ∧ (spans s).flatMap (·.2) = s ∧ ∀ t ∈ lex s, t.kind ≠ .error := by
  obtain ⟨items, rfl, hsettled, rfl⟩ := parseDefinition_eq_ok_iff_settled.mp h
  obtain ⟨groups, hlex, hgroups⟩ := exists_groups hsettled 1
  have hspans : spans (chars items) = Layout.spansFrom 1 items := by
    have hread := (read_of_settled hsettled (by decide : content? [] = none) 1).2
    rwa [List.append_nil] at hread
  rw [hspans]
  refine ⟨groups, hlex, hgroups, rfl, Layout.flatMap_spansFrom 1 items, ?_⟩
  intro t ht
  rw [lex, hlex, List.mem_flatten] at ht
  obtain ⟨ts, hts, ht⟩ := ht
  obtain ⟨span, hshows, -⟩ := exists_of_mem_right hgroups hts
  exact hshows.kind_ne_error ht

/-- A scheme whose template ends in a dollar, a comment with the mark of a scheme
in it, and a text that opens a placeholder without closing it. -/
def sampleLayout : Layout :=
  [.scheme false (.single ' ' (by decide)) (.single 'c' (by decide))
      [(.single ' ' (by decide), .single 'x' (by decide))]
      (.single '\n' (by decide)) ⟨"#x#$".toList, by decide⟩,
    .comment ⟨"$s".toList, by decide⟩, .gap (.single '\n' (by decide)),
    .text .header ⟨"#a".toList, by decide⟩]

/-- The tokens of the sample follow its directives. -/
theorem tokens_follow_directives_sample :
    ∃ groups : List (List Token), lex (chars sampleLayout) = groups.flatten ∧
      List.Forall₂ (fun span ts => Shows span.1.content ts ∧ ts.flatMap (·.text) = span.2)
        (spans (chars sampleLayout)) groups ∧
      (spans (chars sampleLayout)).map (·.1) = (Layout.spansFrom 1 sampleLayout).map (·.1) ∧
      (spans (chars sampleLayout)).flatMap (·.2) = chars sampleLayout ∧
      ∀ t ∈ lex (chars sampleLayout), t.kind ≠ .error := by
  have hsettled : Settled sampleLayout [] :=
    ⟨trivial, trivial, stopsAt_cons.mpr (by decide), trivial, trivial⟩
  have hread : (parseDefinition false (chars sampleLayout)).outcome =
      .ok ((Layout.spansFrom 1 sampleLayout).map (·.1)) :=
    parseDefinition_eq_ok_iff_settled.mpr ⟨sampleLayout, rfl, hsettled, rfl⟩
  exact tokens_follow_directives hread

end Typeset.Highlight

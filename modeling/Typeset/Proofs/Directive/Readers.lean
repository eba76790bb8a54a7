import Typeset.Proofs.Directive.Layout

/-!
# What the readers of directives take

For every reader of a part of a directive: what it takes is what the part is
written with, and it takes nothing else. Runs of blanks and of math characters
are taken as far as they go, so what follows them has to begin with something
else; a text ends at the first place of its mark. From this follows for the
directive as a whole that one is read exactly where an item stands that ends
there.
-/

namespace Typeset

open Text

/-- A gap is a run of blanks that stops. -/
theorem layoutGap?_eq_some_iff {s rest : List Char} :
    layoutGap? s = some rest ↔
      ∃ g : Blanks, s = g.chars ++ rest ∧ StopsAt isLayoutBlank rest := by
  unfold layoutGap?
  constructor
  · intro h
    split at h
    · cases h
    · rename_i hne
      cases h
      have hblank : ∀ c ∈ s.takeWhile isLayoutBlank, isLayoutBlank c = true :=
        fun c hc => List.all_eq_true.mp List.all_takeWhile c hc
      exact ⟨⟨s.takeWhile isLayoutBlank, by simpa using hne, hblank⟩,
        List.takeWhile_append_dropWhile.symm, stopsAt_dropWhile _ _⟩
  · rintro ⟨g, rfl, hstop⟩
    rw [takeWhile_append g.all hstop, dropWhile_append g.all hstop,
      if_neg (by simpa using g.ne_nil)]

/-- A math symbol is a run of math characters that stops. -/
theorem mathSymbol?_eq_some_iff {s rest : List Char} {t : Symbol} :
    mathSymbol? s = some (t, rest) ↔
      ∃ w : MathWord, s = w.chars ++ rest ∧ t = w.symbol ∧ StopsAt isMathChar rest := by
  unfold mathSymbol?
  constructor
  · intro h
    split at h
    · cases h
    · rename_i hne
      cases h
      have hmath : ∀ c ∈ s.takeWhile isMathChar, isMathChar c = true :=
        fun c hc => List.all_eq_true.mp List.all_takeWhile c hc
      exact ⟨⟨s.takeWhile isMathChar, by simpa using hne, hmath⟩,
        List.takeWhile_append_dropWhile.symm, rfl, stopsAt_dropWhile _ _⟩
  · rintro ⟨w, rfl, rfl, hstop⟩
    rw [takeWhile_append w.all hstop, dropWhile_append w.all hstop,
      if_neg (by simpa using w.ne_nil)]
    rfl

/-- Math symbols are read as they are written: the first, and each further one
behind its gap. -/
theorem exists_words_of_mathSymbols? {s rest : List Char} {t : Symbol} {ts : List Symbol}
    (h : mathSymbols? s = some (t, ts, rest)) :
    ∃ (w : MathWord) (more : List (Blanks × MathWord)),
      s = w.chars ++ (mathChars more ++ rest) ∧ t = w.symbol ∧ ts = more.map (·.2.symbol) := by
  fun_induction mathSymbols? s generalizing t ts rest with
  | case1 => cases h
  | case2 s t' next ht hg =>
    cases h
    obtain ⟨w, rfl, rfl, _⟩ := mathSymbol?_eq_some_iff.mp ht
    exact ⟨w, [], rfl, rfl, rfl⟩
  | case3 s t' next ht gap hg hm ih =>
    cases h
    obtain ⟨w, rfl, rfl, _⟩ := mathSymbol?_eq_some_iff.mp ht
    exact ⟨w, [], rfl, rfl, rfl⟩
  | case4 s t' next ht gap hg u us after hm ih =>
    cases h
    obtain ⟨w, rfl, rfl, _⟩ := mathSymbol?_eq_some_iff.mp ht
    obtain ⟨g, rfl, _⟩ := layoutGap?_eq_some_iff.mp hg
    obtain ⟨w', more, rfl, rfl, rfl⟩ := ih hm
    refine ⟨w, (g, w') :: more, ?_, rfl, rfl⟩
    simp [mathChars]

/-- No math symbols are read where none stands. -/
theorem mathSymbols?_of_stopsAt {s : List Char} (h : StopsAt isMathChar s) :
    mathSymbols? s = none := by
  have hnone : mathSymbol? s = none := by
    rw [Option.eq_none_iff_forall_ne_some]
    rintro ⟨t, rest⟩ ht
    obtain ⟨w, rfl, -, -⟩ := mathSymbol?_eq_some_iff.mp ht
    obtain ⟨c, cs, hc, hmath⟩ := w.exists_cons
    rw [hc, List.cons_append, stopsAt_cons, hmath] at h
    cases h
  rw [mathSymbols?.eq_def]
  split
  · rfl
  · rename_i ht
    rw [hnone] at ht
    cases ht

/-- Behind a math symbol and a gap the reading goes on if a further symbol
stands there. -/
theorem mathSymbols?_of_symbol {s rest next : List Char} {t : Symbol}
    (ht : mathSymbol? s = some (t, rest)) (hg : layoutGap? rest = some next) :
    mathSymbols? s =
      match mathSymbols? next with
      | none => some (t, [], rest)
      | some (u, us, after) => some (t, u :: us, after) := by
  rw [mathSymbols?.eq_def]
  split
  · rename_i hnone
    rw [ht] at hnone
    cases hnone
  · rename_i t' rest' ht'
    rw [ht] at ht'
    cases ht'
    split
    · rename_i hnone
      rw [hg] at hnone
      cases hnone
    · rename_i next' hg'
      rw [hg] at hg'
      cases hg'
      rfl

/-- Math symbols are read up to the gap behind the last of them, where no
further symbol follows. -/
theorem mathSymbols?_append (w : MathWord) (more : List (Blanks × MathWord)) (g : Blanks)
    {rest : List Char} (hblank : StopsAt isLayoutBlank rest) (hmath : StopsAt isMathChar rest) :
    mathSymbols? (w.chars ++ (mathChars more ++ (g.chars ++ rest))) =
      some (w.symbol, more.map (·.2.symbol), g.chars ++ rest) := by
  induction more generalizing w with
  | nil =>
    have hw : mathSymbol? (w.chars ++ (g.chars ++ rest)) = some (w.symbol, g.chars ++ rest) :=
      mathSymbol?_eq_some_iff.mpr
        ⟨w, rfl, rfl, g.stopsAt (fun _ => isMathChar_of_isLayoutBlank) rest⟩
    have hg : layoutGap? (g.chars ++ rest) = some rest :=
      layoutGap?_eq_some_iff.mpr ⟨g, rfl, hblank⟩
    rw [mathChars, List.flatMap_nil, List.nil_append, mathSymbols?_of_symbol hw hg,
      mathSymbols?_of_stopsAt hmath]
    rfl
  | cons p more ih =>
    obtain ⟨g', w'⟩ := p
    have hw : mathSymbol? (w.chars ++ (g'.chars ++ (w'.chars ++ (mathChars more ++
        (g.chars ++ rest))))) = some (w.symbol, _) :=
      mathSymbol?_eq_some_iff.mpr ⟨w, rfl, rfl, g'.stopsAt (fun _ => isMathChar_of_isLayoutBlank) _⟩
    have hg : layoutGap? (g'.chars ++ (w'.chars ++ (mathChars more ++ (g.chars ++ rest)))) =
        some _ :=
      layoutGap?_eq_some_iff.mpr ⟨g', rfl, w'.stopsAt (fun _ => isLayoutBlank_of_isMathChar) _⟩
    have hsplit : mathChars ((g', w') :: more) ++ (g.chars ++ rest) =
        g'.chars ++ (w'.chars ++ (mathChars more ++ (g.chars ++ rest))) := by
      simp [mathChars]
    rw [hsplit, mathSymbols?_of_symbol hw hg, ih w']
    rfl

/-- A blank is a comment, or a run of blanks that stops. -/
theorem blank?_eq_some_iff {s rest : List Char} {c : Content} :
    blank? s = some (c, rest) ↔
      c = .blank ∧ ((∃ body, s = (Item.comment body).chars ++ rest) ∨
        ∃ g, s = (Item.gap g).chars ++ rest ∧ StopsAt isLayoutBlank rest) := by
  have hmark : "$(".toList = ['$', '('] := by decide
  have hclose : "$)".toList = ['$', ')'] := by decide
  unfold blank?
  rw [hmark, hclose]
  constructor
  · intro h
    split at h
    · rename_i inside hs
      obtain ⟨⟨body, after⟩, hcut, heq⟩ := Option.map_eq_some_iff.mp h
      cases heq
      obtain ⟨rfl, hfree⟩ := (cutAt?_eq_some_iff (by decide)).mp hcut
      rw [stripStart?_eq_some_iff] at hs
      exact ⟨rfl, .inl ⟨⟨body, hfree⟩, by simp [hs, Item.chars]⟩⟩
    · obtain ⟨after, hgap, heq⟩ := Option.map_eq_some_iff.mp h
      cases heq
      obtain ⟨g, rfl, hstop⟩ := layoutGap?_eq_some_iff.mp hgap
      exact ⟨rfl, .inr ⟨g, rfl, hstop⟩⟩
  · rintro ⟨rfl, ⟨body, rfl⟩ | ⟨g, rfl, hstop⟩⟩
    · have hs : stripStart? ['$', '('] ((Item.comment body).chars ++ rest) =
          some (body.chars ++ '$' :: ')' :: rest) := by
        rw [stripStart?_eq_some_iff]
        simp [Item.chars]
      rw [hs]
      dsimp only
      rw [cutAt?_append (by decide) rest body.free]
      rfl
    · have hs : stripStart? ['$', '('] (g.chars ++ rest) = none := by
        obtain ⟨c, cs, hc, hblank⟩ := g.exists_cons
        rw [Option.eq_none_iff_forall_ne_some]
        intro after hafter
        rw [stripStart?_eq_some_iff, hc] at hafter
        obtain ⟨rfl, -⟩ := List.cons.inj hafter
        exact absurd hblank (by decide)
      rw [Item.chars, hs]
      dsimp only
      rw [layoutGap?_eq_some_iff.mpr ⟨g, rfl, hstop⟩]
      rfl

/-- The keyword of a scheme is a dollar and the letter of its kind. -/
theorem schemeKeyword?_eq_some_iff {s rest : List Char} {isIdentifier : Bool} :
    schemeKeyword? s = some (isIdentifier, rest) ↔
      s = '$' :: schemeLetter isIdentifier :: rest := by
  constructor
  · intro h
    unfold schemeKeyword? at h
    split at h
    · cases h
      rfl
    · cases h
      rfl
    · cases h
  · rintro rfl
    cases isIdentifier <;> rfl

/-- A scheme is read exactly as it is written. -/
theorem scheme?_eq_some_iff {s rest : List Char} {c : Content} :
    scheme? s = some (c, rest) ↔
      ∃ isIdentifier before first more after template,
        s = (Item.scheme isIdentifier before first more after template).chars ++ rest ∧
        c = (Item.scheme isIdentifier before first more after template).content := by
  have hmark : "$:".toList = ['$', ':'] := by decide
  have hclose : "$.".toList = ['$', '.'] := by decide
  simp only [scheme?, Option.bind_eq_bind, Option.bind_eq_some_iff, Prod.exists,
    Option.pure_def, Option.some.injEq, Prod.mk.injEq, hmark, hclose]
  constructor
  · rintro ⟨isIdentifier, s₁, hkey, s₂, hbefore, t, ts, s₃, hwords, s₄, hafter, s₅, hsep, body,
      s₆, hcut, rfl, rfl⟩
    rw [schemeKeyword?_eq_some_iff] at hkey
    obtain ⟨before, rfl, -⟩ := layoutGap?_eq_some_iff.mp hbefore
    obtain ⟨first, more, rfl, rfl, rfl⟩ := exists_words_of_mathSymbols? hwords
    obtain ⟨after, rfl, -⟩ := layoutGap?_eq_some_iff.mp hafter
    rw [stripStart?_eq_some_iff] at hsep
    obtain ⟨rfl, hfree⟩ := (cutAt?_eq_some_iff (by decide)).mp hcut
    refine ⟨isIdentifier, before, first, more, after, ⟨body, hfree⟩, ?_, rfl⟩
    rw [hkey, hsep]
    simp only [Item.chars, List.append_assoc, List.cons_append, List.nil_append]
  · rintro ⟨isIdentifier, before, first, more, after, template, rfl, rfl⟩
    have hchars : (Item.scheme isIdentifier before first more after template).chars ++ rest =
        '$' :: schemeLetter isIdentifier :: (before.chars ++ (first.chars ++ (mathChars more ++
          (after.chars ++ '$' :: ':' :: (template.chars ++ '$' :: '.' :: rest))))) := by
      simp only [Item.chars, List.append_assoc, List.cons_append, List.nil_append]
    have hdollar : StopsAt isLayoutBlank ('$' :: ':' :: (template.chars ++ '$' :: '.' :: rest)) ∧
        StopsAt isMathChar ('$' :: ':' :: (template.chars ++ '$' :: '.' :: rest)) :=
      ⟨stopsAt_cons.mpr (by decide), stopsAt_cons.mpr (by decide)⟩
    exact ⟨isIdentifier, _, schemeKeyword?_eq_some_iff.mpr hchars, _,
      layoutGap?_eq_some_iff.mpr
        ⟨before, rfl, first.stopsAt (fun _ => isLayoutBlank_of_isMathChar) _⟩, _, _, _,
      mathSymbols?_append first more after hdollar.1 hdollar.2, _,
      layoutGap?_eq_some_iff.mpr ⟨after, rfl, hdollar.1⟩, _,
      stripStart?_eq_some_iff.mpr rfl, _, _, cutAt?_append (by decide) rest template.free,
      rfl, rfl⟩

/-- The letter of a role stands for the role. -/
theorem TextRole.ofLetter?_eq_some_iff {c : Char} {role : TextRole} :
    TextRole.ofLetter? c = some role ↔ c = role.letter := by
  constructor
  · intro h
    unfold TextRole.ofLetter? at h
    have hletter := List.find?_some h
    exact (beq_iff_eq.mp hletter).symm
  · rintro rfl
    cases role <;> decide

/-- The keyword of a text is a dollar and the letter of its role. -/
theorem textKeyword?_eq_some_iff {s rest : List Char} {role : TextRole} :
    textKeyword? s = some (role, rest) ↔ s = '$' :: role.letter :: rest := by
  constructor
  · intro h
    unfold textKeyword? at h
    split at h
    · obtain ⟨role', hrole, heq⟩ := Option.map_eq_some_iff.mp h
      cases heq
      rw [TextRole.ofLetter?_eq_some_iff.mp hrole]
    · cases h
  · rintro rfl
    rw [textKeyword?, TextRole.ofLetter?_eq_some_iff.mpr rfl]
    rfl

/-- A text is read exactly as it is written. -/
theorem text?_eq_some_iff {s rest : List Char} {c : Content} :
    text? s = some (c, rest) ↔
      ∃ role body, s = (Item.text role body).chars ++ rest ∧ c = (Item.text role body).content := by
  have hclose : "$.".toList = ['$', '.'] := by decide
  simp only [text?, Option.bind_eq_bind, Option.bind_eq_some_iff, Prod.exists, Option.pure_def,
    Option.some.injEq, Prod.mk.injEq, hclose]
  constructor
  · rintro ⟨role, s₁, hkey, body, s₂, hcut, rfl, rfl⟩
    rw [textKeyword?_eq_some_iff] at hkey
    obtain ⟨rfl, hfree⟩ := (cutAt?_eq_some_iff (by decide)).mp hcut
    exact ⟨role, ⟨body, hfree⟩, by simp [hkey, Item.chars], rfl⟩
  · rintro ⟨role, body, rfl, rfl⟩
    have hchars : (Item.text role body).chars ++ rest =
        '$' :: role.letter :: (body.chars ++ '$' :: '.' :: rest) := by
      simp [Item.chars]
    exact ⟨role, _, textKeyword?_eq_some_iff.mpr hchars, _, _,
      cutAt?_append (by decide) rest body.free, rfl, rfl⟩

/-- No blank begins like a scheme or a text. -/
theorem blank?_dollar {c : Char} (hc : c ≠ '(') (s : List Char) :
    blank? ('$' :: c :: s) = none := by
  rw [Option.eq_none_iff_forall_ne_some]
  rintro ⟨content, rest⟩ h
  obtain ⟨-, ⟨body, hs⟩ | ⟨g, hs, -⟩⟩ := blank?_eq_some_iff.mp h
  · obtain ⟨-, htail⟩ := List.cons.inj hs
    exact hc (List.cons.inj htail).1
  · obtain ⟨d, ds, hd, hblank⟩ := g.exists_cons
    rw [Item.chars, hd] at hs
    obtain ⟨rfl, -⟩ := List.cons.inj hs
    exact absurd hblank (by decide)

/-- No scheme begins like a text. -/
theorem scheme?_letter (role : TextRole) (s : List Char) :
    scheme? ('$' :: role.letter :: s) = none := by
  have hkey : schemeKeyword? ('$' :: role.letter :: s) = none := by
    cases role <;> rfl
  rw [scheme?, hkey]
  rfl

/-- A directive is read at the head of a text exactly where an item stands that
ends there. -/
theorem content?_eq_some_iff {s rest : List Char} {c : Content} :
    content? s = some (c, rest) ↔
      ∃ i : Item, s = i.chars ++ rest ∧ c = i.content ∧ i.EndsAt rest := by
  unfold content?
  constructor
  · intro h
    rcases Option.or_eq_some_iff.mp h with h | ⟨-, h⟩
    · obtain ⟨rfl, ⟨body, rfl⟩ | ⟨g, rfl, hstop⟩⟩ := blank?_eq_some_iff.mp h
      · exact ⟨.comment body, rfl, rfl, trivial⟩
      · exact ⟨.gap g, rfl, rfl, hstop⟩
    · rcases Option.or_eq_some_iff.mp h with h | ⟨-, h⟩
      · obtain ⟨_, _, _, _, _, _, rfl, rfl⟩ := scheme?_eq_some_iff.mp h
        exact ⟨_, rfl, rfl, trivial⟩
      · obtain ⟨_, _, rfl, rfl⟩ := text?_eq_some_iff.mp h
        exact ⟨_, rfl, rfl, trivial⟩
  · rintro ⟨i, rfl, rfl, hends⟩
    cases i with
    | gap g =>
      have h : blank? ((Item.gap g).chars ++ rest) = some (.blank, rest) :=
        blank?_eq_some_iff.mpr ⟨rfl, .inr ⟨g, rfl, hends⟩⟩
      rw [h]
      rfl
    | comment body =>
      have h : blank? ((Item.comment body).chars ++ rest) = some (.blank, rest) :=
        blank?_eq_some_iff.mpr ⟨rfl, .inl ⟨body, rfl⟩⟩
      rw [h]
      rfl
    | scheme isIdentifier before first more after template =>
      have hblank : blank? ((Item.scheme isIdentifier before first more after template).chars ++
          rest) = none := blank?_dollar (by cases isIdentifier <;> decide) _
      have h : scheme? ((Item.scheme isIdentifier before first more after template).chars ++
          rest) = some (_, rest) :=
        scheme?_eq_some_iff.mpr ⟨isIdentifier, before, first, more, after, template, rfl, rfl⟩
      rw [hblank, h]
      rfl
    | text role body =>
      have hblank : blank? ((Item.text role body).chars ++ rest) = none :=
        blank?_dollar (by cases role <;> decide) _
      have hscheme : scheme? ((Item.text role body).chars ++ rest) = none := scheme?_letter role _
      have h : text? ((Item.text role body).chars ++ rest) = some (_, rest) :=
        text?_eq_some_iff.mpr ⟨role, body, rfl, rfl⟩
      rw [hblank, hscheme, h]
      rfl

end Typeset

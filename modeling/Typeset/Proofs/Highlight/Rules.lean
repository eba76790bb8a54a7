import Typeset.Highlight.Lexer
import Typeset.Proofs.Directive.Layout

/-!
# What the rules of the highlighter take

In each mode the first rule that fits takes the next token. Here is said which
rule that is at the places where the parts of a directive begin, and how many
characters it takes. The two modes for templates and texts are alike: they go
on with characters that the end mark cannot begin in, or with a single one,
until the mark stands.
-/

namespace Typeset.Highlight

open Text

/-- The first matching rule of the present mode takes a token, and the lexer
goes on behind it. -/
theorem lexFrom_append {mode : Mode} {below : List Mode} {r : Rule} {front rest : List Char}
    (hne : front ≠ [])
    (h : firstMatch (rules mode) (front ++ rest) = some (r, front.length)) :
    lexFrom (mode :: below) (front ++ rest) =
      ⟨r.kind, front⟩ :: lexFrom (r.move.apply (mode :: below)) rest := by
  obtain ⟨c, front, rfl⟩ := List.exists_cons_of_ne_nil hne
  rw [List.cons_append] at h ⊢
  rw [lexFrom]
  simp only [List.headD_cons, h]
  rw [List.length_cons, Nat.add_sub_cancel, List.take_left, List.drop_left]

/-- A rule that does not match leaves the place to the rules after it. -/
theorem firstMatch_of_none {r : Rule} {rs : List Rule} {s : List Char} (h : r.taken? s = none) :
    firstMatch (r :: rs) s = firstMatch rs s := by
  rw [firstMatch, List.findSome?_cons, h]
  rfl

/-- A rule that matches takes the place. -/
theorem firstMatch_of_some {r : Rule} {rs : List Rule} {s : List Char} {n : Nat}
    (h : r.taken? s = some n) : firstMatch (r :: rs) s = some (r, n) := by
  rw [firstMatch, List.findSome?_cons, h]
  rfl

/-- A run takes all characters of its class. -/
theorem run_append {p : Char → Bool} {front rest : List Char} (hne : front ≠ [])
    (hfront : ∀ c ∈ front, p c = true) (hrest : StopsAt p rest) :
    run p (front ++ rest) = some front.length := by
  unfold run
  rw [takeWhile_append hfront hrest]
  dsimp only
  rw [if_neg (by simpa using hne)]

/-- A run takes nothing where it stops. -/
theorem run_of_stopsAt {p : Char → Bool} {s : List Char} (h : StopsAt p s) : run p s = none := by
  cases s with
  | nil => rfl
  | cons c s =>
    unfold run
    rw [List.takeWhile_cons, stopsAt_cons.mp h]
    rfl

/-- A mark of two characters takes them. -/
theorem literal_append {pattern : String} {a b : Char} (hp : pattern.toList = [a, b])
    (s : List Char) : literal pattern (a :: b :: s) = some 2 := by
  have hlength : pattern.length = 2 := by
    rw [← String.length_toList, hp]
    rfl
  unfold literal
  rw [hp, hlength]
  simp

/-- A mark of two characters takes nothing where it does not stand. -/
theorem literal_eq_none {pattern : String} {a b : Char} (hp : pattern.toList = [a, b])
    {s : List Char} (hs : ¬[a, b] <+: s) : literal pattern s = none := by
  unfold literal
  rw [hp, if_neg (by rwa [List.isPrefixOf_iff_prefix])]

/-- A comment takes its marks and what stands between them. -/
theorem comment_append (body : Unmarked ['$', ')']) (rest : List Char) :
    comment ((Item.comment body).chars ++ rest) = some (Item.comment body).chars.length := by
  have hopen : stripStart? "$(".toList ((Item.comment body).chars ++ rest) =
      some (body.chars ++ '$' :: ')' :: rest) := by
    rw [stripStart?_eq_some_iff]
    simp [Item.chars]
  have hclose : cutAt? ['$', ')'] (body.chars ++ '$' :: ')' :: rest) = some (body.chars, rest) :=
    cutAt?_append (by decide) rest body.free
  unfold comment
  rw [hopen]
  simp [hclose, Item.chars]

/-- No comment begins without its mark. -/
theorem comment_eq_none {s : List Char} (h : ¬['$', '('] <+: s) : comment s = none := by
  have hopen : stripStart? "$(".toList s = none := by
    rw [Option.eq_none_iff_forall_ne_some]
    intro rest hrest
    rw [stripStart?_eq_some_iff] at hrest
    exact h ⟨rest, hrest.symm⟩
  unfold comment
  rw [hopen]
  rfl

/-- A text that does not begin with a dollar begins with no mark. -/
theorem not_isPrefix_of_stopsAt {a : Char} {s : List Char} (h : StopsAt (· == '$') s) :
    ¬['$', a] <+: s := by
  rintro ⟨rest, rfl⟩
  rw [List.cons_append, stopsAt_cons] at h
  cases h

/-- A mode that reads a body up to its end mark. The mark leaves the mode;
anywhere else some rule stays in it, and takes one character or characters
among which there is no dollar, so that it never goes on over the mark. -/
structure ReadsBody (mode : Mode) (kinds : List Kind) : Prop where
  /-- The mark is read as one token. -/
  ends : ∀ s, ∃ r, firstMatch (rules mode) ('$' :: '.' :: s) = some (r, 2) ∧
    r.kind = .punctuation ∧ r.move = .leave
  /-- Where the mark does not stand the body goes on. -/
  goes_on : ∀ s, s ≠ [] → ¬['$', '.'] <+: s → ∃ r front rest,
    s = front ++ rest ∧ front ≠ [] ∧ (front.length = 1 ∨ '$' ∉ front) ∧
      firstMatch (rules mode) s = some (r, front.length) ∧ r.kind ∈ kinds ∧ r.move = .stay

/-- A run of characters other than the dollar takes one at least, unless it
stops at once. -/
theorem exists_run {p : Char → Bool} (hp : p '$' = false) {s : List Char}
    (hs : ¬StopsAt p s) : ∃ front rest, s = front ++ rest ∧ front ≠ [] ∧ '$' ∉ front ∧
      run p s = some front.length := by
  have hne : s.takeWhile p ≠ [] := by
    intro hnil
    apply hs
    have := stopsAt_dropWhile p s
    rwa [← List.nil_append (s.dropWhile p), ← hnil, List.takeWhile_append_dropWhile] at this
  have hall : ∀ c ∈ s.takeWhile p, p c = true :=
    fun c hc => List.all_eq_true.mp List.all_takeWhile c hc
  refine ⟨s.takeWhile p, s.dropWhile p, List.takeWhile_append_dropWhile.symm, hne, ?_, ?_⟩
  · intro hmem
    rw [hall '$' hmem] at hp
    cases hp
  · have := run_append hne hall (stopsAt_dropWhile p s)
    rwa [List.takeWhile_append_dropWhile] at this

/-- A rule for runs without the dollar, and behind it a rule for one character that
no such run takes, take something of every text: characters none of which is a
dollar, or a single one. -/
theorem exists_front {p q : Char → Bool} (hp : p '$' = false)
    (hq : ∀ c, p c = false → q c = true) (kind : Kind) {s : List Char} (hne : s ≠ []) :
    ∃ r front rest, s = front ++ rest ∧ front ≠ [] ∧ (front.length = 1 ∨ '$' ∉ front) ∧
      firstMatch [⟨run p, kind, .stay⟩, ⟨one q, kind, .stay⟩] s = some (r, front.length) ∧
        r.kind = kind ∧ r.move = .stay := by
  by_cases hstop : StopsAt p s
  · obtain ⟨c, rest, rfl⟩ := List.exists_cons_of_ne_nil hne
    have hone : one q (c :: rest) = some 1 := by
      rw [stopsAt_cons] at hstop
      rw [one, if_pos (hq c hstop)]
    refine ⟨⟨one q, kind, .stay⟩, [c], rest, rfl, by simp, .inl rfl, ?_, rfl, rfl⟩
    rw [firstMatch_of_none (run_of_stopsAt hstop), firstMatch_of_some hone]
    rfl
  · obtain ⟨front, rest, hs, hfront, hfree, hrun⟩ := exists_run hp hstop
    exact ⟨⟨run p, kind, .stay⟩, front, rest, hs, hfront, .inr hfree, firstMatch_of_some hrun,
      rfl, rfl⟩

/-- A placeholder is a piece of text without dollar. -/
theorem exists_of_placeholder {s : List Char} {n : Nat} (h : placeholder s = some n) :
    ∃ front rest, s = front ++ rest ∧ front ≠ [] ∧ '$' ∉ front ∧ n = front.length := by
  unfold placeholder at h
  split at h
  · rename_i s
    dsimp only at h
    generalize hp : (fun c => c != '#' && c != '$' && !isBlank c) = p at h
    have hdollar : p '$' = false := by rw [← hp]; decide
    split at h
    · cases h
    · split at h
      · rename_i hclose
        cases h
        have hall : ∀ c ∈ s.takeWhile p, p c = true :=
          fun c hc => List.all_eq_true.mp List.all_takeWhile c hc
        have hfree : '$' ∉ s.takeWhile p := by
          intro hmem
          rw [hall '$' hmem] at hdollar
          cases hdollar
        have hdrop : s.drop (s.takeWhile p).length = s.dropWhile p := by
          have hleft : (s.takeWhile p ++ s.dropWhile p).drop (s.takeWhile p).length =
              s.dropWhile p := List.drop_left
          rwa [List.takeWhile_append_dropWhile] at hleft
        rw [hdrop] at hclose
        obtain ⟨rest, hrest⟩ : ∃ rest, s.dropWhile p = '#' :: rest := by
          obtain ⟨rest, hrest⟩ := List.head?_eq_some_iff.mp hclose
          exact ⟨rest, hrest⟩
        refine ⟨'#' :: (s.takeWhile p ++ ['#']), rest, ?_, by simp, ?_, by simp⟩
        · have hall := List.takeWhile_append_dropWhile (p := p) (l := s)
          rw [hrest] at hall
          rw [List.cons_append, List.append_assoc, List.singleton_append, hall]
        · simp [hfree]
      · cases h
  · cases h

/-- The mode of texts reads a body. -/
theorem readsBody_text : ReadsBody .text [.text] where
  ends := by
    intro s
    have hmark : literal "$." ('$' :: '.' :: s) = some 2 := literal_append (by decide) s
    exact ⟨⟨literal "$.", .punctuation, .leave⟩, firstMatch_of_some hmark, rfl, rfl⟩
  goes_on := by
    intro s hne hmark
    have hmark' : literal "$." s = none := literal_eq_none (by decide) hmark
    obtain ⟨r, front, rest, hs, hfront, hone, hmatch, hkind, hmove⟩ :=
      exists_front (p := (· != '$')) (q := (· == '$')) (by decide) (by simp) .text hne
    refine ⟨r, front, rest, hs, hfront, hone, ?_, by simp [hkind], hmove⟩
    rw [rules, firstMatch_of_none hmark', hmatch]

/-- The mode of templates reads a body. -/
theorem readsBody_template : ReadsBody .template [.template, .variableName] where
  ends := by
    intro s
    have hmark : literal "$." ('$' :: '.' :: s) = some 2 := literal_append (by decide) s
    exact ⟨⟨literal "$.", .punctuation, .leave⟩, firstMatch_of_some hmark, rfl, rfl⟩
  goes_on := by
    intro s hne hmark
    have hmark' : literal "$." s = none := literal_eq_none (by decide) hmark
    cases hplace : placeholder s with
    | some n =>
      obtain ⟨front, rest, hs, hfront, hfree, rfl⟩ := exists_of_placeholder hplace
      refine ⟨⟨placeholder, .variableName, .stay⟩, front, rest, hs, hfront, .inr hfree, ?_,
        by simp, rfl⟩
      rw [rules, firstMatch_of_none hmark', firstMatch_of_some hplace]
    | none =>
      obtain ⟨r, front, rest, hs, hfront, hone, hmatch, hkind, hmove⟩ :=
        exists_front (p := fun c => c != '$' && c != '#') (q := fun c => c == '$' || c == '#')
          (by decide) (by grind) .template hne
      refine ⟨r, front, rest, hs, hfront, hone, ?_, by simp [hkind], hmove⟩
      rw [rules, firstMatch_of_none hmark', firstMatch_of_none hplace, hmatch]

end Typeset.Highlight

import Typeset.Proofs.Directive.Readers

/-!
# Definition files are read exactly

Every text begins with a layout behind which no directive can be read, and the
items of this layout are what is read of the text. A file is read to its end
exactly if it is written by a layout; it then gives one directive for each
item, with the line that the item begins on. Neighbouring runs of blanks count
as one item, since nothing in the text tells them apart.
-/

namespace Typeset

open Text Layout

/-- The directives at the head of a text that starts on the given line, each
with the characters it was taken from. -/
def spansFrom (line : Nat) (s : List Char) : List (Directive × List Char) :=
  match _h : content? s with
  | none => []
  | some (content, rest) =>
    let span := s.take (s.length - rest.length)
    (⟨content, line⟩, span) :: spansFrom (line + lineFeeds span) rest
termination_by s.length
decreasing_by exact length_lt_of_content? _h

/-- The directives of a definition file, each with the characters it was taken
from. -/
def spans (s : List Char) : List (Directive × List Char) := spansFrom 1 s

/-- Nothing is read where no directive fits. -/
theorem readFrom_of_none {s : List Char} (h : content? s = none) (line : Nat) :
    readFrom line s = ⟨[], s, line⟩ := by
  rw [readFrom.eq_def]
  split
  · rfl
  · rename_i h'
    rw [h] at h'
    cases h'

/-- Behind a directive the reading goes on with the rest, on its line. -/
theorem readFrom_of_some {s rest : List Char} {c : Content} (h : content? s = some (c, rest))
    (line : Nat) :
    readFrom line s =
      let read := readFrom (line + lineFeeds (s.take (s.length - rest.length))) rest
      { read with directives := ⟨c, line⟩ :: read.directives } := by
  rw [readFrom.eq_def]
  split
  · rename_i h'
    rw [h] at h'
    cases h'
  · rename_i h'
    rw [h] at h'
    cases h'
    rfl

/-- There is no span where no directive fits. -/
theorem spansFrom_of_none {s : List Char} (h : content? s = none) (line : Nat) :
    spansFrom line s = [] := by
  rw [spansFrom.eq_def]
  split
  · rfl
  · rename_i h'
    rw [h] at h'
    cases h'

/-- The first span is that of the first directive. -/
theorem spansFrom_of_some {s rest : List Char} {c : Content} (h : content? s = some (c, rest))
    (line : Nat) :
    spansFrom line s =
      (⟨c, line⟩, s.take (s.length - rest.length)) ::
        spansFrom (line + lineFeeds (s.take (s.length - rest.length))) rest := by
  rw [spansFrom.eq_def]
  split
  · rename_i h'
    rw [h] at h'
    cases h'
  · rename_i h'
    rw [h] at h'
    cases h'
    rfl

/-- The directives that are read are those of the spans. -/
theorem directives_readFrom (line : Nat) (s : List Char) :
    (readFrom line s).directives = (spansFrom line s).map (·.1) := by
  fun_induction readFrom line s with
  | case1 line s h => rw [spansFrom_of_none h, List.map_nil]
  | case2 line s content rest h read ih =>
    rw [spansFrom_of_some h, List.map_cons]
    exact congrArg (⟨content, line⟩ :: ·) ih

/-- The spans of a layout that starts on the given line. -/
def Layout.spansFrom (line : Nat) : Layout → List (Directive × List Char)
  | [] => []
  | i :: items => (⟨i.content, line⟩, i.chars) :: Layout.spansFrom (line + lineFeeds i.chars) items

/-- The spans of a layout leave no character of it out. -/
theorem Layout.flatMap_spansFrom (line : Nat) (items : Layout) :
    (Layout.spansFrom line items).flatMap (·.2) = chars items := by
  induction items generalizing line with
  | nil => rfl
  | cons i items ih => rw [Layout.spansFrom, List.flatMap_cons, ih, chars_cons]

/-- Counting lines item by item is counting them from the start of the text. -/
theorem Layout.directivesAfter_eq (before : List Char) (items : Layout) :
    directivesAfter before items =
      (Layout.spansFrom (1 + lineFeeds before) items).map (·.1) := by
  induction items generalizing before with
  | nil => rfl
  | cons i items ih =>
    rw [directivesAfter, Layout.spansFrom, List.map_cons, ih, lineFeeds_append, Nat.add_assoc]

/-- An item that ends where it ends is read first. -/
theorem content?_append {i : Item} {rest : List Char} (h : i.EndsAt rest) :
    content? (i.chars ++ rest) = some (i.content, rest) :=
  content?_eq_some_iff.mpr ⟨i, rfl, rfl, h⟩

/-- The characters of an item are those that the reading of it takes. -/
theorem take_chars (i : Item) (rest : List Char) :
    (i.chars ++ rest).take ((i.chars ++ rest).length - rest.length) = i.chars := by
  rw [List.length_append, Nat.add_sub_cancel, List.take_left]

/-- Behind an item the reading goes on with what follows it. -/
theorem readFrom_cons {i : Item} {rest : List Char} (h : i.EndsAt rest) (line : Nat) :
    readFrom line (i.chars ++ rest) =
      let read := readFrom (line + lineFeeds i.chars) rest
      { read with directives := ⟨i.content, line⟩ :: read.directives } := by
  rw [readFrom_of_some (content?_append h), take_chars]

/-- Behind an item the spans go on with those of what follows it. -/
theorem spansFrom_cons {i : Item} {rest : List Char} (h : i.EndsAt rest) (line : Nat) :
    spansFrom line (i.chars ++ rest) =
      (⟨i.content, line⟩, i.chars) :: spansFrom (line + lineFeeds i.chars) rest := by
  rw [spansFrom_of_some (content?_append h), take_chars]

/-- A settled layout is read item by item up to what follows it. -/
theorem read_of_settled {items : Layout} {rest : List Char} (h : Settled items rest)
    (hrest : content? rest = none) (line : Nat) :
    (readFrom line (chars items ++ rest)).remaining = rest ∧
      spansFrom line (chars items ++ rest) = Layout.spansFrom line items := by
  induction items generalizing line with
  | nil =>
    rw [chars_nil, List.nil_append, readFrom_of_none hrest, spansFrom_of_none hrest]
    exact ⟨rfl, rfl⟩
  | cons i items ih =>
    obtain ⟨hends, hitems⟩ := h
    obtain ⟨hremaining, hspans⟩ := ih hitems (line + lineFeeds i.chars)
    rw [chars_cons, List.append_assoc, readFrom_cons hends, spansFrom_cons hends, hspans]
    exact ⟨hremaining, rfl⟩

/-- Every text begins with a settled layout behind which no directive can be
read. -/
theorem exists_settled (s : List Char) :
    ∃ (items : Layout) (rest : List Char),
      s = chars items ++ rest ∧ Settled items rest ∧ content? rest = none := by
  cases h : content? s with
  | none => exact ⟨[], s, rfl, trivial, h⟩
  | some p =>
    obtain ⟨c, rest⟩ := p
    have hlt := length_lt_of_content? h
    obtain ⟨i, rfl, -, hends⟩ := content?_eq_some_iff.mp h
    obtain ⟨items, after, rfl, hsettled, hafter⟩ := exists_settled rest
    exact ⟨i :: items, after, by rw [chars_cons, List.append_assoc], ⟨hends, hsettled⟩, hafter⟩
termination_by s.length

/-- What is noted of a definition file does not matter for the outcome: the
directives, if nothing remains. -/
theorem outcome_parseDefinition (verbose : Bool) (s : List Char) :
    (parseDefinition verbose s).outcome =
      if (readDirectives s).complete then .ok (readDirectives s).directives
      else .error ⟨.of (readDirectives s).remaining, (readDirectives s).line⟩ := by
  have hnotes : ∀ ds : List Directive, (ds.forM fun d => (.detail 3 (d.content.kindName ++
      " at line " ++ toString d.line) : Logged LayoutError Unit)).outcome = .ok () :=
    fun ds => Logged.outcome_forM fun d _ => rfl
  unfold parseDefinition
  cases verbose with
  | true =>
    dsimp only
    rw [if_pos rfl, Logged.outcome_bind, hnotes]
    cases (readDirectives s).complete <;> rfl
  | false =>
    dsimp only
    cases (readDirectives s).complete <;> rfl

/-- A file is read to its end exactly if it is written by a settled layout; the
directives are those of the items. -/
theorem parseDefinition_eq_ok_iff_settled {verbose : Bool} {s : List Char}
    {ds : List Directive} :
    (parseDefinition verbose s).outcome = .ok ds ↔
      ∃ items : Layout, s = chars items ∧ Settled items [] ∧
        ds = (Layout.spansFrom 1 items).map (·.1) := by
  obtain ⟨items, rest, rfl, hsettled, hrest⟩ := exists_settled s
  obtain ⟨hremaining, hspans⟩ := read_of_settled hsettled hrest 1
  rw [outcome_parseDefinition, Reading.complete, readDirectives, hremaining, directives_readFrom,
    hspans]
  constructor
  · intro h
    split at h
    · rename_i hnil
      rw [List.isEmpty_iff] at hnil
      cases h
      subst hnil
      exact ⟨items, by rw [List.append_nil], hsettled, rfl⟩
    · cases h
  · rintro ⟨items', hchars, hsettled', rfl⟩
    have hend : content? [] = none := by decide
    have hread := read_of_settled hsettled' hend 1
    rw [List.append_nil, ← hchars, hremaining, hspans] at hread
    obtain ⟨rfl, hsame⟩ := hread
    rw [if_pos List.isEmpty_nil, hsame]

/-- A definition file is read to its end exactly if a layout writes it. It then
gives one directive for each item, runs of blanks merged: what the item says,
on the line that is one more than the line feeds before it. -/
theorem definition_files_are_layouts (verbose : Bool) (s : List Char) (ds : List Directive) :
    (parseDefinition verbose s).outcome = .ok ds ↔
      ∃ items : Layout, s = chars items ∧ ds = directives items := by
  rw [parseDefinition_eq_ok_iff_settled]
  constructor
  · rintro ⟨items, rfl, hsettled, rfl⟩
    refine ⟨items, rfl, ?_⟩
    rw [directives, hsettled.merged_eq, directivesAfter_eq]
    rfl
  · rintro ⟨items, rfl, rfl⟩
    refine ⟨merged items, (chars_merged items).symm, settled_merged items, ?_⟩
    rw [directives, directivesAfter_eq]
    rfl

/-- A mark stands at its first place: a text that ends in a dollar is closed by
a second one, and a comment may hold the marks of other directives. -/
example : "$c$$.$($.$i$)".toList =
    chars [.text .command ⟨['$'], by decide⟩, .comment ⟨['$', '.', '$', 'i'], by decide⟩] := by
  decide

end Typeset

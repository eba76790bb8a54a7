import Typeset.Proofs.Directive.Exactness

/-!
# Texts behind definition files

A text behind a definition file is read as if it stood alone, on later lines. Only
runs of blanks can grow together where the two meet, and these say nothing. So it does
not matter to what a text says how much of it was read as a file before. In
particular no file that a text begins with reaches further than the reading of it.
-/

namespace Typeset

open Text Layout

/-- The same directive, so many lines further down. -/
def Directive.below (n : Nat) (d : Directive) : Directive := { d with line := d.line + n }

/-- The directives that say something: all but blanks and comments. -/
def telling (ds : List Directive) : List Directive := ds.filter fun d => d.content != .blank

@[simp] theorem telling_append (ds ds' : List Directive) :
    telling (ds ++ ds') = telling ds ++ telling ds' :=
  List.filter_append ds ds'

/-- Directives further down say what they said. -/
theorem telling_below (n : Nat) (ds : List Directive) :
    telling (ds.map (·.below n)) = (telling ds).map (·.below n) := by
  unfold telling
  rw [List.filter_map]
  rfl

/-- On a later line the same is read, further down. -/
theorem readFrom_add (line n : Nat) (s : List Char) :
    readFrom (line + n) s =
      ⟨(readFrom line s).directives.map (·.below n), (readFrom line s).remaining,
        (readFrom line s).line + n⟩ := by
  fun_induction readFrom line s with
  | case1 line s h => exact readFrom_of_none h _
  | case2 line s content rest h read ih =>
    rw [readFrom_of_some h, Nat.add_right_comm, ih]
    rfl

/-- A run of blanks that does not stop goes on with a run that does. -/
theorem exists_gap_of_not_stopsAt {s : List Char} (h : ¬StopsAt isLayoutBlank s) :
    ∃ (g : Blanks) (rest : List Char),
      s = (Item.gap g).chars ++ rest ∧ StopsAt isLayoutBlank rest := by
  cases hgap : layoutGap? s with
  | none =>
    unfold layoutGap? at hgap
    split at hgap
    · rename_i hnil
      have hdrop := List.takeWhile_append_dropWhile (p := isLayoutBlank) (l := s)
      rw [List.isEmpty_iff.mp hnil, List.nil_append] at hdrop
      exact absurd (hdrop ▸ stopsAt_dropWhile isLayoutBlank s) h
    · cases hgap
  | some rest =>
    obtain ⟨g, hs, hstop⟩ := layoutGap?_eq_some_iff.mp hgap
    exact ⟨g, rest, hs, hstop⟩

/-- A text is read alike alone and behind an item, but for a run of blanks that the
item begins. -/
theorem readFrom_behind_item (line : Nat) (i : Item) (rest : List Char) :
    (readFrom line (i.chars ++ rest)).remaining =
        (readFrom (line + lineFeeds i.chars) rest).remaining ∧
      telling (readFrom line (i.chars ++ rest)).directives =
        telling [⟨i.content, line⟩] ++
          telling (readFrom (line + lineFeeds i.chars) rest).directives := by
  by_cases hends : i.EndsAt rest
  · rw [readFrom_cons hends]
    exact ⟨rfl, telling_append [_] _⟩
  · obtain ⟨g, rfl⟩ : ∃ g, i = .gap g := by
      cases i with
      | gap g => exact ⟨g, rfl⟩
      | comment body => exact absurd trivial hends
      | scheme isIdentifier before first more after template => exact absurd trivial hends
      | text role body => exact absurd trivial hends
    -- The blanks of the item and those behind it are read as one run.
    obtain ⟨g', after, rfl, hstop⟩ := exists_gap_of_not_stopsAt hends
    have hjoint : (Item.gap g).chars ++ ((Item.gap g').chars ++ after) =
        (Item.gap (g.append g')).chars ++ after := (List.append_assoc _ _ _).symm
    have hlines : line + lineFeeds (Item.gap (g.append g')).chars =
        line + lineFeeds (Item.gap g).chars + lineFeeds (Item.gap g').chars := by
      rw [Nat.add_assoc, ← lineFeeds_append]
      rfl
    have hboth : (Item.gap (g.append g')).EndsAt after := hstop
    have hlast : (Item.gap g').EndsAt after := hstop
    rw [hjoint, readFrom_cons hboth, hlines, readFrom_cons hlast]
    exact ⟨rfl, rfl⟩

/-- A text is read alike alone and behind a layout, but for a run of blanks that the
layout ends with. -/
theorem readFrom_behind (line : Nat) (items : Layout) (rest : List Char) :
    (readFrom line (chars items ++ rest)).remaining =
        (readFrom (line + lineFeeds (chars items)) rest).remaining ∧
      telling (readFrom line (chars items ++ rest)).directives =
        telling ((Layout.spansFrom line items).map (·.1)) ++
          telling (readFrom (line + lineFeeds (chars items)) rest).directives := by
  induction items generalizing line with
  | nil => exact ⟨rfl, rfl⟩
  | cons i items ih =>
    obtain ⟨hremaining, hdirectives⟩ := readFrom_behind_item line i (chars items ++ rest)
    obtain ⟨ihremaining, ihdirectives⟩ := ih (line + lineFeeds i.chars)
    rw [chars_cons, List.append_assoc, lineFeeds_append, ← Nat.add_assoc, Layout.spansFrom,
      List.map_cons, hremaining, hdirectives, ihremaining, ihdirectives, ← List.append_assoc,
      ← telling_append]
    exact ⟨rfl, rfl⟩

/-- A settled layout is settled at the end of a text. -/
theorem Layout.Settled.of_rest {items : Layout} {rest : List Char} (h : Settled items rest) :
    Settled items [] := by
  induction items with
  | nil => trivial
  | cons i items ih =>
    obtain ⟨hends, hitems⟩ := h
    refine ⟨?_, ih hitems⟩
    rw [List.append_nil]
    cases i with
    | gap g =>
      change StopsAt isLayoutBlank (chars items)
      cases hchars : chars items with
      | nil => exact stopsAt_nil _
      | cons c cs =>
        rw [hchars] at hends
        exact stopsAt_cons.mpr (stopsAt_cons.mp hends)
    | comment body => trivial
    | scheme isIdentifier before first more after template => trivial
    | text role body => trivial

/-- A settled layout is read item by item, up to the line of what follows it. -/
theorem readFrom_of_settled {items : Layout} {rest : List Char} (h : Settled items rest)
    (hrest : content? rest = none) (line : Nat) :
    readFrom line (chars items ++ rest) =
      ⟨(Layout.spansFrom line items).map (·.1), rest, line + lineFeeds (chars items)⟩ := by
  induction items generalizing line with
  | nil => exact readFrom_of_none hrest line
  | cons i items ih =>
    obtain ⟨hends, hitems⟩ := h
    rw [chars_cons, List.append_assoc, readFrom_cons hends, ih hitems, lineFeeds_append,
      Nat.add_assoc]
    rfl

/-- What remains of a text is the end of it. -/
theorem remaining_isSuffix (line : Nat) (s : List Char) : (readFrom line s).remaining <:+ s := by
  obtain ⟨items, rest, rfl, hsettled, hrest⟩ := exists_settled s
  rw [readFrom_of_settled hsettled hrest]
  exact ⟨chars items, rfl⟩

/-- What is read of a source is the longest front of it that is a definition file. The
file has the same directives; no front of the source that reaches further is a file;
and where something remains, it begins on the line that is one more than the line
feeds of the file, and the error says so. -/
theorem longest_file_is_read (verbose : Bool) (s : List Char) :
    ∃ front : List Char, s = front ++ (readDirectives s).remaining ∧
      (parseDefinition verbose front).outcome = .ok (readDirectives s).directives ∧
      (∀ longer ds, longer <+: s → (parseDefinition verbose longer).outcome = .ok ds →
        longer <+: front) ∧
      ((readDirectives s).remaining ≠ [] →
        (readDirectives s).line = 1 + lineFeeds front ∧
        (parseDefinition verbose s).outcome =
          .error ⟨.of (readDirectives s).remaining, 1 + lineFeeds front⟩) := by
  obtain ⟨items, rest, rfl, hsettled, hrest⟩ := exists_settled s
  have hread : readDirectives (chars items ++ rest) =
      ⟨(Layout.spansFrom 1 items).map (·.1), rest, 1 + lineFeeds (chars items)⟩ :=
    readFrom_of_settled hsettled hrest 1
  rw [hread]
  refine ⟨chars items, rfl, ?_, ?_, ?_⟩
  · exact parseDefinition_eq_ok_iff_settled.mpr ⟨items, rfl, hsettled.of_rest, rfl⟩
  · rintro longer ds ⟨tail, htail⟩ hlonger
    obtain ⟨items', rfl, _, _⟩ := parseDefinition_eq_ok_iff_settled.mp hlonger
    -- Behind a longer front less would remain.
    have hremaining := (readFrom_behind 1 items' tail).1
    rw [htail, readFrom_of_settled hsettled hrest 1] at hremaining
    obtain ⟨middle, hmiddle⟩ := remaining_isSuffix (1 + lineFeeds (chars items')) tail
    rw [← hremaining] at hmiddle
    rw [← hmiddle, ← List.append_assoc] at htail
    exact ⟨middle, List.append_cancel_right htail⟩
  · intro hne
    refine ⟨rfl, ?_⟩
    have hincomplete : ¬(rest.isEmpty = true) := by simpa using hne
    rw [outcome_parseDefinition, hread, Reading.complete, if_neg hincomplete]

/-- A scheme without its end is where a text is refused; the file before it, with the
blank behind its last directive, is read. -/
example :
    readDirectives "$h one $.\n$i c x $: x".toList =
        ⟨[⟨.text .header " one ", 1⟩, ⟨.blank, 1⟩], "$i c x $: x".toList, 2⟩ ∧
      (parseDefinition false "$h one $.\n".toList).outcome =
        .ok [⟨.text .header " one ", 1⟩, ⟨.blank, 1⟩] ∧
      (parseDefinition false "$h one $.\n$i c x $: x".toList).outcome =
        .error ⟨.of "$i c x $: x".toList, 2⟩ := by
  decide +kernel

end Typeset

/-!
# Searching and rewriting

The first place where a pattern stands, the text with every place of it
rewritten, and the pieces between the places of one character. All read from
the left, and a rewritten place is not read again. Text that is put into
markup is rewritten character by character: those that markup reads as its own
are written as character references, and inside an attribute the quotes are
written so as well.
-/

namespace Typeset.Text

section Patterns

/-- Drops a pattern that the text begins with. -/
def stripStart? (pattern : List Char) (s : List Char) : Option (List Char) :=
  if pattern.isPrefixOf s then some (s.drop pattern.length) else none

/-- What remains after a pattern is what it was put in front of. -/
theorem stripStart?_eq_some_iff {pattern s rest : List Char} :
    stripStart? pattern s = some rest ↔ s = pattern ++ rest := by
  unfold stripStart?
  constructor
  · intro h
    split at h
    · rename_i hp
      obtain ⟨t, rfl⟩ := List.isPrefixOf_iff_prefix.1 hp
      simp_all
    · simp at h
  · rintro rfl
    simp

/-- Cuts a text at the first place of a pattern, into what stands before it
and what stands after it. -/
def cutAt? (pattern : List Char) : List Char → Option (List Char × List Char)
  | [] => if pattern.isEmpty then some ([], []) else none
  | c :: rest =>
    match stripStart? pattern (c :: rest) with
    | some after => some ([], after)
    | none => (cutAt? pattern rest).map fun (before, after) => (c :: before, after)

/-- A cut loses nothing but the pattern. -/
theorem eq_of_cutAt? {pattern s before after : List Char}
    (h : cutAt? pattern s = some (before, after)) : s = before ++ pattern ++ after := by
  induction s generalizing before with
  | nil =>
    simp only [cutAt?, List.isEmpty_iff] at h
    split at h <;> simp_all
  | cons c rest ih =>
    simp only [cutAt?] at h
    split at h
    · rename_i hs
      obtain ⟨rfl, rfl⟩ := h
      simpa using stripStart?_eq_some_iff.1 hs
    · obtain ⟨⟨b, a⟩, hb, heq⟩ := Option.map_eq_some_iff.1 h
      obtain ⟨rfl, rfl⟩ := heq
      simp [ih hb]

/-- Puts `new` in the place of every occurrence of `pattern`, which is not
empty. `skip` characters of the last occurrence are still to be passed over. -/
def replaceFrom (pattern new : List Char) : Nat → List Char → List Char
  | _, [] => []
  | skip + 1, _ :: rest => replaceFrom pattern new skip rest
  | 0, c :: rest =>
    if pattern.isPrefixOf (c :: rest) then
      new ++ replaceFrom pattern new (pattern.length - 1) rest
    else c :: replaceFrom pattern new 0 rest

/-- Puts `new` in the place of every occurrence of `pattern`, read from the
left without overlap. The empty pattern stands before every character and at
the end. -/
def replaceAll (pattern new s : List Char) : List Char :=
  if pattern.isEmpty then s.flatMap (fun c => new ++ [c]) ++ new else replaceFrom pattern new 0 s

/-- The pieces between the places of a separator; there is one piece more than
there are separators. -/
def pieces (separator : Char) : List Char → List (List Char)
  | [] => [[]]
  | c :: rest =>
    if c = separator then [] :: pieces separator rest
    else
      match pieces separator rest with
      | [] => [[c]]
      | piece :: more => (c :: piece) :: more

/-- One piece more than separators. -/
theorem length_pieces (separator : Char) (s : List Char) :
    (pieces separator s).length = s.count separator + 1 := by
  induction s with
  | nil => rfl
  | cons c rest ih =>
    by_cases h : c = separator
    · simp [pieces, h] at ih ⊢
      omega
    · cases hr : pieces separator rest with
      | nil => simp [hr] at ih
      | cons piece more => simp_all [pieces]

end Patterns

section Markup

/-- The reference that stands for a character of element text, or the
character itself. -/
def textReference : Char → List Char
  | '&' => "&amp;".toList
  | '<' => "&lt;".toList
  | '>' => "&gt;".toList
  | c => [c]

/-- The reference that stands for a character anywhere in markup, the two
quotes included, or the character itself. -/
def reference : Char → List Char
  | '"' => "&quot;".toList
  | '\'' => "&#x27;".toList
  | c => textReference c

/-- Element text: ampersand and angle brackets written as references. -/
def escapeText (s : List Char) : List Char := s.flatMap textReference

/-- Text for any place in markup: the quotes written as references too. -/
def escape (s : String) : String := String.ofList (s.toList.flatMap reference)

/-- Escaping goes character by character. -/
@[simp] theorem escape_append (s t : String) : escape (s ++ t) = escape s ++ escape t := by
  simp [escape, String.ofList_append]

/-- Escaped text opens no element. -/
theorem not_mem_escape (s : String) : '<' ∉ (escape s).toList := by
  simp only [escape, String.toList_ofList, List.mem_flatMap, not_exists, not_and]
  intro c _ hc
  unfold reference textReference at hc
  split at hc
  · simp at hc
  · simp at hc
  · split at hc <;> simp_all [eq_comm]

end Markup

end Typeset.Text

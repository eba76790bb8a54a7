/-!
# Quoted strings

A quoted string stands between two single or two double quotes, and a quote
of its own kind inside it is written twice. A reader of well-formed text
closes a string at the first quote that has no second one beside it. In
malformed text no such quote may follow; then the first of two quotes closes
the string too, the last pair being tried first, and the second quote of that
pair opens the next string. `closings` lists these choices in that order.
-/

namespace Typeset.Text

/-- The two characters that quote a string. -/
def isQuote (c : Char) : Bool := c == '"' || c == '\''

/-- Writes a string between quotes, doubling the quotes inside. -/
def quote (q : Char) (s : List Char) : List Char :=
  q :: s.flatMap (fun c => if c = q then [q, q] else [c]) ++ [q]

/-- Reads the inside of a quoted string: two quotes stand for one. -/
def undouble (q : Char) : List Char → List Char
  | [] => []
  | [c] => [c]
  | c :: d :: rest => if c = q ∧ d = q then q :: undouble q rest else c :: undouble q (d :: rest)

/-- A place where a quoted string may end. -/
structure Closing where
  /-- How many characters stand before the closing quote. -/
  position : Nat
  /-- The text after the closing quote. -/
  rest : List Char
deriving DecidableEq, Repr

/-- The inside of a string as it is written, given the text behind its opening
quote. -/
def Closing.body (c : Closing) (s : List Char) : List Char := s.take c.position

/-- Puts the closings of a string, of which `n` characters were passed over,
before those found further left, the last one first. -/
def closingsOnto (q : Char) (n : Nat) : List Char → List Closing → List Closing
  | [], found => found
  | [c], found => if c = q then ⟨n, []⟩ :: found else found
  | c :: d :: rest, found =>
    if c = q then
      if d = q then closingsOnto q (n + 2) rest (⟨n, d :: rest⟩ :: found)
      else ⟨n, d :: rest⟩ :: found
    else closingsOnto q (n + 1) (d :: rest) found

/-- The closings of a string whose opening quote `q` stands before the text,
the preferred one first. -/
def closings (q : Char) (s : List Char) : List Closing := closingsOnto q 0 s []

/-- A closing was found further left, or stands at its position. -/
theorem eq_of_mem_closingsOnto {q : Char} {n : Nat} {s : List Char} {found : List Closing}
    {c : Closing} (h : c ∈ closingsOnto q n s found) :
    c ∈ found ∨ ∃ body, s = body ++ q :: c.rest ∧ c.position = n + body.length := by
  fun_induction closingsOnto q n s found with
  | case1 => exact .inl h
  | case2 => exact (List.mem_cons.1 h).elim (fun h => .inr ⟨[], by simp_all⟩) .inl
  | case3 => exact .inl h
  | case4 _ _ _ ih =>
    rcases ih h with h | ⟨body, hb, hp⟩
    · exact (List.mem_cons.1 h).elim (fun h => .inr ⟨[], by simp_all⟩) .inl
    · exact .inr ⟨q :: q :: body, by simp [hb], by simp only [hp, List.length_cons]; omega⟩
  | case5 => exact (List.mem_cons.1 h).elim (fun h => .inr ⟨[], by simp_all⟩) .inl
  | case6 _ a _ _ _ _ ih =>
    refine (ih h).imp_right fun ⟨body, hb, hp⟩ => ⟨a :: body, by simp [hb], ?_⟩
    simp only [hp, List.length_cons]
    omega

/-- A closing loses nothing but its quote. -/
theorem eq_of_mem_closings {q : Char} {s : List Char} {c : Closing} (h : c ∈ closings q s) :
    s = c.body s ++ q :: c.rest := by
  obtain ⟨body, hb, hp⟩ := (eq_of_mem_closingsOnto h).resolve_left (by simp)
  rw [Nat.zero_add] at hp
  rw [Closing.body, hp, hb, List.take_left' rfl]

/-- What follows a closing is shorter than the text it was found in. -/
theorem length_rest_lt {q : Char} {s : List Char} {c : Closing} (h : c ∈ closings q s) :
    c.rest.length < s.length := by
  have := congrArg List.length (eq_of_mem_closings h)
  rw [List.length_append, List.length_cons] at this
  omega

/-- Joins the quoted strings of a text and drops what stands between them. A
quote that opens no string is passed over. -/
def joinQuoted : List Char → List Char
  | [] => []
  | c :: rest =>
    if isQuote c then
      match _h : (closings c rest).head? with
      | some closing => undouble c (closing.body rest) ++ joinQuoted closing.rest
      | none => joinQuoted rest
    else joinQuoted rest
termination_by s => s.length
decreasing_by
  · have := length_rest_lt (List.mem_of_head? _h)
    simp
    omega
  · simp
  · simp

/-- What was quoted reads back. -/
theorem undouble_doubled (q : Char) (s : List Char) :
    undouble q (s.flatMap fun c => if c = q then [q, q] else [c]) = s := by
  induction s with
  | nil => rfl
  | cons c rest ih =>
    by_cases h : c = q
    · simp [h, undouble, ih]
    · simp only [List.flatMap_cons, h, if_false, List.singleton_append]
      generalize hd : (rest.flatMap fun c => if c = q then [q, q] else [c]) = w at ih
      cases w with
      | nil => simp [undouble, ← ih]
      | cons d r => simp [undouble, h, ih]

end Typeset.Text

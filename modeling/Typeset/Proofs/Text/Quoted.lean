import Typeset.Proofs.Text.Runs
import Typeset.Text.Quoted

/-!
# Quoted strings read back

The quotes inside a quoted string stand in pairs. So where what follows the string does
not begin with its quote, the closing quote is the last place at which the string can
end, and this place is preferred. There reading undoes quoting, whatever the string
holds.
-/

namespace Typeset.Text

/-- The inside of a quoted string as it is written. -/
def doubled (q : Char) (s : List Char) : List Char :=
  s.flatMap fun c => if c = q then [q, q] else [c]

variable {q c : Char} {s rest : List Char}

@[simp] theorem doubled_nil (q : Char) : doubled q [] = [] := rfl

/-- The quote itself is written twice. -/
theorem doubled_cons_self (q : Char) (s : List Char) :
    doubled q (q :: s) = q :: q :: doubled q s := by
  simp [doubled]

/-- Any other character is written once. -/
theorem doubled_cons_of_ne (h : c ≠ q) (s : List Char) :
    doubled q (c :: s) = c :: doubled q s := by
  simp [doubled, h]

/-- A quoted string is its inside between quotes. -/
theorem quote_append (q : Char) (s rest : List Char) :
    quote q s ++ rest = q :: (doubled q s ++ q :: rest) := by
  rw [quote, List.append_assoc]
  rfl

/-- Only a quote can close a string. -/
theorem closingsOnto_of_ne (h : c ≠ q) (n : Nat) (s : List Char) (found : List Closing) :
    closingsOnto q n (c :: s) found = closingsOnto q (n + 1) s found := by
  cases s <;> simp [closingsOnto, h]

/-- The last closing of a string is the quote behind its inside. -/
theorem exists_closingsOnto (hrest : StopsAt (· == q) rest) (s : List Char) (n : Nat)
    (found : List Closing) : ∃ more, closingsOnto q n (doubled q s ++ q :: rest) found =
      ⟨n + (doubled q s).length, rest⟩ :: more := by
  induction s generalizing n found with
  | nil =>
    refine ⟨found, ?_⟩
    cases rest with
    | nil => simp [closingsOnto]
    | cons d rest =>
      have hd : d ≠ q := by simpa using hrest
      simp [closingsOnto, hd]
  | cons c s ih =>
    by_cases hc : c = q
    · subst hc
      obtain ⟨more, hmore⟩ := ih (n + 2) (⟨n, c :: (doubled c s ++ c :: rest)⟩ :: found)
      refine ⟨more, ?_⟩
      have hlength : n + (c :: c :: doubled c s).length = n + 2 + (doubled c s).length := by
        simp only [List.length_cons]
        omega
      rw [doubled_cons_self, hlength, ← hmore]
      simp [closingsOnto]
    · obtain ⟨more, hmore⟩ := ih (n + 1) found
      refine ⟨more, ?_⟩
      have hlength : n + (c :: doubled q s).length = n + 1 + (doubled q s).length := by
        simp only [List.length_cons]
        omega
      rw [doubled_cons_of_ne hc, hlength, List.cons_append, closingsOnto_of_ne hc, hmore]

/-- The preferred closing of a quoted string is the quote behind its inside. -/
theorem exists_closings (hrest : StopsAt (· == q) rest) (s : List Char) :
    ∃ more, closings q (doubled q s ++ q :: rest) = ⟨(doubled q s).length, rest⟩ :: more := by
  obtain ⟨more, hmore⟩ := exists_closingsOnto hrest s 0 []
  rw [Nat.zero_add] at hmore
  exact ⟨more, hmore⟩

/-- The inside of a quoted string, closed where it ends, reads as the string. -/
theorem undouble_body (q : Char) (s rest : List Char) :
    undouble q (Closing.body ⟨(doubled q s).length, rest⟩ (doubled q s ++ q :: rest)) = s := by
  rw [Closing.body, List.take_left' rfl]
  exact undouble_doubled q s

/-- A quoted string is joined with what follows it. -/
theorem joinQuoted_quote (hq : isQuote q = true) (hrest : StopsAt (· == q) rest)
    (s : List Char) : joinQuoted (quote q s ++ rest) = s ++ joinQuoted rest := by
  obtain ⟨more, hmore⟩ := exists_closings hrest s
  rw [quote_append, joinQuoted, if_pos hq]
  split
  · rename_i closing hhead
    rw [hmore] at hhead
    cases hhead
    rw [undouble_body]
  · rename_i hnone
    rw [hmore] at hnone
    cases hnone

/-- What stands outside of strings is dropped. -/
theorem joinQuoted_append (hs : ∀ c ∈ s, isQuote c = false) (rest : List Char) :
    joinQuoted (s ++ rest) = joinQuoted rest := by
  induction s with
  | nil => rfl
  | cons c s ih =>
    rw [List.forall_mem_cons] at hs
    rw [List.cons_append, joinQuoted, hs.1]
    exact ih hs.2

/-- A mark without quotes that is nowhere in a string is nowhere in the inside of the
quoted string. -/
theorem not_isInfix_doubled {a b : Char} (ha : a ≠ q) (hb : b ≠ q) (hs : ¬[a, b] <:+: s) :
    ¬[a, b] <:+: doubled q s := by
  induction s with
  | nil => exact hs
  | cons c s ih =>
    obtain ⟨hhead, htail⟩ := not_isInfix_cons.mp hs
    by_cases hc : c = q
    · subst hc
      rw [doubled_cons_self, not_isInfix_cons, not_isInfix_cons]
      exact ⟨fun h => ha h.1, fun h => ha h.1, ih htail⟩
    · rw [doubled_cons_of_ne hc, not_isInfix_cons]
      refine ⟨?_, ih htail⟩
      rintro ⟨rfl, hmem⟩
      -- The inside begins with the second character of the mark only if the string does.
      cases s with
      | nil => cases hmem
      | cons d s =>
        by_cases hd : d = q
        · subst hd
          rw [doubled_cons_self] at hmem
          exact hb (Option.some.inj hmem).symm
        · rw [doubled_cons_of_ne hd] at hmem
          exact hhead ⟨rfl, hmem⟩

/-- A quoted string brings no mark without quotes to the text behind it if the mark is
nowhere in the string. -/
theorem not_isInfix_quote_append {a b : Char} (ha : a ≠ q) (hb : b ≠ q) (hs : ¬[a, b] <:+: s)
    (hrest : ¬[a, b] <:+: rest) : ¬[a, b] <:+: quote q s ++ rest := by
  have hclose : ¬[a, b] <:+: q :: rest := not_isInfix_cons.mpr ⟨fun h => ha h.1, hrest⟩
  have hinside : ¬[a, b] <:+: doubled q s ++ q :: rest :=
    not_isInfix_append (not_isInfix_doubled ha hb hs) hclose (by simpa using hb.symm)
  rw [quote_append]
  exact not_isInfix_cons.mpr ⟨fun h => ha h.1, hinside⟩

end Typeset.Text

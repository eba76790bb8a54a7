import Typeset.Proofs.Highlight.Rules

/-!
# Lexing loses nothing

The lexer is a machine that stands at a place of the text with a stack of
modes. The first rule of the present mode that matches takes it on; should none
match, it goes on by default, with an error or with the stack begun anew. The
rules of every mode leave no character out, each takes one character at least
and no more than there are, and none that leaves a mode is in the outermost
one. So the machine never goes on by default and never runs out of modes, on
any text whatever, and its tokens make up the text.
-/

namespace Typeset.Highlight

open Text

section Taking

/-- What takes a number of characters takes one at least, and no more than there
are. -/
def TakesWithin (take : List Char → Option Nat) : Prop :=
  ∀ s n, take s = some n → 0 < n ∧ n ≤ s.length

theorem takesWithin_literal {pattern : String} (h : pattern.toList ≠ []) :
    TakesWithin (literal pattern) := by
  intro s n hn
  unfold literal at hn
  split at hn
  · rename_i hhead
    cases hn
    rw [← String.length_toList]
    exact ⟨List.length_pos_iff.mpr h, (List.isPrefixOf_iff_prefix.mp hhead).length_le⟩
  · cases hn

theorem takesWithin_one (p : Char → Bool) : TakesWithin (one p) := by
  intro s n hn
  unfold one at hn
  split at hn
  · cases hn
  · split at hn
    · cases hn
      simp
    · cases hn

theorem takesWithin_run (p : Char → Bool) : TakesWithin (run p) := by
  intro s n hn
  unfold run at hn
  dsimp only at hn
  split at hn
  · cases hn
  · rename_i hne
    cases hn
    exact ⟨Nat.pos_of_ne_zero hne, (List.takeWhile_sublist p).length_le⟩

/-- A comment takes its two marks and what is between them. -/
theorem takesWithin_comment : TakesWithin comment := by
  intro s n hn
  unfold comment at hn
  obtain ⟨inside, hopen, hn⟩ := Option.bind_eq_some_iff.mp hn
  obtain ⟨⟨before, after⟩, hclose, hn⟩ := Option.bind_eq_some_iff.mp hn
  cases hn
  have hs := congrArg List.length (stripStart?_eq_some_iff.mp hopen)
  have hinside := congrArg List.length (eq_of_cutAt? hclose)
  simp only [List.length_append, String.length_toList] at hs hinside
  have hmarks : "$(".length = 2 ∧ "$)".length = 2 := by decide
  omega

theorem takesWithin_schemeKeyword : TakesWithin schemeKeyword := by
  intro s n hn
  unfold schemeKeyword at hn
  split at hn
  · split at hn
    · cases hn
      simp
    · cases hn
  · cases hn

theorem takesWithin_textKeyword : TakesWithin textKeyword := by
  intro s n hn
  unfold textKeyword at hn
  split at hn
  · split at hn
    · cases hn
      simp
    · cases hn
  · cases hn

theorem takesWithin_placeholder : TakesWithin placeholder := by
  intro s n hn
  obtain ⟨front, rest, rfl, hne, -, rfl⟩ := exists_of_placeholder hn
  exact ⟨List.length_pos_iff.mpr hne, by simp⟩

/-- Every rule of every mode takes one character at least, and no more than there
are. -/
theorem takesWithin_of_mem_rules {mode : Mode} {r : Rule} (hr : r ∈ rules mode) :
    TakesWithin r.taken? := by
  cases mode with
  | root =>
    simp only [rules, List.mem_cons, List.not_mem_nil, or_false] at hr
    rcases hr with rfl | rfl | rfl | rfl | rfl
    · exact takesWithin_comment
    · exact takesWithin_schemeKeyword
    · exact takesWithin_textKeyword
    · exact takesWithin_run _
    · exact takesWithin_one _
  | math =>
    simp only [rules, List.mem_cons, List.not_mem_nil, or_false] at hr
    rcases hr with rfl | rfl | rfl | rfl
    · exact takesWithin_literal (by decide)
    · exact takesWithin_run _
    · exact takesWithin_run _
    · exact takesWithin_one _
  | template =>
    simp only [rules, List.mem_cons, List.not_mem_nil, or_false] at hr
    rcases hr with rfl | rfl | rfl | rfl
    · exact takesWithin_literal (by decide)
    · exact takesWithin_placeholder
    · exact takesWithin_run _
    · exact takesWithin_one _
  | text =>
    simp only [rules, List.mem_cons, List.not_mem_nil, or_false] at hr
    rcases hr with rfl | rfl | rfl
    · exact takesWithin_literal (by decide)
    · exact takesWithin_run _
    · exact takesWithin_one _

/-- A run takes what begins with a character of its class. -/
theorem isSome_run {p : Char → Bool} {c : Char} {s : List Char} (hc : p c = true) :
    (run p (c :: s)).isSome := by
  simp [run, hc]

/-- The rule for one character takes what begins with a character of its class. -/
theorem isSome_one {p : Char → Bool} {c : Char} {s : List Char} (hc : p c = true) :
    (one p (c :: s)).isSome := by
  simp [one, hc]

/-- A rule for runs of one class and a rule for single characters of another leave
no character of either class out. -/
theorem exists_rule_of_class {rs : List Rule} {p q : Char → Bool} {k k' : Kind}
    (hrun : ⟨run p, k, .stay⟩ ∈ rs) (hone : ⟨one q, k', .stay⟩ ∈ rs) {c : Char}
    (hc : p c = true ∨ q c = true) (s : List Char) :
    ∃ r ∈ rs, (r.taken? (c :: s)).isSome := by
  rcases hc with hp | hq
  · exact ⟨_, hrun, isSome_run (s := s) hp⟩
  · exact ⟨_, hone, isSome_one (s := s) hq⟩

/-- The only character that the rule for misplaced ones does not take is a blank. -/
theorem isBlank_or_ne (c : Char) : isBlank c = true ∨ (c != '\n') = true := by
  by_cases hc : c = '\n'
  · subst hc
    exact .inl (by decide)
  · exact .inr (bne_iff_ne.mpr hc)

/-- In every mode some rule matches wherever the text goes on: it has a rule for runs
and one for single characters whose classes make up all characters. -/
theorem exists_rule (mode : Mode) (c : Char) (s : List Char) :
    ∃ r ∈ rules mode, (r.taken? (c :: s)).isSome := by
  cases mode with
  | root =>
    have hrun : ⟨run isBlank, .blank, .stay⟩ ∈ rules .root := by simp [rules]
    have hone : ⟨one (· != '\n'), .error, .stay⟩ ∈ rules .root := by simp [rules]
    exact exists_rule_of_class hrun hone (isBlank_or_ne c) s
  | math =>
    have hrun : ⟨run isBlank, .blank, .stay⟩ ∈ rules .math := by simp [rules]
    have hone : ⟨one (· != '\n'), .error, .stay⟩ ∈ rules .math := by simp [rules]
    exact exists_rule_of_class hrun hone (isBlank_or_ne c) s
  | template =>
    have hrun : ⟨run fun c => c != '$' && c != '#', .template, .stay⟩ ∈ rules .template := by
      simp [rules]
    have hone : ⟨one fun c => c == '$' || c == '#', .template, .stay⟩ ∈ rules .template := by
      simp [rules]
    exact exists_rule_of_class hrun hone (by grind) s
  | text =>
    have hrun : ⟨run (· != '$'), .text, .stay⟩ ∈ rules .text := by simp [rules]
    have hone : ⟨one (· == '$'), .text, .stay⟩ ∈ rules .text := by simp [rules]
    exact exists_rule_of_class hrun hone (by grind) s

/-- The first match is that of one of the rules. -/
theorem of_firstMatch {rs : List Rule} {s : List Char} {r : Rule} {n : Nat}
    (h : firstMatch rs s = some (r, n)) : r ∈ rs ∧ r.taken? s = some n := by
  obtain ⟨r', hr', hmatch⟩ := List.exists_of_findSome?_eq_some h
  obtain ⟨n', hn', heq⟩ := Option.map_eq_some_iff.mp hmatch
  cases heq
  exact ⟨hr', hn'⟩

/-- In every mode the first match takes one character at least, and no more than
there are. -/
theorem firstMatch_within {mode : Mode} {s : List Char} {r : Rule} {n : Nat}
    (h : firstMatch (rules mode) s = some (r, n)) : 0 < n ∧ n ≤ s.length := by
  obtain ⟨hr, hn⟩ := of_firstMatch h
  exact takesWithin_of_mem_rules hr s n hn

/-- In every mode there is a match wherever the text goes on. -/
theorem exists_firstMatch (mode : Mode) {s : List Char} (hs : s ≠ []) :
    ∃ r n, firstMatch (rules mode) s = some (r, n) := by
  obtain ⟨c, s, rfl⟩ := List.exists_cons_of_ne_nil hs
  obtain ⟨r, hr, hsome⟩ := exists_rule mode c s
  cases hmatch : firstMatch (rules mode) (c :: s) with
  | some found => exact ⟨found.1, found.2, rfl⟩
  | none =>
    have hnone := List.findSome?_eq_none_iff.mp hmatch r hr
    rw [Option.map_eq_none_iff] at hnone
    rw [hnone] at hsome
    cases hsome

end Taking

section Stack

/-- How many modes a move leaves. -/
def Move.leaves : Move → Nat
  | stay | enter _ => 0
  | .leave | change _ => 1

/-- The outermost mode is at the bottom of the stack, and at most one other mode
is above it. -/
def Shallow (stack : List Mode) : Prop :=
  stack = [.root] ∨ ∃ mode, mode ≠ .root ∧ stack = [mode, .root]

theorem Shallow.ne_nil {stack : List Mode} (h : Shallow stack) : stack ≠ [] := by
  rcases h with rfl | ⟨mode, -, rfl⟩ <;> simp

/-- In the outermost mode a rule may enter another mode, and leaves none. -/
theorem move_of_mem_rules_root {r : Rule} (hr : r ∈ rules .root) :
    r.move = .stay ∨ ∃ mode, mode ≠ .root ∧ r.move = .enter mode := by
  simp only [rules, List.mem_cons, List.not_mem_nil, or_false] at hr
  rcases hr with rfl | rfl | rfl | rfl | rfl
  · exact .inl rfl
  · exact .inr ⟨.math, by decide, rfl⟩
  · exact .inr ⟨.text, by decide, rfl⟩
  · exact .inl rfl
  · exact .inl rfl

/-- In any other mode a rule may leave the mode, also for another one, and enters
none on top of it. -/
theorem move_of_mem_rules {mode : Mode} (hmode : mode ≠ .root) {r : Rule} (hr : r ∈ rules mode) :
    r.move = .stay ∨ r.move = .leave ∨ ∃ mode', mode' ≠ .root ∧ r.move = .change mode' := by
  cases mode with
  | root => exact absurd rfl hmode
  | math =>
    simp only [rules, List.mem_cons, List.not_mem_nil, or_false] at hr
    rcases hr with rfl | rfl | rfl | rfl
    · exact .inr (.inr ⟨.template, by decide, rfl⟩)
    all_goals exact .inl rfl
  | template =>
    simp only [rules, List.mem_cons, List.not_mem_nil, or_false] at hr
    rcases hr with rfl | rfl | rfl | rfl
    · exact .inr (.inl rfl)
    all_goals exact .inl rfl
  | text =>
    simp only [rules, List.mem_cons, List.not_mem_nil, or_false] at hr
    rcases hr with rfl | rfl | rfl
    · exact .inr (.inl rfl)
    all_goals exact .inl rfl

/-- A rule leaves fewer modes than there are, and the stack stays shallow. -/
theorem Shallow.apply {mode : Mode} {below : List Mode} (h : Shallow (mode :: below)) {r : Rule}
    (hr : r ∈ rules mode) :
    r.move.leaves < (mode :: below).length ∧ Shallow (r.move.apply (mode :: below)) := by
  rcases h with hroot | ⟨mode', hmode', htwo⟩
  · obtain ⟨rfl, rfl⟩ := List.cons.inj hroot
    rcases move_of_mem_rules_root hr with hmove | ⟨mode', hmode', hmove⟩
    · rw [hmove]
      exact ⟨Nat.one_pos, .inl rfl⟩
    · rw [hmove]
      exact ⟨Nat.one_pos, .inr ⟨mode', hmode', rfl⟩⟩
  · obtain ⟨rfl, rfl⟩ := List.cons.inj htwo
    rcases move_of_mem_rules hmode' hr with hmove | hmove | ⟨mode'', hmode'', hmove⟩
    · rw [hmove]
      exact ⟨Nat.two_pos, .inr ⟨mode, hmode', rfl⟩⟩
    · rw [hmove]
      exact ⟨Nat.one_lt_two, .inl rfl⟩
    · rw [hmove]
      exact ⟨Nat.one_lt_two, .inr ⟨mode'', hmode'', rfl⟩⟩

end Stack

/-- Where the lexer stands. -/
structure State where
  /-- How many characters it has passed. -/
  passed : Nat
  /-- The stack of modes. -/
  stack : List Mode
  /-- What it has not read yet. -/
  left : List Char

/-- The lexer goes on by a rule: the first one of the present mode that matches at
the place takes the token. -/
inductive ByRule : State → Nat × Token → State → Prop where
  /-- The matching rule changes the stack. -/
  | intro {passed : Nat} {mode : Mode} {below : List Mode} {front rest : List Char} {r : Rule}
    (hmatch : firstMatch (rules mode) (front ++ rest) = some (r, front.length)) :
    ByRule ⟨passed, mode :: below, front ++ rest⟩ (passed, ⟨r.kind, front⟩)
      ⟨passed + front.length, r.move.apply (mode :: below), rest⟩

/-- The lexer goes on by default, since no rule of the present mode matches at the
place. -/
inductive ByDefault : State → Nat × Token → State → Prop where
  /-- A character is an error. -/
  | error {passed : Nat} {mode : Mode} {below : List Mode} {c : Char} {rest : List Char}
    (hnone : firstMatch (rules mode) (c :: rest) = none) (hc : c ≠ '\n') :
    ByDefault ⟨passed, mode :: below, c :: rest⟩ (passed, ⟨.error, [c]⟩)
      ⟨passed + 1, mode :: below, rest⟩
  /-- A line feed begins the stack anew. -/
  | reset {passed : Nat} {mode : Mode} {below : List Mode} {rest : List Char}
    (hnone : firstMatch (rules mode) ('\n' :: rest) = none) :
    ByDefault ⟨passed, mode :: below, '\n' :: rest⟩ (passed, ⟨.blank, ['\n']⟩)
      ⟨passed + 1, [.root], rest⟩

/-- The lexer goes on from state to state and gives tokens with their positions. -/
inductive Lexes : State → List (Nat × Token) → State → Prop where
  /-- It stays where it is. -/
  | refl (p : State) : Lexes p [] p
  /-- It goes on. -/
  | step {p q r : State} {t : Nat × Token} {ts : List (Nat × Token)}
    (hstep : ByRule p t q ∨ ByDefault p t q) (hrun : Lexes q ts r) : Lexes p (t :: ts) r

/-- The state in which the lexer begins. -/
def State.start (s : List Char) : State := ⟨0, [.root], s⟩

variable {p q r : State} {t : Nat × Token} {ts : List (Nat × Token)}

/-- Nowhere does the lexer go on by default. -/
theorem not_byDefault (p : State) (t : Nat × Token) (q : State) : ¬ByDefault p t q := by
  intro h
  cases h with
  | @error _ mode _ c rest hnone _ =>
    obtain ⟨r, n, hmatch⟩ := exists_firstMatch mode (List.cons_ne_nil c rest)
    rw [hmatch] at hnone
    cases hnone
  | @reset _ mode _ rest hnone =>
    obtain ⟨r, n, hmatch⟩ := exists_firstMatch mode (List.cons_ne_nil '\n' rest)
    rw [hmatch] at hnone
    cases hnone

/-- What one step by a rule does: the token stands at the place and is not empty, and
the place behind it is where it ends. The stack stays shallow. -/
theorem ByRule.passes (h : ByRule p t q) :
    t.1 = p.passed ∧ t.2.text ≠ [] ∧ p.left = t.2.text ++ q.left ∧
      q.passed = p.passed + t.2.text.length ∧ (Shallow p.stack → Shallow q.stack) := by
  obtain ⟨hmatch⟩ := h
  refine ⟨rfl, ?_, rfl, rfl, fun hshallow => (hshallow.apply (of_firstMatch hmatch).1).2⟩
  exact List.length_pos_iff.mp (firstMatch_within hmatch).1

/-- What a run does: the tokens are not empty and make up what was read, and each has
its position. The stack stays shallow. -/
theorem Lexes.passes (h : Lexes p ts q) :
    (∀ t ∈ ts, t.2.text ≠ []) ∧ p.left = ts.flatMap (·.2.text) ++ q.left ∧
      (∀ front t back, ts = front ++ t :: back →
        t.1 = p.passed + (front.flatMap (·.2.text)).length) ∧
      (Shallow p.stack → Shallow q.stack) := by
  induction h with
  | refl p => simp
  | @step p q r t ts hstep _ ih =>
    obtain ⟨hposition, hne, hleft, hpassed, hstack⟩ :=
      (hstep.resolve_right (not_byDefault p t q)).passes
    obtain ⟨hnes, hlefts, hpositions, hstacks⟩ := ih
    refine ⟨List.forall_mem_cons.mpr ⟨hne, hnes⟩, ?_, ?_, fun hp => hstacks (hstack hp)⟩
    · rw [hleft, hlefts, List.flatMap_cons, List.append_assoc]
    · intro front t' back hsplit
      cases front with
      | nil =>
        obtain ⟨rfl, -⟩ := List.cons.inj hsplit
        simpa using hposition
      | cons t'' front =>
        obtain ⟨rfl, htail⟩ := List.cons.inj hsplit
        rw [hpositions front t' back htail, hpassed, List.flatMap_cons, List.length_append]
        omega

/-- A place is left by one step at most. -/
theorem ByRule.unique {t' : Nat × Token} {q' : State} (h : ByRule p t q) (h' : ByRule p t' q') :
    t = t' ∧ q = q' := by
  obtain ⟨hmatch⟩ := h
  generalize hp : State.mk _ _ _ = p at h'
  obtain ⟨hmatch'⟩ := h'
  obtain ⟨rfl, hstack, hsplit⟩ := State.mk.inj hp
  obtain ⟨rfl, rfl⟩ := List.cons.inj hstack
  rw [hsplit, hmatch'] at hmatch
  obtain ⟨rfl, hlength⟩ := Prod.mk.inj (Option.some.inj hmatch)
  obtain ⟨rfl, rfl⟩ := List.append_inj hsplit hlength.symm
  exact ⟨rfl, rfl⟩

/-- At the end of a text no rule matches. -/
theorem not_byRule_of_left_eq_nil (hp : p.left = []) : ¬ByRule p t q := by
  intro h
  obtain ⟨-, hne, hleft, -⟩ := h.passes
  rw [hp] at hleft
  exact hne (List.append_eq_nil_iff.mp hleft.symm).1

/-- Every run is the beginning of a run to the end of the text. -/
theorem Lexes.isPrefix {ts' : List (Nat × Token)} (h : Lexes p ts q) (h' : Lexes p ts' r)
    (hend : r.left = []) : ts <+: ts' := by
  induction h generalizing ts' with
  | refl p => exact List.nil_prefix
  | @step p q q' t ts hstep _ ih =>
    have hrule := hstep.resolve_right (not_byDefault p t q)
    cases h' with
    | refl => exact absurd hrule (not_byRule_of_left_eq_nil hend)
    | @step _ q'' _ t' ts' hstep' hrun' =>
      obtain ⟨rfl, rfl⟩ := hrule.unique (hstep'.resolve_right (not_byDefault p t' q''))
      exact List.cons_prefix_cons.mpr ⟨rfl, ih hrun'⟩

/-- The tokens of a text are those of a run to its end. -/
theorem exists_run_lexFrom (s : List Char) :
    ∀ passed stack, Shallow stack → ∃ stack',
      Lexes ⟨passed, stack, s⟩ (positions passed (lexFrom stack s))
        ⟨passed + s.length, stack', []⟩ := by
  -- On the length, since the lexer goes on behind a whole token.
  induction hn : s.length using Nat.strongRecOn generalizing s with
  | ind n ih =>
    intro passed stack hstack
    obtain ⟨mode, below, rfl⟩ := List.exists_cons_of_ne_nil hstack.ne_nil
    by_cases hs : s = []
    · subst hs
      refine ⟨mode :: below, ?_⟩
      rw [lexFrom.eq_def, ← hn]
      exact .refl _
    · obtain ⟨r, m, hmatch⟩ := exists_firstMatch mode hs
      obtain ⟨hpos, hle⟩ := firstMatch_within hmatch
      obtain ⟨front, rest, rfl, rfl⟩ : ∃ front rest, s = front ++ rest ∧ m = front.length :=
        ⟨s.take m, s.drop m, (List.take_append_drop m s).symm, by simp [hle]⟩
      have hshallow := (hstack.apply (of_firstMatch hmatch).1).2
      rw [List.length_append] at hn
      obtain ⟨stack', hrun⟩ := ih rest.length (by omega) rest rfl (passed + front.length) _ hshallow
      refine ⟨stack', ?_⟩
      rw [lexFrom_append (List.length_pos_iff.mp hpos) hmatch, positions]
      refine .step (.inl (.intro hmatch)) ?_
      rwa [Nat.add_assoc, hn] at hrun

/-- The tokens behind positions. -/
theorem map_positions (start : Nat) (ts : List Token) : (positions start ts).map (·.2) = ts := by
  induction ts generalizing start with
  | nil => rfl
  | cons t ts ih => rw [positions, List.map_cons, ih]

/-- Lexing loses nothing. The tokens of a text, with their positions, are those of a
run of the lexer to its end, and no run gives any other. They are not empty, make up
the text, and each stands where those before it end. Wherever a run comes to there is
a mode, no matching rule leaves as many modes as there are, and the lexer does not go
on by default: in every mode some rule matches wherever the text goes on, and takes
one character at least and no more than there are. -/
theorem lexing_loses_nothing (s : List Char) :
    (∃ stack, Lexes (.start s) (positions 0 (lex s)) ⟨s.length, stack, []⟩) ∧
    (∀ ts p, Lexes (.start s) ts p → ts <+: positions 0 (lex s)) ∧
    (∀ t ∈ lex s, t.text ≠ []) ∧ (lex s).flatMap (·.text) = s ∧
    (∀ front position t back, positions 0 (lex s) = front ++ (position, t) :: back →
      position = (front.flatMap (·.2.text)).length) ∧
    (∀ ts p, Lexes (.start s) ts p → p.stack ≠ [] ∧
      (∀ mode below r n, p.stack = mode :: below → firstMatch (rules mode) p.left = some (r, n) →
        r.move.leaves < p.stack.length) ∧
      ∀ t q, ¬ByDefault p t q) ∧
    ∀ mode rest, rest ≠ [] →
      ∃ r n, firstMatch (rules mode) rest = some (r, n) ∧ 0 < n ∧ n ≤ rest.length := by
  have hcomplete : ∃ stack, Lexes (.start s) (positions 0 (lex s)) ⟨s.length, stack, []⟩ := by
    have hrun := exists_run_lexFrom s 0 [.root] (.inl rfl)
    rwa [Nat.zero_add] at hrun
  obtain ⟨stack, hrun⟩ := hcomplete
  obtain ⟨hne, hleft, hpositions, -⟩ := hrun.passes
  refine ⟨⟨stack, hrun⟩, ?_, ?_, ?_, ?_, ?_, ?_⟩
  · intro ts p h
    exact h.isPrefix hrun rfl
  · intro t ht
    have hmem : t ∈ (positions 0 (lex s)).map (·.2) := by rwa [map_positions]
    obtain ⟨located, hlocated, rfl⟩ := List.mem_map.mp hmem
    exact hne located hlocated
  · rw [← map_positions 0 (lex s), List.flatMap_map]
    simpa [State.start] using hleft.symm
  · intro front position t back hsplit
    simpa [State.start] using hpositions front (position, t) back hsplit
  · intro ts p h
    have hshallow : Shallow p.stack := h.passes.2.2.2 (.inl rfl)
    refine ⟨hshallow.ne_nil, ?_, fun t q => not_byDefault p t q⟩
    intro mode below r n hstack hmatch
    rw [hstack] at hshallow ⊢
    exact (hshallow.apply (of_firstMatch hmatch).1).1
  · intro mode rest hrest
    obtain ⟨r, n, hmatch⟩ := exists_firstMatch mode hrest
    exact ⟨r, n, hmatch, firstMatch_within hmatch⟩

end Typeset.Highlight

import Typeset.Enumeration
import Typeset.Grammar.Basic

/-!
# Enumerating parses

`parses` lists every way to read an expression of a typecode at the head of a
list of symbols. Rules are tried in the order of their declaration, and each
expression found is given at once, before it is grown: a rule that begins
with a variable of its own typecode is applied to expressions found already,
so that such rules do not lead back to their own start. A typecode that is
being read with nothing consumed yet is *active*, and is not entered again at
the same place.

The search always ends. `room` bounds how often it may go on after a part was
read, and what goes on with the room unchanged makes a new typecode active.
For a grammar whose rules all have symbols, every such step has consumed a
symbol, so a room as large as the input is never used up. With rules without
symbols there may be expressions without end, each found without consuming
anything; the room then only has to outlast those who ask for them.
-/

namespace Typeset

/-- An expression read at the head of an input. -/
structure Parse where
  /-- The expression. -/
  formula : Formula
  /-- What follows it. -/
  rest : List Symbol

/-- The parts of a rule read at the head of an input. -/
structure PartsParse where
  /-- The parts, one for each variable of the rule. -/
  parts : List Formula
  /-- What follows them. -/
  rest : List Symbol

namespace Grammar

/-- How many typecodes with rules are not active. -/
def inactive (g : Grammar) (active : List Typecode) : Nat :=
  g.rules.keys.countP fun tc => tc ∉ active

theorem inactive_le (g : Grammar) (active : List Typecode) : g.inactive active ≤ g.rules.size :=
  g.rules.countP_keys_le _

/-- Entering a typecode with rules leaves fewer of them inactive. -/
theorem inactive_cons_lt {g : Grammar} {active : List Typecode} {tc : Typecode} {rs : List Rule}
    (ha : tc ∉ active) (hr : g.rules.get? tc = some rs) :
    g.inactive (tc :: active) < g.inactive active :=
  countP_lt_countP (a := tc) (by simp +contextual) (Table.mem_keys_of_get? hr)
    (by simpa using ha) (by simp)

/-- What the recursion of the parser descends on: first the room, then the
typecodes that may still become active, then the phase of the search. -/
def weight (g : Grammar) (room inactive phase : Nat) : Nat :=
  (room * (g.rules.size + 1) + inactive) * 3 + phase

theorem weight_lt_of_room {g : Grammar} {r r' m m' p p' : Nat} (hr : r < r')
    (hm : m ≤ g.rules.size) (hp : p < 3) : g.weight r m p < g.weight r' m' p' := by
  have := mul_add_lt_mul_add hr hm m'
  unfold weight
  omega

theorem weight_lt_of_inactive {g : Grammar} {r m m' p p' : Nat} (hm : m < m') (hp : p < 3) :
    g.weight r m p < g.weight r m' p' := by
  unfold weight
  omega

theorem weight_lt_of_phase {g : Grammar} {r m m' p p' : Nat} (hm : m ≤ m') (hp : p < p') :
    g.weight r m p < g.weight r m' p' := by
  unfold weight
  omega

/-- A variable of the typecode at the head of the input. -/
def leaf (g : Grammar) (tc : Typecode) : List Symbol → List Parse
  | [] => []
  | s :: rest =>
    match g.floatings.get? s with
    | some v => if v.typecode = tc then [⟨.node v.label tc [], rest⟩] else []
    | none => []

mutual

/-- The expressions of a typecode at the head of the input, each followed by
all that grows from it. -/
def parses (g : Grammar) (room : Nat) (active : List Typecode) (tc : Typecode)
    (input : List Symbol) : Enumeration Parse :=
  if _ha : tc ∈ active then .done
  else
    let seeds := (Enumeration.ofList (g.leaf tc input)).append fun _ =>
      match _hr : g.rules.get? tc with
      | none => .done
      | some rs =>
        (Enumeration.ofList rs).bind fun r =>
          (g.partsParses room (tc :: active) r.body input).map fun p =>
            ⟨.node r.label tc p.parts, p.rest⟩
    seeds.bind fun p => .item p fun _ =>
      match room with
      | 0 => .cut
      | room + 1 => g.grown room tc p
termination_by g.weight room (g.inactive active) 0
decreasing_by
  · exact weight_lt_of_inactive (inactive_cons_lt _ha _hr) (by omega)
  · exact weight_lt_of_room (by omega) (Nat.le_refl _) (by omega)

/-- The ways to read the symbols of a rule at the head of the input. -/
def partsParses (g : Grammar) (room : Nat) (active : List Typecode) (body : List Symbol)
    (input : List Symbol) : Enumeration PartsParse :=
  match body with
  | [] => .item ⟨[], input⟩ fun _ => .done
  | s :: body =>
    match g.variableTypecode? s with
    | none =>
      match input with
      | [] => .done
      | t :: rest =>
        if t = s then
          match room with
          | 0 => .cut
          | room + 1 => g.partsParses room [] body rest
        else .done
    | some tc =>
      (g.parses room active tc input).bind fun p =>
        match room with
        | 0 => .cut
        | room + 1 =>
          (g.partsParses room [] body p.rest).map fun q => ⟨p.formula :: q.parts, q.rest⟩
termination_by g.weight room (g.inactive active) 1
decreasing_by
  · exact weight_lt_of_room (by omega) (inactive_le g _) (by omega)
  · exact weight_lt_of_phase (Nat.le_refl _) (by omega)
  · exact weight_lt_of_room (by omega) (inactive_le g _) (by omega)

/-- The expressions that begin with one found already, as the first part of a
growing rule of the same typecode, each followed by all that grows from it. -/
def grown (g : Grammar) (room : Nat) (tc : Typecode) (seed : Parse) : Enumeration Parse :=
  (Enumeration.ofList ((g.rulesOf tc).filter (g.isGrowing tc))).bind fun r =>
    (g.partsParses room [] r.body.tail seed.rest).bind fun q =>
      let p : Parse := ⟨.node r.label tc (seed.formula :: q.parts), q.rest⟩
      .item p fun _ =>
        match room with
        | 0 => .cut
        | room + 1 => g.grown room tc p
termination_by g.weight room g.rules.size 2
decreasing_by
  · exact weight_lt_of_phase (inactive_le g _) (by omega)
  · exact weight_lt_of_room (by omega) (Nat.le_refl _) (by omega)

end

/-- An active typecode is not entered again. -/
theorem parses_of_mem {g : Grammar} {active : List Typecode} {tc : Typecode} (ha : tc ∈ active)
    (room : Nat) (input : List Symbol) : g.parses room active tc input = .done := by
  rw [parses, dif_pos ha]

/-- Nothing is left to read of an empty body. -/
theorem partsParses_nil (g : Grammar) (room : Nat) (active : List Typecode) (input : List Symbol) :
    g.partsParses room active [] input = .item ⟨[], input⟩ fun _ => .done := by
  rw [partsParses.eq_def]

/-- A constant of a body is read from the same symbol of the input. -/
theorem partsParses_constant {g : Grammar} {s : Symbol} (hs : g.variableTypecode? s = none)
    (room : Nat) (active : List Typecode) (body input : List Symbol) :
    g.partsParses room active (s :: body) input =
      match input with
      | [] => .done
      | t :: rest =>
        if t = s then
          match room with
          | 0 => .cut
          | room + 1 => g.partsParses room [] body rest
        else .done := by
  rw [partsParses.eq_def]
  simp only [hs]

/-- A variable of a body is read as an expression of its typecode. -/
theorem partsParses_variable {g : Grammar} {s : Symbol} {tc : Typecode}
    (hs : g.variableTypecode? s = some tc) (room : Nat) (active : List Typecode)
    (body input : List Symbol) :
    g.partsParses room active (s :: body) input =
      (g.parses room active tc input).bind fun p =>
        match room with
        | 0 => .cut
        | room + 1 =>
          (g.partsParses room [] body p.rest).map fun q => ⟨p.formula :: q.parts, q.rest⟩ := by
  rw [partsParses.eq_def]
  simp only [hs]

/-- How many steps of a search may consume no symbol: more than anyone waits
for. -/
def patience : Nat := 1000000000000000000

/-- The room for an input: one step for each of its symbols, and the steps
that consume none. -/
def roomFor (input : List Symbol) : Nat := input.length + patience

/-- The symbols from a position on. A negative position counts from the end,
and after the end come all symbols from the start once more; there is nothing
at a position before the first symbol. -/
def inputAt? (symbols : List Symbol) (position : Int) : Option (List Symbol) :=
  if 0 ≤ position then some (symbols.drop position.toNat)
  else if 0 ≤ position + symbols.length then
    some (symbols.drop (position + symbols.length).toNat ++ symbols)
  else none

/-- Every way to read an expression of a typecode at the head of the input. -/
def readings (g : Grammar) (tc : Typecode) (input : List Symbol) : Enumeration Parse :=
  g.parses (roomFor input) [] tc input

/-- The first way to read the whole input as an expression of a typecode. -/
def read? (g : Grammar) (tc : Typecode) (input : List Symbol) : Option Formula :=
  ((g.readings tc input).find? fun p => p.rest.isEmpty).map (·.formula)

end Grammar

end Typeset

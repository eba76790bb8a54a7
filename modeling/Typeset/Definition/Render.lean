import Typeset.Definition.Basic
import Typeset.Formula.Measured
import Typeset.Settings
import Typeset.Text.Placeholder

/-!
# Rendering formulas with a definition

A formula is rendered under a typecode: the first scheme of the typecode that
applies gives the text. A pattern scheme applies when its pattern matches, all
its variables have identifiers, and the formulas in their place can be
rendered under the typecodes of those identifiers; their texts then fill the
template. A part that cannot be rendered is an error of the whole, not a
reason to try the next scheme.

A pattern that is a bare variable hands the whole formula on, under another
typecode. So that such schemes do not go round in a circle, the renders in
progress are kept: a scheme that would begin one of them anew does not apply.
This also is why rendering ends: what is handed on is smaller, or it is the
same formula with one more render in progress, and there are only as many of
those as identifiers.
-/

namespace Typeset

/-- Why a formula or a statement cannot be rendered. -/
inductive RenderError where
  /-- A typecode has no schemes. -/
  | noSchemes (typecode : Typecode)
  /-- No scheme of the typecode applies to the formula, spelled as `text`. -/
  | noMatch (formula : Formula) (typecode : Typecode) (text : String)
  /-- There is no such statement, or it cannot be read. -/
  | unknownStatement (label : Label)
  /-- A symbol has no markup of its own. -/
  | noMarkup (symbol : Symbol)
  /-- A formula cannot be spelled. -/
  | misspelled (e : SpellError)
  /-- A statement lacks what rendering asks for. -/
  | lacking (l : Statement.Lack)
deriving DecidableEq, Repr

namespace RenderError

/-- What is said about an error that is shown in the place of a formula, none
for a fault of the formula or the statement itself. -/
def message? : RenderError → Option String
  | noSchemes tc => some ("No typesetting found for typecode " ++ tc)
  | noMatch _ tc text => some ("No typesetting found for " ++ text ++ " with typecode " ++ tc)
  | unknownStatement l => some ("Unknown statement " ++ l)
  | noMarkup s => some ("Unknown symbol " ++ s)
  | misspelled _ => none
  | lacking _ => none

end RenderError

/-- The renders in progress: typecodes with the formulas rendered under them. -/
abbrev Pending := List (Typecode × Measured)

/-- Whether a render is in progress. -/
def Pending.has (p : Pending) (tc : Typecode) (f : Formula) : Bool :=
  let m := Measured.of f
  p.any fun render => render.1 == tc && render.2.same m

/-- A render is in progress if one of the same formula, up to tags, is under
the same typecode. -/
theorem Pending.has_iff {p : Pending} {tc : Typecode} {f : Formula} :
    p.has tc f = true ↔ ∃ render ∈ p, render.1 = tc ∧ render.2.formula.same f = true := by
  simp [Pending.has, Measured.of]

/-- A render of a formula that begins leaves fewer typecodes under which one may
still begin. -/
theorem Pending.countP_cons_lt {pending : Pending} {tcs : List Typecode} {tc : Typecode}
    {f : Formula} (htc : tc ∈ tcs) (hp : pending.has tc f = false) :
    tcs.countP (fun tc' => !Pending.has ((tc, .of f) :: pending) tc' f) <
      tcs.countP fun tc' => !pending.has tc' f :=
  countP_lt_countP (a := tc) (by simp +contextual [Pending.has]) htc (by simp [hp])
    (by simp [Pending.has, Measured.of])

namespace Definition

/-- A formula as a reader would write it: its symbols, or its tree if some
label in it is unknown. -/
def formulaText (d : Definition) (f : Formula) : Except RenderError String :=
  match d.database.spell f with
  | .ok symbols => .ok (" ".intercalate symbols)
  | .error (.unknownLabel _) => .ok f.toText
  | .error .missingPart => .error (.misspelled .missingPart)

/-- What a scheme may hand on when it is applied to a formula: the formula
itself or a smaller one, under the typecode of an identifier. -/
structure HandsOn (d : Definition) (f : Formula) (tc : Typecode) (g : Formula) : Prop where
  /-- The typecode is that of an identifier. -/
  registered : tc ∈ d.identifiers.values
  /-- The formula does not grow. -/
  descends : g = f ∨ g.size < f.size

/-- Renders what the variables of a pattern stand for, in order, each under
the typecode of its identifier; none as soon as one cannot be handed on. -/
def renderBindings {ε : Type} (d : Definition) (settings : Settings) (f : Formula)
    (render : (tc : Typecode) → (g : Formula) → d.HandsOn f tc g → Except ε (Option String)) :
    (bindings : List (Label × Formula)) → (∀ b ∈ bindings, b.2 = f ∨ b.2.size < f.size) →
    Table String String → Except ε (Option (Table String String))
  | [], _, texts => .ok (some texts)
  | (l, g) :: more, h, texts =>
    match d.database.variableName? l with
    | none => .ok none
    | some name =>
      match ht : d.identifiers.get? l with
      | none => .ok none
      | some tc =>
        let handed : d.HandsOn f tc g :=
          ⟨List.mem_map.2 ⟨_, Table.mem_of_get? ht, rfl⟩, h (l, g) List.mem_cons_self⟩
        match render tc g handed with
        | .error e => .error e
        | .ok none => .ok none
        | .ok (some text) =>
          renderBindings d settings f render more (fun b hb => h b (by simp [hb]))
            (texts.set (settings.placeholder name) text)

section Bindings

variable {ε : Type} {d : Definition} {settings : Settings} {f : Formula}
  {render : (tc : Typecode) → (g : Formula) → d.HandsOn f tc g → Except ε (Option String)}
  {l : Label} {g : Formula} {more : List (Label × Formula)}

/-- What stands for a label that names no variable is not rendered. -/
theorem renderBindings_of_no_variable (hl : d.database.variableName? l = none)
    (h : ∀ b ∈ (l, g) :: more, b.2 = f ∨ b.2.size < f.size) (texts : Table String String) :
    d.renderBindings settings f render ((l, g) :: more) h texts = .ok none := by
  simp [renderBindings, hl]

/-- What stands for a variable without identifier is not rendered. -/
theorem renderBindings_of_no_identifier (hl : d.identifiers.get? l = none)
    (h : ∀ b ∈ (l, g) :: more, b.2 = f ∨ b.2.size < f.size) (texts : Table String String) :
    d.renderBindings settings f render ((l, g) :: more) h texts = .ok none := by
  unfold renderBindings
  split
  · rfl
  · split
    · rfl
    · rename_i ht
      rw [hl] at ht
      cases ht

/-- What stands for a variable is rendered under the typecode of its
identifier, and its text is kept under the variable's placeholder. -/
theorem renderBindings_cons {name : Symbol} {tc : Typecode}
    (hl : d.database.variableName? l = some name) (ht : d.identifiers.get? l = some tc)
    (h : ∀ b ∈ (l, g) :: more, b.2 = f ∨ b.2.size < f.size) (texts : Table String String) :
    d.renderBindings settings f render ((l, g) :: more) h texts =
      match render tc g ⟨List.mem_map.2 ⟨_, Table.mem_of_get? ht, rfl⟩,
          h (l, g) List.mem_cons_self⟩ with
      | .error e => .error e
      | .ok none => .ok none
      | .ok (some text) =>
        d.renderBindings settings f render more (fun b hb => h b (by simp [hb]))
          (texts.set (settings.placeholder name) text) := by
  conv => lhs; unfold renderBindings
  split
  · rename_i hl'
    rw [hl] at hl'
    cases hl'
  · rename_i name' hl'
    rw [hl] at hl'
    cases hl'
    split
    · rename_i ht'
      rw [ht] at ht'
      cases ht'
    · rename_i tc' ht'
      obtain rfl : tc = tc' := Option.some.inj (ht.symm.trans ht')
      rfl

end Bindings

/-- What a scheme makes of a formula, given how formulas that it hands on are
rendered; none if it does not apply. -/
def applyWith {ε : Type} (d : Definition) (settings : Settings) (s : Scheme) (f : Formula)
    (render : (tc : Typecode) → (g : Formula) → d.HandsOn f tc g → Except ε (Option String)) :
    Except ε (Option String) :=
  if s.isIdentifier then .ok (if s.pattern.same f then some s.template else none)
  else
    match hb : d.database.match? s.pattern f with
    | none => .ok none
    | some bindings =>
      match renderBindings d settings f render bindings.entries
          (fun _ hm => Formula.eq_or_size_lt_of_match? hb hm) .empty with
      | .error e => .error e
      | .ok none => .ok none
      | .ok (some texts) =>
        .ok (some (String.ofList (Text.fill (texts.entries.map fun t => (t.1.toList, t.2.toList))
          s.template.toList)))

section Apply

variable {ε : Type} {d : Definition} {settings : Settings} {s : Scheme} {f : Formula}
  {render : (tc : Typecode) → (g : Formula) → d.HandsOn f tc g → Except ε (Option String)}

/-- An identifier scheme gives its template for its own formula only. -/
theorem applyWith_of_isIdentifier (hs : s.isIdentifier = true) :
    d.applyWith settings s f render =
      .ok (if s.pattern.same f then some s.template else none) := by
  rw [applyWith, if_pos hs]

/-- A pattern scheme does not apply to what its pattern does not match. -/
theorem applyWith_of_match?_eq_none (hs : s.isIdentifier = false)
    (hb : d.database.match? s.pattern f = none) :
    d.applyWith settings s f render = .ok none := by
  rw [applyWith, if_neg (by simp [hs])]
  split
  · rfl
  · rename_i hb'
    rw [hb] at hb'
    cases hb'

/-- A pattern scheme fills its template with what the variables of the pattern
stand for. -/
theorem applyWith_of_match?_eq_some {bindings : Bindings} (hs : s.isIdentifier = false)
    (hb : d.database.match? s.pattern f = some bindings) :
    d.applyWith settings s f render =
      (d.renderBindings settings f render bindings.entries
        (fun _ hm => Formula.eq_or_size_lt_of_match? hb hm) .empty).map (Option.map fun texts =>
          String.ofList (Text.fill (texts.entries.map fun t => (t.1.toList, t.2.toList))
            s.template.toList)) := by
  rw [applyWith, if_neg (by simp [hs])]
  split
  · rename_i hb'
    rw [hb] at hb'
    cases hb'
  · rename_i bindings' hb'
    obtain rfl : bindings = bindings' := Option.some.inj (hb.symm.trans hb')
    generalize d.renderBindings settings f render bindings.entries _ .empty = x
    cases x with
    | error e => rfl
    | ok texts => cases texts <;> rfl

end Apply

/-- The first text that a list of schemes gives. -/
def firstText {ε : Type} (apply : Scheme → Except ε (Option String)) :
    List Scheme → Except ε (Option String)
  | [] => .ok none
  | s :: more =>
    match apply s with
    | .error e => .error e
    | .ok (some text) => .ok (some text)
    | .ok none => firstText apply more

/-- The error of a formula that no scheme of a typecode applies to. -/
def unmatched (d : Definition) (tc : Typecode) (f : Formula) : RenderError :=
  match d.formulaText f with
  | .ok text => .noMatch f tc text
  | .error e => e

/-- Renders a formula with the schemes of a typecode, given how formulas that
are handed on are rendered, and how an error of the formula itself is told. -/
def formatWith {ε : Type} (d : Definition) (settings : Settings) (failed : RenderError → ε)
    (tc : Typecode) (f : Formula)
    (render : (tc' : Typecode) → (g : Formula) → d.HandsOn f tc' g → Except ε (Option String)) :
    Except ε String :=
  match d.schemes.get? tc with
  | none => .error (failed (.noSchemes tc))
  | some schemes =>
    match firstText (fun s => d.applyWith settings s f render) schemes with
    | .error e => .error e
    | .ok (some text) => .ok text
    | .ok none => .error (failed (d.unmatched tc f))

/-- How many renders of a formula may still begin under a typecode of an
identifier. -/
def ahead (d : Definition) (pending : Pending) (f : Formula) : Nat :=
  d.identifiers.values.countP fun tc => !pending.has tc f

theorem ahead_le (d : Definition) (pending : Pending) (f : Formula) :
    d.ahead pending f ≤ d.identifiers.size :=
  d.identifiers.countP_values_le _

/-- A render that begins leaves fewer of them ahead. -/
theorem ahead_cons_lt {d : Definition} {pending : Pending} {tc : Typecode} {f : Formula}
    (hr : tc ∈ d.identifiers.values) (hp : pending.has tc f = false) :
    d.ahead ((tc, .of f) :: pending) f < d.ahead pending f :=
  Pending.countP_cons_lt hr hp

/-- Renders a formula under a typecode, while the given renders are in
progress. -/
def format (d : Definition) (settings : Settings) (tc : Typecode) (f : Formula)
    (pending : Pending) : Except RenderError String :=
  let begun := (tc, Measured.of f) :: pending
  d.formatWith settings id tc f fun tc' g _h =>
    if _hp : Pending.has begun tc' g = true then .ok none
    else (d.format settings tc' g begun).map some
termination_by f.size * (d.identifiers.size + 1) + d.ahead ((tc, .of f) :: pending) f
decreasing_by
  rcases _h.descends with rfl | hlt
  · have : d.ahead ((tc', .of g) :: (tc, .of g) :: pending) g <
        d.ahead ((tc, .of g) :: pending) g :=
      ahead_cons_lt _h.registered (by simpa using _hp)
    omega
  · exact mul_add_lt_mul_add hlt (ahead_le d _ _) _

/-- What a scheme makes of a formula, with no render in progress; none if it
does not apply. -/
def apply (d : Definition) (settings : Settings) (s : Scheme) (f : Formula) :
    Except RenderError (Option String) :=
  d.applyWith settings s f fun tc g _ => (d.format settings tc g []).map some

/-- Puts a rendered formula into the display string. -/
def displayed (d : Definition) (settings : Settings) (text : String) : String :=
  String.ofList
    (Text.replaceAll settings.displayPlaceholder.toList text.toList d.display.toList)

/-- Renders a formula and puts it into the display string: an asserted one
under the provable typecode, any other one under its own. -/
def renderFormula (d : Definition) (settings : Settings) (f : Formula) (asserted : Bool) :
    Except RenderError String :=
  (d.format settings (if asserted then d.database.provable else f.typecode) f []).map
    (d.displayed settings)

end Definition

end Typeset

import Typeset.Definition.Coverage
import Typeset.Proofs.Database.Matching
import Typeset.Proofs.Database.Parsing
import Typeset.Proofs.Definition.Compiled
import Typeset.Proofs.Definition.SideBySide
import Typeset.Proofs.Formula.Sameness

/-!
# No gaps means no formula without a text

The check of a definition renders one expression for each rule. That is
enough: the scheme that gives its text is general, for its pattern matched
parts that are variables, so it matches whatever the rule builds. The schemes
before it do no harm. One whose pattern is a bare variable would begin the
render that is in progress, and does not apply; any other one that matches
hands on smaller derivation trees only, and these have texts.
-/

namespace Typeset.Definition

open Grammar

section Engine

variable {d : Definition} {settings : Settings} {ε : Type} {f : Formula}
  {render : (tc : Typecode) → (g : Formula) → d.HandsOn f tc g → Except ε (Option String)}

/-- Where everything that is handed on has a text there are texts for all
variables. -/
theorem exists_renderBindings {bindings : List (Label × Formula)}
    (hb : ∀ b ∈ bindings, ∃ name tc, d.database.variableName? b.1 = some name ∧
      d.identifiers.get? b.1 = some tc ∧ ∀ h, ∃ text, render tc b.2 h = .ok (some text))
    (h : ∀ b ∈ bindings, b.2 = f ∨ b.2.size < f.size) (texts : Table String String) :
    ∃ texts', d.renderBindings settings f render bindings h texts = .ok (some texts') := by
  induction bindings generalizing texts with
  | nil => exact ⟨texts, by rw [renderBindings]⟩
  | cons b more ih =>
    obtain ⟨l, g⟩ := b
    obtain ⟨name, tc, hn, ht, hr⟩ := hb (l, g) List.mem_cons_self
    obtain ⟨text, htext⟩ := hr ⟨List.mem_map.2 ⟨_, Table.mem_of_get? ht, rfl⟩,
      h (l, g) List.mem_cons_self⟩
    rw [renderBindings_cons hn ht, htext]
    exact ih (fun b hmem => hb b (List.mem_cons_of_mem _ hmem)) _ _

/-- A text that was found first is that of one of the schemes. -/
theorem exists_of_firstText {apply : Scheme → Except ε (Option String)} {schemes : List Scheme}
    {text : String} (h : firstText apply schemes = .ok (some text)) :
    ∃ s ∈ schemes, apply s = .ok (some text) := by
  induction schemes with
  | nil => cases h
  | cons s more ih =>
    rw [firstText] at h
    split at h
    · cases h
    · rename_i hs
      cases h
      exact ⟨s, List.mem_cons_self, hs⟩
    · obtain ⟨t, ht, happly⟩ := ih h
      exact ⟨t, List.mem_cons_of_mem _ ht, happly⟩

/-- Where no scheme fails and one gives a text a first text is found. -/
theorem exists_firstText {apply : Scheme → Except ε (Option String)} {schemes : List Scheme}
    (hall : ∀ s ∈ schemes, ∃ o, apply s = .ok o)
    (hone : ∃ s ∈ schemes, ∃ text, apply s = .ok (some text)) :
    ∃ text, firstText apply schemes = .ok (some text) := by
  induction schemes with
  | nil =>
    obtain ⟨s, hs, _⟩ := hone
    cases hs
  | cons s more ih =>
    rw [firstText]
    obtain ⟨o, ho⟩ := hall s List.mem_cons_self
    cases o with
    | some text => exact ⟨text, by rw [ho]⟩
    | none =>
      rw [ho]
      apply ih
      · intro t ht
        exact hall t (List.mem_cons_of_mem _ ht)
      · obtain ⟨t, ht, text, htext⟩ := hone
        rcases List.mem_cons.mp ht with rfl | ht
        · rw [ho] at htext
          cases htext
        · exact ⟨t, ht, text, htext⟩

end Engine

/-- A definition made with a database in which no variable has the provable
typecode, and which typesets every variable under its own typecode. -/
structure IsSuited (d : Definition) : Prop where
  /-- No label of the database stands for two things. -/
  consistent : d.database.Consistent
  /-- The schemes were read with the database. -/
  indexed : d.IsIndexed d.database
  /-- No variable has the provable typecode. -/
  typecode_ne : ∀ {s : Symbol} {v : Floating}, d.database.grammar.floatings.get? s = some v →
    v.typecode ≠ d.database.provable
  /-- Every variable is an identifier of its own typecode. -/
  identifier_eq : ∀ {s : Symbol} {v : Floating}, d.database.grammar.floatings.get? s = some v →
    d.identifiers.get? v.label = some v.typecode

variable {d : Definition} {settings : Settings} {ε : Type}

/-- The typecode of a variable is one of the grammar. -/
theorem IsSuited.typecode_mem (h : d.IsSuited) {s : Symbol} {v : Floating}
    (hv : d.database.grammar.floatings.get? s = some v) : v.typecode ∈ d.database.typecodes :=
  h.consistent.typecode_mem (h.consistent.variable_floating hv).2 (h.typecode_ne hv)

/-- Patterns with the same label and parts at the root match alike. -/
theorem match?_congr {db : Database} {p p' : Formula} (hl : p.label = p'.label)
    (hc : p.children = p'.children) (f : Formula) : db.match? p f = db.match? p' f := by
  obtain ⟨l, tc, ps⟩ := p
  obtain ⟨l', tc', ps'⟩ := p'
  obtain rfl : l = l' := hl
  obtain rfl : ps = ps' := hc
  rw [Database.match?, Database.match?, Formula.match?, Formula.match?, Formula.matchInto,
    Formula.matchInto]

/-- The pattern of a scheme is, up to the tag of its root, a derivation tree of
the typecode of its bucket. -/
theorem IsSuited.exists_pattern (h : d.IsSuited) {tc : Typecode} {s : Scheme}
    (htc : tc ∈ d.database.typecodes) (hs : s ∈ d.schemesOf tc) :
    ∃ p spelling, Derives d.database.grammar d.database.grammar.busyRule tc p spelling ∧
      s.pattern.label = p.label ∧ s.pattern.children = p.children := by
  obtain ⟨rfl, hread⟩ := h.indexed.of_mem_schemesOf hs
  obtain ⟨symbols, hpattern⟩ := hread.pattern_read htc
  obtain ⟨p, hp, heq⟩ := Database.of_readAs_singleton hpattern
  refine ⟨p, symbols, derives_of_read? hp, ?_, ?_⟩
  · rw [heq, Database.label_framed]
  · rw [heq, Database.children_framed]

/-- The variables of a pattern that matches a derivation tree of its bucket's typecode
stand for derivation trees of their own typecodes. -/
theorem IsSuited.wellBound_of_match? (h : d.IsSuited) {tc : Typecode} {s : Scheme}
    (htc : tc ∈ d.database.typecodes) (hs : s ∈ d.schemesOf tc) {f : Formula}
    {symbols : List Symbol} (hf : Derives d.database.grammar anyRule tc f symbols)
    {bindings : Bindings} (hm : d.database.match? s.pattern f = some bindings) :
    d.database.WellBound anyRule bindings := by
  obtain ⟨p, spelling, hderives, hlabel, hchildren⟩ := h.exists_pattern htc hs
  rw [match?_congr hlabel hchildren] at hm
  exact h.consistent.wellBound_of_match? hderives hf hm

/-- Among what may be handed on, smaller derivation trees have texts. -/
def RendersSmaller (d : Definition) (f : Formula)
    (render : (tc : Typecode) → (g : Formula) → d.HandsOn f tc g → Except ε (Option String)) :
    Prop :=
  ∀ tc g symbols handed, g.size < f.size → tc ∈ d.database.typecodes →
    Derives d.database.grammar anyRule tc g symbols → ∃ text, render tc g handed = .ok (some text)

section Schemes

variable {tc : Typecode} {f : Formula} {s : Scheme}
  {render : (tc' : Typecode) → (g : Formula) → d.HandsOn f tc' g → Except ε (Option String)}

/-- A scheme for a bare variable does not apply where the render of the whole
formula under the typecode of the bucket does not. -/
theorem IsSuited.applyWith_of_isVariable (h : d.IsSuited) (htc : tc ∈ d.database.typecodes)
    (hs : s ∈ d.schemesOf tc) (hi : s.isIdentifier = false)
    (hp : d.database.isVariable s.pattern.label = true)
    (hself : ∀ handed, render tc f handed = .ok none) :
    d.applyWith settings s f render = .ok none := by
  obtain ⟨p, spelling, hderives, hlabel, _⟩ := h.exists_pattern htc hs
  cases hderives with
  | rule hr _ _ =>
    rw [hlabel] at hp
    simp [Formula.label, h.consistent.isVariable_of_mem hr] at hp
  | @leaf x v hv =>
    have hmatch : d.database.match? s.pattern f = some ⟨[(s.pattern.label, f)]⟩ :=
      Database.matchInto_of_get?_eq_none hp rfl f
    have hname : d.database.variableName? s.pattern.label = some x := by
      rw [hlabel]
      exact h.consistent.variableName?_of_get? hv
    have hid : d.identifiers.get? s.pattern.label = some v.typecode := by
      rw [hlabel]
      exact h.identifier_eq hv
    rw [applyWith_of_match?_eq_some hi hmatch, renderBindings_cons hname hid, hself]
    rfl

/-- A scheme for a rule gives a text wherever its pattern matches, if smaller
derivation trees have texts. -/
theorem IsSuited.applyWith_of_match? (h : d.IsSuited) (htc : tc ∈ d.database.typecodes)
    (hs : s ∈ d.schemesOf tc) (hi : s.isIdentifier = false)
    (hp : d.database.isVariable s.pattern.label = false) {symbols : List Symbol}
    (hf : Derives d.database.grammar anyRule tc f symbols)
    (hparts : d.RendersSmaller f render)
    {bindings : Bindings} (hm : d.database.match? s.pattern f = some bindings) :
    ∃ text, d.applyWith settings s f render = .ok (some text) := by
  have hbound := h.wellBound_of_match? htc hs hf hm
  have hhanded : ∀ b ∈ bindings.entries, ∃ name tc', d.database.variableName? b.1 = some name ∧
      d.identifiers.get? b.1 = some tc' ∧
      ∀ handed, ∃ text, render tc' b.2 handed = .ok (some text) := by
    intro b hb
    obtain ⟨x, v, symbols', hv, hl, hg⟩ := hbound b hb
    have hsize : b.2.size < f.size := Formula.size_lt_of_match? hp hm hb
    refine ⟨x, v.typecode, ?_, ?_, ?_⟩
    · rw [← hl]
      exact h.consistent.variableName?_of_get? hv
    · rw [← hl]
      exact h.identifier_eq hv
    · intro handed
      exact hparts _ _ _ handed hsize (h.typecode_mem hv) hg
  have htexts : ∃ texts, d.renderBindings settings f render bindings.entries
      (fun _ hmem => Formula.eq_or_size_lt_of_match? hm hmem) .empty = .ok (some texts) :=
    exists_renderBindings hhanded _ _
  obtain ⟨texts, htexts⟩ := htexts
  rw [applyWith_of_match?_eq_some hi hm, htexts]
  exact ⟨_, rfl⟩

/-- No scheme of a bucket fails, if smaller derivation trees have texts. -/
theorem IsSuited.exists_applyWith (h : d.IsSuited) (htc : tc ∈ d.database.typecodes)
    (hs : s ∈ d.schemesOf tc) {symbols : List Symbol}
    (hf : Derives d.database.grammar anyRule tc f symbols)
    (hself : ∀ handed, render tc f handed = .ok none)
    (hparts : d.RendersSmaller f render) :
    ∃ o, d.applyWith settings s f render = .ok o := by
  cases hi : s.isIdentifier with
  | true => exact ⟨_, applyWith_of_isIdentifier hi⟩
  | false =>
    cases hp : d.database.isVariable s.pattern.label with
    | true => exact ⟨none, h.applyWith_of_isVariable htc hs hi hp hself⟩
    | false =>
      cases hm : d.database.match? s.pattern f with
      | none => exact ⟨none, applyWith_of_match?_eq_none hi hm⟩
      | some bindings =>
        have happly : ∃ text, d.applyWith settings s f render = .ok (some text) :=
          h.applyWith_of_match? htc hs hi hp hf hparts hm
        obtain ⟨text, htext⟩ := happly
        exact ⟨some text, htext⟩

/-- A scheme that fits gives a text, unless it is for a bare variable. -/
theorem IsSuited.applyWith_of_fits (h : d.IsSuited) (htc : tc ∈ d.database.typecodes)
    (hs : s ∈ d.schemesOf tc)
    (hbare : s.isIdentifier = true ∨ d.database.isVariable s.pattern.label = false)
    {symbols : List Symbol} (hf : Derives d.database.grammar anyRule tc f symbols)
    (hparts : d.RendersSmaller f render)
    (hfits : s.fits d.database f = true) :
    ∃ text, d.applyWith settings s f render = .ok (some text) := by
  unfold Scheme.fits at hfits
  cases hi : s.isIdentifier with
  | true =>
    rw [if_pos hi] at hfits
    exact ⟨s.template, by rw [applyWith_of_isIdentifier hi, if_pos hfits]⟩
  | false =>
    rw [if_neg (by simp [hi])] at hfits
    obtain ⟨bindings, hm⟩ := Option.isSome_iff_exists.mp hfits
    have hp : d.database.isVariable s.pattern.label = false := by
      rcases hbare with hbare | hbare
      · simp [hi] at hbare
      · exact hbare
    exact h.applyWith_of_match? htc hs hi hp hf hparts hm

/-- A formula has a general scheme: one of the bucket that fits it and is not
for a bare variable. -/
def HasScheme (d : Definition) (tc : Typecode) (f : Formula) : Prop :=
  ∃ s ∈ d.schemesOf tc,
    (s.isIdentifier = true ∨ d.database.isVariable s.pattern.label = false) ∧
    s.fits d.database f = true

/-- A derivation tree with a general scheme has a text, if smaller derivation
trees have texts. -/
theorem IsSuited.exists_formatWith (h : d.IsSuited) (htc : tc ∈ d.database.typecodes)
    {symbols : List Symbol} (hf : Derives d.database.grammar anyRule tc f symbols)
    (hscheme : d.HasScheme tc f) (hself : ∀ handed, render tc f handed = .ok none)
    (hparts : d.RendersSmaller f render)
    (failed : RenderError → ε) : ∃ text, d.formatWith settings failed tc f render = .ok text := by
  obtain ⟨s, hs, hbare, hfits⟩ := hscheme
  have hfirst : ∃ text, firstText (fun s => d.applyWith settings s f render) (d.schemesOf tc) =
      .ok (some text) := by
    apply exists_firstText
    · intro t ht
      exact h.exists_applyWith htc ht hf hself hparts
    · exact ⟨s, hs, h.applyWith_of_fits htc hs hbare hf hparts hfits⟩
  obtain ⟨text, htext⟩ := hfirst
  rw [formatWith, get?_schemes_of_mem hs]
  simp only [htext]
  exact ⟨text, rfl⟩

end Schemes

/-- If every derivation tree has a general scheme every derivation tree has a
text, whatever larger formulas are being rendered. -/
theorem IsSuited.exists_format_of_hasScheme (h : d.IsSuited)
    (hscheme : ∀ {tc f symbols}, tc ∈ d.database.typecodes →
      Derives d.database.grammar anyRule tc f symbols → d.HasScheme tc f) (n : Nat) :
    ∀ tc f symbols (pending : Pending), f.size ≤ n → tc ∈ d.database.typecodes →
      Derives d.database.grammar anyRule tc f symbols →
      (∀ p ∈ pending, f.size < p.2.formula.size) →
      ∃ text, d.format settings tc f pending = .ok text := by
  induction n with
  | zero =>
    intro tc f symbols pending hn
    cases f
    simp [Formula.size] at hn
  | succ n ih =>
    intro tc f symbols pending hn htc hf hpending
    rw [format]
    apply h.exists_formatWith htc hf (hscheme htc hf)
    · intro handed
      have hself : Pending.has ((tc, Measured.of f) :: pending) tc f = true :=
        Pending.has_iff.mpr ⟨_, List.mem_cons_self, rfl, Formula.same_refl f⟩
      rw [dif_pos hself]
    · intro tc' g symbols' handed hlt htc' hg
      have hbegun : ∀ p ∈ (tc, Measured.of f) :: pending, g.size < p.2.formula.size := by
        intro p hp
        rcases List.mem_cons.mp hp with rfl | hp
        · exact hlt
        · exact Nat.lt_trans hlt (hpending p hp)
      have hnew : ¬Pending.has ((tc, Measured.of f) :: pending) tc' g = true := by
        intro hhas
        obtain ⟨p, hp, _, hsame⟩ := Pending.has_iff.mp hhas
        have hsize := Formula.size_eq_of_same hsame
        have hlarger := hbegun p hp
        omega
      obtain ⟨text, htext⟩ := ih tc' g symbols' _ (by omega) htc' hg hbegun
      refine ⟨text, ?_⟩
      dsimp only
      rw [dif_neg hnew, htext]
      rfl

/-- A variable has a general scheme, the one it is an identifier by. -/
theorem IsSuited.hasScheme_leaf (h : d.IsSuited) {x : Symbol} {v : Floating}
    (hv : d.database.grammar.floatings.get? x = some v) : d.HasScheme v.typecode v.leaf := by
  obtain ⟨s, hs, hi, hlabel⟩ := h.indexed.exists_scheme (h.identifier_eq hv)
  have hatomic := (h.indexed.of_mem_schemesOf hs).2.pattern_atomic hi
  refine ⟨s, hs, .inl hi, ?_⟩
  unfold Scheme.fits
  rw [if_pos hi]
  cases hpattern : s.pattern with
  | node l tc ps =>
    rw [hpattern] at hlabel hatomic
    obtain rfl : l = v.label := hlabel
    obtain rfl : ps = [] := hatomic
    simp [Floating.leaf, Formula.same, Formula.sameAll]

/-- A text of a formula is that of a scheme of the bucket, which was applied
while the render of the formula itself was in progress. -/
theorem exists_of_format {tc : Typecode} {f : Formula} {text : String}
    (h : d.format settings tc f [] = .ok text) :
    ∃ render : (tc' : Typecode) → (g : Formula) → d.HandsOn f tc' g →
        Except RenderError (Option String),
      (∀ handed, render tc f handed = .ok none) ∧
      ∃ s ∈ d.schemesOf tc, d.applyWith settings s f render = .ok (some text) := by
  rw [format, formatWith] at h
  split at h
  · cases h
  · rename_i schemes hschemes
    have hbucket : d.schemesOf tc = schemes := by simp [schemesOf, hschemes]
    split at h
    · cases h
    · rename_i hfirst
      cases h
      rw [hbucket]
      refine ⟨_, ?_, exists_of_firstText hfirst⟩
      intro handed
      have hself : Pending.has [(tc, Measured.of f)] tc f = true :=
        Pending.has_iff.mpr ⟨_, List.mem_cons_self, rfl, Formula.same_refl f⟩
      exact dif_pos hself
    · cases h

/-- An identifier scheme for the expression of a rule itself is for all that
the rule builds, since the rule has no variables. -/
theorem same_of_same_generic {g : Grammar} {tc : Typecode} {r : Rule} {p : Formula}
    (hatomic : p.children = []) (hsame : p.same (g.generic tc r) = true) {parts : List Formula}
    {symbols : List Symbol} (hp : DerivesParts g anyRule r.body parts symbols) :
    p.same (.node r.label tc parts) = true := by
  have hlength := length_eq_of_derivesParts hp
  obtain ⟨l, ptc, ps⟩ := p
  obtain rfl : ps = [] := hatomic
  simp only [generic, Formula.same, Bool.and_eq_true] at hsame ⊢
  refine ⟨hsame.1, ?_⟩
  have hnone := Formula.length_eq_of_sameAll hsame.2
  rw [List.length_map, ← hlength] at hnone
  rw [List.length_eq_zero_iff.mp hnone.symm]
  rfl

/-- A text for the expression of a rule itself is that of a scheme which is
general for all that the rule builds. -/
theorem IsSuited.hasScheme_rule (h : d.IsSuited) {tc : Typecode} {r : Rule}
    (htc : tc ∈ d.database.typecodes)
    (hn : (r.body.filter fun x => (d.database.grammar.floatings.get? x).isSome).Nodup)
    {text : String} (htext : d.format settings tc (d.database.grammar.generic tc r) [] = .ok text)
    {parts : List Formula} {symbols : List Symbol}
    (hp : DerivesParts d.database.grammar anyRule r.body parts symbols) :
    d.HasScheme tc (.node r.label tc parts) := by
  obtain ⟨render, hself, s, hs, happly⟩ := exists_of_format htext
  cases hi : s.isIdentifier with
  | true =>
    rw [applyWith_of_isIdentifier hi] at happly
    split at happly
    · rename_i hsame
      have hatomic := (h.indexed.of_mem_schemesOf hs).2.pattern_atomic hi
      refine ⟨s, hs, .inl hi, ?_⟩
      unfold Scheme.fits
      rw [if_pos hi]
      exact same_of_same_generic hatomic hsame hp
    · cases happly
  | false =>
    cases hvariable : d.database.isVariable s.pattern.label with
    | true =>
      rw [h.applyWith_of_isVariable htc hs hi hvariable hself] at happly
      cases happly
    | false =>
      cases hm : d.database.match? s.pattern (d.database.grammar.generic tc r) with
      | none =>
        rw [applyWith_of_match?_eq_none hi hm] at happly
        cases happly
      | some found =>
        obtain ⟨found', hfound⟩ := h.consistent.match?_of_generic hn hvariable hm hp
        refine ⟨s, hs, .inr hvariable, ?_⟩
        unfold Scheme.fits
        rw [if_neg (by simp [hi]), hfound]
        rfl

/-- Every derivation tree has a general scheme, if every rule repeats no
variable and has a text for its own expression. -/
theorem IsSuited.hasScheme (h : d.IsSuited)
    (hn : ∀ tc, ∀ r ∈ d.database.grammar.rulesOf tc,
      (r.body.filter fun x => (d.database.grammar.floatings.get? x).isSome).Nodup)
    (htexts : ∀ tc ∈ d.database.typecodes, ∀ r ∈ d.database.grammar.rulesOf tc,
      ∃ text, d.format settings tc (d.database.grammar.generic tc r) [] = .ok text)
    {tc : Typecode} {f : Formula} {symbols : List Symbol} (htc : tc ∈ d.database.typecodes)
    (hf : Derives d.database.grammar anyRule tc f symbols) : d.HasScheme tc f := by
  cases hf with
  | leaf hv => exact h.hasScheme_leaf hv
  | rule hr _ hp =>
    obtain ⟨text, htext⟩ := htexts tc htc _ hr
    exact h.hasScheme_rule htc (hn tc _ hr) htext hp

/-- A list of steps succeeds with the results of the steps, one by one. -/
theorem mapM_eq_ok_iff {α β ε : Type} {step : α → Except ε β} {l : List α} {results : List β} :
    l.mapM step = .ok results ↔ List.Forall₂ (fun a b => step a = .ok b) l results := by
  induction l generalizing results with
  | nil => cases results <;> simp [pure, Except.pure]
  | cons a l ih =>
    rw [List.mapM_cons]
    cases hstep : step a with
    | error e => cases results <;> simp [bind, Except.bind, hstep]
    | ok b =>
      cases hmore : l.mapM step with
      | error e => cases results <;> simp [bind, Except.bind, ← ih, hstep, hmore]
      | ok more =>
        cases results <;> simp [bind, Except.bind, pure, Except.pure, ← ih, hstep, hmore]

/-- Without gaps every syntax axiom that can be read has a text. -/
theorem exists_format_of_gaps (h : d.gaps settings = .ok []) {a : SyntaxAxiom}
    (ha : a ∈ d.database.syntaxAxioms) {f : Formula} (hf : a.formula = .ok f) :
    ∃ text, d.format settings a.typecode f [] = .ok text := by
  unfold gaps at h
  cases hsteps : d.database.syntaxAxioms.mapM (d.gapAt settings) with
  | error e =>
    rw [hsteps] at h
    cases h
  | ok results =>
    rw [hsteps] at h
    have hnone : results.filterMap id = [] := Except.ok.inj h
    obtain ⟨o, ho, hstep⟩ := exists_mem_of_forall₂ (mapM_eq_ok_iff.mp hsteps) a ha
    have hnogap : o = none := by simpa using List.filterMap_eq_nil_iff.mp hnone o ho
    rw [gapAt, hf, hnogap] at hstep
    dsimp only at hstep
    split at hstep
    · rename_i text htext
      exact ⟨text, htext⟩
    · split at hstep
      · cases hstep
      · cases hstep

/-- The rules of the grammar are syntax axioms. -/
theorem mem_syntaxAxioms {db : Database} (h : db.Consistent) {tc : Typecode} {r : Rule}
    (hr : r ∈ db.grammar.rulesOf tc) :
    ⟨r.label, tc, db.readAs r.body [tc] false⟩ ∈ db.syntaxAxioms := by
  obtain ⟨hne, hstored⟩ := h.rule_stored hr
  refine List.mem_filterMap.mpr ⟨⟨r.label, .axiomatic, tc :: r.body⟩, ?_, ?_⟩
  · exact List.mem_map.mpr ⟨_, Table.mem_of_get? hstored, rfl⟩
  · simp [hne]

/-- What a rule's body is read as is the expression of the rule itself, if it
is the same formula. -/
theorem eq_generic_of_readAs {db : Database} (h : db.Consistent) {tc : Typecode} {r : Rule}
    (hr : r ∈ db.grammar.rulesOf tc) {f : Formula} (hf : db.readAs r.body [tc] false = .ok f)
    (hsame : f.same (db.grammar.generic tc r) = true) : f = db.grammar.generic tc r := by
  obtain ⟨f', hread, rfl⟩ := Database.of_readAs_singleton hf
  have hderives : Derives db.grammar anyRule tc f r.body :=
    (derives_of_read? hread).mono fun _ _ _ => trivial
  exact ((eq_of_same_all h.distinct).1 hderives _ _ _ (derives_generic hr trivial) hsame).2.1

/-- The check of a definition is enough. Let a database declare every label
once, let no variable have the provable typecode, and let every rule repeat no
variable and be read back from its own body. If a definition is compiled from
any directives, typesets every variable under its own typecode and has no
gaps, then every derivation tree of the grammar has a text. -/
theorem exists_format_of_no_gaps {db : Database} (hdb : db.DeclaredOnce)
    (hprovable : ∀ s v, db.grammar.floatings.get? s = some v → v.typecode ≠ db.provable)
    (hrepeat : ∀ tc, ∀ r ∈ db.grammar.rulesOf tc,
      (r.body.filter fun x => (db.grammar.floatings.get? x).isSome).Nodup)
    (hback : ∀ tc, ∀ r ∈ db.grammar.rulesOf tc,
      ∃ f, db.readAs r.body [tc] false = .ok f ∧ f.same (db.grammar.generic tc r) = true)
    {settings : Settings} {strict : Bool} {directives : List Directive} {compiled : Compiled}
    (hcompiled : (compile db settings strict directives).outcome = .ok compiled)
    (hidentifiers : ∀ s v, db.grammar.floatings.get? s = some v →
      compiled.definition.identifiers.get? v.label = some v.typecode)
    (hgaps : compiled.definition.gaps settings = .ok []) :
    ∀ tc ∈ db.typecodes, ∀ f symbols, Derives db.grammar anyRule tc f symbols →
      ∃ text, compiled.definition.format settings tc f [] = .ok text := by
  have hindexed := isIndexed_of_compile hcompiled
  obtain ⟨d, skipped⟩ := compiled
  obtain rfl : d.database = db := hindexed.database_eq
  have hsuited : d.IsSuited :=
    { consistent := hdb.consistent
      indexed := hindexed
      typecode_ne := fun hv => hprovable _ _ hv
      identifier_eq := fun hv => hidentifiers _ _ hv }
  have htexts : ∀ tc ∈ d.database.typecodes, ∀ r ∈ d.database.grammar.rulesOf tc,
      ∃ text, d.format settings tc (d.database.grammar.generic tc r) [] = .ok text := by
    intro tc _ r hr
    obtain ⟨f, hread, hsame⟩ := hback tc r hr
    rw [← eq_generic_of_readAs hsuited.consistent hr hread hsame]
    exact exists_format_of_gaps hgaps (mem_syntaxAxioms hsuited.consistent hr) hread
  intro tc htc f symbols hf
  exact hsuited.exists_format_of_hasScheme
    (fun htc hf => hsuited.hasScheme hrepeat htexts htc hf) f.size tc f symbols []
    (Nat.le_refl _) htc hf (by simp)

/-- Directives for the small database: a scheme for each variable and each
rule. -/
def sampleDirectives : List Directive :=
  [⟨.scheme true "c" ["x"] "x", 1⟩, ⟨.scheme true "c" ["y"] "y", 2⟩,
    ⟨.scheme false "c" ["x", "+", "y"] "#x# + #y#", 3⟩,
    ⟨.scheme false "w" ["x", "=", "y"] "#x# = #y#", 4⟩]

/-- What the directives are compiled to. -/
def sampleTexts : Definition where
  database := .sample
  schemes := ⟨[("c", [⟨true, "c", .node "cx" "c" [], "x", 1⟩,
      ⟨true, "c", .node "cy" "c" [], "y", 2⟩,
      ⟨false, "c", .node "add" "c" [.node "cx" "c" [], .node "cy" "c" []], "#x# + #y#", 3⟩]),
    ("w", [⟨false, "w", .node "eq" "|-" [.node "cx" "c" [], .node "cy" "c" []],
      "#x# = #y#", 4⟩])]⟩
  identifiers := ⟨[("cx", "c"), ("cy", "c")]⟩
  header := ""
  display := "###"

/-- The small database with these directives is an instance of what the check
is enough for; so an equation has a text. -/
theorem exists_format_of_no_gaps_sample :
    sampleTexts.gaps { defaultHeader := "" } = .ok [] ∧
      ∃ text, sampleTexts.format { defaultHeader := "" } "w" Database.sampleEquation [] =
        .ok text := by
  have hcompiled : (compile .sample { defaultHeader := "" } true sampleDirectives).outcome =
      .ok ⟨sampleTexts, []⟩ := by decide +kernel
  have hgaps : sampleTexts.gaps { defaultHeader := "" } = .ok [] := by decide +kernel
  have hvariables : ∀ e ∈ Database.sample.grammar.floatings.entries,
      e.2.typecode ≠ Database.sample.provable ∧
        sampleTexts.identifiers.get? e.2.label = some e.2.typecode := by decide
  have hrepeat : ∀ tc, ∀ r ∈ Database.sample.grammar.rulesOf tc,
      (r.body.filter fun x => (Database.sample.grammar.floatings.get? x).isSome).Nodup :=
    forall_rules_of_entries (by decide)
  have hback : ∀ tc, ∀ r ∈ Database.sample.grammar.rulesOf tc,
      ∃ f, Database.sample.readAs r.body [tc] false = .ok f ∧
        f.same (Database.sample.grammar.generic tc r) = true := by
    apply forall_rules_of_entries
    intro e he r hr
    refine ⟨Database.sample.grammar.generic e.1 r, ?_, Formula.same_refl _⟩
    simp only [Database.sample, List.mem_cons, List.not_mem_nil, or_false] at he
    rcases he with rfl | rfl
    · obtain rfl := List.mem_singleton.mp hr
      decide +kernel
    · obtain rfl := List.mem_singleton.mp hr
      decide +kernel
  have hderives : Derives Database.sample.grammar anyRule "w" Database.sampleEquation
      ["x", "+", "y", "=", "x"] := Database.derives_sampleEquation.mono fun _ _ _ => trivial
  refine ⟨hgaps, ?_⟩
  exact exists_format_of_no_gaps Database.declaredOnce_sample
    (fun s v hv => (hvariables (s, v) (Table.mem_of_get? hv)).1) hrepeat hback hcompiled
    (fun s v hv => (hvariables (s, v) (Table.mem_of_get? hv)).2) hgaps "w" (by decide) _ _ hderives

end Typeset.Definition

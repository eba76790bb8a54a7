import Typeset.Proofs.Database.Matching
import Typeset.Proofs.Database.Spelling
import Typeset.Proofs.Definition.Calls
import Typeset.Proofs.Definition.Unguarded
import Typeset.Proofs.Formula.Variables

/-!
# Rendering part by part

A render in progress stands in the way of renders of its own formula alone. What
is rendered below a formula is a part of it, so renders of other formulas are
never noticed, and a part is rendered inside the whole as it is by itself. Where
a scheme with a rule at its root gives the text of a formula, what it hands on
are parts below the root, of which no render is in progress; so the text is the
template, filled with the texts that the parts have by themselves.
-/

namespace Typeset

namespace Pending

/-- Renders in progress that agree about a formula and its parts. -/
def AgreeOn (p q : Pending) (f : Formula) : Prop :=
  ∀ g ∈ f.subformulas, ∀ tc, p.has tc g = q.has tc g

/-- What renders agree about a formula they agree about its parts. -/
theorem AgreeOn.of_mem {p q : Pending} {f g : Formula} (h : p.AgreeOn q f)
    (hg : g ∈ f.subformulas) : p.AgreeOn q g :=
  fun _ hk => h _ (Formula.mem_subformulas_trans hg hk)

/-- Renders still agree when the same one begins. -/
theorem AgreeOn.cons {p q : Pending} {f : Formula} (h : p.AgreeOn q f)
    (render : Typecode × Measured) : AgreeOn (render :: p) (render :: q) f := by
  intro g hg tc
  have hrest := h g hg tc
  unfold has at hrest ⊢
  dsimp only at hrest ⊢
  rw [List.any_cons, List.any_cons, hrest]

/-- Renders of other formulas are none as far as a formula is concerned. -/
theorem agreeOn_nil_of_forall {p : Pending} {f : Formula}
    (h : ∀ render ∈ p, ∀ g ∈ f.subformulas, render.2.formula.same g = false) :
    p.AgreeOn [] f := by
  intro g hg tc
  have hnone : p.has tc g = false := by
    rw [Bool.eq_false_iff]
    intro hhas
    obtain ⟨render, hrender, _, hsame⟩ := has_iff.mp hhas
    rw [h render hrender g hg] at hsame
    cases hsame
  rw [hnone]
  rfl

end Pending

namespace Settings

/-- Variables with different names have different placeholders. -/
theorem placeholder_injective (settings : Settings) :
    Function.Injective settings.placeholder := by
  intro name name' h
  have hchars := congrArg String.toList h
  simp only [placeholder, String.toList_append] at hchars
  exact String.ext (List.append_cancel_left (List.append_cancel_right hchars))

end Settings

namespace Database

/-- The variables of a pattern have different names. -/
def NamesApart (db : Database) (p : Formula) : Prop :=
  ∀ l ∈ p.variableLabels db.isVariable, ∀ l' ∈ p.variableLabels db.isVariable,
    db.variableName? l = db.variableName? l' → l = l'

end Database

namespace Database

/-- A variable of a pattern that was read is one of the grammar. -/
theorem Consistent.exists_floating_of_readAs {db : Database} (h : db.Consistent)
    {symbols : List Symbol} {typecodes : List Typecode} {asserted : Bool} {p : Formula}
    (hp : db.readAs symbols typecodes asserted = .ok p) {l : Label}
    (hl : l ∈ p.variableLabels db.isVariable) :
    ∃ s v, db.grammar.floatings.get? s = some v ∧ v.label = l := by
  obtain ⟨hvariable, g, hg, rfl⟩ := Formula.exists_subformula_of_mem_variableLabels p hl
  obtain ⟨tc, f, spelling, tag, hderives, rfl⟩ := exists_derives_of_readAs hp hg
  rw [Formula.label_retag] at hvariable ⊢
  cases hderives with
  | leaf hv => exact ⟨_, _, hv, rfl⟩
  | rule hr _ _ =>
    rw [Formula.label, h.isVariable_of_mem hr] at hvariable
    cases hvariable

/-- The variables of a pattern that was read have different names. -/
theorem Consistent.namesApart_of_readAs {db : Database} (h : db.Consistent)
    {symbols : List Symbol} {typecodes : List Typecode} {asserted : Bool} {p : Formula}
    (hp : db.readAs symbols typecodes asserted = .ok p) : db.NamesApart p := by
  intro l hl l' hl' hname
  obtain ⟨s, v, hv, rfl⟩ := h.exists_floating_of_readAs hp hl
  obtain ⟨s', v', hv', rfl⟩ := h.exists_floating_of_readAs hp hl'
  rw [h.variableName?_of_get? hv, h.variableName?_of_get? hv'] at hname
  cases hname
  rw [hv] at hv'
  cases hv'
  rfl

end Database

namespace Definition

variable {d : Definition} {settings : Settings} {s : Scheme} {f : Formula}

/-- Renders in progress that agree about a formula and its parts make no
difference to its render. -/
theorem run_congr (d : Definition) (settings : Settings) (c : Call) :
    ∀ q, c.pending.AgreeOn q c.formula →
      d.run settings c = d.run settings ⟨c.typecode, c.formula, q⟩ := by
  -- Along the calls, since a bare variable hands on the formula itself.
  induction c using d.call_induction with
  | h c ih =>
    intro q hagree
    have hbegun : c.begun.AgreeOn (Call.begun ⟨c.typecode, c.formula, q⟩) c.formula :=
      hagree.cons _
    have hanswers : Answers (fun _ => False) Eq (d.run settings c)
        (d.run settings ⟨c.typecode, c.formula, q⟩) := by
      rw [run_eq, run_eq]
      apply answers_formatWith
      · intro hnone
        exact ⟨hnone, rfl⟩
      · intro bucket hbucket
        refine ⟨bucket, hbucket, rfl, ?_⟩
        apply answers_firstText
        intro s hs
        apply answers_applyWith_of_passedOn (.refl d)
        -- What is handed on is a part of the formula, so both find it in progress or neither
        -- does, and if neither does they agree about it.
        intro tc g _ _ hpassed
        have hbucket' : s ∈ d.schemesOf c.typecode := by
          rw [schemesOf, hbucket]
          exact hs
        obtain ⟨_, bindings, l, hm, hl, _⟩ := mem_passedOn_iff.mp hpassed
        have hg : g ∈ c.formula.subformulas :=
          Formula.mem_subformulas_iff.mpr (Formula.eq_or_mem_subformulasAll_of_match? hm hl)
        unfold guarded
        rw [← hbegun g hg tc]
        split
        · exact .ok none
        · rename_i hnew
          have hcall : d.Calls c ⟨tc, g, c.begun⟩ :=
            calls_iff.mpr ⟨⟨s, hbucket', hpassed⟩, rfl, by simpa using hnew⟩
          rw [ih _ hcall _ (hbegun.of_mem hg)]
          exact .refl _
    rcases hanswers.eq_or_excused with heq | ⟨e, _, hfalse⟩
    · exact heq
    · exact hfalse.elim

/-- A formula is rendered as by itself while no render of it or of a part of it
is in progress. -/
theorem format_eq_of_agreeOn_nil {tc : Typecode} {pending : Pending}
    (h : pending.AgreeOn [] f) :
    d.format settings tc f pending = d.format settings tc f [] :=
  run_congr d settings ⟨tc, f, pending⟩ [] h

/-- A render of a larger formula is no render of a part of a smaller one. -/
theorem agreeOn_nil_of_size_lt {tc : Typecode} {g : Formula} (h : g.size < f.size) :
    Pending.AgreeOn [(tc, .of f)] [] g := by
  apply Pending.agreeOn_nil_of_forall
  intro render hrender k hk
  obtain rfl := List.mem_singleton.mp hrender
  have hle := Formula.size_le_of_mem_subformulas hk
  rw [Bool.eq_false_iff]
  intro hsame
  have hsize := Formula.size_eq_of_same hsame
  change f.size = k.size at hsize
  omega

/-- What a formula hands on from below its root is rendered as by itself. -/
theorem guarded_eq_of_size_lt {tc tc' : Typecode} {g : Formula} (h : g.size < f.size) :
    guarded ⟨tc, f, []⟩ (d.run settings) tc' g = (d.format settings tc' g []).map some := by
  have hagree : Pending.AgreeOn [(tc, .of f)] [] g := agreeOn_nil_of_size_lt h
  have hnew : Pending.has [(tc, .of f)] tc' g = false :=
    hagree g (Formula.mem_subformulas_self g) tc'
  unfold guarded
  rw [Call.begun, hnew, if_neg Bool.false_ne_true]
  exact congrArg (Except.map some) (format_eq_of_agreeOn_nil hagree)

/-- Different names have different placeholders, so a text is kept for each of them. -/
theorem entries_placeholders {parts : List (Symbol × String)} (hnames : (parts.map (·.1)).Nodup) :
    (Table.ofList (parts.map fun part => (settings.placeholder part.1, part.2))).entries =
      parts.map fun part => (settings.placeholder part.1, part.2) := by
  have hplaceholders := hnames.map settings.placeholder_injective
  rw [List.map_map] at hplaceholders
  apply Table.entries_ofList
  rw [List.map_map]
  exact hplaceholders

/-- A template with the texts of variables in the places of their placeholders, all
in one pass. -/
def filled (settings : Settings) (parts : List (Symbol × String)) (template : String) : String :=
  String.ofList (Text.fill
    (parts.map fun part => ((settings.placeholder part.1).toList, part.2.toList))
    template.toList)

/-- Parts make up a formula along a pattern: they are the variables that the
pattern binds, by their names and in their order, each with the text of what it
stands for, rendered by itself under the typecode of the variable. -/
def MadeUpOf (d : Definition) (settings : Settings) (bindings : Bindings)
    (parts : List (Symbol × String)) : Prop :=
  List.Forall₂ (fun b part => d.database.variableName? b.1 = some part.1 ∧
    ∃ tc, d.identifiers.get? b.1 = some tc ∧ d.format settings tc b.2 [] = .ok part.2)
    bindings.entries parts

/-- Along a pattern whose variables have different names the parts have
different names. -/
theorem MadeUpOf.nodup {bindings : Bindings} {parts : List (Symbol × String)} {p : Formula}
    (h : d.MadeUpOf settings bindings parts) (hm : d.database.match? p f = some bindings)
    (hapart : d.database.NamesApart p) : (parts.map (·.1)).Nodup := by
  have hkeys : bindings.keys = (p.variableLabels d.database.isVariable).foldl Formula.meet [] :=
    Formula.keys_of_match? hm
  have hnodup : bindings.keys.Nodup := by
    rw [hkeys]
    exact Formula.nodup_foldl_meet List.nodup_nil _
  have hvariable : ∀ l ∈ bindings.keys, l ∈ p.variableLabels d.database.isVariable := by
    intro l hl
    obtain ⟨b, hb, rfl⟩ := List.mem_map.mp hl
    exact Formula.mem_variableLabels_of_match? hm hb
  have hnames : bindings.keys.map d.database.variableName? = (parts.map (·.1)).map some := by
    rw [Table.keys, List.map_map, List.map_map, ← List.forall₂_eq_eq_eq,
      List.forall₂_map_left_iff, List.forall₂_map_right_iff]
    exact h.imp fun _ _ hpart => hpart.1
  have hall : (bindings.keys.map d.database.variableName?).Nodup := by
    apply List.Nodup.map_on _ hnodup
    intro l hl l' hl'
    exact hapart l (hvariable l hl) l' (hvariable l' hl')
  rw [hnames] at hall
  exact hall.of_map some

/-- Where a scheme with no variable at its root gives a text, the text is the
template, filled with the texts that the parts have by themselves. -/
theorem exists_parts_of_attempt {tc : Typecode} {text : String}
    (hi : s.isIdentifier = false) (hroot : d.database.isVariable s.pattern.label = false)
    (hapart : d.database.NamesApart s.pattern)
    (h : d.attempt settings ⟨tc, f, []⟩ s = .ok (some text)) :
    ∃ bindings parts, d.database.match? s.pattern f = some bindings ∧
      d.MadeUpOf settings bindings parts ∧ text = filled settings parts s.template := by
  obtain ⟨bindings, parts, hm, hparts, rfl⟩ := exists_parts_of_applyWith_eq_some hi h
  have hsmaller : ∀ b ∈ bindings.entries, b.2.size < f.size :=
    fun _ hb => Formula.size_lt_of_match? hroot hm hb
  have hmade : d.MadeUpOf settings bindings parts := by
    apply ((List.forall₂_and_left _ _).mpr ⟨hsmaller, hparts⟩).imp
    rintro b part ⟨hlt, hname, tc', _, htc', hrender⟩
    refine ⟨hname, tc', htc', ?_⟩
    rw [guarded_eq_of_size_lt hlt] at hrender
    generalize d.format settings tc' b.2 [] = o at hrender
    cases o with
    | error e => cases hrender
    | ok text =>
      cases hrender
      rfl
  refine ⟨bindings, parts, hm, hmade, ?_⟩
  rw [entries_placeholders (hmade.nodup hm hapart), List.map_map]
  rfl

/-- Rendering is compositional. Renders in progress of other formulas than a
formula and its parts make no difference to its render. A text is what the first
scheme makes of the formula that is not passed over; where that is a pattern with
no variable at its root and with variables of different names, as all patterns have
that are read with a database without redeclared labels, the text is the template of
the scheme, with the text that the formula in the place of each variable has by
itself put, in one pass, into the places of the variable's placeholder. -/
theorem rendering_is_compositional (d : Definition) (settings : Settings) (tc : Typecode)
    (f : Formula) :
    (∀ pending : Pending,
      (∀ render ∈ pending, ∀ g ∈ f.subformulas, render.2.formula.same g = false) →
      d.format settings tc f pending = d.format settings tc f []) ∧
    (∀ text, d.format settings tc f [] = .ok text ↔ ∃ s, d.Decides settings ⟨tc, f, []⟩ s ∧
      d.attempt settings ⟨tc, f, []⟩ s = .ok (some text)) ∧
    (d.database.DeclaredOnce → ∀ symbols typecodes asserted p,
      d.database.readAs symbols typecodes asserted = .ok p → d.database.NamesApart p) ∧
    ∀ s text, d.Decides settings ⟨tc, f, []⟩ s →
      d.attempt settings ⟨tc, f, []⟩ s = .ok (some text) → s.isIdentifier = false →
      d.database.isVariable s.pattern.label = false → d.database.NamesApart s.pattern →
      d.format settings tc f [] = .ok text ∧
      ∃ bindings parts, d.database.match? s.pattern f = some bindings ∧
        d.MadeUpOf settings bindings parts ∧ text = filled settings parts s.template := by
  refine ⟨?_, ?_, ?_, ?_⟩
  · intro pending h
    exact format_eq_of_agreeOn_nil (Pending.agreeOn_nil_of_forall h)
  · intro text
    constructor
    · exact exists_decides_of_run_eq_ok (c := ⟨tc, f, []⟩)
    · rintro ⟨s, hdecides, hs⟩
      exact hdecides.run_eq_ok hs
  · intro h symbols typecodes asserted p hp
    exact h.consistent.namesApart_of_readAs hp
  · intro s text hdecides hs hi hroot hapart
    exact ⟨hdecides.run_eq_ok hs, exists_parts_of_attempt hi hroot hapart hs⟩

/-- A sum is rendered in an equation as by itself, and its text is made from those of
its two classes. -/
theorem rendering_is_compositional_sampleSum :
    sampleSums.format {} "c" Database.sampleSum [("w", .of Database.sampleEquation)] =
        sampleSums.format {} "c" Database.sampleSum [] ∧
      sampleSums.format {} "c" Database.sampleSum [] = .ok "(x + y)" ∧
      ∃ bindings parts,
        Database.sample.match? (.node "add" "c" [.node "cx" "c" [], .node "cy" "c" []])
          Database.sampleSum = some bindings ∧
        sampleSums.MadeUpOf {} bindings parts ∧ "(x + y)" = filled {} parts "(#x# + #y#)" := by
  obtain ⟨hpending, _, hread, htext⟩ :=
    rendering_is_compositional sampleSums {} "c" Database.sampleSum
  have hother : ∀ render ∈ ([("w", .of Database.sampleEquation)] : Pending),
      ∀ g ∈ Database.sampleSum.subformulas, render.2.formula.same g = false := by
    decide
  have hfirst : sampleSums.attempt {} ⟨"c", Database.sampleSum, []⟩
      ⟨true, "c", .node "cx" "c" [], "x", 1⟩ = .ok none := by
    decide +kernel
  have hsum : sampleSums.attempt {} ⟨"c", Database.sampleSum, []⟩
      ⟨false, "c", .node "add" "c" [.node "cx" "c" [], .node "cy" "c" []], "(#x# + #y#)", 2⟩ =
        .ok (some "(x + y)") := by
    decide +kernel
  have hdecides : sampleSums.Decides {} ⟨"c", Database.sampleSum, []⟩
      ⟨false, "c", .node "add" "c" [.node "cx" "c" [], .node "cy" "c" []], "(#x# + #y#)", 2⟩ :=
    ⟨[_], _, rfl, List.forall_mem_singleton.mpr hfirst, by rw [hsum]; simp⟩
  have hapart : sampleSums.database.NamesApart
      (.node "add" "c" [.node "cx" "c" [], .node "cy" "c" []]) :=
    hread Database.declaredOnce_sample ["x", "+", "y"] ["c"] true _ (by decide +kernel)
  obtain ⟨hformat, hparts⟩ := htext _ _ hdecides hsum rfl rfl hapart
  exact ⟨hpending _ hother, hformat, hparts⟩

end Definition

end Typeset

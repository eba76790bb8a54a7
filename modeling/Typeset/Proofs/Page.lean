import Typeset.Definition.Compile
import Typeset.Definition.Coverage
import Typeset.Page
import Typeset.Proofs.Database.Grounded
import Typeset.Proofs.Definition.Calls
import Typeset.Proofs.Definition.Unguarded
import Typeset.Proofs.Formula.Distinct

/-!
# Rendering errors do not stop a run

An error of a render is shown in its place, unless it is a fault of the formula
or the statement itself. In a database that was read no statement is faulty, and
a formula is only where a node lacks a part. So a row and the check of a
definition come to their end, and every expression of the row reports how its
render ended; what stops them is a missing part and nothing else, and this takes
a rule whose label was declared again.
-/

namespace Typeset

namespace Database

/-- An error that stops a run: a formula lacks a part, which takes a database
that cannot spell everything. -/
def IsFatal (db : Database) (e : RenderError) : Prop :=
  e = .misspelled .missingPart ∧ ¬db.Spellable

/-- An error that is shown in its place, or is fatal. -/
def IsTold (db : Database) (e : RenderError) : Prop := e.message?.isSome = true ∨ db.IsFatal e

/-- A computation fails only with errors that are told or fatal. -/
def Tells {α : Type} (db : Database) (x : Except RenderError α) : Prop :=
  ∀ e, x = .error e → db.IsTold e

/-- A computation gives what it should, or ends with a fatal error. -/
def Ends {α : Type} (db : Database) (Q : α → Prop) (x : Except RenderError α) : Prop :=
  (∃ a, x = .ok a ∧ Q a) ∨ ∃ e, x = .error e ∧ db.IsFatal e

section Tells

variable {db : Database} {α β : Type}

/-- What succeeds does not fail. -/
theorem Tells.ok (a : α) : db.Tells (.ok a : Except RenderError α) := by
  intro e he
  cases he

/-- One step after the other. -/
theorem Tells.bind {x : Except RenderError α} {f : α → Except RenderError β} (hx : db.Tells x)
    (hf : ∀ a, db.Tells (f a)) : db.Tells (x >>= f) := by
  intro e he
  cases x with
  | error e' =>
    have heq : (.error e' : Except RenderError β) = .error e := he
    cases heq
    exact hx e rfl
  | ok a => exact hf a e he

/-- One step after the other, with notes. -/
theorem Tells.outcome_bind {x : Logged RenderError α} {f : α → Logged RenderError β}
    (hx : db.Tells x.outcome) (hf : ∀ a, x.outcome = .ok a → db.Tells (f a).outcome) :
    db.Tells (x >>= f).outcome := by
  intro e he
  rw [Logged.outcome_bind] at he
  cases hout : x.outcome with
  | error e' =>
    rw [hout] at he
    cases he
    exact hx e hout
  | ok a =>
    rw [hout] at he
    exact hf a hout e he

/-- A result made into another one. -/
theorem Tells.map {x : Except RenderError α} (hx : db.Tells x) (f : α → β) :
    db.Tells (x.map f) := by
  intro e he
  cases x with
  | error e' =>
    cases he
    exact hx e rfl
  | ok a => cases he

/-- One step for each member of a list. -/
theorem Tells.mapM {f : α → Except RenderError β} {l : List α} (h : ∀ a ∈ l, db.Tells (f a)) :
    db.Tells (l.mapM f) := by
  induction l with
  | nil => exact .ok []
  | cons a l ih =>
    obtain ⟨ha, hl⟩ := List.forall_mem_cons.mp h
    rw [List.mapM_cons]
    exact ha.bind fun b => (ih hl).bind fun bs => .ok (b :: bs)

end Tells

section Ends

variable {db : Database} {α β : Type} {Q : α → Prop} {R : β → Prop}

/-- One step after the other. -/
theorem Ends.bind {x : Logged RenderError α} {f : α → Logged RenderError β}
    (hx : db.Ends Q x.outcome) (hf : ∀ a, Q a → db.Ends R (f a).outcome) :
    db.Ends R (x >>= f).outcome := by
  rw [Logged.outcome_bind]
  rcases hx with ⟨a, ha, hq⟩ | ⟨e, he, hfatal⟩
  · rw [ha]
    exact hf a hq
  · rw [he]
    exact .inr ⟨e, rfl, hfatal⟩

/-- One step for each member of a list. -/
theorem Ends.mapM {R : α → β → Prop} {f : α → Except RenderError β} {l : List α}
    (h : ∀ a ∈ l, db.Ends (R a) (f a)) : db.Ends (List.Forall₂ R l) (l.mapM f) := by
  induction l with
  | nil => exact .inl ⟨[], rfl, .nil⟩
  | cons a l ih =>
    obtain ⟨ha, hl⟩ := List.forall_mem_cons.mp h
    rw [List.mapM_cons]
    rcases ha with ⟨b, hb, hr⟩ | ⟨e, he, hfatal⟩
    · rw [hb]
      rcases ih hl with ⟨bs, hbs, hrs⟩ | ⟨e, he, hfatal⟩
      · rw [hbs]
        exact .inl ⟨b :: bs, rfl, .cons hr hrs⟩
      · rw [he]
        exact .inr ⟨e, rfl, hfatal⟩
    · rw [he]
      exact .inr ⟨e, rfl, hfatal⟩

end Ends

end Database

open Database

variable {db : Database} {d : Definition} {settings : Settings} {b : Backend} {f : Formula}

/-- Everything in a formula is spelled, or lacks a part. -/
def Formula.Spells (db : Database) (f : Formula) : Prop :=
  ∀ g ∈ f.subformulas, db.Spells (db.spell g)

/-- That no scheme applies to a formula is told, or fatal. -/
theorem Definition.isTold_unmatched (hd : d.database = db) (hf : db.Spells (db.spell f))
    (tc : Typecode) : db.IsTold (d.unmatched tc f) := by
  unfold unmatched formulaText
  rw [hd]
  rcases hf with ⟨symbols, hsymbols⟩ | ⟨herror, hnot⟩
  · rw [hsymbols]
    exact .inl rfl
  · rw [herror]
    exact .inr ⟨rfl, hnot⟩

/-- A render with a definition fails only with errors that are told or fatal. -/
theorem Definition.tells_format (hd : d.database = db) (hf : f.Spells db) (tc : Typecode) :
    db.Tells (d.format settings tc f []) := by
  intro e he
  have hrun : d.run settings ⟨tc, f, []⟩ = .error e := he
  obtain ⟨c, hreach, ⟨-, rfl⟩ | ⟨-, rfl⟩⟩ := exists_reaches_of_run_eq_error hrun
  · exact .inl rfl
  · exact isTold_unmatched hd (hf c.formula hreach.below.2) c.typecode

namespace Backend

/-- The definition of a backend, if it has one, is about the database. -/
def IsAbout (db : Database) : Backend → Prop
  | .typeset d => d.database = db
  | _ => True

/-- The backends that there are are about the database if the definition is. -/
theorem isAbout_of_mem_available (hd : d.database = db)
    (hb : b ∈ available (some d)) : b.IsAbout db := by
  have hcases : b = .plain ∨ b = .symbolic ∨ b = .typeset d := by
    simpa [available] using hb
  rcases hcases with rfl | rfl | rfl
  · trivial
  · trivial
  · exact hd

/-- The markup of symbols fails only where a symbol has none, which is told. -/
theorem tells_symbolsMarkup (db : Database) (symbols : List Symbol) :
    db.Tells (symbolsMarkup db symbols) := by
  refine Tells.map (Tells.mapM fun s _ => ?_) _
  intro e he
  unfold symbolMarkup at he
  split at he
  · cases he
  · cases he
    exact .inl rfl

/-- The symbols of a formula are there, or a part is missing. -/
theorem tells_symbolsOf (hf : db.Spells (db.spell f)) : db.Tells (symbolsOf db f) := by
  intro e he
  unfold symbolsOf at he
  rcases hf with ⟨symbols, hsymbols⟩ | ⟨herror, hnot⟩
  · rw [hsymbols] at he
    cases he
  · rw [herror] at he
    cases he
    exact .inr ⟨rfl, hnot⟩

/-- Rendering a formula fails only with errors that are told or fatal. -/
theorem tells_renderFormula (hb : b.IsAbout db) (hf : f.Spells db) (asserted : Bool) :
    db.Tells (b.renderFormula db settings f asserted) := by
  have hspell := hf f (Formula.mem_subformulas_self f)
  cases b with
  | plain => exact (tells_symbolsOf hspell).bind fun symbols => .ok _
  | symbolic =>
    exact (tells_symbolsOf hspell).bind fun symbols =>
      (tells_symbolsMarkup db symbols).bind fun markup => .ok _
  | typeset d => exact (Definition.tells_format hb hf _).map _

end Backend

/-- A statement with math has a formula or cannot be read; everything in the
formula is spelled, or lacks a part. -/
theorem Database.Grounded.formulaOf_cases (h : db.Grounded) {s : Statement} (hs : s.math ≠ []) :
    (∃ f, (db.formulaOf s).outcome = .ok (some f) ∧ f.Spells db) ∨
      (db.formulaOf s).outcome = .ok none := by
  obtain ⟨tc, body, hmath⟩ := List.exists_cons_of_ne_nil hs
  have htc : s.typecode? = some tc := by
    rw [Statement.typecode?, hmath]
    rfl
  have hread : ∀ typecodes asserted f, db.readAs s.body typecodes asserted = .ok f →
      f.Spells db :=
    fun typecodes asserted f hf g hg => h.spells_of_readAs hf hg
  rw [formulaOf_eq htc]
  split
  · rename_i f hf
    refine .inl ⟨f, rfl, ?_⟩
    split at hf
    · exact hread _ _ f hf
    · exact hread _ _ f hf
  · exact .inr rfl

/-- The syntax steps of a statement with math are there; everything in them is
spelled, or lacks a part. -/
theorem Database.Grounded.exists_syntaxSteps (h : db.Grounded) {s : Statement}
    (hs : s.math ≠ []) :
    ∃ fs, (db.syntaxSteps s).outcome = .ok fs ∧ ∀ f ∈ fs, f.Spells db := by
  obtain ⟨tc, body, hmath⟩ := List.exists_cons_of_ne_nil hs
  have htc : s.typecode = .ok tc := by
    rw [Statement.typecode, Statement.typecode?, hmath]
    rfl
  unfold syntaxSteps
  rw [htc, Logged.ofExcept_ok_bind]
  split
  · rename_i f hf
    refine ⟨_, rfl, ?_⟩
    intro g hg n hn
    have hmem := Formula.mem_of_mem_distinct hg
    exact h.spells_of_readAs hf (Formula.mem_subformulas_trans hmem hn)
  · exact ⟨[], rfl, by simp⟩

/-- A statement is found, or it is told that there is none. -/
theorem Target.tells_resolve (db : Database) (t : Target) : db.Tells (t.resolve db) := by
  intro e he
  unfold resolve at he
  split at he
  · cases he
  · split at he
    · cases he
    · cases he
      exact .inl rfl

/-- Rendering a statement by its formula fails only with errors that are told or
fatal. -/
theorem Backend.tells_renderFormulaOf (h : db.Grounded) (hb : b.IsAbout db) {s : Statement}
    (hs : s.math ≠ []) (asserted : Bool) :
    db.Tells ((db.formulaOf s).mapError RenderError.lacking >>= fun formula? =>
      match formula? with
      | some f => Logged.ofExcept (b.renderFormula db settings f asserted)
      | none => .fail (.unknownStatement s.label)).outcome := by
  have hformula : ((db.formulaOf s).mapError RenderError.lacking).outcome =
      (db.formulaOf s).outcome.mapError .lacking := rfl
  rcases h.formulaOf_cases hs with ⟨f, hf, hspells⟩ | hnone
  · refine .outcome_bind ?_ fun formula? hfound => ?_
    · rw [hformula, hf]
      exact .ok _
    · rw [hformula, hf] at hfound
      cases hfound
      exact tells_renderFormula hb hspells asserted
  · refine .outcome_bind ?_ fun formula? hfound => ?_
    · rw [hformula, hnone]
      exact .ok _
    · rw [hformula, hnone] at hfound
      cases hfound
      intro e he
      cases he
      exact .inl rfl

/-- Rendering a statement fails only with errors that are told or fatal. -/
theorem Backend.tells_renderStatement (h : db.Grounded) (hb : b.IsAbout db) {t : Target}
    (ht : ∀ s, t.resolve db = .ok s → s.math ≠ []) (asserted : Bool) :
    db.Tells (b.renderStatement db settings t asserted).outcome := by
  refine .outcome_bind (t.tells_resolve db) fun s hs => ?_
  cases b with
  | symbolic => exact .outcome_bind (tells_symbolsMarkup db s.math) fun markup _ => .ok _
  | plain => exact tells_renderFormulaOf h hb (ht s hs) asserted
  | typeset d => exact tells_renderFormulaOf h hb (ht s hs) asserted

/-- What the result of a render is shown as: the markup, or what is said about
the error. -/
def Shown.Reports (label : Label) (render : Except RenderError String) (s : Shown) : Prop :=
  s.label = label ∧
    match render with
    | .ok markup => s.ok = true ∧ s.markup = markup
    | .error e => s.ok = false ∧ ∃ message, e.message? = some message ∧
        s.markup = "<span class=\"error\">" ++ Text.escape message ++ "</span>"

/-- A render that fails only with errors that are told or fatal is reported, or
ends with a fatal error. -/
theorem Shown.ends_ofRender (label : Label) {render : Logged RenderError String}
    (h : db.Tells render.outcome) :
    db.Ends (Shown.Reports label render.outcome) (Shown.ofRender label render).outcome := by
  unfold Shown.ofRender
  rw [Logged.outcome_bind]
  change db.Ends _ (Except.bind (.ok render.outcome) _)
  unfold Except.bind
  dsimp only
  cases hrender : render.outcome with
  | ok markup => exact .inl ⟨_, rfl, rfl, rfl, rfl⟩
  | error e =>
    dsimp only
    cases hmessage : e.message? with
    | some message => exact .inl ⟨_, rfl, rfl, rfl, message, hmessage, rfl⟩
    | none =>
      rcases h e hrender with htold | hfatal
      · rw [hmessage] at htold
        cases htold
      · exact .inr ⟨e, rfl, hfatal⟩

/-- Where no render fails in another way, each expression of a list is reported,
or the list ends with a fatal error. -/
theorem Shown.ends_mapM {α : Type} {label : α → Label} {render : α → Logged RenderError String}
    {l : List α} (h : ∀ a ∈ l, db.Tells (render a).outcome) :
    db.Ends (List.Forall₂ (fun a shown => Shown.Reports (label a) (render a).outcome shown) l)
      (l.mapM fun a => Shown.ofRender (label a) (render a)).outcome := by
  rw [Logged.outcome_mapM]
  exact .mapM fun a ha => Shown.ends_ofRender (label a) (h a ha)

/-- What a row reports of a statement: the render of the statement, those of its
hypotheses in order, and for an axiom those of the steps of its syntax tree. For
a label without statement it reports the render of the label alone. -/
def Row.Reports (b : Backend) (db : Database) (settings : Settings) (label : Label)
    (row : Row) : Prop :=
  row.label = label ∧
    match db.statements.get? label with
    | none =>
      row.assertion.Reports label (b.renderStatement db settings (.named label) false).outcome ∧
        row.hypotheses = [] ∧ row.steps = []
    | some s =>
      let asserted := s.typecode? == some db.provable
      row.assertion.Reports label (b.renderStatement db settings (.given s) asserted).outcome ∧
        List.Forall₂ (fun h shown =>
          shown.Reports h.label (b.renderStatement db settings (.given h) asserted).outcome)
            (db.hypothesesOf s.label) row.hypotheses ∧
        if s.kind = .axiomatic then
          ∃ fs, (db.syntaxSteps s).outcome = .ok fs ∧ List.Forall₂ (fun f shown =>
            shown.Reports f.label (b.renderFormula db settings f false)) fs row.steps
        else row.steps = []

/-- A statement that is given is the one that is meant. -/
theorem Database.Grounded.math_ne_nil_of_resolve_given (h : db.Grounded) {l : Label}
    {s : Statement} (hs : db.statements.get? l = some s) :
    ∀ s', (Target.given s).resolve db = .ok s' → s'.math ≠ [] := by
  intro s' hs'
  cases hs'
  exact h.math_ne_nil hs

/-- The hypotheses of a row are reported, or it ends with a fatal error. -/
theorem Row.ends_hypotheses (h : db.Grounded) (hb : b.IsAbout db) (l : Label) (asserted : Bool) :
    db.Ends (List.Forall₂ (fun hyp shown => Shown.Reports hyp.label
        (b.renderStatement db settings (.given hyp) asserted).outcome shown) (db.hypothesesOf l))
      ((db.hypothesesOf l).mapM fun hyp => Shown.ofRender hyp.label
        (b.renderStatement db settings (.given hyp) asserted)).outcome := by
  refine Shown.ends_mapM fun hyp hmem => ?_
  obtain ⟨l', -, hl'⟩ := List.mem_filterMap.mp hmem
  exact b.tells_renderStatement h hb (h.math_ne_nil_of_resolve_given hl') asserted

/-- The steps of the syntax tree of a statement with math are found for its row. -/
theorem Row.ends_syntaxSteps (h : db.Grounded) {s : Statement} (hs : s.math ≠ []) :
    db.Ends (fun fs => (db.syntaxSteps s).outcome = .ok fs ∧ ∀ f ∈ fs, f.Spells db)
      ((db.syntaxSteps s).mapError RenderError.lacking).outcome := by
  obtain ⟨fs, hfs, hspells⟩ := h.exists_syntaxSteps hs
  change db.Ends _ ((db.syntaxSteps s).outcome.mapError RenderError.lacking)
  rw [hfs]
  exact .inl ⟨fs, rfl, rfl, hspells⟩

/-- The steps of a row are reported, or it ends with a fatal error. -/
theorem Row.ends_steps (hb : b.IsAbout db) {fs : List Formula} (hfs : ∀ f ∈ fs, f.Spells db) :
    db.Ends (List.Forall₂ (fun f shown =>
        Shown.Reports f.label (b.renderFormula db settings f false) shown) fs)
      (fs.mapM fun f =>
        Shown.ofRender f.label (.ofExcept (b.renderFormula db settings f false))).outcome :=
  Shown.ends_mapM fun f hf => b.tells_renderFormula hb (hfs f hf) false

/-- A row reports of its statement, or ends with a fatal error. -/
theorem Row.ends_render (h : db.Grounded) (hb : b.IsAbout db) (settings : Settings)
    (label : Label) :
    db.Ends (Row.Reports b db settings label) (Row.render b db settings label).outcome := by
  unfold Row.render
  cases hlabel : db.statements.get? label with
  | none =>
    have htarget : ∀ s, (Target.named label).resolve db = .ok s → s.math ≠ [] := by
      intro s hs
      rw [Target.resolve, hlabel] at hs
      cases hs
    refine (Shown.ends_ofRender label
      (b.tells_renderStatement h hb htarget false)).bind fun assertion hassertion => ?_
    refine .inl ⟨_, rfl, rfl, ?_⟩
    rw [hlabel]
    exact ⟨hassertion, rfl, rfl⟩
  | some s =>
    dsimp only
    generalize hasserted : (s.typecode? == some db.provable) = asserted
    have hgiven := h.math_ne_nil_of_resolve_given hlabel
    refine (Shown.ends_ofRender label
      (b.tells_renderStatement h hb hgiven asserted)).bind fun assertion hassertion => ?_
    refine (ends_hypotheses h hb s.label asserted).bind fun hypotheses hreports => ?_
    by_cases hkind : s.kind = .axiomatic
    · rw [if_pos hkind]
      refine (ends_syntaxSteps h (h.math_ne_nil hlabel)).bind fun fs hfs => ?_
      refine (ends_steps hb hfs.2).bind fun steps hsteps => ?_
      refine .inl ⟨_, rfl, rfl, ?_⟩
      rw [hlabel]
      dsimp only
      rw [hasserted, if_pos hkind]
      exact ⟨hassertion, hreports, fs, hfs.1, hsteps⟩
    · rw [if_neg hkind]
      refine .inl ⟨_, rfl, rfl, ?_⟩
      rw [hlabel]
      dsimp only
      rw [hasserted, if_neg hkind]
      exact ⟨hassertion, hreports, rfl⟩

/-- An axiom is a gap or none, or ends with a fatal error. -/
theorem Definition.ends_gapAt (h : db.Grounded) (hd : d.database = db) {a : SyntaxAxiom}
    (ha : a ∈ db.syntaxAxioms) : db.Ends (fun _ => True) (d.gapAt settings a) := by
  unfold gapAt
  split
  · exact .inl ⟨_, rfl, trivial⟩
  · rename_i f hf
    split
    · exact .inl ⟨_, rfl, trivial⟩
    · rename_i e he
      split
      · exact .inl ⟨_, rfl, trivial⟩
      · rename_i hmessage
        have hspells : f.Spells db := by
          obtain ⟨s, -, hs⟩ := List.mem_filterMap.mp ha
          split at hs
          · split at hs
            · cases hs
            · cases hs
              exact fun g hg => h.spells_of_readAs hf hg
          · cases hs
        exact .inr ⟨e, rfl, (tells_format hd hspells _ e he).resolve_left hmessage⟩

/-- The check of a definition comes to its end, or ends with a fatal error. -/
theorem Definition.ends_check (h : db.Grounded) (hd : d.database = db) (settings : Settings) :
    db.Ends (fun _ => True) (d.check settings).outcome := by
  have hgaps : db.Ends (fun _ => True) (d.gaps settings) := by
    unfold gaps
    rw [hd]
    have hmap : db.Ends _ (db.syntaxAxioms.mapM (d.gapAt settings)) :=
      .mapM fun a ha => ends_gapAt h hd ha
    rcases hmap with ⟨gaps, hok, -⟩ | ⟨e, he, hfatal⟩
    · rw [hok]
      exact .inl ⟨_, rfl, trivial⟩
    · rw [he]
      exact .inr ⟨e, rfl, hfatal⟩
  unfold check
  refine Ends.bind (x := Logged.ofExcept (d.gaps settings)) hgaps fun gaps _ => ?_
  have hwarned : db.Ends (fun _ => True)
      (gaps.forM fun g => (.warn (Gap.warning g) : Logged RenderError Unit)).outcome :=
    .inl ⟨(), Logged.outcome_forM fun g _ => rfl, trivial⟩
  refine hwarned.bind fun _ _ => ?_
  have hshadowed : db.Ends (fun _ => True)
      (d.shadows.forM fun s => (.warn (Shadow.warning s) : Logged RenderError Unit)).outcome :=
    .inl ⟨(), Logged.outcome_forM fun s _ => rfl, trivial⟩
  refine hshadowed.bind fun _ _ => ?_
  exact .inl ⟨(), rfl, trivial⟩

/-- The hypotheses of a statement are all there: none of their labels is without
a statement. -/
theorem Database.Grounded.map_hypothesesOf (h : db.Grounded) (l : Label) :
    (db.hypothesesOf l).map some = ((db.hypotheses.get? l).getD []).map db.statements.get? := by
  have hstored : ∀ t ∈ (db.hypotheses.get? l).getD [], db.IsStored t := by
    cases hl : db.hypotheses.get? l with
    | none => simp
    | some ls => exact h.hypothesis_stored hl
  unfold hypothesesOf
  revert hstored
  induction (db.hypotheses.get? l).getD [] with
  | nil => exact fun _ => rfl
  | cons t ts ih =>
    intro hstored
    obtain ⟨ht, hts⟩ := List.forall_mem_cons.mp hstored
    obtain ⟨s, hs⟩ := ht
    rw [List.filterMap_cons, hs, List.map_cons, List.map_cons, ih hts, hs]

/-- In a database that was read errors of rendering do not stop a run, except
for one: with any backend, every label has a row, in which each expression
reports how its render ended, and the check of a definition comes to its end,
unless a part of a formula is missing where it is spelled. This takes a rule
whose label now stands for a statement with more variables than the rule, so
nothing stops a run where no label is declared twice. -/
theorem rendering_stops_only_at_missing_parts {provable logic : Typecode} {source : List Char}
    (hread : Database.read provable logic source = .ok db) (hd : d.database = db)
    (settings : Settings) :
    (∀ b ∈ Backend.available (some d), ∀ label,
      (∃ row, (Row.render b db settings label).outcome = .ok row ∧
          row.Reports b db settings label) ∨
        (Row.render b db settings label).outcome = .error (.misspelled .missingPart) ∧
          ¬db.Spellable) ∧
    ((d.check settings).outcome = .ok () ∨
      (d.check settings).outcome = .error (.misspelled .missingPart) ∧ ¬db.Spellable) ∧
    (∀ l, (db.hypothesesOf l).map some =
      ((db.hypotheses.get? l).getD []).map db.statements.get?) ∧
    (db.DeclaredOnce → db.Spellable) := by
  have h := grounded_of_read hread
  refine ⟨?_, ?_, h.map_hypothesesOf, DeclaredOnce.spellable⟩
  · intro b hb label
    rcases Row.ends_render h (Backend.isAbout_of_mem_available hd hb) settings label with
      hrow | ⟨e, he, rfl, hnot⟩
    · exact .inl hrow
    · exact .inr ⟨he, hnot⟩
  · rcases Definition.ends_check h hd settings with ⟨_, hok, -⟩ | ⟨e, he, rfl, hnot⟩
    · exact .inl hok
    · exact .inr ⟨he, hnot⟩

/-- The small database declares no label twice, so nothing stops a run there: an
equation has a row although there are no schemes for its typecode, and the check
of the definition for sums ends. -/
theorem rendering_stops_only_at_missing_parts_sample :
    Database.read "|-" "w" Database.sampleSource = .ok .sample ∧
      Definition.sampleSums.database = .sample ∧
      (∃ row, (Row.render (.typeset Definition.sampleSums) .sample {} "eq").outcome = .ok row ∧
        row.Reports (.typeset Definition.sampleSums) .sample {} "eq") ∧
      (Definition.sampleSums.check {}).outcome = .ok () := by
  have hread : Database.read "|-" "w" Database.sampleSource = .ok .sample := by decide +kernel
  have hd : Definition.sampleSums.database = .sample := rfl
  obtain ⟨hrows, hcheck, -, -⟩ := rendering_stops_only_at_missing_parts hread hd {}
  have hspellable := declaredOnce_sample.spellable
  refine ⟨hread, hd, ?_, ?_⟩
  · have hrow := hrows (.typeset Definition.sampleSums) (by simp [Backend.available]) "eq"
    exact hrow.resolve_right fun hstopped => hstopped.2 hspellable
  · exact hcheck.resolve_right fun hstopped => hstopped.2 hspellable

/-- A source that declares the label of a rule again, for a statement with a
variable that the rule does not have. -/
def redeclaredSource : List Char :=
  "$c c |- 0 $. $v x $. cx $f c x $. zero $a c 0 $. zero $p |- x $= $. one $a c 0 $.".toList

/-- What the source with the label declared again declares. -/
def redeclared : Database where
  provable := "|-"
  logic := "c"
  constants := ["c", "|-", "0"]
  variableSymbols := ["x"]
  statements := ⟨[("cx", ⟨"cx", .floating, ["c", "x"]⟩), ("zero", ⟨"zero", .provable, ["|-", "x"]⟩),
    ("one", ⟨"one", .axiomatic, ["c", "0"]⟩)]⟩
  floatings := ⟨[("cx", ⟨"cx", "c", "x"⟩)]⟩
  grammar :=
    { floatings := ⟨[("x", ⟨"cx", "c", "x"⟩)]⟩
      rules := ⟨[("c", [⟨"zero", ["0"]⟩, ⟨"one", ["0"]⟩])]⟩ }
  typecodes := ["c"]
  hypotheses := ⟨[("zero", []), ("one", [])]⟩

/-- A definition with one scheme, for the variable. -/
def redeclaredDefinition : Definition where
  database := redeclared
  schemes := ⟨[("c", [⟨true, "c", .node "cx" "|-" [], "x", 1⟩])]⟩
  identifiers := ⟨[("cx", "c")]⟩
  header := Settings.defaultHeader {}
  display := Settings.defaultDisplay {}

/-- Where the label of a rule was declared again a run can stop: the row of an
axiom has no outcome but a missing part, whatever the backend, and neither has
the check of a definition. -/
theorem missing_part_stops_run :
    Database.read "|-" "c" redeclaredSource = .ok redeclared ∧
      (Definition.compile redeclared {} false [⟨.scheme true "c" ["x"] " x ", 1⟩]).outcome =
        .ok ⟨redeclaredDefinition, []⟩ ∧
      (Row.render (.typeset redeclaredDefinition) redeclared {} "one").outcome =
        .error (.misspelled .missingPart) ∧
      (Row.render .plain redeclared {} "one").outcome = .error (.misspelled .missingPart) ∧
      (redeclaredDefinition.check {}).outcome = .error (.misspelled .missingPart) := by
  refine ⟨by decide +kernel, ?_, ?_, ?_, ?_⟩
  · decide +kernel
  · decide +kernel
  · decide +kernel
  · decide +kernel

end Typeset

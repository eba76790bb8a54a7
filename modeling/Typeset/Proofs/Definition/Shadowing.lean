import Typeset.Definition.Coverage
import Typeset.Proofs.Definition.Calls
import Typeset.Proofs.Definition.Unguarded
import Typeset.Proofs.Formula.Variables

/-!
# The first scheme that fits

The check of a definition notes the syntax axioms that several schemes of their
typecode fit, and says that only the first of these is used. Whether a scheme
fits is a matter of its pattern alone; whether it is passed over is one of
identifiers too. The two part ways where a variable of the pattern has no name or
no identifier, and where the pattern is a bare variable that would hand the
formula back to its own typecode. A first scheme without such a variable decides
the render, by a text or by an error; one with such a variable never gives a
text, and it can be left to a later scheme to do so.
-/

namespace Typeset.Definition

variable {d : Definition} {settings : Settings} {tc : Typecode} {f : Formula} {s : Scheme}

/-- A variable keeps a scheme of a typecode from giving a text: it has no name or
no identifier, or it is the whole pattern and its identifier is one of the same
typecode. -/
def BlockedBy (d : Definition) (tc : Typecode) (s : Scheme) (l : Label) : Prop :=
  d.database.variableName? l = none ∨ d.identifiers.get? l = none ∨
    (s.pattern.label = l ∧ d.identifiers.get? l = some tc)

/-- A pattern scheme that one of its variables keeps from giving a text. -/
def Blocked (d : Definition) (tc : Typecode) (s : Scheme) : Prop :=
  s.isIdentifier = false ∧
    ∃ l ∈ s.pattern.variableLabels d.database.isVariable, d.BlockedBy tc s l

instance (d : Definition) (tc : Typecode) (s : Scheme) (l : Label) :
    Decidable (d.BlockedBy tc s l) :=
  inferInstanceAs (Decidable (_ ∨ _))

instance (d : Definition) (tc : Typecode) (s : Scheme) : Decidable (d.Blocked tc s) :=
  inferInstanceAs (Decidable (_ ∧ ∃ _ ∈ _, _))

/-- A scheme that does not fit is passed over. -/
theorem attempt_of_not_fits {c : Call} (h : s.fits d.database c.formula = false) :
    d.attempt settings c s = .ok none := by
  unfold Scheme.fits at h
  unfold attempt
  cases hi : s.isIdentifier with
  | true =>
    rw [hi, if_pos rfl] at h
    rw [applyWith_of_isIdentifier hi, h]
    rfl
  | false =>
    rw [hi, if_neg Bool.false_ne_true, Option.isSome_eq_false_iff, Option.isNone_iff_eq_none] at h
    exact applyWith_of_match?_eq_none hi h

/-- A formula that is handed back is the whole, under its own typecode. -/
theorem of_guarded_eq_none {ε : Type} {outcome : Call → Except ε String} {tc' : Typecode}
    {g : Formula} (h : guarded ⟨tc, f, []⟩ outcome tc' g = .ok none) :
    tc' = tc ∧ g.size = f.size := by
  unfold guarded at h
  split at h
  · rename_i hhas
    obtain ⟨render, hrender, rfl, hsame⟩ := Pending.has_iff.mp hhas
    obtain rfl := List.mem_singleton.mp hrender
    exact ⟨rfl, (Formula.size_eq_of_same hsame).symm⟩
  · generalize outcome _ = o at h
    cases o <;> cases h

/-- A scheme that fits and is passed over is blocked. -/
theorem blocked_of_passed (hfits : s.fits d.database f = true)
    (h : d.attempt settings ⟨tc, f, []⟩ s = .ok none) : d.Blocked tc s := by
  unfold Scheme.fits at hfits
  unfold attempt at h
  cases hi : s.isIdentifier with
  | true =>
    rw [hi, if_pos rfl] at hfits
    rw [applyWith_of_isIdentifier hi, if_pos hfits] at h
    cases h
  | false =>
    rw [hi, if_neg Bool.false_ne_true] at hfits
    obtain ⟨bindings, hm⟩ := Option.isSome_iff_exists.mp hfits
    obtain ⟨l, g, hl, hcause⟩ := exists_of_applyWith_eq_none hi h hm
    have hvariable : l ∈ s.pattern.variableLabels d.database.isVariable :=
      Formula.mem_variableLabels_of_match? hm hl
    refine ⟨hi, l, hvariable, ?_⟩
    rcases hcause with hname | hnone | ⟨tc', _, hget, hguarded⟩
    · exact .inl hname
    · exact .inr (.inl hnone)
    · obtain ⟨rfl, hsize⟩ := of_guarded_eq_none hguarded
      -- Only a bare variable stands for as much as the whole formula.
      have hroot : d.database.isVariable s.pattern.label = true := by
        rw [← Bool.not_eq_false]
        intro hroot
        have hlt := Formula.size_lt_of_match? hroot hm hl
        omega
      rw [Formula.variableLabels_of_isVariable hroot] at hvariable
      exact .inr (.inr ⟨(List.mem_singleton.mp hvariable).symm, hget⟩)

/-- A scheme that is blocked gives no text. -/
theorem Blocked.attempt_ne (h : d.Blocked tc s) (text : String) :
    d.attempt settings ⟨tc, f, []⟩ s ≠ .ok (some text) := by
  obtain ⟨hi, l, hvariable, hblocked⟩ := h
  intro htext
  obtain ⟨bindings, parts, hm, hparts, _⟩ := exists_parts_of_applyWith_eq_some hi htext
  obtain ⟨g, hl⟩ := Formula.exists_entry_of_match? hm hvariable
  obtain ⟨part, _, hname, tc', _, hget, hrender⟩ := exists_mem_of_forall₂ hparts _ hl
  rcases hblocked with hnone | hnone | ⟨rfl, htc⟩
  · rw [hnone] at hname
    cases hname
  · rw [hnone] at hget
    cases hget
  · have hroot : d.database.isVariable s.pattern.label = true :=
      (Formula.exists_subformula_of_mem_variableLabels _ hvariable).1
    have hwhole : g = f := by
      have hbare := Formula.match?_of_isVariable hroot f
      obtain rfl : bindings = _ := Option.some.inj (hm.symm.trans hbare)
      simpa using hl
    obtain rfl : tc' = tc := Option.some.inj (hget.symm.trans htc)
    have hhas : Pending.has [(tc', .of f)] tc' g = true :=
      Pending.has_iff.mpr ⟨_, List.mem_cons_self, rfl, by rw [hwhole]; exact f.same_refl⟩
    dsimp only at hrender
    rw [guarded, Call.begun, if_pos hhas] at hrender
    cases hrender

/-- The first scheme that fits decides the render, unless it is blocked. -/
theorem decides_of_first_fits {later : List Scheme}
    (h : (d.schemesOf tc).filter (fun s => s.fits d.database f) = s :: later)
    (hfree : ¬d.Blocked tc s) : d.Decides settings ⟨tc, f, []⟩ s := by
  obtain ⟨front, back, hbucket, hfront, hfits, _⟩ := List.filter_eq_cons_iff.mp h
  refine ⟨front, back, hbucket, ?_, ?_⟩
  · intro t ht
    exact attempt_of_not_fits (c := ⟨tc, f, []⟩) (by simpa using hfront t ht)
  · intro hpassed
    exact hfree (blocked_of_passed hfits hpassed)

/-- What is noted of a syntax axiom is that two schemes fit it at least, and which
lines these and the others that fit stand on. -/
theorem exists_fitting_of_mem_shadows {shadow : Shadow} (h : shadow ∈ d.shadows) :
    ∃ a ∈ d.database.syntaxAxioms, ∃ f first second later, a.formula = .ok f ∧
      (d.schemesOf a.typecode).filter (fun s => s.fits d.database f) = first :: second :: later ∧
      shadow = ⟨a.label, a.typecode, (first :: second :: later).map (·.line)⟩ := by
  obtain ⟨a, ha, hshadow⟩ := List.mem_filterMap.mp h
  cases hf : a.formula with
  | error e =>
    rw [hf] at hshadow
    cases hshadow
  | ok f =>
    rw [hf] at hshadow
    dsimp only at hshadow
    split at hshadow
    · rename_i hseveral
      cases hshadow
      unfold fittingLines at hseveral ⊢
      cases hfitting : (d.schemesOf a.typecode).filter (fun s => s.fits d.database f) with
      | nil => simp [hfitting] at hseveral
      | cons first others =>
        cases others with
        | nil => simp [hfitting] at hseveral
        | cons second later =>
          exact ⟨a, ha, f, first, second, later, hf, hfitting, rfl⟩
    · cases hshadow

/-- Where several schemes of its typecode fit a syntax axiom, the first of them
decides the render of its expression, unless it is blocked; then it gives no text.
Schemes that do not fit are passed over. -/
theorem first_fitting_decides (d : Definition) (settings : Settings) {shadow : Shadow}
    (h : shadow ∈ d.shadows) :
    ∃ a ∈ d.database.syntaxAxioms, ∃ f first second later, a.formula = .ok f ∧
      (d.schemesOf a.typecode).filter (fun s => s.fits d.database f) = first :: second :: later ∧
      shadow = ⟨a.label, a.typecode, (first :: second :: later).map (·.line)⟩ ∧
      (∀ s ∈ d.schemesOf a.typecode, s.fits d.database f = false →
        d.attempt settings ⟨a.typecode, f, []⟩ s = .ok none) ∧
      (¬d.Blocked a.typecode first → d.Decides settings ⟨a.typecode, f, []⟩ first ∧
        (d.format settings a.typecode f []).map some =
          d.attempt settings ⟨a.typecode, f, []⟩ first) ∧
      (d.Blocked a.typecode first → ∀ text,
        d.attempt settings ⟨a.typecode, f, []⟩ first ≠ .ok (some text)) := by
  obtain ⟨a, ha, f, first, second, later, hf, hfitting, hshadow⟩ :=
    exists_fitting_of_mem_shadows h
  refine ⟨a, ha, f, first, second, later, hf, hfitting, hshadow, ?_, ?_, ?_⟩
  · intro s _ hs
    exact attempt_of_not_fits (c := ⟨a.typecode, f, []⟩) hs
  · intro hfree
    have hdecides : d.Decides settings ⟨a.typecode, f, []⟩ first :=
      decides_of_first_fits hfitting hfree
    exact ⟨hdecides, hdecides.run_eq⟩
  · intro hblocked text
    exact hblocked.attempt_ne text

deriving instance DecidableEq for SyntaxAxiom

/-- A definition with two schemes for sums. -/
def sampleTwice : Definition :=
  { sampleSums with
    schemes := ⟨[("c", [⟨true, "c", .node "cx" "c" [], "x", 1⟩,
      ⟨true, "c", .node "cy" "c" [], "y", 2⟩,
      ⟨false, "c", .node "add" "c" [.node "cx" "c" [], .node "cy" "c" []], "(#x# + #y#)", 3⟩,
      ⟨false, "c", .node "add" "c" [.node "cx" "c" [], .node "cy" "c" []], "#y# + #x#", 4⟩])]⟩ }

/-- The first of two schemes for sums decides the render of the sum. -/
theorem first_fitting_decides_sampleTwice :
    ⟨"add", "c", [3, 4]⟩ ∈ sampleTwice.shadows ∧
      sampleTwice.Decides {} ⟨"c", Database.sampleSum, []⟩ ⟨false, "c",
        .node "add" "c" [.node "cx" "c" [], .node "cy" "c" []], "(#x# + #y#)", 3⟩ := by
  have hshadows : sampleTwice.shadows = [⟨"add", "c", [3, 4]⟩] := by
    decide +kernel
  have hmem : ⟨"add", "c", [3, 4]⟩ ∈ sampleTwice.shadows := by
    rw [hshadows]
    exact List.mem_cons_self
  have haxioms : sampleTwice.database.syntaxAxioms =
      [⟨"add", "c", .ok Database.sampleSum⟩,
        ⟨"eq", "w", .ok (.node "eq" "w" [.node "cx" "c" [], .node "cy" "c" []])⟩] := by
    decide +kernel
  obtain ⟨a, ha, f, first, second, later, hf, hfitting, heq, _, hfree, _⟩ :=
    first_fitting_decides sampleTwice {} hmem
  rw [haxioms] at ha
  rcases List.mem_pair.mp ha with rfl | rfl
  · cases hf
    obtain ⟨rfl, -⟩ := List.cons.inj hfitting
    refine ⟨hmem, (hfree ?_).1⟩
    decide
  · simp at heq

/-- A definition whose first scheme hands every class back to the schemes of
classes. -/
def sampleHandsBack : Definition :=
  { sampleSums with
    schemes := ⟨[("c", [⟨false, "c", .node "cx" "c" [], "[#x#]", 1⟩,
      ⟨true, "c", .node "cx" "c" [], "x", 2⟩, ⟨true, "c", .node "cy" "c" [], "y", 3⟩,
      ⟨false, "c", .node "add" "c" [.node "cx" "c" [], .node "cy" "c" []], "(#x# + #y#)", 4⟩])]⟩ }

/-- A later scheme that fits can decide: here the first hands the sum back, is passed
over, and the sum has the text of the second. -/
theorem later_fitting_can_decide :
    sampleHandsBack.shadows = [⟨"add", "c", [1, 4]⟩] ∧
      sampleHandsBack.attempt {} ⟨"c", Database.sampleSum, []⟩
          ⟨false, "c", .node "cx" "c" [], "[#x#]", 1⟩ = .ok none ∧
      sampleHandsBack.format {} "c" Database.sampleSum [] = .ok "(x + y)" := by
  refine ⟨?_, ?_, ?_⟩
  · decide +kernel
  · decide +kernel
  · decide +kernel

end Typeset.Definition

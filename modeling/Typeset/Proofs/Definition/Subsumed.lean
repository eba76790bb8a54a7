import Typeset.Proofs.Definition.Removal
import Typeset.Proofs.Formula.Instances

/-!
# Schemes behind a more general one

Along the calls of a render formulas never grow, so what stands below the root of
a formula is not being rendered when the formula is. A pattern with no variable at
its root hands on only that. So if its variables have identifiers, a scheme with
such a pattern is never passed over where the pattern matches: it gives a text or
an error. It also matches whatever an instance of its pattern matches. A later
scheme of the same typecode for such an instance is therefore tried on nothing
that it matches, and can be left out.
-/

namespace Typeset

namespace Database

/-- A variable of patterns has a name. -/
theorem Consistent.exists_variableName? {db : Database} (h : db.Consistent) {l : Label}
    (hl : db.isVariable l = true) : ∃ name, db.variableName? l = some name := by
  unfold isVariable Table.contains at hl
  obtain ⟨v, hv⟩ := Option.isSome_iff_exists.mp hl
  refine ⟨v.symbol, ?_⟩
  simp [variableName?, (h.floating_stored hv).2, Statement.variableOf?, Statement.body]

end Database

/-- No formula that is being rendered is smaller than the one of the call. -/
def Call.Descends (c : Call) : Prop :=
  ∀ render ∈ c.pending, c.formula.size ≤ render.2.formula.size

namespace Definition

variable {d d' : Definition} {settings : Settings} {db : Database} {pre post : List Scheme}
  {s t : Scheme} {c c' : Call}

/-- No formula that is being rendered once a call has begun is smaller than the one
of the call. -/
theorem size_le_of_mem_begun (hc : c.Descends) :
    ∀ render ∈ c.begun, c.formula.size ≤ render.2.formula.size := by
  intro render hrender
  rcases List.mem_cons.mp hrender with rfl | hrender
  · exact Nat.le_refl _
  · exact hc render hrender

/-- Formulas do not grow from call to call. -/
theorem Calls.descends_pending (h : d.Calls c c') (hc : c.Descends) : c'.Descends := by
  obtain ⟨_, hpending, _⟩ := calls_iff.mp h
  have hsize : c'.formula.size ≤ c.formula.size := by
    rcases h.descends with heq | hbelow
    · rw [heq]
    · exact Nat.le_of_lt (Formula.size_lt_of_mem_subformulasAll hbelow)
  intro render hrender
  rw [hpending] at hrender
  exact Nat.le_trans hsize (size_le_of_mem_begun hc render hrender)

/-- What is smaller than the formula of a call is not being rendered. -/
theorem has_begun_of_size_lt (hc : c.Descends) {g : Formula} (hg : g.size < c.formula.size)
    (tc : Typecode) : c.begun.has tc g = false := by
  rw [Bool.eq_false_iff]
  intro hhas
  obtain ⟨render, hrender, _, hsame⟩ := Pending.has_iff.mp hhas
  have hle := size_le_of_mem_begun hc render hrender
  have hsize := Formula.size_eq_of_same hsame
  omega

/-- A pattern scheme with no variable at its root, whose variables have names and
identifiers, is not passed over where its pattern matches. -/
theorem attempt_ne_none_of_match? (hdb : d.database.Consistent) (hc : c.Descends)
    (hs : s.isIdentifier = false) (hroot : d.database.isVariable s.pattern.label = false)
    (hregistered : ∀ l ∈ s.pattern.variableLabels d.database.isVariable,
      ∃ tc, d.identifiers.get? l = some tc)
    (hm : (d.database.match? s.pattern c.formula).isSome = true) :
    d.attempt settings c s ≠ .ok none := by
  obtain ⟨bindings, hbindings⟩ := Option.isSome_iff_exists.mp hm
  intro hpassed
  obtain ⟨l, g, hl, hcause⟩ := exists_of_applyWith_eq_none hs hpassed hbindings
  have hvariable := Formula.mem_variableLabels_of_match? hbindings hl
  rcases hcause with hname | hnone | ⟨tc, _, _, hguarded⟩
  · have hisVariable := (Formula.exists_subformula_of_mem_variableLabels _ hvariable).1
    obtain ⟨name, hsome⟩ := hdb.exists_variableName? hisVariable
    rw [hname] at hsome
    cases hsome
  · obtain ⟨tc, hsome⟩ := hregistered l hvariable
    rw [hnone] at hsome
    cases hsome
  · have hlt : g.size < c.formula.size := Formula.size_lt_of_match? hroot hbindings hl
    rw [guarded, has_begun_of_size_lt hc hlt, if_neg Bool.false_ne_true] at hguarded
    generalize d.run settings _ = o at hguarded
    cases o <;> cases hguarded

/-- A scheme for an instance of an earlier pattern is passed over wherever it is
tried: the earlier scheme would not have been passed over before. -/
theorem attempt_eq_none_of_instance (hdb : d.database.Consistent) (hc : c.Descends)
    (hs : s.isIdentifier = false) (ht : t.isIdentifier = false)
    (hroot : d.database.isVariable s.pattern.label = false)
    (hregistered : ∀ l ∈ s.pattern.variableLabels d.database.isVariable,
      ∃ tc, d.identifiers.get? l = some tc)
    (hinstance : (d.database.match? s.pattern t.pattern).isSome = true)
    (hpassed : d.attempt settings c s = .ok none) : d.attempt settings c t = .ok none := by
  cases hm : d.database.match? t.pattern c.formula with
  | none => exact applyWith_of_match?_eq_none ht hm
  | some bindings =>
    have hinstance' : (d.database.match? s.pattern c.formula).isSome = true :=
      Formula.isSome_match?_trans hinstance (by rw [← Database.match?, hm]; rfl)
    exact absurd hpassed (attempt_ne_none_of_match? hdb hc hs hroot hregistered hinstance')

/-- A pattern scheme behind a more general one of its typecode is dead. Let the
pattern of the earlier scheme have no variable at its root, and an identifier for
each of its variables, and let the later pattern be an instance of it. Then the
schemes without the later one can be built into a definition too, and every formula
is rendered as without the later scheme, with the same text or the same error. -/
theorem format_without_subsumed (hdb : db.DeclaredOnce)
    (hd : d.IsBuiltFrom db (pre ++ t :: post)) (hmem : s ∈ pre)
    (htypecode : s.typecode = t.typecode) (hs : s.isIdentifier = false)
    (ht : t.isIdentifier = false) (hroot : db.isVariable s.pattern.label = false)
    (hregistered : ∀ l ∈ s.pattern.variableLabels db.isVariable,
      ∃ tc, d.identifiers.get? l = some tc)
    (hinstance : (db.match? s.pattern t.pattern).isSome = true) :
    (∃ d' : Definition, d'.IsBuiltFrom db (pre ++ post)) ∧
      ∀ d' : Definition, d'.IsBuiltFrom db (pre ++ post) → ∀ settings tc f,
        d.format settings tc f [] = d'.format settings tc f [] := by
  obtain rfl := hd.database_eq
  constructor
  · have hnamed := exists_isBuiltFrom_iff.mp ⟨d, hd⟩
    refine exists_isBuiltFrom_iff.mpr fun u hu => hnamed u ?_
    rcases List.mem_append.mp hu with hu | hu
    · exact List.mem_append_left _ hu
    · exact List.mem_append_right _ (List.mem_cons_of_mem _ hu)
  · intro d' hd' settings tc f
    have hanswers : Answers (fun _ => False) Eq (d.run settings ⟨tc, f, []⟩)
        (d'.run settings ⟨tc, f, []⟩) := by
      refine answers_run_of_tried hd hd' ht ⟨s, List.mem_append_left _ hmem, htypecode⟩
        Call.Descends (fun _ _ => False) ?_ ?_ ?_ ⟨tc, f, []⟩ ?_
      · intro c c' hc hcall
        exact hcall.descends_pending hc
      · intro _ _ _ _ _ hfalse
        exact hfalse
      · intro c hc htc hfront
        -- The earlier scheme is in front of the later one, so it was tried and passed over.
        have hbucket : s ∈ bucketOf pre c.typecode :=
          List.mem_filter.mpr ⟨hmem, by simpa using htypecode.trans htc⟩
        have hpassed := firstText_eq_none_iff.mp hfront s hbucket
        exact .inl (attempt_eq_none_of_instance hdb.consistent hc hs ht hroot hregistered
          hinstance hpassed)
      · intro render hrender
        cases hrender
    rcases hanswers.eq_or_excused with heq | ⟨_, _, hfalse⟩
    · exact heq
    · exact hfalse.elim

/-- A scheme for sums of a class with itself. -/
def sampleDoubled : Scheme := ⟨false, "c", Database.sampleDouble, "2 #x#", 5⟩

/-- Behind the scheme for sums of two classes the one for sums of a class with itself
is dead: such a sum has the text of a sum. -/
theorem format_without_subsumed_sampleDoubled :
    (sampleSums.addToBucket sampleDoubled).IsBuiltFrom .sample
        (sampleSchemes ++ sampleDoubled :: []) ∧
      (sampleSums.addToBucket sampleDoubled).format {} "c" Database.sampleDouble [] =
        sampleSums.format {} "c" Database.sampleDouble [] ∧
      sampleSums.format {} "c" Database.sampleDouble [] = .ok "(x + x)" := by
  have hbuilt : (sampleSums.addToBucket sampleDoubled).IsBuiltFrom .sample
      (sampleSchemes ++ sampleDoubled :: []) :=
    isBuiltFrom_append_singleton.mpr ⟨sampleSums, isBuiltFrom_sampleSums, rfl⟩
  have hlabels : Formula.variableLabels Database.sample.isVariable
      (.node "add" "c" [.node "cx" "c" [], .node "cy" "c" []]) = ["cx", "cy"] := by
    rfl
  have hregistered : ∀ l ∈ ["cx", "cy"],
      ∃ tc, (sampleSums.addToBucket sampleDoubled).identifiers.get? l = some tc := by
    simp only [List.forall_mem_cons]
    exact ⟨⟨"c", rfl⟩, ⟨"c", rfl⟩, by simp⟩
  have hdead := format_without_subsumed Database.declaredOnce_sample hbuilt
    (s := ⟨false, "c", .node "add" "c" [.node "cx" "c" [], .node "cy" "c" []], "(#x# + #y#)", 2⟩)
    (by simp [sampleSchemes]) rfl rfl rfl rfl (by rw [hlabels]; exact hregistered) rfl
  exact ⟨hbuilt, hdead.2 sampleSums isBuiltFrom_sampleSums {} "c" _, by decide +kernel⟩

end Definition

end Typeset

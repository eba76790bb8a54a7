import Typeset.Proofs.Definition.Built
import Typeset.Proofs.Definition.Calls
import Typeset.Proofs.Definition.Termination
import Typeset.Proofs.Formula.Variables

/-!
# Schemes that never give a text

A pattern scheme with a variable that is no identifier never gives a text. It
is not always passed over, though: variables are rendered in the order of the
pattern, and a part that cannot be rendered is an error of the whole. So such a
scheme can do one thing, namely fail, when what stands for a variable before
the first one without identifier cannot be rendered. In every other case the
definition renders as it does without the scheme.
-/

namespace Typeset.Definition

/-- A scheme fails with an error on the formula of a call: its pattern matches,
and the error is that of the render of what one of the variables stands for,
where neither this variable nor one bound before it is without identifier. -/
structure FailsOn (d : Definition) (settings : Settings) (s : Scheme) (c : Call) (e : RenderError) :
    Prop where
  /-- The scheme has the error. -/
  attempt_eq : d.attempt settings c s = .error e
  /-- It is that of a part. -/
  part : ∃ bindings front l g back tc, d.database.match? s.pattern c.formula = some bindings ∧
    bindings.entries = front ++ (l, g) :: back ∧
    (∀ b ∈ front, ∃ tc, d.identifiers.get? b.1 = some tc) ∧
    d.identifiers.get? l = some tc ∧ d.run settings ⟨tc, g, c.begun⟩ = .error e

/-- A scheme makes a render fail with an error: it fails so on a formula for
which the schemes before it are passed over, and from there the error goes up
call by call. -/
def FailsBelow (d : Definition) (settings : Settings) (s : Scheme) (c : Call) (e : RenderError) :
    Prop :=
  ∃ c' front back,
    Relation.ReflTransGen (fun c c' => d.Calls c c' ∧ d.run settings c' = .error e) c c' ∧
    d.schemesOf c'.typecode = front ++ s :: back ∧
    firstText (d.attempt settings c') front = .ok none ∧ d.FailsOn settings s c' e

variable {d d' : Definition} {settings : Settings} {db : Database} {pre post : List Scheme}
  {s : Scheme} {c c' : Call}

/-- Where a scheme makes a call fail it makes the caller fail. -/
theorem FailsBelow.of_calls {e : RenderError} (h : d.FailsBelow settings s c' e)
    (hcall : d.Calls c c') (he : d.run settings c' = .error e) : d.FailsBelow settings s c e := by
  obtain ⟨last, front, back, hreach, hs⟩ := h
  exact ⟨last, front, back, .head ⟨hcall, he⟩ hreach, hs⟩

/-- A pattern scheme that gives a text has an identifier for each variable. -/
theorem registered_of_applyWith_eq_some {ε : Type} {f : Formula}
    {render : (tc : Typecode) → (g : Formula) → d.HandsOn f tc g → Except ε (Option String)}
    {text : String} (hs : s.isIdentifier = false)
    (htext : d.applyWith settings s f render = .ok (some text)) :
    ∀ l ∈ s.pattern.variableLabels d.database.isVariable,
      ∃ tc, d.identifiers.get? l = some tc := by
  intro l hl
  obtain ⟨bindings, parts, hm, hparts, _⟩ := exists_parts_of_applyWith_eq_some hs htext
  obtain ⟨g, hg⟩ := Formula.exists_entry_of_match? hm hl
  obtain ⟨part, _, _, tc, _, htc, _⟩ := exists_mem_of_forall₂ hparts _ hg
  exact ⟨tc, htc⟩

/-- A scheme with a variable that is no identifier is passed over or fails. -/
theorem attempt_eq_none_or_failsOn (hs : s.isIdentifier = false) {l : Label}
    (hl : l ∈ s.pattern.variableLabels d.database.isVariable) (hnone : d.identifiers.get? l = none)
    (c : Call) : d.attempt settings c s = .ok none ∨ ∃ e, d.FailsOn settings s c e := by
  cases happly : d.attempt settings c s with
  | error e =>
    right
    obtain ⟨_, bindings, front, l', g, back, tc, _, hm, hentries, hfront, ht, hrender⟩ :=
      exists_of_applyWith_eq_error happly
    obtain ⟨_, hrun⟩ := of_guarded_eq_error hrender
    exact ⟨e, happly, bindings, front, l', g, back, tc, hm, hentries, hfront, ht, hrun⟩
  | ok o =>
    left
    cases o with
    | none => rfl
    | some text =>
      obtain ⟨tc, ht⟩ := registered_of_applyWith_eq_some hs happly l hl
      rw [hnone] at ht
      cases ht

/-- A pattern scheme registers no identifier. -/
theorem schemesFor_append_cons (hs : s.isIdentifier = false) (pre post : List Scheme) (l : Label) :
    schemesFor (pre ++ post) l = schemesFor (pre ++ s :: post) l := by
  simp [schemesFor, hs]

/-- Every typecode keeps its bucket if one scheme is taken out, provided that
the scheme is not the only one of its typecode. -/
theorem bucketOf_append_eq_nil (hother : ∃ t ∈ pre ++ post, t.typecode = s.typecode)
    (tc : Typecode) :
    bucketOf (pre ++ post) tc = [] ↔ bucketOf (pre ++ s :: post) tc = [] := by
  simp only [bucketOf, List.filter_eq_nil_iff, List.mem_append, List.mem_cons]
  constructor
  · rintro hnone t (ht | rfl | ht)
    · exact hnone t (.inl ht)
    · obtain ⟨t', ht', htc⟩ := hother
      rw [← htc]
      exact hnone t' (List.mem_append.mp ht')
    · exact hnone t (.inr ht)
  · rintro hnone t (ht | ht)
    · exact hnone t (.inl ht)
    · exact hnone t (.inr (.inr ht))

/-- The first text is found side by side without a scheme that, if it is tried,
is passed over or fails with an excused error. -/
theorem answers_firstText_without {ε ε' : Type} {Excused : ε → Prop} {E : ε → ε' → Prop}
    {apply : Scheme → Except ε (Option String)} {apply' : Scheme → Except ε' (Option String)}
    {front back : List Scheme} (h : ∀ t ∈ front ++ back, Answers Excused E (apply t) (apply' t))
    (hs : firstText apply front = .ok none →
      apply s = .ok none ∨ ∃ e, apply s = .error e ∧ Excused e) :
    Answers Excused E (firstText apply (front ++ s :: back))
      (firstText apply' (front ++ back)) := by
  rw [firstText_append, firstText_append]
  apply (answers_firstText fun t ht => h t (List.mem_append_left _ ht)).bind
  intro o hfront
  cases o with
  | some text => exact .ok (some text)
  | none =>
    dsimp only
    rw [firstText]
    rcases hs hfront with hs | ⟨e, hs, he⟩
    · rw [hs]
      exact answers_firstText fun t ht => h t (List.mem_append_right _ ht)
    · rw [hs]
      exact .excused he _

/-- The first text of a bucket is found side by side without a scheme of the list
that, if it is in the bucket and tried, is passed over or fails with an excused
error. -/
theorem answers_firstText_bucketOf {ε ε' : Type} {Excused : ε → Prop} {E : ε → ε' → Prop}
    {apply : Scheme → Except ε (Option String)} {apply' : Scheme → Except ε' (Option String)}
    {tc : Typecode}
    (h : ∀ t ∈ bucketOf (pre ++ s :: post) tc, Answers Excused E (apply t) (apply' t))
    (hs : s.typecode = tc → firstText apply (bucketOf pre tc) = .ok none →
      apply s = .ok none ∨ ∃ e, apply s = .error e ∧ Excused e) :
    Answers Excused E (firstText apply (bucketOf (pre ++ s :: post) tc))
      (firstText apply' (bucketOf (pre ++ post) tc)) := by
  have hwithout : bucketOf (pre ++ post) tc = bucketOf pre tc ++ bucketOf post tc := by
    simp [bucketOf]
  by_cases htc : s.typecode = tc
  · have hwith : bucketOf (pre ++ s :: post) tc =
        bucketOf pre tc ++ s :: bucketOf post tc := by
      simp [bucketOf, htc]
    rw [hwith] at h ⊢
    rw [hwithout]
    apply answers_firstText_without _ (hs htc)
    intro t ht
    apply h t
    rcases List.mem_append.mp ht with ht | ht
    · exact List.mem_append_left _ ht
    · exact List.mem_append_right _ (List.mem_cons_of_mem _ ht)
  · have hwith : bucketOf (pre ++ s :: post) tc = bucketOf (pre ++ post) tc := by
      simp [bucketOf, htc]
    rw [hwith] at h ⊢
    exact answers_firstText h

/-- Along the calls of a render, the outcome is the same without a scheme that,
wherever it is tried, is passed over or fails with an error that is excused there
and in all calls above. -/
theorem answers_run_of_tried (hd : d.IsBuiltFrom db (pre ++ s :: post))
    (hd' : d'.IsBuiltFrom db (pre ++ post)) (hs : s.isIdentifier = false)
    (hother : ∃ t ∈ pre ++ post, t.typecode = s.typecode) {settings : Settings}
    (P : Call → Prop) (Excused : Call → RenderError → Prop)
    (hcalls : ∀ c c', P c → d.Calls c c' → P c')
    (hexcused : ∀ c c' e, d.Calls c c' → d.run settings c' = .error e → Excused c' e →
      Excused c e)
    (htried : ∀ c, P c → s.typecode = c.typecode →
      firstText (d.attempt settings c) (bucketOf pre c.typecode) = .ok none →
      d.attempt settings c s = .ok none ∨
        ∃ e, d.attempt settings c s = .error e ∧ Excused c e) (c : Call) :
    P c → Answers (Excused c) Eq (d.run settings c) (d'.run settings c) := by
  have hreads : d.ReadsLike d' := hd.readsLike hd' (schemesFor_append_cons hs pre post)
  induction c using d.call_induction with
  | h c ih =>
    intro hc
    have hempty := bucketOf_append_eq_nil hother c.typecode
    rw [run_eq, run_eq]
    apply answers_formatWith
    · intro hbucket
      refine ⟨?_, rfl⟩
      rw [hd.get?_schemes] at hbucket
      split at hbucket
      · rename_i hnil
        rw [hd'.get?_schemes, if_pos (hempty.mpr hnil)]
      · cases hbucket
    · intro bucket hbucket
      rw [hd.get?_schemes] at hbucket
      split at hbucket
      · cases hbucket
      · rename_i hne
        cases hbucket
        refine ⟨bucketOf (pre ++ post) c.typecode, ?_, (hreads.unmatched_eq _ _).symm, ?_⟩
        · rw [hd'.get?_schemes, if_neg (mt hempty.mp hne)]
        · apply answers_firstText_bucketOf
          · intro t ht
            rw [← hd.schemesOf_eq] at ht
            apply answers_applyWith_of_calls hreads ht
            intro c' hcall
            exact (ih c' hcall (hcalls c c' hc hcall)).mono fun e => hexcused c c' e hcall
          · exact htried c hc

/-- With a scheme that has a variable without identifier, a render has the
outcome that it has without the scheme, unless the scheme makes it fail. -/
theorem answers_run_without (hd : d.IsBuiltFrom db (pre ++ s :: post))
    (hd' : d'.IsBuiltFrom db (pre ++ post)) (hs : s.isIdentifier = false) {l : Label}
    (hl : l ∈ s.pattern.variableLabels d.database.isVariable) (hnone : d.identifiers.get? l = none)
    (hother : ∃ t ∈ pre ++ post, t.typecode = s.typecode) (settings : Settings) (c : Call) :
    Answers (d.FailsBelow settings s c) Eq (d.run settings c) (d'.run settings c) := by
  refine answers_run_of_tried hd hd' hs hother (fun _ => True) (d.FailsBelow settings s) ?_ ?_ ?_
    c trivial
  · intros
    trivial
  · intro c c' e hcall hrun hfails
    exact hfails.of_calls hcall hrun
  · intro c _ htc hfront
    rcases attempt_eq_none_or_failsOn hs hl hnone c with hpassed | ⟨e, hfails⟩
    · exact .inl hpassed
    · have hbucket : d.schemesOf c.typecode =
          bucketOf pre c.typecode ++ s :: bucketOf post c.typecode := by
        rw [hd.schemesOf_eq]
        simp [bucketOf, htc]
      exact .inr ⟨e, hfails.attempt_eq, c, _, _, .refl, hbucket, hfront, hfails⟩

/-- A scheme whose first variable is no identifier never fails. -/
theorem not_failsOn_of_head {l : Label} {more : List Label} {e : RenderError}
    (hl : s.pattern.variableLabels d.database.isVariable = l :: more)
    (hnone : d.identifiers.get? l = none) : ¬d.FailsOn settings s c e := by
  rintro ⟨_, bindings, front, l', g, back, tc, hm, hentries, hfront, ht, _⟩
  obtain ⟨g', rest, hcons⟩ := Formula.exists_entries_eq_cons_of_match? hm hl
  rw [hcons] at hentries
  cases front with
  | nil =>
    simp only [List.nil_append, List.cons.injEq, Prod.mk.injEq] at hentries
    rw [← hentries.1.1, hnone] at ht
    cases ht
  | cons b front =>
    simp only [List.cons_append, List.cons.injEq] at hentries
    obtain ⟨tc', ht'⟩ := hfront b List.mem_cons_self
    rw [← hentries.1, hnone] at ht'
    cases ht'

/-- A scheme with a variable that is no identifier, and not the only one of its
typecode, has no effect but one. Every formula is rendered as without the
scheme, with the same text or the same error, unless the scheme makes the
render fail: it is tried on the formula or on one that is handed on below it,
matches, and what stands for a variable before the first one without identifier
cannot be rendered. The error then is that of the part. If the first variable of
the pattern is no identifier the scheme has no effect at all. -/
theorem format_without_unregistered {db : Database} {pre post : List Scheme} {s : Scheme}
    {d d' : Definition} (hd : d.IsBuiltFrom db (pre ++ s :: post))
    (hd' : d'.IsBuiltFrom db (pre ++ post)) (hs : s.isIdentifier = false)
    (hvariable : ∃ l ∈ s.pattern.variableLabels db.isVariable, d.identifiers.get? l = none)
    (hother : ∃ t ∈ pre ++ post, t.typecode = s.typecode) (settings : Settings) (tc : Typecode)
    (f : Formula) :
    (d.format settings tc f [] = d'.format settings tc f [] ∨
      ∃ e, d.format settings tc f [] = .error e ∧ d.FailsBelow settings s ⟨tc, f, []⟩ e) ∧
    ((∀ l, (s.pattern.variableLabels db.isVariable).head? = some l → d.identifiers.get? l = none) →
      d.format settings tc f [] = d'.format settings tc f []) := by
  obtain ⟨l, hl, hnone⟩ := hvariable
  obtain rfl := hd.database_eq
  have hanswers := answers_run_without hd hd' hs hl hnone hother settings ⟨tc, f, []⟩
  have houtcome : d.format settings tc f [] = d'.format settings tc f [] ∨
      ∃ e, d.format settings tc f [] = .error e ∧ d.FailsBelow settings s ⟨tc, f, []⟩ e :=
    hanswers.eq_or_excused
  refine ⟨houtcome, ?_⟩
  intro hhead
  rcases houtcome with heq | ⟨e, _, c, _, _, _, _, _, hfails⟩
  · exact heq
  · cases hlabels : s.pattern.variableLabels d.database.isVariable with
    | nil =>
      rw [hlabels] at hl
      cases hl
    | cons first more =>
      have hfirst := hhead first (by rw [hlabels]; rfl)
      exact absurd hfails (not_failsOn_of_head hlabels hfirst)

/-- The small database with a constant class, zero. -/
def sampleWithZero : Database :=
  { Database.sample with
    constants := Database.sample.constants ++ ["0"]
    statements := Database.sample.statements.set "zero" ⟨"zero", .axiomatic, ["c", "0"]⟩
    grammar := Database.sample.grammar.addRule "c" ⟨"zero", ["0"]⟩
    hypotheses := Database.sample.hypotheses.set "zero" [] }

/-- The scheme for the first variable, the only one that is an identifier. -/
def sampleFirst : Scheme := ⟨true, "c", .node "cx" "c" [], "x", 1⟩

/-- A scheme for sums of two variables. -/
def sampleAny : Scheme :=
  ⟨false, "c", .node "add" "c" [.node "cx" "c" [], .node "cy" "c" []], "#x# + #y#", 2⟩

/-- The same with the variables the other way round. -/
def sampleAnyReversed : Scheme :=
  ⟨false, "c", .node "add" "c" [.node "cy" "c" [], .node "cx" "c" []], "#y# + #x#", 2⟩

/-- A scheme for sums that begin with zero. -/
def sampleFromZero : Scheme :=
  ⟨false, "c", .node "add" "c" [.node "zero" "c" [], .node "cx" "c" []], "0 + #x#", 3⟩

/-- A definition for classes over the database with zero, with the given
schemes. -/
def sampleOf (schemes : List Scheme) : Definition where
  database := sampleWithZero
  schemes := ⟨[("c", schemes)]⟩
  identifiers := ⟨[("cx", "c")]⟩
  header := ""
  display := "###"

/-- Zero and the first variable. -/
def sampleZeroSum : Formula := .node "add" "c" [.node "zero" "c" [], .node "cx" "c" []]

/-- A scheme with a variable that is no identifier can do harm. The scheme for
sums of two variables never gives a text, as the second one is no identifier;
but it asks for a text of what the first one stands for, here zero, which has
none. Without the scheme the sum has a text. -/
theorem unregistered_scheme_can_fail :
    (sampleOf [sampleFirst, sampleAny, sampleFromZero]).IsBuiltFrom sampleWithZero
        ([sampleFirst] ++ sampleAny :: [sampleFromZero]) ∧
      (sampleOf [sampleFirst, sampleFromZero]).IsBuiltFrom sampleWithZero
        ([sampleFirst] ++ [sampleFromZero]) ∧
      sampleAny.isIdentifier = false ∧
      "cy" ∈ sampleAny.pattern.variableLabels sampleWithZero.isVariable ∧
      (sampleOf [sampleFirst, sampleAny, sampleFromZero]).identifiers.get? "cy" = none ∧
      sampleFromZero.typecode = sampleAny.typecode ∧
      (sampleOf [sampleFirst, sampleAny, sampleFromZero]).format {} "c" sampleZeroSum [] =
        .error (.noMatch (.node "zero" "c" []) "c" "0") ∧
      (sampleOf [sampleFirst, sampleFromZero]).format {} "c" sampleZeroSum [] = .ok "0 + x" := by
  have hbuilt : ∀ schemes, (build { database := sampleWithZero, header := "", display := "###" }
        schemes).outcome = .ok (sampleOf schemes) → (sampleOf schemes).IsBuiltFrom sampleWithZero
          schemes :=
    fun schemes h => ⟨_, rfl, rfl, rfl, h⟩
  refine ⟨hbuilt _ (by rfl), hbuilt _ (by rfl), rfl, by decide, rfl, rfl, by decide +kernel, by decide +kernel⟩

/-- Where the variable without identifier comes first the scheme has no
effect. -/
theorem format_without_unregistered_sample :
    (sampleOf [sampleFirst, sampleAnyReversed, sampleFromZero]).IsBuiltFrom sampleWithZero
        ([sampleFirst] ++ sampleAnyReversed :: [sampleFromZero]) ∧
      (sampleOf [sampleFirst, sampleFromZero]).IsBuiltFrom sampleWithZero
        ([sampleFirst] ++ [sampleFromZero]) ∧
      sampleAnyReversed.pattern.variableLabels sampleWithZero.isVariable = ["cy", "cx"] ∧
      (sampleOf [sampleFirst, sampleAnyReversed, sampleFromZero]).identifiers.get? "cy" = none ∧
      (sampleOf [sampleFirst, sampleAnyReversed, sampleFromZero]).format {} "c" sampleZeroSum [] =
        (sampleOf [sampleFirst, sampleFromZero]).format {} "c" sampleZeroSum [] := by
  have hwith : (sampleOf [sampleFirst, sampleAnyReversed, sampleFromZero]).IsBuiltFrom
      sampleWithZero ([sampleFirst] ++ sampleAnyReversed :: [sampleFromZero]) :=
    ⟨{ database := sampleWithZero, header := "", display := "###" }, rfl, rfl, rfl, by rfl⟩
  have hwithout : (sampleOf [sampleFirst, sampleFromZero]).IsBuiltFrom
      sampleWithZero ([sampleFirst] ++ [sampleFromZero]) :=
    ⟨{ database := sampleWithZero, header := "", display := "###" }, rfl, rfl, rfl, by rfl⟩
  have hlabels : sampleAnyReversed.pattern.variableLabels sampleWithZero.isVariable =
      ["cy", "cx"] := by
    decide
  have hnone : ∀ schemes, (sampleOf schemes).identifiers.get? "cy" = none := fun _ => rfl
  refine ⟨hwith, hwithout, hlabels, hnone _, ?_⟩
  apply (format_without_unregistered hwith hwithout rfl ⟨"cy", by simp [hlabels], hnone _⟩
    ⟨sampleFirst, by simp, rfl⟩ {} "c" sampleZeroSum).2
  intro l hl
  obtain rfl : "cy" = l := by simpa [hlabels] using hl
  exact hnone _

end Typeset.Definition

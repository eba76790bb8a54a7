import Typeset.Proofs.Definition.Built
import Typeset.Proofs.Definition.Calls
import Typeset.Proofs.Definition.Covering
import Typeset.Proofs.Definition.Termination

/-!
# More pattern schemes at the end

Pattern schemes that are put behind all others change no text. A text is that
of the first scheme of a bucket that applies; the schemes before it were passed
over, and all renders that they asked for had texts. Those renders have the
same texts with more schemes, so the same schemes are passed over, and the same
one is reached before any of the new ones. Therefore a syntax axiom that has a
text keeps it, and no new gap arises.
-/

namespace Typeset.Definition

variable {d d' : Definition} {settings : Settings} {db : Database} {schemes more : List Scheme}

/-- Pattern schemes register no identifiers. -/
theorem schemesFor_append_patterns (hmore : ∀ s ∈ more, s.isIdentifier = false) (l : Label) :
    schemesFor (schemes ++ more) l = schemesFor schemes l := by
  have hnone : schemesFor more l = [] := by
    apply List.filter_eq_nil_iff.mpr
    intro s hs
    simp [hmore s hs]
  rw [schemesFor, List.filter_append]
  change schemesFor schemes l ++ schemesFor more l = _
  rw [hnone, List.append_nil]

/-- A bucket stays in front of the schemes that are added. -/
theorem IsBuiltFrom.get?_schemes_append (hd : d.IsBuiltFrom db schemes)
    (hd' : d'.IsBuiltFrom db (schemes ++ more)) {tc : Typecode} {bucket : List Scheme}
    (h : d.schemes.get? tc = some bucket) :
    d'.schemes.get? tc = some (bucket ++ bucketOf more tc) := by
  rw [hd.get?_schemes] at h
  split at h
  · cases h
  · rename_i hne
    cases h
    have happend : bucketOf (schemes ++ more) tc = bucketOf schemes tc ++ bucketOf more tc :=
      List.filter_append _ _
    rw [hd'.get?_schemes, happend, if_neg (by simp [hne])]

/-- A render that has a text has the same text with more pattern schemes. -/
theorem run_append (hd : d.IsBuiltFrom db schemes) (hd' : d'.IsBuiltFrom db (schemes ++ more))
    (hmore : ∀ s ∈ more, s.isIdentifier = false) (c : Call) :
    ∀ text, d.run settings c = .ok text → d'.run settings c = .ok text := by
  have hreads : d.ReadsLike d' := hd.readsLike hd' (schemesFor_append_patterns hmore)
  induction c using d.call_induction with
  | h c ih =>
    intro text htext
    obtain ⟨bucket, hbucket, hfirst⟩ := run_eq_ok_iff.mp htext
    -- A render with an error may end in any way once there are more schemes.
    have hcalls : ∀ c', d.Calls c c' → Answers (fun _ => True) (fun _ _ => True)
        (d.run settings c') (d'.run settings c') := by
      intro c' hcall
      cases hrun : d.run settings c' with
      | ok text' =>
        rw [ih c' hcall text' hrun]
        exact .ok text'
      | error e => exact .excused trivial _
    have hschemes : Answers (fun _ => True) (fun _ _ => True)
        (firstText (d.attempt settings c) bucket) (firstText (d'.attempt settings c) bucket) := by
      apply answers_firstText
      intro s hs
      apply answers_applyWith_of_calls hreads _ hcalls
      rw [schemesOf, hbucket]
      exact hs
    refine run_eq_ok_iff.mpr ⟨_, hd.get?_schemes_append hd' hbucket, ?_⟩
    rw [firstText_append, hschemes.eq_of_ok hfirst]
    rfl

/-- A gap bears the label and the typecode of its axiom. -/
theorem of_gapAt_eq_some {a : SyntaxAxiom} {gap : Gap} (h : d.gapAt settings a = .ok (some gap)) :
    gap.label = a.label ∧ gap.typecode = a.typecode := by
  unfold gapAt at h
  split at h
  · cases h
    exact ⟨rfl, rfl⟩
  · split at h
    · cases h
    · split at h
      · cases h
        exact ⟨rfl, rfl⟩
      · cases h

/-- An axiom that is no gap is one that can be read and has a text. -/
theorem gapAt_eq_none_iff {a : SyntaxAxiom} :
    d.gapAt settings a = .ok none ↔
      ∃ f text, a.formula = .ok f ∧ d.format settings a.typecode f [] = .ok text := by
  unfold gapAt
  constructor
  · intro h
    split at h
    · cases h
    · rename_i f hf
      split at h
      · rename_i text htext
        exact ⟨f, text, hf, htext⟩
      · split at h <;> cases h
  · rintro ⟨f, text, hf, htext⟩
    rw [hf]
    simp only [htext]

/-- Where axioms that are no gaps stay none, the gaps that there are have been
gaps before, in the same order. -/
theorem sublist_gaps {axioms : List SyntaxAxiom}
    (hkept : ∀ a ∈ axioms, d.gapAt settings a = .ok none → d'.gapAt settings a = .ok none) :
    ∀ {found found' : List (Option Gap)},
      List.Forall₂ (fun a o => d.gapAt settings a = .ok o) axioms found →
      List.Forall₂ (fun a o => d'.gapAt settings a = .ok o) axioms found' →
      ((found'.filterMap id).map fun gap => (gap.label, gap.typecode)).Sublist
        ((found.filterMap id).map fun gap => (gap.label, gap.typecode)) := by
  induction axioms with
  | nil =>
    intro found found' h h'
    cases h
    cases h'
    exact List.Sublist.refl _
  | cons a axioms ih =>
    intro found found' h h'
    obtain ⟨o, found, ho, hfound, rfl⟩ := List.forall₂_cons_left_iff.mp h
    obtain ⟨o', found', ho', hfound', rfl⟩ := List.forall₂_cons_left_iff.mp h'
    have hrest := ih (fun b hb => hkept b (List.mem_cons_of_mem _ hb)) hfound hfound'
    cases o with
    | none =>
      rw [hkept a List.mem_cons_self ho] at ho'
      cases ho'
      exact hrest
    | some gap =>
      cases o' with
      | none => exact hrest.cons _
      | some gap' =>
        have hkey : (gap'.label, gap'.typecode) = (gap.label, gap.typecode) := by
          rw [(of_gapAt_eq_some ho).1, (of_gapAt_eq_some ho).2, (of_gapAt_eq_some ho').1,
            (of_gapAt_eq_some ho').2]
        simp only [List.filterMap_cons, id, List.map_cons, hkey]
        exact hrest.cons_cons _

/-- The gaps are found axiom by axiom. -/
theorem gaps_eq_ok_iff {gaps : List Gap} :
    d.gaps settings = .ok gaps ↔ ∃ found,
      List.Forall₂ (fun a o => d.gapAt settings a = .ok o) d.database.syntaxAxioms found ∧
      found.filterMap id = gaps := by
  simp only [← mapM_eq_ok_iff]
  unfold Definition.gaps
  cases d.database.syntaxAxioms.mapM (d.gapAt settings) with
  | error e => simp [Except.map]
  | ok found => simp [Except.map]

/-- Pattern schemes at the end are a conservative extension. A definition can
always be built with them; every formula that had a text has the same text; an
axiom that was no gap is none; and the gaps that are found are among those that
were found, in the same order. -/
theorem extension_is_conservative {db : Database} {schemes more : List Scheme}
    {d : Definition} (hd : d.IsBuiltFrom db schemes)
    (hmore : ∀ s ∈ more, s.isIdentifier = false) :
    (∃ d' : Definition, d'.IsBuiltFrom db (schemes ++ more)) ∧
    ∀ d' : Definition, d'.IsBuiltFrom db (schemes ++ more) → ∀ settings,
      (∀ tc f text, d.format settings tc f [] = .ok text →
        d'.format settings tc f [] = .ok text) ∧
      (∀ a, d.gapAt settings a = .ok none → d'.gapAt settings a = .ok none) ∧
      ∀ gaps gaps', d.gaps settings = .ok gaps → d'.gaps settings = .ok gaps' →
        (gaps'.map fun gap => (gap.label, gap.typecode)).Sublist
          (gaps.map fun gap => (gap.label, gap.typecode)) := by
  refine ⟨hd.exists_append hmore, ?_⟩
  intro d' hd' settings
  have hformat : ∀ tc f text, d.format settings tc f [] = .ok text →
      d'.format settings tc f [] = .ok text := by
    intro tc f text htext
    exact run_append hd hd' hmore ⟨tc, f, []⟩ text htext
  have hgap : ∀ a, d.gapAt settings a = .ok none → d'.gapAt settings a = .ok none := by
    intro a hnone
    obtain ⟨f, text, hf, htext⟩ := gapAt_eq_none_iff.mp hnone
    exact gapAt_eq_none_iff.mpr ⟨f, text, hf, hformat _ f text htext⟩
  refine ⟨hformat, hgap, ?_⟩
  intro gaps gaps' hgaps hgaps'
  obtain ⟨found, hfound, rfl⟩ := gaps_eq_ok_iff.mp hgaps
  obtain ⟨found', hfound', rfl⟩ := gaps_eq_ok_iff.mp hgaps'
  rw [hd'.database_eq, ← hd.database_eq] at hfound'
  exact sublist_gaps (fun a _ => hgap a) hfound hfound'

/-- The definition for sums before the scheme for a bare variable is added. -/
def sampleFirstSums : Definition :=
  { sampleSums with schemes := ⟨[("c", sampleSchemes.take 3)]⟩ }

/-- A sum keeps its text when the scheme for a bare variable is added. -/
theorem extension_is_conservative_sampleSums :
    sampleFirstSums.IsBuiltFrom .sample (sampleSchemes.take 3) ∧
      (∀ s ∈ sampleSchemes.drop 3, s.isIdentifier = false) ∧
      sampleSums.IsBuiltFrom .sample (sampleSchemes.take 3 ++ sampleSchemes.drop 3) ∧
      sampleFirstSums.format {} "c" Database.sampleSum [] = .ok "(x + y)" ∧
      sampleSums.format {} "c" Database.sampleSum [] = .ok "(x + y)" := by
  have hbuilt : sampleFirstSums.IsBuiltFrom .sample (sampleSchemes.take 3) :=
    ⟨{ database := .sample, header := "", display := "###" }, rfl, rfl, rfl, by rfl⟩
  have hpatterns : ∀ s ∈ sampleSchemes.drop 3, s.isIdentifier = false := by decide
  have htext : sampleFirstSums.format {} "c" Database.sampleSum [] = .ok "(x + y)" := by decide +kernel
  exact ⟨hbuilt, hpatterns, isBuiltFrom_sampleSums, htext,
    ((extension_is_conservative hbuilt hpatterns).2 sampleSums isBuiltFrom_sampleSums {}).1 _ _ _
      htext⟩

end Typeset.Definition

import Mathlib.Data.List.Induction
import Typeset.Proofs.Definition.Compiled
import Typeset.Proofs.Definition.SideBySide

/-!
# What a list of schemes is built into

The bucket of a typecode holds the schemes of the typecode in the order of the
list, and there is no bucket where there are no such schemes. An identifier has
the typecode of its last scheme. So wherever an identifier sends a formula
there is a bucket for it.
-/

namespace Typeset.Definition

/-- A definition about a database that was built from a list of schemes. -/
def IsBuiltFrom (d : Definition) (db : Database) (schemes : List Scheme) : Prop :=
  ∃ start : Definition, start.database = db ∧ start.schemes = .empty ∧
    start.identifiers = .empty ∧ (build start schemes).outcome = .ok d

/-- The schemes of a list that have a typecode. -/
def bucketOf (schemes : List Scheme) (tc : Typecode) : List Scheme :=
  schemes.filter fun s => s.typecode = tc

/-- The identifier schemes of a list for a label. -/
def schemesFor (schemes : List Scheme) (l : Label) : List Scheme :=
  schemes.filter fun s => s.isIdentifier && s.pattern.label == l

variable {d d' : Definition} {db : Database} {schemes more : List Scheme} {s : Scheme}

/-- A list with one more scheme is built by adding the scheme to what the list
is built into. -/
theorem isBuiltFrom_append_singleton :
    d'.IsBuiltFrom db (schemes ++ [s]) ↔
      ∃ d : Definition, d.IsBuiltFrom db schemes ∧ d.add s = .ok d' := by
  simp only [IsBuiltFrom, outcome_build, List.foldlM_append, List.foldlM_cons, List.foldlM_nil]
  constructor
  · rintro ⟨start, hdb, hschemes, hidentifiers, h⟩
    cases hd : schemes.foldlM add start with
    | error e => simp [hd, bind, Except.bind] at h
    | ok d =>
      cases ha : d.add s with
      | error e => simp [hd, ha, bind, Except.bind] at h
      | ok next =>
        rw [hd] at h
        simp only [ha, bind, Except.bind, pure, Except.pure, Except.ok.injEq] at h
        exact ⟨d, ⟨start, hdb, hschemes, hidentifiers, hd⟩, h ▸ ha⟩
  · rintro ⟨d, ⟨start, hdb, hschemes, hidentifiers, hd⟩, ha⟩
    refine ⟨start, hdb, hschemes, hidentifiers, ?_⟩
    simp [hd, ha, bind, Except.bind, pure, Except.pure]

/-- What adding a scheme does: the scheme goes behind its bucket, and an
identifier scheme registers its label. -/
theorem of_add_eq_ok (h : d.add s = .ok d') :
    d'.database = d.database ∧
      (∀ tc, d'.schemes.get? tc =
        if tc = s.typecode then some (d.schemesOf tc ++ [s]) else d.schemes.get? tc) ∧
      ∀ l, d'.identifiers.get? l =
        if s.isIdentifier ∧ s.pattern.label = l then some s.typecode
        else d.identifiers.get? l := by
  unfold add at h
  split at h
  · rename_i hi
    cases hl : s.identifierLabel with
    | error e =>
      rw [hl] at h
      cases h
    | ok label =>
      rw [hl] at h
      cases h
      obtain ⟨rfl, _⟩ := Scheme.of_identifierLabel hl
      refine ⟨rfl, get?_schemes_addToBucket _ s, fun l => ?_⟩
      change (d.identifiers.set s.pattern.label s.typecode).get? l = _
      rw [Table.get?_set]
      simp only [hi, true_and, eq_comm (a := l)]
  · rename_i hi
    cases h
    refine ⟨rfl, get?_schemes_addToBucket d s, fun l => ?_⟩
    rw [if_neg fun hs => hi hs.1]
    rfl

/-- The database of a definition that was built. -/
theorem IsBuiltFrom.database_eq (h : d.IsBuiltFrom db schemes) : d.database = db := by
  induction schemes using List.reverseRecOn generalizing d with
  | nil =>
    obtain ⟨start, hdb, _, _, hstart⟩ := h
    rw [outcome_build] at hstart
    cases hstart
    exact hdb
  | append_singleton schemes s ih =>
    obtain ⟨d₀, h₀, ha⟩ := isBuiltFrom_append_singleton.mp h
    rw [(of_add_eq_ok ha).1, ih h₀]

/-- The schemes of a typecode that has its bucket if this is not empty. -/
theorem schemesOf_of_get? {tc : Typecode} {bucket : List Scheme}
    (h : d.schemes.get? tc = if bucket = [] then none else some bucket) :
    d.schemesOf tc = bucket := by
  rw [schemesOf, h]
  split
  · rename_i hnone
    rw [hnone]
    rfl
  · rfl

/-- The bucket of a typecode holds its schemes in order; a typecode without
schemes has none. -/
theorem IsBuiltFrom.get?_schemes (h : d.IsBuiltFrom db schemes) (tc : Typecode) :
    d.schemes.get? tc = if bucketOf schemes tc = [] then none else some (bucketOf schemes tc) := by
  induction schemes using List.reverseRecOn generalizing d with
  | nil =>
    obtain ⟨start, _, hschemes, _, hstart⟩ := h
    rw [outcome_build] at hstart
    cases hstart
    rw [hschemes]
    rfl
  | append_singleton schemes s ih =>
    obtain ⟨d₀, h₀, ha⟩ := isBuiltFrom_append_singleton.mp h
    rw [(of_add_eq_ok ha).2.1, schemesOf_of_get? (ih h₀), ih h₀]
    unfold bucketOf
    rw [List.filter_append]
    by_cases htc : s.typecode = tc
    · simp [htc]
    · simp [htc, Ne.symm htc]

/-- An identifier has the typecode of its last scheme; other labels are no
identifiers. -/
theorem IsBuiltFrom.get?_identifiers (h : d.IsBuiltFrom db schemes) (l : Label) :
    d.identifiers.get? l = (schemesFor schemes l).getLast?.map (·.typecode) := by
  induction schemes using List.reverseRecOn generalizing d with
  | nil =>
    obtain ⟨start, _, _, hidentifiers, hstart⟩ := h
    rw [outcome_build] at hstart
    cases hstart
    rw [hidentifiers]
    rfl
  | append_singleton schemes s ih =>
    obtain ⟨d₀, h₀, ha⟩ := isBuiltFrom_append_singleton.mp h
    rw [(of_add_eq_ok ha).2.2, ih h₀]
    unfold schemesFor
    rw [List.filter_append]
    by_cases hs : s.isIdentifier = true ∧ s.pattern.label = l
    · simp [hs]
    · have hnot : (s.isIdentifier && s.pattern.label == l) = false := by simpa using hs
      simp [hs, hnot]

/-- The schemes of a typecode are those of the list. -/
theorem IsBuiltFrom.schemesOf_eq (h : d.IsBuiltFrom db schemes) (tc : Typecode) :
    d.schemesOf tc = bucketOf schemes tc :=
  schemesOf_of_get? (h.get?_schemes tc)

/-- A scheme of a typecode gives the typecode a bucket. -/
theorem IsBuiltFrom.get?_schemes_of_mem (h : d.IsBuiltFrom db schemes) {tc : Typecode}
    (hs : s ∈ schemes) (htc : s.typecode = tc) :
    d.schemes.get? tc = some (bucketOf schemes tc) := by
  have hmem : s ∈ bucketOf schemes tc := List.mem_filter.mpr ⟨hs, by simpa using htc⟩
  rw [h.get?_schemes, if_neg (List.ne_nil_of_mem hmem)]

/-- The typecode of an identifier has a bucket: the identifier's own scheme is
in it. -/
theorem IsBuiltFrom.exists_scheme (h : d.IsBuiltFrom db schemes) {l : Label} {tc : Typecode}
    (hl : d.identifiers.get? l = some tc) : ∃ s ∈ schemes, s.typecode = tc := by
  rw [h.get?_identifiers, Option.map_eq_some_iff] at hl
  obtain ⟨s, hlast, htc⟩ := hl
  exact ⟨s, (List.mem_filter.mp (List.mem_of_getLast? hlast)).1, htc⟩

/-- Definitions that were built about one database from lists with the same
identifier schemes read patterns alike. -/
theorem IsBuiltFrom.readsLike {schemes' : List Scheme} (h : d.IsBuiltFrom db schemes)
    (h' : d'.IsBuiltFrom db schemes')
    (heq : ∀ l, schemesFor schemes' l = schemesFor schemes l) : d.ReadsLike d' where
  database_eq := h'.database_eq.trans h.database_eq.symm
  identifiers_eq := by
    intro l
    rw [h'.get?_identifiers, h.get?_identifiers, heq]

/-- A scheme can be added exactly if it is a pattern scheme or names a symbol. -/
theorem exists_add_iff {d : Definition} : (∃ d', d.add s = .ok d') ↔ s.IsNamed := by
  unfold add Scheme.IsNamed
  cases s.isIdentifier with
  | false => simp
  | true =>
    cases s.identifierLabel with
    | error e => simp [Except.map]
    | ok l => simp [Except.map]

/-- Schemes can be added one after the other exactly if each of them can. -/
theorem exists_foldlM_add_iff :
    ∀ {d : Definition}, (∃ d', schemes.foldlM add d = .ok d') ↔ ∀ s ∈ schemes, s.IsNamed := by
  induction schemes with
  | nil =>
    intro d
    simp [pure, Except.pure]
  | cons s more ih =>
    intro d
    rw [List.foldlM_cons, List.forall_mem_cons, ← exists_add_iff (d := d)]
    cases d.add s with
    | error e => simp [bind, Except.bind]
    | ok next => simpa [bind, Except.bind] using ih

/-- A list of schemes can be built into a definition exactly if each of its
identifier schemes names a symbol. -/
theorem exists_isBuiltFrom_iff :
    (∃ d : Definition, d.IsBuiltFrom db schemes) ↔ ∀ s ∈ schemes, s.IsNamed := by
  constructor
  · rintro ⟨d, start, _, _, _, hstart⟩
    rw [outcome_build] at hstart
    exact exists_foldlM_add_iff.mp ⟨d, hstart⟩
  · intro hnamed
    obtain ⟨d, hd⟩ := exists_foldlM_add_iff (d := { database := db, header := "", display := "" }).mpr
      hnamed
    exact ⟨d, _, rfl, rfl, rfl, by rw [outcome_build, hd]⟩

/-- Pattern schemes can always be added. -/
theorem IsBuiltFrom.exists_append (h : d.IsBuiltFrom db schemes)
    (hmore : ∀ s ∈ more, s.isIdentifier = false) :
    ∃ d' : Definition, d'.IsBuiltFrom db (schemes ++ more) := by
  have hnamed := exists_isBuiltFrom_iff.mp ⟨d, h⟩
  apply exists_isBuiltFrom_iff.mpr
  intro s hs
  rcases List.mem_append.mp hs with hs | hs
  · exact hnamed s hs
  · exact Scheme.isNamed_of_pattern (hmore s hs)

end Typeset.Definition

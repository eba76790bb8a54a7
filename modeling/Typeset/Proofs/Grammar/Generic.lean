import Typeset.Proofs.Grammar.Uniqueness

/-!
# The expression of a rule itself

The body of a rule is an expression of its typecode: each variable stands for
itself. Every other expression that the rule builds has the parts of this one
replaced, so what is true of its parts as variables is true of all.
-/

namespace Typeset

/-- A variable as an expression. -/
def Floating.leaf (v : Floating) : Formula := .node v.label v.typecode []

namespace Grammar

variable {g : Grammar} {usable : Typecode → Rule → Prop}

/-- The variables of a body, as often as they occur. -/
def variablesOf (g : Grammar) (body : List Symbol) : List Floating :=
  body.filterMap g.floatings.get?

/-- The expression that a rule builds from its own variables. -/
def generic (g : Grammar) (tc : Typecode) (r : Rule) : Formula :=
  .node r.label tc ((g.variablesOf r.body).map Floating.leaf)

/-- A body is derived by its own variables. -/
theorem derivesParts_leaves (body : List Symbol) :
    DerivesParts g usable body ((g.variablesOf body).map Floating.leaf) body := by
  induction body with
  | nil => exact .nil
  | cons s body ih =>
    cases hs : g.floatings.get? s with
    | none =>
      have hvars : g.variablesOf (s :: body) = g.variablesOf body := by simp [variablesOf, hs]
      rw [hvars]
      exact .constant (variableTypecode?_eq_none_iff.mpr hs) ih
    | some v =>
      have hvars : g.variablesOf (s :: body) = v :: g.variablesOf body := by
        simp [variablesOf, hs]
      rw [hvars]
      exact .part (variableTypecode?_eq_some_iff.mpr ⟨v, hs, rfl⟩) (.leaf hs) ih

/-- A rule derives its own body. -/
theorem derives_generic {tc : Typecode} {r : Rule} (hr : r ∈ g.rulesOf tc) (hu : usable tc r) :
    Derives g usable tc (g.generic tc r) r.body :=
  .rule hr hu (derivesParts_leaves r.body)

/-- Whatever derives a body has as many parts as the body has variables. -/
theorem length_eq_of_derivesParts {body : List Symbol} {parts : List Formula}
    {symbols : List Symbol} (h : DerivesParts g usable body parts symbols) :
    parts.length = (g.variablesOf body).length := by
  have hleaves : DerivesParts g usable body ((g.variablesOf body).map Floating.leaf) body :=
    derivesParts_leaves body
  rw [h.length_parts, ← hleaves.length_parts, List.length_map]

/-- Variables that occur once have labels that occur once. -/
theorem nodup_labels_variablesOf (hd : g.Distinct) {body : List Symbol}
    (hn : (body.filter fun s => (g.floatings.get? s).isSome).Nodup) :
    ((g.variablesOf body).map (·.label)).Nodup := by
  induction body with
  | nil => exact List.nodup_nil
  | cons s body ih =>
    cases hs : g.floatings.get? s with
    | none =>
      have hvars : g.variablesOf (s :: body) = g.variablesOf body := by simp [variablesOf, hs]
      rw [List.filter_cons_of_neg (by simp [hs])] at hn
      rw [hvars]
      exact ih hn
    | some v =>
      have hvars : g.variablesOf (s :: body) = v :: g.variablesOf body := by
        simp [variablesOf, hs]
      rw [List.filter_cons_of_pos (by simp [hs])] at hn
      obtain ⟨hnew, hn⟩ := List.nodup_cons.mp hn
      rw [hvars, List.map_cons]
      refine List.nodup_cons.mpr ⟨?_, ih hn⟩
      intro hl
      obtain ⟨v', hv', hlabel⟩ := List.mem_map.mp hl
      obtain ⟨s', hs', hget⟩ := List.mem_filterMap.mp hv'
      obtain ⟨rfl, _⟩ := hd.floating_eq hget hs hlabel
      exact hnew (List.mem_filter.mpr ⟨hs', by simp [hget]⟩)

end Grammar

end Typeset

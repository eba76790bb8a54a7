import Mathlib.Data.List.Induction
import Mathlib.Data.List.Nodup
import Typeset.Formula.Match

/-!
# The variables of a pattern

Matching goes through a pattern from the left and binds every variable that it
meets, at the place where it first meets it. So where it succeeds, the labels
that are bound are the variables of the pattern, in the order of their first
occurrences.
-/

namespace Typeset.Formula

mutual

/-- The variables of a pattern in the order in which matching meets them. What
stands below a variable is not looked at. -/
def variableLabels (isVariable : Label → Bool) : Formula → List Label
  | node l _ ps => if isVariable l then [l] else variableLabelsAll isVariable ps

/-- The variables of several patterns, one pattern after the other. -/
def variableLabelsAll (isVariable : Label → Bool) : List Formula → List Label
  | [] => []
  | p :: ps => p.variableLabels isVariable ++ variableLabelsAll isVariable ps

end

/-- A pattern with a variable at its root is that variable alone. -/
theorem variableLabels_of_isVariable {isVariable : Label → Bool} {p : Formula}
    (h : isVariable p.label = true) : p.variableLabels isVariable = [p.label] := by
  obtain ⟨l, tc, ps⟩ := p
  exact if_pos h

/-- A pattern that is a variable matches every formula, and the variable stands for
the whole. -/
theorem match?_of_isVariable {isVariable : Label → Bool} {p : Formula}
    (h : isVariable p.label = true) (f : Formula) :
    match? isVariable p f = some ⟨[(p.label, f)]⟩ := by
  obtain ⟨l, tc, ps⟩ := p
  rw [match?, matchInto]
  exact if_pos h

/-- Meeting a variable lists it, unless it is listed already. -/
def meet (ls : List Label) (l : Label) : List Label := if l ∈ ls then ls else ls ++ [l]

/-- A variable is listed if it was listed before or is met. -/
theorem mem_foldl_meet {ls met : List Label} {l : Label} :
    l ∈ met.foldl meet ls ↔ l ∈ ls ∨ l ∈ met := by
  induction met generalizing ls with
  | nil => simp
  | cons m met ih =>
    rw [List.foldl_cons, ih, meet]
    split
    · rename_i hm
      constructor
      · exact Or.imp_right (List.mem_cons_of_mem m)
      · rintro (h | h)
        · exact .inl h
        · rcases List.mem_cons.mp h with rfl | h
          · exact .inl hm
          · exact .inr h
    · simp [or_assoc]

/-- Variables that are listed stay at the front. -/
theorem exists_foldl_meet_eq_append (ls met : List Label) :
    ∃ more, met.foldl meet ls = ls ++ more := by
  induction met generalizing ls with
  | nil => exact ⟨[], by simp⟩
  | cons m met ih =>
    obtain ⟨more, hmore⟩ := ih (meet ls m)
    rw [List.foldl_cons, hmore, meet]
    split
    · exact ⟨more, rfl⟩
    · exact ⟨m :: more, by simp⟩

/-- No variable is listed twice. -/
theorem nodup_foldl_meet {ls : List Label} (h : ls.Nodup) (met : List Label) :
    (met.foldl meet ls).Nodup := by
  induction met generalizing ls with
  | nil => exact h
  | cons m met ih =>
    rw [List.foldl_cons]
    apply ih
    unfold meet
    split
    · exact h
    · rename_i hm
      rw [List.nodup_append']
      exact ⟨h, List.nodup_singleton m, List.disjoint_singleton.mpr hm⟩

/-- What is listed is what is met, each variable where it is first met. -/
theorem foldl_meet_nil (met : List Label) : met.foldl meet [] = met.eraseDups := by
  induction met using List.reverseRecOn with
  | nil => rfl
  | append_singleton met l ih =>
    have hmem : l ∈ met.eraseDups ↔ l ∈ met := List.mem_eraseDups
    rw [List.foldl_append, ih, List.eraseDups_append, List.foldl_cons, List.foldl_nil, meet]
    by_cases hl : l ∈ met
    · have hknown : [l].removeAll met = [] := by simp [List.removeAll, hl]
      rw [if_pos (hmem.mpr hl), hknown, List.eraseDups_nil, List.append_nil]
    · have hnew : [l].removeAll met = [l] := by simp [List.removeAll, hl]
      rw [if_neg (mt hmem.mp hl), hnew]
      rfl

mutual

/-- Where nothing stands below the variables of a pattern, all its labels that are
variables are met, in the order in which they stand in it. -/
theorem variableLabels_eq_filter {isVariable : Label → Bool} (p : Formula)
    (h : ∀ g ∈ p.subformulas, isVariable g.label = true → g.children = []) :
    p.variableLabels isVariable = p.labels.filter isVariable := by
  obtain ⟨l, tc, ps⟩ := p
  rw [variableLabels, labels, List.filter_cons]
  by_cases hl : isVariable l = true
  · obtain rfl : ps = [] := h _ (mem_subformulas_self _) hl
    rw [if_pos hl, if_pos hl]
    rfl
  · rw [if_neg hl, if_neg hl]
    apply variableLabelsAll_eq_filter ps
    intro g hg
    exact h g (mem_subformulas_iff.mpr (.inr hg))

/-- The same for several patterns. -/
theorem variableLabelsAll_eq_filter {isVariable : Label → Bool} (ps : List Formula)
    (h : ∀ g ∈ subformulasAll ps, isVariable g.label = true → g.children = []) :
    variableLabelsAll isVariable ps = (labelsAll ps).filter isVariable := by
  match ps with
  | [] => rfl
  | p :: ps =>
    have hp : p.variableLabels isVariable = p.labels.filter isVariable := by
      apply variableLabels_eq_filter p
      intro g hg
      exact h g (List.mem_append_left _ hg)
    have hps : variableLabelsAll isVariable ps = (labelsAll ps).filter isVariable := by
      apply variableLabelsAll_eq_filter ps
      intro g hg
      exact h g (List.mem_append_right _ hg)
    rw [variableLabelsAll, labelsAll, List.filter_append, hp, hps]

end

mutual

/-- A variable of a pattern labels one of its sub-formulas. -/
theorem exists_subformula_of_mem_variableLabels {isVariable : Label → Bool} (p : Formula)
    {l : Label} (h : l ∈ p.variableLabels isVariable) :
    isVariable l = true ∧ ∃ g ∈ p.subformulas, g.label = l := by
  obtain ⟨pl, tc, ps⟩ := p
  rw [variableLabels] at h
  split at h
  · rename_i hvariable
    obtain rfl := List.mem_singleton.mp h
    exact ⟨hvariable, _, mem_subformulas_self _, rfl⟩
  · obtain ⟨hvariable, g, hg, hl⟩ := exists_subformula_of_mem_variableLabelsAll ps h
    exact ⟨hvariable, g, mem_subformulas_iff.mpr (.inr hg), hl⟩

/-- The same for several patterns. -/
theorem exists_subformula_of_mem_variableLabelsAll {isVariable : Label → Bool}
    (ps : List Formula) {l : Label} (h : l ∈ variableLabelsAll isVariable ps) :
    isVariable l = true ∧ ∃ g ∈ subformulasAll ps, g.label = l := by
  match ps with
  | [] => cases h
  | p :: ps =>
    rw [variableLabelsAll] at h
    rcases List.mem_append.mp h with h | h
    · obtain ⟨hvariable, g, hg, hl⟩ := exists_subformula_of_mem_variableLabels p h
      exact ⟨hvariable, g, List.mem_append_left _ hg, hl⟩
    · obtain ⟨hvariable, g, hg, hl⟩ := exists_subformula_of_mem_variableLabelsAll ps h
      exact ⟨hvariable, g, List.mem_append_right _ hg, hl⟩

end

mutual

/-- Matching binds the variables of the pattern that were not bound before. -/
theorem keys_of_matchInto {isVariable : Label → Bool} (p : Formula) {f : Formula}
    {bound bound' : Bindings} (h : matchInto isVariable p f bound = some bound') :
    bound'.keys = (p.variableLabels isVariable).foldl meet bound.keys := by
  obtain ⟨l, tc, ps⟩ := p
  rw [matchInto] at h
  rw [variableLabels]
  split at h
  · rename_i hl
    rw [if_pos hl, List.foldl_cons, List.foldl_nil, meet]
    split at h
    · cases h
      exact Table.keys_set bound l f
    · rename_i g hget
      split at h
      · cases h
        rw [if_pos (Table.mem_keys_of_get? hget)]
      · cases h
  · rename_i hl
    rw [if_neg hl]
    split at h
    · rename_i hfits
      exact keys_of_matchAllInto ps hfits.2 h
    · cases h

/-- Matching parts, as many as there are, binds the variables of all of them. -/
theorem keys_of_matchAllInto {isVariable : Label → Bool} (ps : List Formula) {fs : List Formula}
    {bound bound' : Bindings} (hlength : ps.length = fs.length)
    (h : matchAllInto isVariable ps fs bound = some bound') :
    bound'.keys = (variableLabelsAll isVariable ps).foldl meet bound.keys := by
  match ps, fs with
  | [], _ =>
    rw [matchAllInto] at h
    cases h
    rfl
  | p :: ps, [] => simp at hlength
  | p :: ps, f :: fs =>
    rw [matchAllInto] at h
    split at h
    · rename_i bound₁ hfirst
      have hrest := keys_of_matchAllInto ps (by simpa using hlength) h
      rw [hrest, keys_of_matchInto p hfirst, variableLabelsAll, List.foldl_append]
    · cases h

end

/-- What a match binds are the variables of the pattern, in the order of their
first occurrences. -/
theorem keys_of_match? {isVariable : Label → Bool} {p f : Formula} {bound : Bindings}
    (h : match? isVariable p f = some bound) :
    bound.keys = (p.variableLabels isVariable).foldl meet [] :=
  keys_of_matchInto p h

/-- A match binds nothing but variables of the pattern. -/
theorem mem_variableLabels_of_match? {isVariable : Label → Bool} {p f : Formula}
    {bound : Bindings} (h : match? isVariable p f = some bound) {l : Label} {g : Formula}
    (hl : (l, g) ∈ bound.entries) : l ∈ p.variableLabels isVariable := by
  have hkey : l ∈ bound.keys := List.mem_map.mpr ⟨_, hl, rfl⟩
  rw [keys_of_match? h, mem_foldl_meet] at hkey
  simpa using hkey

/-- A match binds every variable of the pattern. -/
theorem exists_entry_of_match? {isVariable : Label → Bool} {p f : Formula} {bound : Bindings}
    (h : match? isVariable p f = some bound) {l : Label} (hl : l ∈ p.variableLabels isVariable) :
    ∃ g, (l, g) ∈ bound.entries := by
  have hkey : l ∈ bound.keys := by
    rw [keys_of_match? h]
    exact mem_foldl_meet.mpr (.inr hl)
  obtain ⟨⟨k, g⟩, hmem, rfl⟩ := List.mem_map.mp hkey
  exact ⟨g, hmem⟩

/-- A match binds the first variable of the pattern first. -/
theorem exists_entries_eq_cons_of_match? {isVariable : Label → Bool} {p f : Formula}
    {bound : Bindings} (h : match? isVariable p f = some bound) {l : Label} {more : List Label}
    (hl : p.variableLabels isVariable = l :: more) :
    ∃ g rest, bound.entries = (l, g) :: rest := by
  obtain ⟨others, hkeys⟩ := exists_foldl_meet_eq_append [l] more
  have hall : bound.keys = l :: others := by
    rw [keys_of_match? h, hl]
    exact hkeys
  obtain ⟨entries⟩ := bound
  cases entries with
  | nil => simp [Table.keys] at hall
  | cons b rest =>
    obtain ⟨k, g⟩ := b
    simp only [Table.keys, List.map_cons, List.cons.injEq] at hall
    obtain ⟨rfl, _⟩ := hall
    exact ⟨g, rest, rfl⟩

end Typeset.Formula

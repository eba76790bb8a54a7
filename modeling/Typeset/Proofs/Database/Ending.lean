import Mathlib.Algebra.Order.BigOperators.Group.List
import Mathlib.Algebra.Order.Group.Nat
import Typeset.Proofs.Database.Parsing
import Typeset.Proofs.Grammar.Ending

/-!
# Reading always ends

Rules may begin with a variable of their own typecode, lead in a circle through
other typecodes, consist of a single variable, or have variables side by side. As
long as none of them is empty, every search is over after finitely many steps, and
symbols are read or rejected. A rule that can be read from nothing is enough to
make a search go on for ever.
-/

namespace Typeset

namespace Grammar

variable {g : Grammar}

/-- A search ends: there is one list of results that it can be over with, and the
search by room comes to its end with this list in any room of the given size. -/
def Ends {α : Type} (isOver : List α → Nat → Prop) (size : Nat)
    (search : Nat → Enumeration α) : Prop :=
  ∃ results, EndsWith isOver results ∧
    ∀ room, size ≤ room → (search room).finishes = true ∧ (search room).toList = results

/-- The search for the expressions of a typecode ends, whatever is active. -/
theorem ends_parses (hg : g.NoEmptyRule) (active : List Typecode) (tc : Typecode)
    (input : List Symbol) :
    Ends (ParsesEnd g active tc input) input.length (g.parses · active tc input) := by
  refine ⟨_, (endsWith_all hg).1 _ active tc input (Nat.le_refl _), ?_⟩
  intro room hroom
  exact ⟨(finishes_all hg).1 room active tc input hroom, toList_parses_eq_listed hg hroom⟩

/-- The search for what an expression grows into ends. -/
theorem ends_grown (hg : g.NoEmptyRule) (tc : Typecode) (seed : Parse) :
    Ends (GrowthEnds g tc seed) seed.rest.length (g.grown · tc seed) := by
  refine ⟨_, (endsWith_all hg).2.1 _ tc seed (Nat.le_refl _), ?_⟩
  intro room hroom
  exact ⟨(finishes_all hg).2.1 room tc seed hroom, toList_grown_eq_listedGrowth hg hroom⟩

/-- The search for the ways to read a body ends, whatever is active. -/
theorem ends_partsParses (hg : g.NoEmptyRule) (active : List Typecode)
    (body input : List Symbol) :
    Ends (PartsEnd g active body input) input.length (g.partsParses · active body input) := by
  refine ⟨_, (endsWith_all hg).2.2 _ active body input (Nat.le_refl _), ?_⟩
  intro room hroom
  exact ⟨(finishes_all hg).2.2 room active body input hroom,
    toList_partsParses_eq_listedParts hg hroom⟩

/-- What grows by a rule that can be read behind everything grows without end. -/
theorem not_growthEnds {tc : Typecode} {r : Rule} (hr : r ∈ g.rulesOf tc)
    (hgrowing : g.isGrowing tc r = true)
    (hreads : ∀ input found n, PartsEnd g [] r.body.tail input found n → found ≠ [])
    (seed : Parse) (results : List Parse) (n : Nat) : ¬GrowthEnds g tc seed results n := by
  have hmem : r ∈ (g.rulesOf tc).filter (g.isGrowing tc) := List.mem_filter.mpr ⟨hr, hgrowing⟩
  -- The growth of what the rule makes is a shorter search of the same kind.
  induction n using Nat.strongRecOn generalizing seed results with
  | _ n ih =>
    intro h
    cases h with
    | @grown _ _ read growth m n hread hgrowth =>
      obtain ⟨q, hq⟩ := List.exists_mem_of_ne_nil _ (hreads _ _ _ (hread r hmem))
      have hpart : n r q ≤ ((read r).map (n r)).sum :=
        List.le_sum_of_mem (List.mem_map_of_mem hq)
      have hrule : m r + ((read r).map (n r)).sum ≤
          (((g.rulesOf tc).filter (g.isGrowing tc)).map fun r =>
            m r + ((read r).map (n r)).sum).sum :=
        List.le_sum_of_mem (List.mem_map_of_mem (f := fun r => m r + ((read r).map (n r)).sum) hmem)
      exact ih (n r q) (by omega) _ _ (hgrowth r hmem q hq)

/-- An expression that may be written with nothing is found everywhere. -/
theorem ne_nil_of_empty_rule {tc : Typecode} {r : Rule} {input : List Symbol}
    {found : List Parse} {n : Nat} (hr : r ∈ g.rulesOf tc) (hempty : r.body = [])
    (h : ParsesEnd g [] tc input found n) : found ≠ [] := by
  cases h with
  | active ha => simp at ha
  | @entered _ _ _ read growth _ _ _ hread _ =>
    have hparts := hread r hr
    rw [hempty] at hparts
    have hnothing : (⟨[], input⟩ : PartsParse) ∈ read r := by
      rw [results_of_partsEnd_nil hparts]
      exact List.mem_singleton_self _
    have hseed : (⟨.node r.label tc [], input⟩ : Parse) ∈ g.seedList tc input read :=
      List.mem_append_right _ (List.mem_flatMap.mpr ⟨r, hr, List.mem_map_of_mem hnothing⟩)
    intro hnone
    exact List.cons_ne_nil _ _ (List.flatMap_eq_nil_iff.mp hnone _ hseed)

/-- One empty rule is enough: what grows by an expression that may be written with
nothing grows without end. -/
theorem not_growthEnds_of_empty_rule {tc tc' : Typecode} {r r' : Rule} {s t : Symbol}
    (hr : r ∈ g.rulesOf tc) (hbody : r.body = [s, t]) (hs : g.variableTypecode? s = some tc)
    (ht : g.variableTypecode? t = some tc') (hr' : r' ∈ g.rulesOf tc') (hempty : r'.body = [])
    (seed : Parse) (results : List Parse) (n : Nat) : ¬GrowthEnds g tc seed results n := by
  apply not_growthEnds hr (by simp [isGrowing, hbody, hs])
  intro input found n hread
  rw [hbody, List.tail_cons] at hread
  cases hread with
  | constant ht' => simp [ht] at ht'
  | mismatch ht' => simp [ht] at ht'
  | @part _ _ _ _ _ first further _ _ ht' hfirst hfurther =>
    cases ht.symm.trans ht'
    obtain ⟨p, hp⟩ := List.exists_mem_of_ne_nil _ (ne_nil_of_empty_rule hr' hempty hfirst)
    have hlast := results_of_partsEnd_nil (hfurther p hp)
    intro hnone
    simpa [hlast] using List.flatMap_eq_nil_iff.mp hnone p hp

end Grammar

namespace Database

open Grammar

/-- Where no rule is empty every search ends, whatever symbols stand at its position:
the one for the expressions of a typecode, with any typecodes active, the one for what
an expression grows into, and the one for the ways to read a body. Hence symbols are
read as a complete result of a search that is over, under one of the typecodes, or none
of these searches has a complete result and the error says what could not be read. -/
theorem parsing_ends {db : Database} (hg : db.grammar.NoEmptyRule) :
    (∀ active tc input, Ends (ParsesEnd db.grammar active tc input) input.length
      (db.grammar.parses · active tc input)) ∧
    (∀ tc seed, Ends (GrowthEnds db.grammar tc seed) seed.rest.length
      (db.grammar.grown · tc seed)) ∧
    (∀ active body input, Ends (PartsEnd db.grammar active body input) input.length
      (db.grammar.partsParses · active body input)) ∧
    (∀ symbols, ∃ results : Typecode → List Parse,
      (∀ tc, EndsWith (ParsesEnd db.grammar [] tc symbols) (results tc) ∧
        (db.grammar.readings tc symbols).finishes = true ∧
        (db.grammar.readings tc symbols).toList = results tc) ∧
      ∀ typecodes asserted,
        (∃ tc ∈ typecodes, ∃ p ∈ results tc, p.rest = [] ∧
          db.readAs symbols typecodes asserted = .ok (db.framed asserted tc p.formula)) ∨
        ((∀ tc ∈ typecodes, ∀ p ∈ results tc, p.rest ≠ []) ∧
          db.readAs symbols typecodes asserted = .error ⟨symbols, typecodes⟩)) := by
  refine ⟨ends_parses hg, ends_grown hg, ends_partsParses hg, ?_⟩
  intro symbols
  refine ⟨fun tc => db.grammar.listed [] tc symbols, ?_, ?_⟩
  · intro tc
    exact ⟨(endsWith_all hg).1 _ [] tc symbols (Nat.le_refl _), finishes_readings hg tc symbols,
      toList_readings hg tc symbols⟩
  · intro typecodes asserted
    cases hread : db.readAs symbols typecodes asserted with
    | ok f =>
      obtain ⟨before, tc, after, f', rfl, _, hread', rfl⟩ := of_readAs_eq_ok hread
      rw [read?_eq_find?_listed hg, Option.map_eq_some_iff] at hread'
      obtain ⟨p, hp, rfl⟩ := hread'
      have hrest : p.rest = [] := by simpa using List.find?_some hp
      exact .inl ⟨tc, by simp, p, List.mem_of_find?_eq_some hp, hrest, rfl⟩
    | error e =>
      obtain ⟨rfl, hnone⟩ := of_readAs_eq_error hread
      refine .inr ⟨?_, rfl⟩
      intro tc htc p hp hrest
      have hfind := hnone tc htc
      rw [read?_eq_find?_listed hg, Option.map_eq_none_iff, List.find?_eq_none] at hfind
      exact hfind p hp (List.isEmpty_iff.mpr hrest)

/-- Two typecodes that lead to each other in circles: each can stand alone for the
other, and grows by what follows it. -/
def sampleCircular : Database where
  provable := "|-"
  logic := "w"
  grammar :=
    { floatings := ⟨[("x", ⟨"ax", "a", "x"⟩), ("y", ⟨"by", "b", "y"⟩)]⟩
      rules := ⟨[("a", [⟨"ofB", ["y"]⟩, ⟨"juxtapose", ["x", "y"]⟩]),
        ("b", [⟨"ofA", ["x"]⟩, ⟨"sum", ["y", "+", "x"]⟩, ⟨"back", ["x", "y"]⟩])]⟩ }

/-- Circles do not keep a search from ending. -/
theorem parsing_ends_sampleCircular :
    sampleCircular.grammar.NoEmptyRule ∧
      Ends (ParsesEnd sampleCircular.grammar ["b"] "a" ["x", "y", "+", "x"]) 4
        (sampleCircular.grammar.parses · ["b"] "a" ["x", "y", "+", "x"]) ∧
      ∃ results, EndsWith (ParsesEnd sampleCircular.grammar [] "a" ["x", "+"]) results := by
  have hg : sampleCircular.grammar.NoEmptyRule := forall_rules_of_entries (by decide)
  obtain ⟨results, hresults, _⟩ := (parsing_ends hg).2.2.2 ["x", "+"]
  exact ⟨hg, (parsing_ends hg).1 ["b"] "a" ["x", "y", "+", "x"], _, (hresults "a").1⟩

end Database

end Typeset

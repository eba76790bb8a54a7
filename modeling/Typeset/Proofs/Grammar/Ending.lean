import Mathlib.Algebra.GroupWithZero.Nat
import Mathlib.Tactic.Choose
import Typeset.Proofs.Grammar.Listing

/-!
# Searches that are over

When is a search for parses over, if it is given no bound? Whatever it asks for
must be over: the readings of each rule, and the growth of each expression that
was found. The relations of this module say so rule by rule, with the results in
their order and with the number of searches that were begun. There is no room in
them that could run out, so a search that goes on for ever has no derivation. Where
no rule is empty every search is over, whichever typecodes are active, and its
results are those that are listed.
-/

namespace Typeset.Grammar

mutual

/-- The search for the expressions of a typecode at the head of an input is over. It
found these, in this order, and that many searches were begun for it. -/
inductive ParsesEnd (g : Grammar) :
    List Typecode → Typecode → List Symbol → List Parse → Nat → Prop where
  /-- A typecode that is active is not entered again. -/
  | active {active : List Typecode} {tc : Typecode} {input : List Symbol} (ha : tc ∈ active) :
    ParsesEnd g active tc input [] 1
  /-- Any other typecode is active while its rules are read, and what is found grows. -/
  | entered {active : List Typecode} {tc : Typecode} {input : List Symbol}
    {read : Rule → List PartsParse} {growth : Parse → List Parse} {m : Rule → Nat}
    {n : Parse → Nat} (ha : tc ∉ active)
    (hread : ∀ r ∈ g.rulesOf tc, PartsEnd g (tc :: active) r.body input (read r) (m r))
    (hgrowth : ∀ p ∈ g.seedList tc input read, GrowthEnds g tc p (growth p) (n p)) :
    ParsesEnd g active tc input ((g.seedList tc input read).flatMap fun p => p :: growth p)
      (1 + ((g.rulesOf tc).map m).sum + ((g.seedList tc input read).map n).sum)

/-- The search for what an expression grows into is over. -/
inductive GrowthEnds (g : Grammar) : Typecode → Parse → List Parse → Nat → Prop where
  /-- Every growing rule is read behind the expression, and what it makes grows on. -/
  | grown {tc : Typecode} {seed : Parse} {read : Rule → List PartsParse}
    {growth : Rule → PartsParse → List Parse} {m : Rule → Nat} {n : Rule → PartsParse → Nat}
    (hread : ∀ r ∈ (g.rulesOf tc).filter (g.isGrowing tc),
      PartsEnd g [] r.body.tail seed.rest (read r) (m r))
    (hgrowth : ∀ r ∈ (g.rulesOf tc).filter (g.isGrowing tc), ∀ q ∈ read r,
      GrowthEnds g tc (grownBy tc seed r q) (growth r q) (n r q)) :
    GrowthEnds g tc seed
      (((g.rulesOf tc).filter (g.isGrowing tc)).flatMap fun r =>
        (read r).flatMap fun q => grownBy tc seed r q :: growth r q)
      (1 + (((g.rulesOf tc).filter (g.isGrowing tc)).map fun r =>
        m r + ((read r).map (n r)).sum).sum)

/-- The search for the ways to read a body is over. -/
inductive PartsEnd (g : Grammar) :
    List Typecode → List Symbol → List Symbol → List PartsParse → Nat → Prop where
  /-- Of an empty body nothing is left to read. -/
  | nil {active : List Typecode} {input : List Symbol} :
    PartsEnd g active [] input [⟨[], input⟩] 1
  /-- A constant is read from the same symbol. -/
  | constant {active : List Typecode} {s : Symbol} {body rest : List Symbol}
    {results : List PartsParse} {n : Nat} (hs : g.variableTypecode? s = none)
    (hrest : PartsEnd g [] body rest results n) :
    PartsEnd g active (s :: body) (s :: rest) results (n + 1)
  /-- A constant is read from no other symbol, and not at the end of the input. -/
  | mismatch {active : List Typecode} {s : Symbol} {body input : List Symbol}
    (hs : g.variableTypecode? s = none) (hne : input.head? ≠ some s) :
    PartsEnd g active (s :: body) input [] 1
  /-- A variable is read as an expression of its typecode, and the rest of the body
  behind each of these. -/
  | part {active : List Typecode} {s : Symbol} {tc : Typecode} {body input : List Symbol}
    {first : List Parse} {further : Parse → List PartsParse} {m : Nat} {n : Parse → Nat}
    (hs : g.variableTypecode? s = some tc) (hfirst : ParsesEnd g active tc input first m)
    (hfurther : ∀ p ∈ first, PartsEnd g [] body p.rest (further p) (n p)) :
    PartsEnd g active (s :: body) input
      (first.flatMap fun p => (further p).map fun q => ⟨p.formula :: q.parts, q.rest⟩)
      (1 + m + (first.map n).sum)

end

variable {g : Grammar}

/-- Seeds are the same where rules are read alike. -/
theorem seedList_congr {tc : Typecode} {input : List Symbol} {read read' : Rule → List PartsParse}
    (h : ∀ r ∈ g.rulesOf tc, read r = read' r) :
    g.seedList tc input read = g.seedList tc input read' := by
  unfold seedList
  congr 1
  apply List.flatMap_congr
  intro r hr
  rw [h r hr]

/-- A search that is over has these results and no others. -/
def EndsWith {α : Type} (isOver : List α → Nat → Prop) (results : List α) : Prop :=
  ∀ found, (∃ n, isOver found n) ↔ found = results

/-- A search that can be over in one way only. -/
theorem endsWith_of_unique {α : Type} {isOver : List α → Nat → Prop} {results : List α}
    (hends : ∃ n, isOver results n) (hunique : ∀ found n, isOver found n → found = results) :
    EndsWith isOver results := by
  intro found
  constructor
  · rintro ⟨n, hn⟩
    exact hunique found n hn
  · rintro rfl
    exact hends

/-- An active typecode is searched to the end with no result. -/
theorem endsWith_of_active {active : List Typecode} {tc : Typecode} (ha : tc ∈ active)
    (input : List Symbol) : EndsWith (ParsesEnd g active tc input) (g.listed active tc input) := by
  rw [listed_of_mem ha]
  refine endsWith_of_unique ⟨1, .active ha⟩ ?_
  intro found n h
  cases h with
  | active => rfl
  | entered hnot => exact absurd ha hnot

/-- A typecode that is not active is searched to the end if its rules are, and what
grows from its seeds. -/
theorem endsWith_of_entered (hg : g.NoEmptyRule) {active : List Typecode} {tc : Typecode}
    {input : List Symbol} (ha : tc ∉ active)
    (hread : ∀ r ∈ g.rulesOf tc, EndsWith (PartsEnd g (tc :: active) r.body input)
      (g.listedParts (tc :: active) r.body input))
    (hgrowth : ∀ p ∈ g.listedSeeds active tc input,
      EndsWith (GrowthEnds g tc p) (g.listedGrowth tc p)) :
    EndsWith (ParsesEnd g active tc input) (g.listed active tc input) := by
  rw [listed_of_not_mem hg ha]
  apply endsWith_of_unique
  · have hreadEnds := fun r hr => (hread r hr _).mpr rfl
    have hgrowthEnds := fun p hp => (hgrowth p hp _).mpr rfl
    choose! m hm using hreadEnds
    choose! n hn using hgrowthEnds
    exact ⟨_, .entered ha hm hn⟩
  · intro found n h
    cases h with
    | active hmem => exact absurd hmem ha
    | @entered _ _ _ read growth _ _ _ hm hn =>
      have hseeds : g.seedList tc input read = g.listedSeeds active tc input :=
        seedList_congr fun r hr => (hread r hr _).mp ⟨_, hm r hr⟩
      rw [hseeds] at hn ⊢
      apply List.flatMap_congr
      intro p hp
      rw [(hgrowth p hp _).mp ⟨_, hn p hp⟩]

/-- Growth is searched to the end if the growing rules are read to the end, and what
they make grows to the end. -/
theorem endsWith_of_grown (hg : g.NoEmptyRule) {tc : Typecode} {seed : Parse}
    (hread : ∀ r : Rule, EndsWith (PartsEnd g [] r.body.tail seed.rest)
      (g.listedParts [] r.body.tail seed.rest))
    (hgrowth : ∀ (r : Rule) (q : PartsParse), q.rest.length < seed.rest.length →
      EndsWith (GrowthEnds g tc (grownBy tc seed r q)) (g.listedGrowth tc (grownBy tc seed r q))) :
    EndsWith (GrowthEnds g tc seed) (g.listedGrowth tc seed) := by
  have hconsumes : ∀ r ∈ (g.rulesOf tc).filter (g.isGrowing tc),
      ∀ q ∈ g.listedParts [] r.body.tail seed.rest, q.rest.length < seed.rest.length :=
    fun r hr q hq => length_rest_lt_of_mem_tail hg (List.mem_filter.mp hr).2 hq
  rw [listedGrowth_eq hg]
  apply endsWith_of_unique
  · have hreadEnds := fun r => (hread r _).mpr rfl
    have hgrowthEnds := fun r q hq => (hgrowth r q hq _).mpr rfl
    choose m hm using hreadEnds
    choose! n hn using hgrowthEnds
    exact ⟨_, .grown (fun r _ => hm r) fun r hr q hq => hn r q (hconsumes r hr q hq)⟩
  · intro found n h
    cases h with
    | @grown _ _ read growth _ _ hm hn =>
      apply List.flatMap_congr
      intro r hr
      have hlisted : read r = g.listedParts [] r.body.tail seed.rest :=
        (hread r _).mp ⟨_, hm r hr⟩
      rw [← hlisted]
      apply List.flatMap_congr
      intro q hq
      have hlt := hconsumes r hr q (hlisted ▸ hq)
      rw [(hgrowth r q hlt _).mp ⟨_, hn r hr q hq⟩]

/-- An empty body is read from nothing and in no other way. -/
theorem results_of_partsEnd_nil {active : List Typecode} {input : List Symbol}
    {found : List PartsParse} {n : Nat} (h : PartsEnd g active [] input found n) :
    found = [⟨[], input⟩] := by
  cases h
  rfl

/-- An empty body is read to the end at once. -/
theorem endsWith_of_nil (active : List Typecode) (input : List Symbol) :
    EndsWith (PartsEnd g active [] input) (g.listedParts active [] input) := by
  rw [listedParts_nil]
  exact endsWith_of_unique ⟨1, .nil⟩ fun _ _ h => results_of_partsEnd_nil h

/-- A constant is read to the end if the rest of the body is. -/
theorem endsWith_of_constant {active : List Typecode} {s : Symbol} {body rest : List Symbol}
    (hs : g.variableTypecode? s = none)
    (hrest : EndsWith (PartsEnd g [] body rest) (g.listedParts [] body rest)) :
    EndsWith (PartsEnd g active (s :: body) (s :: rest))
      (g.listedParts active (s :: body) (s :: rest)) := by
  rw [listedParts_constant hs]
  apply endsWith_of_unique
  · obtain ⟨n, hn⟩ := (hrest _).mpr rfl
    exact ⟨n + 1, .constant hs hn⟩
  · intro found n h
    cases h with
    | constant _ hn => exact (hrest _).mp ⟨_, hn⟩
    | mismatch _ hne => exact absurd rfl hne
    | part hs' => simp [hs] at hs'

/-- Where a constant does not come first nothing is read. -/
theorem endsWith_of_mismatch {active : List Typecode} {s : Symbol} {body input : List Symbol}
    (hs : g.variableTypecode? s = none) (hne : input.head? ≠ some s)
    (hlisted : g.listedParts active (s :: body) input = []) :
    EndsWith (PartsEnd g active (s :: body) input) (g.listedParts active (s :: body) input) := by
  rw [hlisted]
  refine endsWith_of_unique ⟨1, .mismatch hs hne⟩ ?_
  intro found n h
  cases h with
  | constant => exact absurd rfl hne
  | mismatch => rfl
  | part hs' => simp [hs] at hs'

/-- A body that begins with a variable is read to the end if the variable is, and the
rest of the body behind it. -/
theorem endsWith_of_part (hg : g.NoEmptyRule) {active : List Typecode} {s : Symbol}
    {tc : Typecode} {body input : List Symbol} (hs : g.variableTypecode? s = some tc)
    (hfirst : EndsWith (ParsesEnd g active tc input) (g.listed active tc input))
    (hfurther : ∀ p : Parse, p.rest.length < input.length →
      EndsWith (PartsEnd g [] body p.rest) (g.listedParts [] body p.rest)) :
    EndsWith (PartsEnd g active (s :: body) input) (g.listedParts active (s :: body) input) := by
  have hconsumes : ∀ p ∈ g.listed active tc input, p.rest.length < input.length :=
    fun p hp => length_rest_lt_of_mem_listed hg hp
  rw [listedParts_variable hg hs]
  apply endsWith_of_unique
  · obtain ⟨m, hm⟩ := (hfirst _).mpr rfl
    have hfurtherEnds := fun p hp => (hfurther p hp _).mpr rfl
    choose! n hn using hfurtherEnds
    exact ⟨_, .part hs hm fun p hp => hn p (hconsumes p hp)⟩
  · intro found n h
    cases h with
    | constant hs' => simp [hs] at hs'
    | mismatch hs' => simp [hs] at hs'
    | @part _ _ _ _ _ first further _ _ hs' hm hn =>
      cases hs.symm.trans hs'
      obtain rfl : first = g.listed active tc input := (hfirst _).mp ⟨_, hm⟩
      apply List.flatMap_congr
      intro p hp
      rw [(hfurther p (hconsumes p hp) _).mp ⟨_, hn p hp⟩]

/-- Every search is over, whatever typecodes are active, and has found what is
listed. -/
theorem endsWith_all (hg : g.NoEmptyRule) :
    (∀ room active tc input, input.length ≤ room →
      EndsWith (ParsesEnd g active tc input) (g.listed active tc input)) ∧
    (∀ room tc seed, seed.rest.length ≤ room →
      EndsWith (GrowthEnds g tc seed) (g.listedGrowth tc seed)) ∧
    (∀ room active body input, input.length ≤ room →
      EndsWith (PartsEnd g active body input) (g.listedParts active body input)) := by
  -- Along the recursion of the parser: with room for the input it goes on to the end.
  apply parses.mutual_induct g
    (fun room active tc input => input.length ≤ room →
      EndsWith (ParsesEnd g active tc input) (g.listed active tc input))
    (fun room tc seed => seed.rest.length ≤ room →
      EndsWith (GrowthEnds g tc seed) (g.listedGrowth tc seed))
    (fun room active body input => input.length ≤ room →
      EndsWith (PartsEnd g active body input) (g.listedParts active body input))
  · intro room active tc input ha _
    exact endsWith_of_active ha input
  · intro room active tc input ha hparts hgrown hroom
    apply endsWith_of_entered hg ha
    · intro r hr
      obtain ⟨rs, hrs, _⟩ := mem_rulesOf hr
      exact hparts rs hrs r hroom
    · intro p hp
      have hlt := length_rest_lt_of_mem_listed hg (mem_listed_of_mem_listedSeeds hg ha hp)
      cases room with
      | zero => omega
      | succ room => exact hgrown p (by omega)
  · intro room tc seed hparts hgrown hroom
    apply endsWith_of_grown hg
    · intro r
      exact hparts r hroom
    · intro r q hlt
      cases room with
      | zero => omega
      | succ room => exact hgrown r q (show q.rest.length ≤ room by omega)
  · intro room active input _
    exact endsWith_of_nil active input
  · intro room active s body hs _
    exact endsWith_of_mismatch hs (by simp) (listedParts_cons_nil hg _ _ _)
  · intro active body s rest hs hroom
    simp at hroom
  · intro active body s rest room hs ih hroom
    simp only [List.length_cons] at hroom
    exact endsWith_of_constant hs (ih (by omega))
  · intro room active s body hs t rest hne _
    exact endsWith_of_mismatch hs (by simpa using hne) (listedParts_constant_of_ne hs hne _ _ _)
  · intro room active input s body tc hs hhead htail hroom
    apply endsWith_of_part hg hs (hhead hroom)
    intro p hlt
    cases room with
    | zero => omega
    | succ room => exact htail p (by omega)

end Typeset.Grammar

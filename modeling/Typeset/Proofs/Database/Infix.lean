import Typeset.Proofs.Database.Parsing
import Typeset.Proofs.Grammar.Generic

/-!
# Infix operators associate to the left

A chain of variables with infix operators between them has as many readings as it
can be put in brackets. Which of them comes first follows from the order of the
search: each expression is grown by one operand before any longer operand is looked
for. Where a growing rule is known by its second symbol, no other rule gets in the
way, and the first complete reading is nested to the left.
-/

namespace Typeset

namespace Grammar

variable {g : Grammar} {tc : Typecode}

/-- The growing rules of a typecode can be told by their second symbols: these are
constants, and no two of them are the same. -/
structure MarkedGrowth (g : Grammar) (tc : Typecode) : Prop where
  /-- A second symbol is a constant. -/
  constant : ∀ r ∈ (g.rulesOf tc).filter (g.isGrowing tc), ∀ o ∈ r.body[1]?,
    g.variableTypecode? o = none
  /-- Second symbols are different. -/
  distinct : (((g.rulesOf tc).filter (g.isGrowing tc)).map (·.body[1]?)).Nodup

/-- A further operand of a chain: its operator, the rule that the operator is written
with, and the variable. -/
structure Link where
  /-- The constant between the operands. -/
  operator : Symbol
  /-- The rule that joins the operands. -/
  rule : Rule
  /-- The symbol of the variable. -/
  operand : Symbol
  /-- The hypothesis of the variable. -/
  floating : Floating

/-- The rule of a link puts its operator between two variables of the typecode, and
its operand is a variable of the typecode. -/
structure Link.Fits (g : Grammar) (tc : Typecode) (l : Link) : Prop where
  /-- The rule is one of the typecode. -/
  rule_mem : l.rule ∈ g.rulesOf tc
  /-- The rule is an infix rule. -/
  body : ∃ x y, l.rule.body = [x, l.operator, y] ∧
    g.variableTypecode? x = some tc ∧ g.variableTypecode? y = some tc
  /-- The operand is a variable. -/
  operand : g.floatings.get? l.operand = some l.floating
  /-- The variable is one of the typecode. -/
  typecode : l.floating.typecode = tc

/-- The symbols of further operands, each behind its operator. -/
def chainSymbols (links : List Link) : List Symbol :=
  links.flatMap fun l => [l.operator, l.operand]

/-- The symbols of a chain begin with those of its first link. -/
theorem chainSymbols_cons (l : Link) (links : List Link) :
    chainSymbols (l :: links) = l.operator :: l.operand :: chainSymbols links := rfl

/-- An expression joined with each further operand in turn. -/
def leftNested (tc : Typecode) (f : Formula) (links : List Link) : Formula :=
  links.foldl (fun f l => .node l.rule.label tc [f, l.floating.leaf]) f

/-- A growing rule has a second symbol. -/
theorem exists_second_of_isGrowing {r : Rule} (h : g.isGrowing tc r = true) :
    ∃ x o body, r.body = x :: o :: body := by
  unfold isGrowing at h
  split at h
  · rename_i x o body hbody
    exact ⟨x, o, body, hbody⟩
  · cases h

/-- The rule of a link that fits is a growing one, with its operator second. -/
theorem Link.Fits.mem_growing {l : Link} (h : l.Fits g tc) :
    l.rule ∈ (g.rulesOf tc).filter (g.isGrowing tc) ∧ l.rule.body[1]? = some l.operator := by
  obtain ⟨x, y, hbody, hx, _⟩ := h.body
  refine ⟨List.mem_filter.mpr ⟨h.rule_mem, ?_⟩, by rw [hbody]; rfl⟩
  simp [isGrowing, hbody, hx]

/-- A variable comes before all other readings of what it stands at the head of. -/
theorem exists_listed_variable (hg : g.NoEmptyRule) {s : Symbol} {v : Floating}
    (hs : g.floatings.get? s = some v) (hv : v.typecode = tc) (rest : List Symbol) :
    ∃ others, g.listed [] tc (s :: rest) =
      ((⟨v.leaf, rest⟩ : Parse) :: g.listedGrowth tc ⟨v.leaf, rest⟩) ++ others := by
  have hleaf : g.leaf tc (s :: rest) = [⟨v.leaf, rest⟩] := by
    simp [leaf, hs, hv, Floating.leaf]
  rw [listed_of_not_mem hg List.not_mem_nil, listedSeeds, seedList, hleaf, List.singleton_append,
    List.flatMap_cons]
  exact ⟨_, rfl⟩

/-- Behind an expression the rule of a link first takes the variable alone. -/
theorem exists_listedParts_link (hg : g.NoEmptyRule) (hm : g.MarkedGrowth tc) {l : Link}
    (hl : l.Fits g tc) (rest : List Symbol) :
    ∃ others, g.listedParts [] l.rule.body.tail (l.operator :: l.operand :: rest) =
      ⟨[l.floating.leaf], rest⟩ :: others := by
  obtain ⟨x, y, hbody, _, hy⟩ := hl.body
  have hoperator : g.variableTypecode? l.operator = none :=
    hm.constant l.rule hl.mem_growing.1 _ hl.mem_growing.2
  obtain ⟨others, hlisted⟩ := exists_listed_variable hg hl.operand hl.typecode rest
  rw [hbody, List.tail_cons, listedParts_constant hoperator, listedParts_variable hg hy, hlisted,
    List.cons_append, List.flatMap_cons]
  simp only [listedParts_nil, List.map_cons, List.map_nil, List.singleton_append]
  exact ⟨_, rfl⟩

/-- Behind an expression no other growing rule reads the operator of a link. -/
theorem listedParts_eq_nil_of_ne (hm : g.MarkedGrowth tc) {l : Link} (hl : l.Fits g tc)
    {r : Rule} (hr : r ∈ (g.rulesOf tc).filter (g.isGrowing tc)) (hne : r ≠ l.rule)
    (rest : List Symbol) : g.listedParts [] r.body.tail (l.operator :: rest) = [] := by
  obtain ⟨x, o, body, hbody⟩ := exists_second_of_isGrowing (List.mem_filter.mp hr).2
  have hsecond : r.body[1]? = some o := by rw [hbody]; rfl
  have hoperator : l.operator ≠ o := by
    rintro rfl
    have hsame : r.body[1]? = l.rule.body[1]? := hsecond.trans hl.mem_growing.2.symm
    exact hne (List.inj_on_of_nodup_map hm.distinct hr hl.mem_growing.1 hsame)
  rw [hbody, List.tail_cons]
  exact listedParts_constant_of_ne (hm.constant r hr o hsecond) hoperator _ _ _

/-- A search over a list gives what its only successful entry gives. -/
theorem findSome?_eq_of_mem {α β : Type} {l : List α} {f : α → Option β} {a : α} {b : β}
    (ha : a ∈ l) (hf : f a = some b) (hothers : ∀ x ∈ l, x ≠ a → f x = none) :
    l.findSome? f = some b := by
  cases hfound : l.findSome? f with
  | none => simpa [hf] using List.findSome?_eq_none_iff.mp hfound a ha
  | some b' =>
    obtain ⟨x, hx, hfx⟩ := List.exists_of_findSome?_eq_some hfound
    by_cases hxa : x = a
    · rw [← hfx, hxa, hf]
    · simp [hothers x hx hxa] at hfx

/-- Of an expression and all that it grows into, the first that leaves nothing of a
chain behind it is the expression joined with each operand in turn. -/
theorem find?_listedGrowth_chain (hg : g.NoEmptyRule) (hm : g.MarkedGrowth tc)
    (links : List Link) (hlinks : ∀ l ∈ links, l.Fits g tc) (p : Parse)
    (hp : p.rest = chainSymbols links) :
    ((p :: g.listedGrowth tc p).find? fun q => q.rest.isEmpty) =
      some ⟨leftNested tc p.formula links, []⟩ := by
  induction links generalizing p with
  | nil =>
    obtain ⟨f, rest⟩ := p
    obtain rfl : rest = [] := hp
    rfl
  | cons l links ih =>
    obtain ⟨hl, hlinks⟩ := List.forall_mem_cons.mp hlinks
    rw [chainSymbols_cons] at hp
    obtain ⟨others, hparts⟩ := exists_listedParts_link hg hm hl (chainSymbols links)
    rw [List.find?_cons_of_neg (by simp [hp]), listedGrowth_eq hg, List.find?_flatMap, hp]
    -- Only the rule of the operator reads on, and the search goes first where it leads.
    apply findSome?_eq_of_mem hl.mem_growing.1
    · rw [hparts, List.flatMap_cons, List.find?_append]
      rw [ih hlinks (grownBy tc p l.rule ⟨[l.floating.leaf], chainSymbols links⟩) rfl]
      rfl
    · intro r hr hne
      rw [listedParts_eq_nil_of_ne hm hl hr hne]
      rfl

/-- The first complete reading of a chain is nested to the left. -/
theorem read?_chain (hg : g.NoEmptyRule) (hm : g.MarkedGrowth tc) {s : Symbol} {v : Floating}
    (hs : g.floatings.get? s = some v) (hv : v.typecode = tc) {links : List Link}
    (hlinks : ∀ l ∈ links, l.Fits g tc) :
    g.read? tc (s :: chainSymbols links) = some (leftNested tc v.leaf links) := by
  obtain ⟨others, hlisted⟩ := exists_listed_variable hg hs hv (chainSymbols links)
  rw [read?_eq_find?_listed hg, hlisted, List.find?_append,
    find?_listedGrowth_chain hg hm links hlinks _ rfl]
  rfl

end Grammar

namespace Database

open Grammar

/-- In a database without empty rules, where the growing rules of a typecode are known
by their second symbols, a chain of variables of the typecode with infix operators
between them is read as the tree that joins each operand in turn to all that stands
before it. -/
theorem infix_associates_left {db : Database} (hg : db.grammar.NoEmptyRule) {tc : Typecode}
    (hm : db.grammar.MarkedGrowth tc) {s : Symbol} {v : Floating}
    (hs : db.grammar.floatings.get? s = some v) (hv : v.typecode = tc) {links : List Link}
    (hlinks : ∀ l ∈ links, l.Fits db.grammar tc) (asserted : Bool) :
    db.readAs (s :: chainSymbols links) [tc] asserted =
      .ok (db.framed asserted tc (leftNested tc v.leaf links)) := by
  exact readAs_singleton_of_read? db (read?_chain hg hm hs hv hlinks) asserted

/-- In the small database each further summand is joined to all that stands before it:
a sum of three variables is the sum of the first two with the third. -/
theorem infix_associates_left_sample :
    (sample.grammar.NoEmptyRule ∧ sample.grammar.MarkedGrowth "c") ∧
      sample.readAs ["x", "+", "y", "+", "x"] ["c"] false =
        .ok (.node "add" "c" [sampleSum, .node "cx" "c" []]) := by
  have hg : sample.grammar.NoEmptyRule := forall_rules_of_entries (by decide)
  have hm : sample.grammar.MarkedGrowth "c" := ⟨by decide, by decide⟩
  have hadd : (⟨"add", ["x", "+", "y"]⟩ : Rule) ∈ sample.grammar.rulesOf "c" := by decide
  have hlinks : ∀ l ∈ ([⟨"+", ⟨"add", ["x", "+", "y"]⟩, "y", ⟨"cy", "c", "y"⟩⟩,
      ⟨"+", ⟨"add", ["x", "+", "y"]⟩, "x", ⟨"cx", "c", "x"⟩⟩] : List Link),
      l.Fits sample.grammar "c" := by
    simp only [List.mem_cons, List.not_mem_nil, or_false, forall_eq_or_imp, forall_eq]
    constructor
    · exact ⟨hadd, ⟨"x", "y", rfl, by decide, by decide⟩, by decide, rfl⟩
    · exact ⟨hadd, ⟨"x", "y", rfl, by decide, by decide⟩, by decide, rfl⟩
  exact ⟨⟨hg, hm⟩, infix_associates_left hg hm (s := "x") (v := ⟨"cx", "c", "x"⟩) (by decide) rfl
    hlinks false⟩

end Database

end Typeset

import Mathlib.Logic.Relation
import Typeset.Proofs.Grammar.Listing

/-!
# What can be derived is parsed

A rule that begins with a variable of its own typecode is kept from entering
that typecode once more, and is applied to expressions found already instead.
As long as no other rules lead in a circle back to a typecode that is being
read, nothing is lost by this: every derivation tree without idle rules is
listed. A tree whose root is a growing rule is listed because its first part
is, and because the list of a typecode is closed under growth.
-/

namespace Typeset.Grammar

variable {g : Grammar}

/-- Some rule of a typecode begins with a variable of another typecode. -/
def LeadsTo (g : Grammar) (tc tc' : Typecode) : Prop :=
  tc ≠ tc' ∧ ∃ r ∈ g.rulesOf tc, ∃ s body, r.body = s :: body ∧ g.variableTypecode? s = some tc'

/-- No typecode leads back to itself by way of another one. -/
def Acyclic (g : Grammar) : Prop := ∀ tc, ¬Relation.TransGen g.LeadsTo tc tc

/-- No typecode leads back to itself if typecodes have ranks, and the first
variable of every rule has a typecode of lower rank or the rule's own. -/
theorem acyclic_of_rank (rank : Typecode → Nat)
    (h : ∀ tc, ∀ r ∈ g.rulesOf tc, ∀ s ∈ r.body.head?, ∀ tc' ∈ g.variableTypecode? s,
      tc = tc' ∨ rank tc' < rank tc) : g.Acyclic := by
  have hstep : ∀ {tc tc' : Typecode}, g.LeadsTo tc tc' → rank tc' < rank tc := by
    rintro tc tc' ⟨hne, r, hr, s, body, hbody, hs⟩
    have hhead : s ∈ r.body.head? := by simp [hbody]
    exact (h tc r hr s hhead tc' hs).resolve_left hne
  have hpath : ∀ {tc tc' : Typecode}, Relation.TransGen g.LeadsTo tc tc' → rank tc' < rank tc := by
    intro tc tc' hpath
    induction hpath with
    | single hlead => exact hstep hlead
    | tail _ hlead ih => exact Nat.lt_trans (hstep hlead) ih
  intro tc hcycle
  exact Nat.lt_irrefl _ (hpath hcycle)

/-- No active typecode can be entered again on the way down from a typecode. -/
def Clear (g : Grammar) (active : List Typecode) (tc : Typecode) : Prop :=
  ∀ a ∈ active, ¬Relation.ReflTransGen g.LeadsTo tc a

/-- Where nothing is active every typecode is clear. -/
theorem clear_nil (tc : Typecode) : g.Clear [] tc := by
  intro a ha
  simp at ha

/-- A clear typecode is not active. -/
theorem Clear.not_mem {active : List Typecode} {tc : Typecode} (h : g.Clear active tc) :
    tc ∉ active :=
  fun ha => h tc ha .refl

/-- Becoming active keeps clear what a typecode leads to. -/
theorem Clear.step (hc : g.Acyclic) {active : List Typecode} {tc tc' : Typecode}
    (h : g.Clear active tc) (hl : g.LeadsTo tc tc') : g.Clear (tc :: active) tc' := by
  intro a ha hreach
  rcases List.mem_cons.mp ha with rfl | ha
  · exact hc a (.head' hl hreach)
  · exact h a ha (.head hl hreach)

/-- An expression grows by one growing rule. -/
theorem grownBy_mem_listedGrowth (hg : g.NoEmptyRule) {tc : Typecode} {seed : Parse} {r : Rule}
    {q : PartsParse} (hr : r ∈ g.rulesOf tc) (hgrow : g.isGrowing tc r = true)
    (hq : q ∈ g.listedParts [] r.body.tail seed.rest) :
    grownBy tc seed r q ∈ g.listedGrowth tc seed := by
  rw [listedGrowth_eq hg]
  refine List.mem_flatMap.mpr ⟨r, List.mem_filter.mpr ⟨hr, hgrow⟩, ?_⟩
  exact List.mem_flatMap.mpr ⟨q, hq, List.mem_cons_self⟩

/-- Growth grows on by one growing rule. -/
theorem grownBy_mem_of_mem_listedGrowth (hg : g.NoEmptyRule) {tc : Typecode} {r : Rule}
    {q : PartsParse} (hr : r ∈ g.rulesOf tc) (hgrow : g.isGrowing tc r = true) {p : Parse}
    (hq : q ∈ g.listedParts [] r.body.tail p.rest) (n : Nat) :
    ∀ seed : Parse, seed.rest.length ≤ n → p ∈ g.listedGrowth tc seed →
      grownBy tc p r q ∈ g.listedGrowth tc seed := by
  induction n with
  | zero =>
    intro seed hn hp
    rw [listedGrowth, toList_grown_nil hg _ tc (List.length_eq_zero_iff.mp (by omega))] at hp
    simp at hp
  | succ n ih =>
    intro seed hn hp
    rw [listedGrowth_eq hg] at hp ⊢
    obtain ⟨r₁, hr₁, hp⟩ := List.mem_flatMap.mp hp
    obtain ⟨q₁, hq₁, hp⟩ := List.mem_flatMap.mp hp
    refine List.mem_flatMap.mpr ⟨r₁, hr₁, List.mem_flatMap.mpr ⟨q₁, hq₁, ?_⟩⟩
    have hlt : (grownBy tc seed r₁ q₁).rest.length < seed.rest.length :=
      length_rest_lt_of_mem_tail hg (List.mem_filter.mp hr₁).2 hq₁
    rcases List.mem_cons.mp hp with rfl | hp
    · exact List.mem_cons_of_mem _ (grownBy_mem_listedGrowth hg hr hgrow hq)
    · exact List.mem_cons_of_mem _ (ih _ (by omega) hp)

/-- The list of a typecode is closed under growth. -/
theorem grownBy_mem_listed (hg : g.NoEmptyRule) {active : List Typecode} {tc : Typecode}
    {input : List Symbol} {p : Parse} {r : Rule} {q : PartsParse} (ha : tc ∉ active)
    (hr : r ∈ g.rulesOf tc) (hgrow : g.isGrowing tc r = true)
    (hp : p ∈ g.listed active tc input) (hq : q ∈ g.listedParts [] r.body.tail p.rest) :
    grownBy tc p r q ∈ g.listed active tc input := by
  rw [listed_of_not_mem hg ha] at hp ⊢
  obtain ⟨seed, hseed, hp⟩ := List.mem_flatMap.mp hp
  refine List.mem_flatMap.mpr ⟨seed, hseed, ?_⟩
  rcases List.mem_cons.mp hp with rfl | hp
  · exact List.mem_cons_of_mem _ (grownBy_mem_listedGrowth hg hr hgrow hq)
  · exact List.mem_cons_of_mem _
      (grownBy_mem_of_mem_listedGrowth hg hr hgrow hq _ seed (Nat.le_refl _) hp)

/-- A rule that is neither idle nor growing leads to another typecode if it
begins with a variable. -/
theorem leadsTo_of_busyRule {tc tc' : Typecode} {r : Rule} {s : Symbol} {body : List Symbol}
    (hr : r ∈ g.rulesOf tc) (hbusy : g.busyRule tc r) (hgrow : ¬g.isGrowing tc r = true)
    (hbody : r.body = s :: body) (hs : g.variableTypecode? s = some tc') : g.LeadsTo tc tc' := by
  refine ⟨?_, r, hr, s, body, hbody, hs⟩
  rintro rfl
  cases body with
  | nil => simp [busyRule, isIdle, hbody, hs] at hbusy
  | cons t body => simp [isGrowing, hbody, hs] at hgrow

/-- A growing rule begins with a variable of its own typecode. -/
theorem exists_body_of_isGrowing {tc : Typecode} {r : Rule} (h : g.isGrowing tc r = true) :
    ∃ s body, r.body = s :: body ∧ g.variableTypecode? s = some tc := by
  unfold isGrowing at h
  split at h
  · rename_i s t body hbody
    exact ⟨s, t :: body, hbody, by simpa using h⟩
  · simp at h

/-- Every tree without idle rules is listed at the head of every input that
goes on behind it, and so are the parts of every body. -/
theorem mem_listed_all (hg : g.NoEmptyRule) (hc : g.Acyclic) :
    (∀ {tc : Typecode} {f : Formula} {symbols : List Symbol},
      Derives g g.busyRule tc f symbols → ∀ active rest, g.Clear active tc →
        (⟨f, rest⟩ : Parse) ∈ g.listed active tc (symbols ++ rest)) ∧
    (∀ {body : List Symbol} {parts : List Formula} {symbols : List Symbol},
      DerivesParts g g.busyRule body parts symbols → ∀ active rest,
        (∀ s more tc, body = s :: more → g.variableTypecode? s = some tc → g.Clear active tc) →
        (⟨parts, rest⟩ : PartsParse) ∈ g.listedParts active body (symbols ++ rest)) := by
  apply derives_induction
    (P := fun tc f symbols => ∀ active rest, g.Clear active tc →
      (⟨f, rest⟩ : Parse) ∈ g.listed active tc (symbols ++ rest))
    (Q := fun body parts symbols => ∀ active rest,
      (∀ s more tc, body = s :: more → g.variableTypecode? s = some tc → g.Clear active tc) →
      (⟨parts, rest⟩ : PartsParse) ∈ g.listedParts active body (symbols ++ rest))
  · intro s v hv active rest hclear
    apply mem_listed_of_mem_listedSeeds hg hclear.not_mem
    exact List.mem_append_left _ (by simp [leaf, hv])
  · intro tc r parts symbols hr hbusy _ ih active rest hclear
    by_cases hgrow : g.isGrowing tc r = true
    · -- the first part is listed under the same active typecodes, and grows into the whole
      obtain ⟨s, body, hbody, hs⟩ := exists_body_of_isGrowing hgrow
      have hparts := ih active rest (by
        intro s' more tc' hbody' hs'
        rw [hbody] at hbody'
        obtain ⟨rfl, rfl⟩ := List.cons.inj hbody'
        rw [hs] at hs'
        cases hs'
        exact hclear)
      rw [hbody, listedParts_variable hg hs] at hparts
      obtain ⟨p, hp, hparts⟩ := List.mem_flatMap.mp hparts
      obtain ⟨q, hq, heq⟩ := List.mem_map.mp hparts
      cases heq
      exact grownBy_mem_listed hg hclear.not_mem hr hgrow hp (by simpa [hbody] using hq)
    · apply mem_listed_of_mem_listedSeeds hg hclear.not_mem
      apply List.mem_append_right
      refine List.mem_flatMap.mpr ⟨r, hr, List.mem_map.mpr ⟨⟨parts, rest⟩, ?_, rfl⟩⟩
      apply ih
      intro s more tc' hbody hs
      exact hclear.step hc (leadsTo_of_busyRule hr hbusy hgrow hbody hs)
  · intro active rest _
    simp [listedParts_nil]
  · intro s body parts symbols hs _ ih active rest _
    rw [List.cons_append, listedParts_constant hs]
    exact ih [] rest fun _ _ tc _ _ => clear_nil tc
  · intro s body tc f front parts symbols hs _ _ hhead htail active rest hclear
    rw [listedParts_variable hg hs]
    refine List.mem_flatMap.mpr ⟨⟨f, symbols ++ rest⟩, ?_, ?_⟩
    · rw [List.append_assoc]
      exact hhead active (symbols ++ rest) (hclear s body tc rfl hs)
    · exact List.mem_map.mpr
        ⟨⟨parts, rest⟩, htail [] rest fun _ _ tc _ _ => clear_nil tc, rfl⟩

/-- Where nothing is active, an expression is listed exactly if it is derived
from the symbols that it leaves out of the input. -/
theorem mem_listed_iff (hg : g.NoEmptyRule) (hc : g.Acyclic) {tc : Typecode}
    {input : List Symbol} {p : Parse} :
    p ∈ g.listed [] tc input ↔
      ∃ front, input = front ++ p.rest ∧ Derives g g.busyRule tc p.formula front := by
  constructor
  · intro h
    exact sound_of_mem_parses h
  · rintro ⟨front, rfl, hderives⟩
    exact (mem_listed_all hg hc).1 hderives [] p.rest (clear_nil tc)

end Typeset.Grammar

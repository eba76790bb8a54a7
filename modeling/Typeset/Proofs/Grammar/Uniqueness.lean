import Mathlib.Data.List.Nodup
import Typeset.Proofs.Grammar.Listing

/-!
# No parse is listed twice

Where every label stands for one hypothesis or one rule, a formula says by its
labels how it was found: a seed by the rule at its root and by its parts, any
other expression by the seed at the end of its chain of growing rules and by
the steps from there. So no formula is listed twice, and two derivation trees
that are the same formula are equal, tags included, and derive the same
symbols.
-/

namespace Typeset.Grammar

/-- Every label of a grammar stands for one thing. -/
structure Distinct (g : Grammar) : Prop where
  /-- The rules of a typecode have different labels. -/
  labels_nodup : ∀ tc, ((g.rulesOf tc).map (·.label)).Nodup
  /-- A label that two rules share is that of one rule of one typecode. -/
  rule_eq : ∀ {tc tc' : Typecode} {r r' : Rule}, r ∈ g.rulesOf tc → r' ∈ g.rulesOf tc' →
    r.label = r'.label → tc = tc' ∧ r = r'
  /-- A label that two variables share is that of one variable. -/
  floating_eq : ∀ {s s' : Symbol} {v v' : Floating}, g.floatings.get? s = some v →
    g.floatings.get? s' = some v' → v.label = v'.label → s = s' ∧ v = v'
  /-- No variable shares its label with a rule. -/
  label_ne : ∀ {s : Symbol} {v : Floating} {tc : Typecode} {r : Rule},
    g.floatings.get? s = some v → r ∈ g.rulesOf tc → v.label ≠ r.label

variable {g : Grammar} {usable : Typecode → Rule → Prop}

/-- Trees that are the same formula derive the same symbols under the same
typecode, and carry the same tags. -/
theorem eq_of_same_all (hd : g.Distinct) :
    (∀ {tc : Typecode} {f : Formula} {symbols : List Symbol}, Derives g usable tc f symbols →
      ∀ tc' f' symbols', Derives g usable tc' f' symbols' → f.same f' = true →
        tc = tc' ∧ f = f' ∧ symbols = symbols') ∧
    (∀ {body : List Symbol} {parts : List Formula} {symbols : List Symbol},
      DerivesParts g usable body parts symbols →
      ∀ parts' symbols', DerivesParts g usable body parts' symbols' →
        Formula.sameAll parts parts' = true → parts = parts' ∧ symbols = symbols') := by
  apply derives_induction
    (P := fun tc f symbols => ∀ tc' f' symbols', Derives g usable tc' f' symbols' →
      f.same f' = true → tc = tc' ∧ f = f' ∧ symbols = symbols')
    (Q := fun body parts symbols => ∀ parts' symbols', DerivesParts g usable body parts' symbols' →
      Formula.sameAll parts parts' = true → parts = parts' ∧ symbols = symbols')
  · intro s v hv tc' f' symbols' h hsame
    cases h with
    | leaf hv' =>
      simp only [Formula.same, Bool.and_eq_true, beq_iff_eq] at hsame
      obtain ⟨rfl, rfl⟩ := hd.floating_eq hv hv' hsame.1
      exact ⟨rfl, rfl, rfl⟩
    | rule hr _ _ =>
      simp only [Formula.same, Bool.and_eq_true, beq_iff_eq] at hsame
      exact absurd hsame.1 (hd.label_ne hv hr)
  · intro tc r parts symbols hr _ _ ih tc' f' symbols' h hsame
    cases h with
    | leaf hv =>
      simp only [Formula.same, Bool.and_eq_true, beq_iff_eq] at hsame
      exact absurd hsame.1.symm (hd.label_ne hv hr)
    | rule hr' _ hp' =>
      simp only [Formula.same, Bool.and_eq_true, beq_iff_eq] at hsame
      obtain ⟨rfl, rfl⟩ := hd.rule_eq hr hr' hsame.1
      obtain ⟨rfl, rfl⟩ := ih _ _ hp' hsame.2
      exact ⟨rfl, rfl, rfl⟩
  · intro parts' symbols' h _
    cases h
    exact ⟨rfl, rfl⟩
  · intro s body parts symbols hs _ ih parts' symbols' h hsame
    cases h with
    | constant _ hp' =>
      obtain ⟨rfl, rfl⟩ := ih _ _ hp' hsame
      exact ⟨rfl, rfl⟩
    | part hs' _ _ => simp [hs] at hs'
  · intro s body tc f front parts symbols hs _ _ hf hp parts' symbols' h hsame
    cases h with
    | constant hs' _ => simp [hs] at hs'
    | part hs' hf' hp' =>
      simp only [Formula.sameAll, Bool.and_eq_true] at hsame
      obtain ⟨_, rfl, rfl⟩ := hf _ _ _ hf' hsame.1
      obtain ⟨rfl, rfl⟩ := hp _ _ hp' hsame.2
      exact ⟨rfl, rfl⟩

/-- An expression of a typecode and what growing rules of the typecode made of
it. -/
inductive GrowsTo (g : Grammar) (tc : Typecode) (seed : Formula) : Formula → Prop where
  /-- Nothing was added. -/
  | refl : GrowsTo g tc seed seed
  /-- A growing rule was applied to what had grown so far. -/
  | step {r : Rule} {f : Formula} {parts : List Formula} (hr : r ∈ g.rulesOf tc)
    (hgrow : g.isGrowing tc r = true) (hf : GrowsTo g tc seed f) :
    GrowsTo g tc seed (.node r.label tc (f :: parts))

/-- Growth does not make an expression smaller. -/
theorem GrowsTo.size_le {tc : Typecode} {seed f : Formula} (h : GrowsTo g tc seed f) :
    seed.size ≤ f.size := by
  induction h with
  | refl => exact Nat.le_refl _
  | step _ _ _ ih =>
    simp only [Formula.size, Formula.sizeAll]
    omega

/-- Growth after growth is growth. -/
theorem GrowsTo.trans {tc : Typecode} {a b c : Formula} (hab : GrowsTo g tc a b)
    (hbc : GrowsTo g tc b c) : GrowsTo g tc a c := by
  induction hbc with
  | refl => exact hab
  | step hr hgrow _ ih => exact .step hr hgrow ih

/-- What has grown into a formula is that formula or has grown into its first
part. -/
theorem GrowsTo.eq_or_first {tc : Typecode} {seed f : Formula} {l : Label} {parts : List Formula}
    (h : GrowsTo g tc seed (.node l tc (f :: parts))) :
    seed = .node l tc (f :: parts) ∨ GrowsTo g tc seed f := by
  generalize hx : Formula.node l tc (f :: parts) = x at h
  cases h with
  | refl => exact .inl rfl
  | step _ _ hf =>
    cases hx
    exact .inr hf

/-- Two expressions that grew into one formula lie on one chain. -/
theorem GrowsTo.total {tc : Typecode} {a b f : Formula} (ha : GrowsTo g tc a f)
    (hb : GrowsTo g tc b f) : GrowsTo g tc a b ∨ GrowsTo g tc b a := by
  induction ha with
  | refl => exact .inr hb
  | step hr hgrow ha ih =>
    rcases hb.eq_or_first with rfl | hb
    · exact .inl (.step hr hgrow ha)
    · exact ih hb

/-- The first step of a chain is on the chain only once. -/
theorem GrowsTo.eq_of_seed {tc : Typecode} {seed : Formula} {l l' : Label}
    {parts parts' : List Formula}
    (h : GrowsTo g tc (.node l tc (seed :: parts)) (.node l' tc (seed :: parts'))) :
    l = l' ∧ parts = parts' := by
  rcases h.eq_or_first with heq | h
  · cases heq
    exact ⟨rfl, rfl⟩
  · have hle := h.size_le
    simp only [Formula.size, Formula.sizeAll] at hle
    omega

/-- The first step from a seed to a formula is determined by the two. -/
theorem GrowsTo.first_step {tc : Typecode} {seed f : Formula} {l l' : Label}
    {parts parts' : List Formula} (h : GrowsTo g tc (.node l tc (seed :: parts)) f)
    (h' : GrowsTo g tc (.node l' tc (seed :: parts')) f) : l = l' ∧ parts = parts' := by
  rcases h.total h' with h | h
  · exact h.eq_of_seed
  · obtain ⟨hl, hparts⟩ := h.eq_of_seed
    exact ⟨hl.symm, hparts.symm⟩

/-- Whatever is listed as growth of an expression has grown out of it and is
larger. -/
theorem growsTo_of_mem_listedGrowth (hg : g.NoEmptyRule) {tc : Typecode} {p : Parse} (n : Nat) :
    ∀ seed : Parse, seed.rest.length ≤ n → p ∈ g.listedGrowth tc seed →
      GrowsTo g tc seed.formula p.formula ∧ seed.formula.size < p.formula.size := by
  induction n with
  | zero =>
    intro seed hn hp
    rw [listedGrowth, toList_grown_nil hg _ tc (List.length_eq_zero_iff.mp (by omega))] at hp
    simp at hp
  | succ n ih =>
    intro seed hn hp
    rw [listedGrowth_eq hg] at hp
    obtain ⟨r, hr, hp⟩ := List.mem_flatMap.mp hp
    obtain ⟨q, hq, hp⟩ := List.mem_flatMap.mp hp
    obtain ⟨hr, hgrow⟩ := List.mem_filter.mp hr
    have hstep : GrowsTo g tc seed.formula (grownBy tc seed r q).formula := .step hr hgrow .refl
    have hsize : seed.formula.size < (grownBy tc seed r q).formula.size := by
      simp only [grownBy, Formula.size, Formula.sizeAll]
      omega
    rcases List.mem_cons.mp hp with rfl | hp
    · exact ⟨hstep, hsize⟩
    · have hlt : (grownBy tc seed r q).rest.length < seed.rest.length :=
        length_rest_lt_of_mem_tail hg hgrow hq
      obtain ⟨hgrown, hlarger⟩ := ih _ (by omega) hp
      exact ⟨hstep.trans hgrown, Nat.lt_trans hsize hlarger⟩

/-- An expression and all that is listed as its growth have grown out of it. -/
theorem growsTo_of_mem_cons (hg : g.NoEmptyRule) {tc : Typecode} {p x : Parse}
    (h : x ∈ p :: g.listedGrowth tc p) : GrowsTo g tc p.formula x.formula := by
  rcases List.mem_cons.mp h with rfl | h
  · exact .refl
  · exact (growsTo_of_mem_listedGrowth hg _ p (Nat.le_refl _) h).1

/-- An expression is not listed as its own growth. -/
theorem formula_not_mem_listedGrowth (hg : g.NoEmptyRule) (tc : Typecode) (p : Parse) :
    p.formula ∉ (g.listedGrowth tc p).map (·.formula) := by
  intro h
  obtain ⟨x, hx, hf⟩ := List.mem_map.mp h
  have hlarger := (growsTo_of_mem_listedGrowth hg _ p (Nat.le_refl _) hx).2
  rw [hf] at hlarger
  omega

/-- A list made in the places of another has no key twice if no place has one
twice and every key tells the place that it is from. -/
theorem nodup_map_flatMap {α β γ δ : Type} {l : List α} {F : α → List β} {key : β → γ}
    {mark : α → δ} (hl : (l.map mark).Nodup) (hplace : ∀ a ∈ l, ((F a).map key).Nodup)
    (htells : ∀ a ∈ l, ∀ b ∈ l, ∀ x ∈ F a, ∀ y ∈ F b, key x = key y → mark a = mark b) :
    ((l.flatMap F).map key).Nodup := by
  rw [List.map_flatMap, List.nodup_flatMap]
  refine ⟨hplace, (List.pairwise_map.mp hl).imp_of_mem ?_⟩
  intro a b ha hb hne k hka hkb
  obtain ⟨x, hx, hkx⟩ := List.mem_map.mp hka
  obtain ⟨y, hy, hky⟩ := List.mem_map.mp hkb
  exact hne (htells a ha b hb x hx y hy (hkx.trans hky.symm))

/-- A growing rule of an active typecode is read from nothing, since it begins
with that typecode. -/
theorem listedParts_of_isGrowing (hg : g.NoEmptyRule) {active : List Typecode} {tc : Typecode}
    {r : Rule} (hgrow : g.isGrowing tc r = true) (input : List Symbol) :
    g.listedParts (tc :: active) r.body input = [] := by
  unfold isGrowing at hgrow
  split at hgrow
  · rename_i s t body hbody
    have hs : g.variableTypecode? s = some tc := by simpa using hgrow
    rw [hbody, listedParts_variable hg hs, listed_of_mem List.mem_cons_self]
    rfl
  · simp at hgrow

/-- A seed is a variable of the typecode or is built by a rule that does not
grow. -/
theorem of_mem_listedSeeds (hg : g.NoEmptyRule) {active : List Typecode} {tc : Typecode}
    {input : List Symbol} {p : Parse} (h : p ∈ g.listedSeeds active tc input) :
    p ∈ g.leaf tc input ∨ ∃ r ∈ g.rulesOf tc, ¬g.isGrowing tc r = true ∧
      ∃ q ∈ g.listedParts (tc :: active) r.body input,
        (⟨.node r.label tc q.parts, q.rest⟩ : Parse) = p := by
  rcases List.mem_append.mp h with hleaf | hrule
  · exact .inl hleaf
  · obtain ⟨r, hr, hp⟩ := List.mem_flatMap.mp hrule
    obtain ⟨q, hq, hp⟩ := List.mem_map.mp hp
    refine .inr ⟨r, hr, ?_, q, hq, hp⟩
    intro hgrow
    have hread : q ∈ g.listedParts (tc :: active) r.body input := hq
    rw [listedParts_of_isGrowing hg hgrow] at hread
    simp at hread

/-- A leaf has the label of a variable. -/
theorem label_of_mem_leaf {tc : Typecode} {input : List Symbol} {p : Parse}
    (h : p ∈ g.leaf tc input) : ∃ s v, g.floatings.get? s = some v ∧ p.formula.label = v.label := by
  unfold leaf at h
  split at h
  · simp at h
  · rename_i s rest
    split at h
    · rename_i v hv
      split at h
      · obtain rfl := List.mem_singleton.mp h
        exact ⟨s, v, hv, rfl⟩
      · simp at h
    · simp at h

/-- Nothing grows into a seed but the seed itself. -/
theorem GrowsTo.eq_of_mem_listedSeeds (hg : g.NoEmptyRule) (hd : g.Distinct)
    {active : List Typecode} {tc : Typecode} {input : List Symbol} {p : Parse}
    (hp : p ∈ g.listedSeeds active tc input) {f : Formula} (h : GrowsTo g tc f p.formula) :
    f = p.formula := by
  cases hf : p.formula with
  | node l t parts =>
    rw [hf] at h
    generalize hx : Formula.node l t parts = x at h
    cases h with
    | refl => rfl
    | step hr hgrow _ =>
      -- the root would be a growing rule, but seeds are variables or other rules
      rw [hx] at hf
      rcases of_mem_listedSeeds hg hp with hleaf | ⟨r', hr', hstill, q, _, rfl⟩
      · obtain ⟨s, v, hv, hlabel⟩ := label_of_mem_leaf hleaf
        rw [hf] at hlabel
        exact absurd hlabel.symm (hd.label_ne hv hr)
      · obtain ⟨_, rfl⟩ := hd.rule_eq hr' hr (Formula.node.inj hf).1
        exact absurd hgrow hstill

/-- The seeds are different formulas if the readings of each rule are. -/
theorem nodup_listedSeeds (hd : g.Distinct) {active : List Typecode} {tc : Typecode}
    {input : List Symbol}
    (hparts : ∀ r ∈ g.rulesOf tc,
      ((g.listedParts (tc :: active) r.body input).map (·.parts)).Nodup) :
    ((g.listedSeeds active tc input).map (·.formula)).Nodup := by
  rw [listedSeeds, seedList, List.map_append, List.nodup_append']
  refine ⟨?_, ?_, ?_⟩
  · unfold leaf
    split
    · simp
    · split
      · split <;> simp
      · simp
  · apply nodup_map_flatMap (hd.labels_nodup tc)
    · intro r hr
      have hnode : (((g.listedParts (tc :: active) r.body input).map (·.parts)).map
          (Formula.node r.label tc)).Nodup :=
        (hparts r hr).map fun _ _ h => (Formula.node.inj h).2.2
      simpa only [List.map_map, Function.comp_def] using hnode
    · intro r _ r' _ x hx y hy hkey
      obtain ⟨q, _, rfl⟩ := List.mem_map.mp hx
      obtain ⟨q', _, rfl⟩ := List.mem_map.mp hy
      exact (Formula.node.inj hkey).1
  · intro f hleaf hrule
    obtain ⟨p, hp, rfl⟩ := List.mem_map.mp hleaf
    obtain ⟨p', hp', hf⟩ := List.mem_map.mp hrule
    obtain ⟨r, hr, hp'⟩ := List.mem_flatMap.mp hp'
    obtain ⟨q, _, rfl⟩ := List.mem_map.mp hp'
    obtain ⟨s, v, hv, hlabel⟩ := label_of_mem_leaf hp
    rw [← hf] at hlabel
    exact hd.label_ne hv hr hlabel.symm

/-- An expression and its growth are different formulas if the growth is. -/
theorem nodup_cons_listedGrowth (hg : g.NoEmptyRule) {tc : Typecode} {p : Parse}
    (h : ((g.listedGrowth tc p).map (·.formula)).Nodup) :
    ((p :: g.listedGrowth tc p).map (·.formula)).Nodup := by
  rw [List.map_cons, List.nodup_cons]
  exact ⟨formula_not_mem_listedGrowth hg tc p, h⟩

/-- The expressions of a typecode are different formulas if its seeds are and
what grows from each of them is. -/
theorem nodup_listed_of_growth (hg : g.NoEmptyRule) (hd : g.Distinct) {active : List Typecode}
    {tc : Typecode} {input : List Symbol} (ha : tc ∉ active)
    (hseeds : ((g.listedSeeds active tc input).map (·.formula)).Nodup)
    (hgrowth : ∀ p : Parse, p.rest.length < input.length →
      ((g.listedGrowth tc p).map (·.formula)).Nodup) :
    ((g.listed active tc input).map (·.formula)).Nodup := by
  rw [listed_of_not_mem hg ha]
  apply nodup_map_flatMap hseeds
  · intro p hp
    have hmem : p ∈ g.listed active tc input := mem_listed_of_mem_listedSeeds hg ha hp
    exact nodup_cons_listedGrowth hg (hgrowth p (length_rest_lt_of_mem_listed hg hmem))
  · intro p hp p' hp' x hx y hy hkey
    have hchain : GrowsTo g tc p.formula x.formula := growsTo_of_mem_cons hg hx
    have hchain' : GrowsTo g tc p'.formula x.formula := hkey ▸ growsTo_of_mem_cons hg hy
    rcases hchain.total hchain' with h | h
    · exact h.eq_of_mem_listedSeeds hg hd hp'
    · exact (h.eq_of_mem_listedSeeds hg hd hp).symm

/-- What grows from an expression are different formulas if the readings of
each growing rule are and what grows from each step is. -/
theorem nodup_listedGrowth_of_parts (hg : g.NoEmptyRule) (hd : g.Distinct) {tc : Typecode}
    {seed : Parse}
    (hparts : ∀ r : Rule, ((g.listedParts [] r.body.tail seed.rest).map (·.parts)).Nodup)
    (hgrowth : ∀ r q, (grownBy tc seed r q).rest.length < seed.rest.length →
      ((g.listedGrowth tc (grownBy tc seed r q)).map (·.formula)).Nodup) :
    ((g.listedGrowth tc seed).map (·.formula)).Nodup := by
  rw [listedGrowth_eq hg]
  apply nodup_map_flatMap ((hd.labels_nodup tc).sublist (List.filter_sublist.map _))
  · intro r hr
    obtain ⟨_, hgrow⟩ := List.mem_filter.mp hr
    apply nodup_map_flatMap (hparts r)
    · intro q hq
      have hlt : (grownBy tc seed r q).rest.length < seed.rest.length :=
        length_rest_lt_of_mem_tail hg hgrow hq
      exact nodup_cons_listedGrowth hg (hgrowth r q hlt)
    · intro q _ q' _ x hx y hy hkey
      have hchain : GrowsTo g tc (grownBy tc seed r q).formula x.formula :=
        growsTo_of_mem_cons hg hx
      have hchain' : GrowsTo g tc (grownBy tc seed r q').formula x.formula :=
        hkey ▸ growsTo_of_mem_cons hg hy
      exact (hchain.first_step hchain').2
  · intro r _ r' _ x hx y hy hkey
    obtain ⟨q, _, hx⟩ := List.mem_flatMap.mp hx
    obtain ⟨q', _, hy⟩ := List.mem_flatMap.mp hy
    have hchain : GrowsTo g tc (grownBy tc seed r q).formula x.formula :=
      growsTo_of_mem_cons hg hx
    have hchain' : GrowsTo g tc (grownBy tc seed r' q').formula x.formula :=
      hkey ▸ growsTo_of_mem_cons hg hy
    exact (hchain.first_step hchain').1

/-- The parts of a body that begins with a variable are different if those of
the variable are and, behind each, those of the rest. -/
theorem nodup_listedParts_of_first (hg : g.NoEmptyRule) {active : List Typecode} {s : Symbol}
    {tc : Typecode} {body input : List Symbol} (hs : g.variableTypecode? s = some tc)
    (hfirst : ((g.listed active tc input).map (·.formula)).Nodup)
    (hrest : ∀ p : Parse, p.rest.length < input.length →
      ((g.listedParts [] body p.rest).map (·.parts)).Nodup) :
    ((g.listedParts active (s :: body) input).map (·.parts)).Nodup := by
  rw [listedParts_variable hg hs]
  apply nodup_map_flatMap hfirst
  · intro p hp
    have hcons := (hrest p (length_rest_lt_of_mem_listed hg hp)).map
      (List.cons_injective (a := p.formula))
    simpa only [List.map_map, Function.comp_def] using hcons
  · intro p _ p' _ x hx y hy hkey
    obtain ⟨q, _, rfl⟩ := List.mem_map.mp hx
    obtain ⟨q', _, rfl⟩ := List.mem_map.mp hy
    exact (List.cons.inj hkey).1

/-- No formula is listed twice: not among the expressions of a typecode, not
among what grows from one, and not among the parts of a body. -/
theorem nodup_all (hg : g.NoEmptyRule) (hd : g.Distinct) :
    (∀ room active tc input, input.length ≤ room →
      ((g.listed active tc input).map (·.formula)).Nodup) ∧
    (∀ room tc seed, seed.rest.length ≤ room →
      ((g.listedGrowth tc seed).map (·.formula)).Nodup) ∧
    (∀ room active body input, input.length ≤ room →
      ((g.listedParts active body input).map (·.parts)).Nodup) := by
  apply parses.mutual_induct g
    (fun room active tc input => input.length ≤ room →
      ((g.listed active tc input).map (·.formula)).Nodup)
    (fun room tc seed => seed.rest.length ≤ room →
      ((g.listedGrowth tc seed).map (·.formula)).Nodup)
    (fun room active body input => input.length ≤ room →
      ((g.listedParts active body input).map (·.parts)).Nodup)
  · intro room active tc input ha _
    rw [listed_of_mem ha]
    exact List.nodup_nil
  · intro room active tc input ha hparts hgrowth hroom
    apply nodup_listed_of_growth hg hd ha
    · apply nodup_listedSeeds hd
      intro r hr
      obtain ⟨rs, hrs, _⟩ := mem_rulesOf hr
      exact hparts rs hrs r hroom
    · intro p hlt
      cases room with
      | zero => omega
      | succ room => exact hgrowth p (by omega)
  · intro room tc seed hparts hgrowth hroom
    apply nodup_listedGrowth_of_parts hg hd
    · intro r
      exact hparts r hroom
    · intro r q hlt
      cases room with
      | zero => omega
      | succ room => exact hgrowth r q (show (grownBy tc seed r q).rest.length ≤ room by omega)
  · intro room active input _
    rw [listedParts_nil]
    exact List.nodup_singleton _
  · intro room active s body hs _
    rw [listedParts_cons_nil hg]
    exact List.nodup_nil
  · intro active body s rest hs hroom
    simp at hroom
  · intro active body s rest room hs ih hroom
    rw [listedParts_constant hs]
    simp only [List.length_cons] at hroom
    exact ih (by omega)
  · intro room active s body hs t rest hne _
    rw [listedParts_constant_of_ne hs hne]
    exact List.nodup_nil
  · intro room active input s body tc hs hhead htail hroom
    apply nodup_listedParts_of_first hg hs (hhead hroom)
    intro p hlt
    cases room with
    | zero => omega
    | succ room => exact htail p (by omega)

/-- No formula is read from an input in two ways. -/
theorem nodup_listed (hg : g.NoEmptyRule) (hd : g.Distinct) (active : List Typecode)
    (tc : Typecode) (input : List Symbol) : ((g.listed active tc input).map (·.formula)).Nodup :=
  (nodup_all hg hd).1 input.length active tc input (Nat.le_refl _)

end Typeset.Grammar

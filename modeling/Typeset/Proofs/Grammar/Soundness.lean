import Typeset.Proofs.Grammar.Derivation

/-!
# What is parsed is derived

Every expression that the search lists is a derivation tree over exactly the
symbols that were consumed for it, whatever room the search was given and
whatever typecodes were active. The tree has no idle rule in it: an idle rule
would have to enter its own typecode where that is active.
-/

namespace Typeset.Grammar

variable {g : Grammar}

/-- The expressions of a typecode that are read at once, and not grown from an
expression found before. -/
def seeds (g : Grammar) (room : Nat) (active : List Typecode) (tc : Typecode)
    (input : List Symbol) : Enumeration Parse :=
  (Enumeration.ofList (g.leaf tc input)).append fun _ =>
    (Enumeration.ofList (g.rulesOf tc)).bind fun r =>
      (g.partsParses room (tc :: active) r.body input).map fun q =>
        ⟨.node r.label tc q.parts, q.rest⟩

/-- A typecode that is not active is read by its seeds, each followed by what
grows from it. -/
theorem parses_of_not_mem {active : List Typecode} {tc : Typecode} (ha : tc ∉ active)
    (room : Nat) (input : List Symbol) :
    g.parses room active tc input =
      (g.seeds room active tc input).bind fun p => .item p fun _ =>
        match room with
        | 0 => .cut
        | room + 1 => g.grown room tc p := by
  rw [parses, dif_neg ha, seeds]
  refine congrArg (fun rules => Enumeration.bind (Enumeration.append _ fun _ => rules) _) ?_
  unfold rulesOf
  split
  · rename_i hr
    rw [hr]
    rfl
  · rename_i rs hr
    rw [hr]
    rfl

/-- A seed is a variable or is built by a rule from parts that were read. -/
theorem mem_seeds {room : Nat} {active : List Typecode} {tc : Typecode} {input : List Symbol}
    {p : Parse} (h : p ∈ (g.seeds room active tc input).toList) :
    p ∈ g.leaf tc input ∨ ∃ r ∈ g.rulesOf tc,
      ∃ q ∈ (g.partsParses room (tc :: active) r.body input).toList,
        (⟨.node r.label tc q.parts, q.rest⟩ : Parse) = p := by
  rcases Enumeration.mem_of_mem_append h with hleaf | hrules
  · exact .inl (by simpa using hleaf)
  · obtain ⟨r, hr, hrules⟩ := Enumeration.mem_of_mem_bind hrules
    rw [Enumeration.toList_map] at hrules
    exact .inr ⟨r, by simpa using hr, List.mem_map.mp hrules⟩

/-- A parse at the head of an input consumes symbols that its formula is
derived from. -/
def Sound (g : Grammar) (tc : Typecode) (input : List Symbol) (p : Parse) : Prop :=
  ∃ front, input = front ++ p.rest ∧ Derives g g.busyRule tc p.formula front

/-- A parse of parts consumes symbols that the parts are derived from along
the body. -/
def SoundParts (g : Grammar) (body input : List Symbol) (q : PartsParse) : Prop :=
  ∃ front, input = front ++ q.rest ∧ DerivesParts g g.busyRule body q.parts front

/-- What a parse grows into goes on where the parse ended. -/
def SoundGrowth (g : Grammar) (tc : Typecode) (seed p : Parse) : Prop :=
  ∀ front, Derives g g.busyRule tc seed.formula front →
    ∃ more, seed.rest = more ++ p.rest ∧ Derives g g.busyRule tc p.formula (front ++ more)

/-- Growth may go on after growth. -/
theorem SoundGrowth.sound {tc : Typecode} {input : List Symbol} {seed p : Parse}
    (h : SoundGrowth g tc seed p) (hs : Sound g tc input seed) : Sound g tc input p := by
  obtain ⟨front, hinput, hderives⟩ := hs
  obtain ⟨more, hrest, hgrown⟩ := h front hderives
  exact ⟨front ++ more, by rw [hinput, hrest, List.append_assoc], hgrown⟩

/-- A variable at the head of the input is a tree by itself. -/
theorem sound_of_mem_leaf {tc : Typecode} {input : List Symbol} {p : Parse}
    (h : p ∈ g.leaf tc input) : Sound g tc input p := by
  unfold leaf at h
  split at h
  · simp at h
  · rename_i s rest
    split at h
    · rename_i v hv
      split at h
      · rename_i htc
        cases htc
        obtain rfl := List.mem_singleton.mp h
        exact ⟨[s], rfl, .leaf hv⟩
      · simp at h
    · simp at h

/-- A rule that is idle cannot be read where its own typecode is active. -/
theorem busyRule_of_mem_partsParses {room : Nat} {active : List Typecode} {tc : Typecode}
    {r : Rule} {input : List Symbol} {q : PartsParse}
    (h : q ∈ (g.partsParses room (tc :: active) r.body input).toList) : g.busyRule tc r := by
  unfold busyRule
  cases hi : g.isIdle tc r with
  | false => rfl
  | true =>
    unfold isIdle at hi
    split at hi
    · rename_i s hbody
      have hs : g.variableTypecode? s = some tc := by simpa using hi
      rw [hbody, partsParses_variable hs] at h
      obtain ⟨p, hp, _⟩ := Enumeration.mem_of_mem_bind h
      rw [parses_of_mem List.mem_cons_self] at hp
      simp [Enumeration.toList] at hp
    · simp at hi

/-- A seed is derived from what it consumed if the parts of rules are. -/
theorem sound_of_mem_seeds {room : Nat} {active : List Typecode} {tc : Typecode}
    {input : List Symbol}
    (hparts : ∀ r ∈ g.rulesOf tc,
      ∀ q ∈ (g.partsParses room (tc :: active) r.body input).toList, SoundParts g r.body input q)
    {p : Parse} (h : p ∈ (g.seeds room active tc input).toList) : Sound g tc input p := by
  rcases mem_seeds h with hleaf | ⟨r, hr, q, hq, rfl⟩
  · exact sound_of_mem_leaf hleaf
  · obtain ⟨front, hinput, hderives⟩ := hparts r hr q hq
    exact ⟨front, hinput, .rule hr (busyRule_of_mem_partsParses hq) hderives⟩

/-- The parts of a growing rule begin with the expression that it is applied
to. -/
theorem derivesParts_of_isGrowing {tc : Typecode} {r : Rule} {f : Formula} {parts : List Formula}
    {front more : List Symbol} (hr : g.isGrowing tc r = true)
    (hf : Derives g g.busyRule tc f front) (hp : DerivesParts g g.busyRule r.body.tail parts more) :
    g.busyRule tc r ∧ DerivesParts g g.busyRule r.body (f :: parts) (front ++ more) := by
  unfold isGrowing at hr
  split at hr
  · rename_i s t body hbody
    have hs : g.variableTypecode? s = some tc := by simpa using hr
    rw [hbody] at hp ⊢
    exact ⟨by simp [busyRule, isIdle, hbody], .part hs hf hp⟩
  · simp at hr

/-- Everything that the search lists is derived from what it consumed: for
expressions, for what grows from one, and for the parts of rules. -/
theorem sound_all (g : Grammar) :
    (∀ room active tc input, ∀ p ∈ (g.parses room active tc input).toList,
      Sound g tc input p) ∧
    (∀ room tc seed, ∀ p ∈ (g.grown room tc seed).toList, SoundGrowth g tc seed p) ∧
    (∀ room active body input, ∀ q ∈ (g.partsParses room active body input).toList,
      SoundParts g body input q) := by
  apply parses.mutual_induct g
    (fun room active tc input => ∀ p ∈ (g.parses room active tc input).toList,
      Sound g tc input p)
    (fun room tc seed => ∀ p ∈ (g.grown room tc seed).toList, SoundGrowth g tc seed p)
    (fun room active body input => ∀ q ∈ (g.partsParses room active body input).toList,
      SoundParts g body input q)
  · intro room active tc input ha p hp
    rw [parses_of_mem ha] at hp
    simp [Enumeration.toList] at hp
  · intro room active tc input ha hparts hgrown p hp
    rw [parses_of_not_mem ha] at hp
    obtain ⟨seed, hseed, hp⟩ := Enumeration.mem_of_mem_bind hp
    have hs : Sound g tc input seed := by
      apply sound_of_mem_seeds _ hseed
      intro r hr q hq
      obtain ⟨rs, hrs, _⟩ := mem_rulesOf hr
      exact hparts rs hrs r q hq
    rcases List.mem_cons.mp hp with rfl | hp
    · exact hs
    · cases room with
      | zero => simp [Enumeration.toList] at hp
      | succ room => exact (hgrown seed p hp).sound hs
  · intro room tc seed hparts hgrown p hp front hfront
    rw [grown] at hp
    obtain ⟨r, hr, hp⟩ := Enumeration.mem_of_mem_bind hp
    obtain ⟨q, hq, hp⟩ := Enumeration.mem_of_mem_bind hp
    rw [Enumeration.toList_ofList, List.mem_filter] at hr
    obtain ⟨more, hrest, hderives⟩ := hparts r q hq
    obtain ⟨hbusy, hbody⟩ := derivesParts_of_isGrowing hr.2 hfront hderives
    have hstep := Derives.rule hr.1 hbusy hbody
    rcases List.mem_cons.mp hp with rfl | hp
    · exact ⟨more, hrest, hstep⟩
    · cases room with
      | zero => simp [Enumeration.toList] at hp
      | succ room =>
        obtain ⟨more', hrest', hgrows⟩ := hgrown r q p hp _ hstep
        refine ⟨more ++ more', ?_, by simpa using hgrows⟩
        rw [hrest, List.append_assoc]
        exact congrArg (more ++ ·) hrest'
  · intro room active input q hq
    rw [partsParses_nil] at hq
    obtain rfl := List.mem_singleton.mp (by simpa [Enumeration.toList] using hq)
    exact ⟨[], rfl, .nil⟩
  · intro room active s body hs q hq
    rw [partsParses_constant hs] at hq
    simp [Enumeration.toList] at hq
  · intro active body s rest hs q hq
    rw [partsParses_constant hs] at hq
    simp [Enumeration.toList] at hq
  · intro active body s rest room hs ih q hq
    rw [partsParses_constant hs] at hq
    obtain ⟨front, hrest, hderives⟩ := ih q (by simpa using hq)
    exact ⟨s :: front, by rw [hrest]; rfl, .constant hs hderives⟩
  · intro room active s body hs t rest hne q hq
    rw [partsParses_constant hs] at hq
    simp [Enumeration.toList, hne] at hq
  · intro room active input s body tc hs hhead htail q hq
    rw [partsParses_variable hs] at hq
    obtain ⟨p, hp, hq⟩ := Enumeration.mem_of_mem_bind hq
    obtain ⟨front, hinput, hderives⟩ := hhead p hp
    cases room with
    | zero => simp [Enumeration.toList] at hq
    | succ room =>
      obtain ⟨q', hq', rfl⟩ := List.mem_map.mp (by simpa only [Enumeration.toList_map] using hq)
      obtain ⟨more, hrest, hparts⟩ := htail p q' hq'
      exact ⟨front ++ more, by rw [hinput, hrest, List.append_assoc], .part hs hderives hparts⟩

/-- An expression that is listed is derived from the symbols consumed for it. -/
theorem sound_of_mem_parses {room : Nat} {active : List Typecode} {tc : Typecode}
    {input : List Symbol} {p : Parse} (h : p ∈ (g.parses room active tc input).toList) :
    Sound g tc input p :=
  (sound_all g).1 room active tc input p h

/-- Parts that are listed are derived from the symbols consumed for them. -/
theorem sound_of_mem_partsParses {room : Nat} {active : List Typecode} {body input : List Symbol}
    {q : PartsParse} (h : q ∈ (g.partsParses room active body input).toList) :
    SoundParts g body input q :=
  (sound_all g).2.2 room active body input q h

/-- The formula that is read from symbols is derived from all of them. -/
theorem derives_of_read? {tc : Typecode} {symbols : List Symbol} {f : Formula}
    (h : g.read? tc symbols = some f) : Derives g g.busyRule tc f symbols := by
  unfold read? at h
  obtain ⟨p, hp, rfl⟩ := Option.map_eq_some_iff.mp h
  rw [Enumeration.find?_eq_find?_toList] at hp
  obtain ⟨front, hsymbols, hderives⟩ := sound_of_mem_parses (List.mem_of_find?_eq_some hp)
  have hrest : p.rest = [] := by simpa using List.find?_some hp
  rw [hsymbols, hrest, List.append_nil]
  exact hderives

end Typeset.Grammar
